/-
# Tablature.Proofs.Growing — a score only grows.

Every event works on the last stave and on its voice in progress, through places that it remembers:
the anchor of a bend, the last objects of a tuplet, the places that annotations are counted to. This
module says what these can reach. An event other than a reset adds to the voices in progress of the
active stave, and alters what stands there only as `Tickable.Altered` allows; it may end them, and
rendering ends those of all staves; no finished voice, no other stave and no link is ever touched
(`Event.Preserves`). So the finished voices and the links that a session has once are the first ones
of every session after it (`Score.KeepsFinished`). Nothing of this depends on how the session came
about: a place that is out of date lies in the voice in progress as well.
-/
import Tablature.Proofs.Anchors
import Tablature.Proofs.Marking

namespace Tablature

/-! ## Objects -/

namespace Tickable

/-- What an event may make of an object of a voice in progress. The object stays what it is; marks
are added after those that it has, its time may be multiplied by the factor of the event, and a note
on tablature may be hidden. -/
inductive Altered (factor : Ticks) : Tickable → Tickable → Prop
  | tab (n : TabNote) (hidden scaled : Bool) (added : List Attached) :
      Altered factor (.tab n) (.tab
        { n with
          ghost := n.ghost || hidden
          multiplier := if scaled then n.multiplier * factor else n.multiplier
          modifiers := n.modifiers ++ added })
  | staff (n : StaffNote) (scaled : Bool) (added : List Attached) :
      Altered factor (.staff n) (.staff
        { n with
          multiplier := if scaled then n.multiplier * factor else n.multiplier
          modifiers := n.modifiers ++ added })
  | bar (type : BarType) : Altered factor (.bar type) (.bar type)
  | spacer (duration : Duration) (multiplier : Ticks) (scaled : Bool) :
      Altered factor (.spacer duration multiplier)
        (.spacer duration (if scaled then multiplier * factor else multiplier))
  | text (n : TextNote) (scaled : Bool) :
      Altered factor (.text n)
        (.text { n with multiplier := if scaled then n.multiplier * factor else n.multiplier })

namespace Altered

variable {factor : Ticks} {t u : Tickable}

theorem refl (t : Tickable) : Altered factor t t := by
  cases t with
  | tab n => simpa using @Altered.tab factor n false false []
  | staff n => simpa using @Altered.staff factor n false []
  | bar type => exact .bar type
  | spacer duration multiplier => exact .spacer duration multiplier false
  | text n => exact .text n false

theorem mark (h : Altered factor t u) (index : Nat) (m : Modifier) :
    Altered factor t (u.mark index m) := by
  cases h with
  | tab n hidden scaled added =>
      simpa [Tickable.mark] using
        @Altered.tab factor n hidden scaled (added ++ [⟨index, m⟩])
  | staff n scaled added =>
      simpa [Tickable.mark] using @Altered.staff factor n scaled (added ++ [⟨index, m⟩])
  | bar type => exact .bar type
  | spacer duration multiplier scaled => exact .spacer duration multiplier scaled
  | text n scaled => exact .text n scaled

theorem hide (h : Altered factor t u) : Altered factor t u.hide := by
  cases h with
  | tab n hidden scaled added =>
      simpa [Tickable.hide] using @Altered.tab factor n true scaled added
  | staff n scaled added => exact .staff n scaled added
  | bar type => exact .bar type
  | spacer duration multiplier scaled => exact .spacer duration multiplier scaled
  | text n scaled => exact .text n scaled

theorem of_dressed (h : Dressed t u) : Altered factor t u := by
  induction h with
  | refl => exact refl t
  | mark index m _ ih => exact ih.mark index m
  | hide _ ih => exact ih.hide

theorem scaleTicks (t : Tickable) : Altered factor t (t.scaleTicks factor) := by
  cases t with
  | tab n => simpa [Tickable.scaleTicks] using @Altered.tab factor n false true []
  | staff n => simpa [Tickable.scaleTicks] using @Altered.staff factor n true []
  | bar type => exact .bar type
  | spacer duration multiplier => exact .spacer duration multiplier true
  | text n => exact .text n true

end Altered

end Tickable

/-! ## Voices and staves -/

/-- One voice grows into another: what was there is there, in its order and related object by
object, and everything new comes after it. -/
def Grows (R : Tickable → Tickable → Prop) (xs ys : List Tickable) : Prop :=
  ∃ kept added, ys = kept ++ added ∧ List.Forall₂ R xs kept

namespace Grows

variable {R S : Tickable → Tickable → Prop} {xs ys zs : List Tickable}

theorem of_forall₂ (h : List.Forall₂ R xs ys) : Grows R xs ys := ⟨ys, [], by simp, h⟩

theorem refl (hrefl : ∀ t, R t t) (xs : List Tickable) : Grows R xs xs :=
  of_forall₂ (List.forall₂_same.2 fun t _ => hrefl t)

theorem push (hrefl : ∀ t, R t t) (xs : List Tickable) (t : Tickable) : Grows R xs (xs ++ [t]) :=
  ⟨xs, [t], rfl, List.forall₂_same.2 fun t _ => hrefl t⟩

theorem trans (htrans : ∀ t u v, R t u → R u v → R t v) (h : Grows R xs ys) (h' : Grows R ys zs) :
    Grows R xs zs := by
  obtain ⟨kept, added, rfl, hkept⟩ := h
  obtain ⟨kept', added', rfl, hkept'⟩ := h'
  -- What was kept first is the start of what is kept in the end.
  have hstart := List.forall₂_take kept.length hkept'
  rw [List.take_left] at hstart
  refine ⟨kept'.take kept.length, kept'.drop kept.length ++ added', ?_,
    forall₂_comp hkept hstart htrans⟩
  rw [← List.append_assoc, List.take_append_drop]

theorem mono (h : Grows R xs ys) (hRS : ∀ t u, R t u → S t u) : Grows S xs ys := by
  obtain ⟨kept, added, heq, hkept⟩ := h
  exact ⟨kept, added, heq, hkept.imp hRS⟩

end Grows

/-- Text voices stay, and new ones come last; only the last of them gets longer. -/
def TextsGrow (before after : List (List TextNote)) : Prop :=
  ∀ (i : Nat) voice, before[i]? = some voice →
    ∃ added, after[i]? = some (voice ++ added) ∧ (added = [] ∨ i + 1 = before.length)

namespace TextsGrow

theorem refl (voices : List (List TextNote)) : TextsGrow voices voices :=
  fun _ voice hvoice => ⟨[], by rw [List.append_nil, hvoice], .inl rfl⟩

theorem length_le {a b : List (List TextNote)} (h : TextsGrow a b) : a.length ≤ b.length := by
  by_contra hlt
  obtain ⟨added, hadded, -⟩ := h b.length _ (List.getElem?_eq_getElem (by omega))
  simp at hadded

theorem trans {a b c : List (List TextNote)} (h : TextsGrow a b) (h' : TextsGrow b c) :
    TextsGrow a c := by
  intro i voice hvoice
  obtain ⟨added, hadded, hlast⟩ := h i voice hvoice
  obtain ⟨added', hadded', hlast'⟩ := h' i _ hadded
  refine ⟨added ++ added', by rw [hadded', List.append_assoc], ?_⟩
  -- A voice that is not the last one of the first list is not the last one of the second.
  by_cases hi : i + 1 = a.length
  · exact .inr hi
  · have hlt := (List.getElem?_eq_some_iff.1 hvoice).1
    have hle := h.length_le
    refine .inl ?_
    rw [hlast.resolve_right hi, hlast'.resolve_right (by omega), List.append_nil]

theorem addVoice (voices : List (List TextNote)) : TextsGrow voices (voices ++ [[]]) := by
  intro i voice hvoice
  have hlt := (List.getElem?_eq_some_iff.1 hvoice).1
  exact ⟨[], by rw [List.getElem?_append_left hlt, List.append_nil, hvoice], .inl rfl⟩

theorem appendText (note : TextNote) (voices : List (List TextNote)) :
    TextsGrow voices (Session.appendText note voices) := by
  intro i voice hvoice
  have hlt := (List.getElem?_eq_some_iff.1 hvoice).1
  rw [Session.appendText, List.getElem?_modify, hvoice]
  by_cases hlast : voices.length - 1 = i
  · exact ⟨[note], by simp [hlast], .inr (by omega)⟩
  · exact ⟨[], by simp [hlast], .inl rfl⟩

end TextsGrow

/-- A stave after an event that leaves its voices in progress open: these have grown, and so have
the texts; the views and the finished voices are as they were. -/
structure Stave.Grows (R : Tickable → Tickable → Prop) (a b : Stave) : Prop where
  frame : b =
    { a with tabNotes := b.tabNotes, staffNotes := b.staffNotes, textVoices := b.textVoices }
  tabNotes : Tablature.Grows R a.tabNotes b.tabNotes
  staffNotes : Tablature.Grows R a.staffNotes b.staffNotes
  texts : TextsGrow a.textVoices b.textVoices

namespace Stave.Grows

variable {R S : Tickable → Tickable → Prop} {a b c : Stave}

theorem refl (hrefl : ∀ t, R t t) (a : Stave) : a.Grows R a :=
  ⟨rfl, .refl hrefl _, .refl hrefl _, .refl _⟩

theorem trans (htrans : ∀ t u v, R t u → R u v → R t v) (h : a.Grows R b) (h' : b.Grows R c) :
    a.Grows R c where
  frame := by rw [h'.frame, h.frame]
  tabNotes := h.tabNotes.trans htrans h'.tabNotes
  staffNotes := h.staffNotes.trans htrans h'.staffNotes
  texts := h.texts.trans h'.texts

theorem mono (h : a.Grows R b) (hRS : ∀ t u, R t u → S t u) : a.Grows S b :=
  ⟨h.frame, h.tabNotes.mono hRS, h.staffNotes.mono hRS, h.texts⟩

theorem push (hrefl : ∀ t, R t t) (a : Stave) (onTab onStaff : Tickable) :
    a.Grows R (a.push onTab onStaff) := by
  refine ⟨rfl, .push hrefl _ _, ?_, .refl _⟩
  unfold Stave.push
  dsimp only
  split
  · exact .push hrefl _ _
  · exact .refl hrefl _

theorem scale (a : Stave) (count : Nat) (factor : Ticks) :
    a.Grows (Tickable.Altered factor)
      { a with
        tabNotes := Session.scaleLast count factor a.tabNotes
        staffNotes := Session.scaleLast count factor a.staffNotes } := by
  have scaled (notes : List Tickable) : List.Forall₂ (Tickable.Altered factor) notes
      (Session.scaleLast count factor notes) := by
    refine forall₂_take_append Tickable.Altered.refl ?_
    rw [List.forall₂_map_right_iff]
    exact List.forall₂_same.2 fun t _ => .scaleTicks t
  exact ⟨rfl, .of_forall₂ (scaled _), .of_forall₂ (scaled _), .refl _⟩

theorem of_marked (h : a.Marked b) : a.Grows Tickable.Dressed b where
  frame := by rw [h.frame]
  tabNotes := .of_forall₂ h.tabNotes
  staffNotes := .of_forall₂ (h.staffNotes.imp fun _ _ => .of_marks)
  texts := by
    rw [h.frame]
    exact .refl _

end Stave.Grows

/-! ## Sessions -/

namespace Session

/-- Links are only added, and after those that there are. -/
structure LinksGrow (s t : Session) : Prop where
  tab : s.score.tabLinks <+: t.score.tabLinks
  staff : s.score.staffLinks <+: t.score.staffLinks

namespace LinksGrow

variable {s t u : Session}

theorem of_eq (htab : t.score.tabLinks = s.score.tabLinks)
    (hstaff : t.score.staffLinks = s.score.staffLinks) : s.LinksGrow t :=
  ⟨htab ▸ List.prefix_rfl, hstaff ▸ List.prefix_rfl⟩

theorem refl (s : Session) : s.LinksGrow s := of_eq rfl rfl

theorem trans (h : s.LinksGrow t) (h' : t.LinksGrow u) : s.LinksGrow u :=
  ⟨h.tab.trans h'.tab, h.staff.trans h'.staff⟩

end LinksGrow

/-- A session after an event that opens no stave and ends no voice: the active stave has grown, new
links come last, and no other stave has changed. -/
structure Grows (R : Tickable → Tickable → Prop) (s t : Session) : Prop where
  earlier : t.score.earlier = s.score.earlier
  active : Option.Rel (Stave.Grows R) s.score.active t.score.active
  links : s.LinksGrow t

namespace Grows

variable {R S : Tickable → Tickable → Prop} {s t u : Session}

theorem refl (hrefl : ∀ t, R t t) (s : Session) : s.Grows R s := by
  refine ⟨rfl, ?_, .refl s⟩
  cases s.score.active with
  | none => exact .none
  | some a => exact .some (.refl hrefl a)

theorem trans (htrans : ∀ t u v, R t u → R u v → R t v) (h : s.Grows R t) (h' : t.Grows R u) :
    s.Grows R u where
  earlier := h'.earlier.trans h.earlier
  active := by
    have hactive := h.active
    have hactive' := h'.active
    generalize s.score.active = a at hactive ⊢
    generalize t.score.active = b at hactive hactive'
    generalize u.score.active = c at hactive' ⊢
    cases hactive with
    | none =>
        cases hactive'
        exact .none
    | some hab =>
        cases hactive' with
        | some hbc => exact .some (hab.trans htrans hbc)
  links := h.links.trans h'.links

/-- What leaves the staves alone adds to what has been done before. -/
theorem beside (h : s.Grows R t) (hearlier : u.score.earlier = t.score.earlier)
    (hactive : u.score.active = t.score.active) (hlinks : t.LinksGrow u) : s.Grows R u where
  earlier := hearlier.trans h.earlier
  active := hactive ▸ h.active
  links := h.links.trans hlinks

theorem mono (h : s.Grows R t) (hRS : ∀ t u, R t u → S t u) : s.Grows S t := by
  refine ⟨h.earlier, ?_, h.links⟩
  have hactive := h.active
  generalize s.score.active = a at hactive ⊢
  generalize t.score.active = b at hactive ⊢
  cases hactive with
  | none => exact .none
  | some hab => exact .some (hab.mono hRS)

theorem active_of_some (h : s.Grows R t) {a : Stave} (ha : s.score.active = some a) :
    ∃ b, t.score.active = some b ∧ a.Grows R b := by
  have hactive := h.active
  rw [ha] at hactive
  generalize t.score.active = x at hactive
  cases hactive with
  | some hab => exact ⟨_, rfl, hab⟩

end Grows

/-- What events other than tuplets do: objects gain marks or are hidden, and none is scaled. -/
abbrev Adds (s t : Session) : Prop := s.Grows Tickable.Dressed t

namespace Adds

variable {s t u : Session}

theorem refl (s : Session) : s.Adds s := Grows.refl (fun _ => .refl) s

theorem trans (h : s.Adds t) (h' : t.Adds u) : s.Adds u := Grows.trans (fun _ _ _ => .trans) h h'

/-- Marking adds marks, and maybe links. -/
theorem of_marked (h : s.Marked t) (hlinks : s.LinksGrow t) : s.Adds t := by
  refine ⟨h.earlier, ?_, hlinks⟩
  have hactive := h.active
  generalize s.score.active = a at hactive ⊢
  generalize t.score.active = b at hactive ⊢
  cases hactive with
  | none => exact .none
  | some hab => exact .some (.of_marked hab)

/-- A change of what is not written. -/
theorem quiet (h : Quiet s t) : s.Adds t :=
  (refl s).beside h.earlier h.active (.of_eq h.tabLinks h.staffLinks)

theorem onActive {f : Stave → Stave} (h : ∀ a : Stave, a.Grows Tickable.Dressed (f a)) :
    s.Adds (s.onActive f) := by
  refine ⟨rfl, ?_, .of_eq rfl rfl⟩
  simp only [Session.onActive, Score.onActive]
  cases s.score.active with
  | none => exact .none
  | some a => exact .some (h a)

theorem push (onTab onStaff : Tickable) : s.Adds (s.onActive (·.push onTab onStaff)) :=
  onActive fun a => .push (fun _ => .refl) a onTab onStaff

theorem texts {f : List (List TextNote) → List (List TextNote)}
    (h : ∀ voices, TextsGrow voices (f voices)) :
    s.Adds (s.onActive fun a => { a with textVoices := f a.textVoices }) :=
  onActive fun _ => ⟨rfl, .refl (fun _ => .refl) _, .refl (fun _ => .refl) _, h _⟩

theorem andThen {o : Outcome Cause Session} {next : Session → Outcome Cause Session}
    (first : s.Adds o.state) (second : o.state.Adds (next o.state).state) :
    s.Adds (o.andThen next).state :=
  Outcome.andThen_related (R := Adds) trans first second

theorem needing {α : Type} {value : Except Cause α} {next : α → Outcome Cause Session}
    (h : ∀ a, s.Adds (next a).state) : s.Adds (Outcome.needing value s next).state :=
  Outcome.needing_related (R := Adds) refl fun a _ => h a

theorem withStave {next : Stave → Outcome Cause Session} (h : ∀ a, s.Adds (next a).state) :
    s.Adds (s.withStave next).state := by
  unfold Session.withStave
  split
  · exact h _
  · exact refl s

end Adds

/-! ## Links -/

variable {s : Session}

namespace LinksGrow

theorem articulateTab (a : Stave) (tag : Articulation) (span : Span) :
    s.LinksGrow (s.articulateTab a tag span) := by
  have drawn (link : TabLink) : s.LinksGrow (s.addTabLink link) :=
    ⟨List.prefix_append _ _, List.prefix_rfl⟩
  cases tag with
  | slide => exact drawn _
  | hammerOn => exact drawn _
  | pullOff => exact drawn _
  | tap => exact drawn _
  | tapTie => exact drawn _
  | bend =>
      have hscore : (s.articulateTab a .bend span).score = s.score := score_openBends _ _ _
      exact of_eq (congrArg Score.tabLinks hscore) (congrArg Score.staffLinks hscore)
  | vibrato => exact refl s
  | harshVibrato => exact refl s

theorem linkSpan (a : Stave) (tag : Articulation) (span : Option Span) :
    s.LinksGrow (s.linkSpan a tag span) := by
  have onTab (span : Span) :
      s.LinksGrow (if a.tab.isSome then s.articulateTab a tag span else s) := by
    split
    · exact articulateTab a tag span
    · exact refl s
  cases span with
  | none => exact refl s
  | some span =>
      simp only [Session.linkSpan]
      split
      · exact refl s
      · split
        · exact (onTab span).trans ⟨List.prefix_rfl, List.prefix_append _ _⟩
        · exact onTab span

theorem articulate (a : Stave) (tag : Articulation) (indices : List Nat) :
    s.LinksGrow (s.articulate a tag indices) := by
  cases tag with
  | vibrato => exact of_eq rfl rfl
  | harshVibrato => exact of_eq rfl rfl
  | tap =>
      have marked : s.LinksGrow (s.markLastTab 0 s.tapCaption) := of_eq rfl rfl
      simp only [Session.articulate]
      split
      · exact marked.trans (linkSpan a .tap _)
      · exact linkSpan a .tap _
  | slide => exact linkSpan a _ _
  | hammerOn => exact linkSpan a _ _
  | pullOff => exact linkSpan a _ _
  | tapTie => exact linkSpan a _ _
  | bend => exact linkSpan a _ _

theorem closeBends (through : Bool) : s.LinksGrow (s.closeBends through) := by
  unfold Session.closeBends
  split <;> exact of_eq rfl rfl

theorem applyTags (tags : List (Option Articulation)) : s.LinksGrow (s.applyTags tags) := by
  have tagged (t : Session) (tag : Articulation) : t.LinksGrow (articulateTagged tags t tag) := by
    simp only [articulateTagged]
    split
    · exact articulate _ tag _
    · exact refl t
  have folded (all : List Articulation) (t : Session) :
      t.LinksGrow (all.foldl (articulateTagged tags) t) := by
    induction all generalizing t with
    | nil => exact refl t
    | cons tag all ih => exact (tagged t tag).trans (ih _)
  simp only [Session.applyTags]
  split
  · exact closeBends false
  · split
    · exact folded _ s
    · exact (folded _ s).trans (closeBends false)

end LinksGrow

/-! ## Operations -/

theorem adds_closeBends (through : Bool) : s.Adds (s.closeBends through) :=
  .of_marked (marked_closeBends through) (.closeBends through)

theorem adds_applyTags (tags : List (Option Articulation)) : s.Adds (s.applyTags tags) :=
  .of_marked (marked_applyTags tags) (.applyTags tags)

theorem adds_decorate (decorator : Decorator) : s.Adds (s.decorate decorator) := by
  refine .of_marked (marked_decorate decorator) ?_
  cases decorator <;> exact .of_eq rfl rfl

theorem adds_decorateWith (decorator : Option Decorator) : s.Adds (s.decorateWith decorator) := by
  cases decorator with
  | none => exact .refl s
  | some decorator => exact adds_decorate decorator

theorem adds_setOptions (entries : List (String × String)) :
    s.Adds (s.setOptions entries).state := by
  have each (entry : String × String) (t : Session) : t.Adds (setOption entry t).state :=
    .needing fun settings => .quiet (quiet_withSettings settings)
  refine .andThen (Outcome.forEach_related (R := Adds) .refl .trans each entries s) ?_
  exact .quiet ⟨rfl, rfl, rfl, rfl, rfl, rfl⟩

theorem adds_setDuration (time : String) (dot : Bool) : s.Adds (s.setDuration time dot).state :=
  .needing fun _ => .quiet ⟨rfl, rfl, rfl, rfl, rfl, rfl⟩

theorem adds_runCommand (line : String) : s.Adds (s.runCommand line).state := by
  simp only [runCommand]
  split
  · split
    · exact .quiet ⟨rfl, rfl, rfl, rfl, rfl, rfl⟩
    · exact .refl s
  · exact .refl s

theorem adds_addBar (type : BarType) : s.Adds (s.addBar type).state := by
  refine .andThen ((adds_closeBends true).trans (.quiet quiet_resetMemory)) ?_
  exact .withStave fun _ => .push _ _

theorem adds_addRest (position : Int) : s.Adds (s.addRest position).state :=
  (adds_closeBends true).trans (.needing fun _ => .withStave fun _ => .push _ _)

theorem adds_emit (entries : List ResolvedEntry) : s.Adds (s.emit entries) :=
  ((Adds.push _ _).trans (adds_applyTags _)).trans (adds_decorateWith _)

theorem adds_foldl_emit (slots : List (List ResolvedEntry)) : s.Adds (slots.foldl emit s) := by
  induction slots generalizing s with
  | nil => exact .refl s
  | cons slot slots ih => exact (adds_emit slot).trans ih

theorem adds_writeChord (chord : List NoteEntry) (entries : List ResolvedEntry)
    (articulation : Option Articulation) (decorator : Option Decorator) :
    s.Adds (s.writeChord chord entries articulation decorator) := by
  have tagged (t : Session) : t.Adds (t.applyChordTag chord.length articulation) := by
    cases articulation with
    | none => exact .refl t
    | some tag => exact adds_applyTags _
  exact ((adds_foldl_emit _).trans (tagged _)).trans (adds_decorateWith decorator)

theorem adds_addChord (chord : List NoteEntry) (articulation : Option Articulation)
    (decorator : Option Decorator) : s.Adds (s.addChord chord articulation decorator).state := by
  have remembered (memory : SpellingMemory) : s.Adds { s with memory := memory } :=
    .quiet ⟨rfl, rfl, rfl, rfl, rfl, rfl⟩
  unfold addChord
  split
  · exact .refl s
  · refine .withStave fun _ => ?_
    split
    · exact remembered _
    · exact (remembered _).trans (adds_writeChord chord _ articulation decorator)

theorem adds_addAnnotations (tokens : List String) : s.Adds (s.addAnnotations tokens).state := by
  have texts (t : Session) (a : Stave) (placed : List PlacedToken) (side : Side) :
      t.Adds (t.annotateTexts a placed side).state := by
    refine .of_marked (marked_annotateTexts a placed side) ?_
    unfold annotateTexts
    split
    · exact .of_eq rfl rfl
    · split <;> exact .of_eq rfl rfl
  have onStaff (t : Session) (a : Stave) (placed : List PlacedToken) :
      t.Adds (annotateStaff a placed t).state := by
    refine .of_marked (marked_annotateStaff a placed) ?_
    unfold annotateStaff
    split
    · exact .refl t
    · split <;> exact .of_eq rfl rfl
  refine .needing fun markups => .withStave fun a => ?_
  split
  · exact .refl s
  · exact .andThen (texts s a _ _) (onStaff _ a _)

theorem adds_addTextVoice : s.Adds s.addTextVoice.state :=
  .withStave fun _ => .texts .addVoice

theorem adds_setTextFont (spec : String) : s.Adds (s.setTextFont spec).state := by
  refine .needing fun font => ?_
  cases font with
  | none => exact .refl s
  | some font => exact .quiet (quiet_withSettings _)

theorem adds_addTextNote (text : String) (style : TextStyle) :
    s.Adds (s.addTextNote text style).state := by
  refine .withStave fun _ => ?_
  split
  · exact .refl s
  · exact .texts (.appendText _)

/-- A tuplet scales the last objects of both voices in progress. -/
theorem grows_bracket {a : Stave} (ha : s.score.active = some a) (tuplets count : Nat) :
    s.Grows (Tickable.Altered ((tupletOccupies : Ticks) / (tuplets : Ticks)))
      (s.bracket a tuplets count) := by
  let factor : Ticks := (tupletOccupies : Ticks) / (tuplets : Ticks)
  let b : Stave := { a with
    tabNotes := scaleLast count factor a.tabNotes
    staffNotes := scaleLast count factor a.staffNotes }
  let scaled := (s.onTabNotes (scaleLast count factor)).onStaffNotes (scaleLast count factor)
  have hscaled : scaled = { s with score := { s.score with active := some b } } := by
    simp only [scaled, onStaffNotes, onTabNotes_eq ha]
    rfl
  have hgrows : s.Grows (Tickable.Altered factor) scaled := by
    rw [hscaled]
    refine ⟨rfl, ?_, .of_eq rfl rfl⟩
    rw [ha]
    exact .some (.scale a count factor)
  -- The brackets are links, on the staff first and then on tablature.
  simp only [bracket]
  split <;> split
  · exact hgrows.beside rfl rfl ⟨List.prefix_append _ _, List.prefix_append _ _⟩
  · exact hgrows.beside rfl rfl ⟨List.prefix_append _ _, List.prefix_rfl⟩
  · exact hgrows.beside rfl rfl ⟨List.prefix_rfl, List.prefix_append _ _⟩
  · exact hgrows

theorem grows_makeTuplets (tuplets : Nat) (notes : Option Nat) :
    s.Grows (Tickable.Altered ((tupletOccupies : Ticks) / (tuplets : Ticks)))
      (s.makeTuplets tuplets notes).state := by
  have same : s.Grows (Tickable.Altered ((tupletOccupies : Ticks) / (tuplets : Ticks))) s :=
    .refl .refl s
  simp only [makeTuplets]
  split
  · exact same
  · simp only [withStave]
    split
    · rename_i a ha
      split
      · exact same
      · exact grows_bracket ha tuplets _
    · exact same

theorem adds_handle {event : Event} (hreset : event ≠ .reset) (hstave : ∀ d, event ≠ .stave d)
    (hvoice : ∀ d, event ≠ .voice d) (hrender : event ≠ .render)
    (htuplet : ∀ tuplets notes, event ≠ .tuplet tuplets notes) : s.Adds (s.handle event).state := by
  cases event with
  | options entries => exact adds_setOptions entries
  | duration time dot => exact adds_setDuration time dot
  | stave declaration => exact absurd rfl (hstave declaration)
  | voice declaration => exact absurd rfl (hvoice declaration)
  | bar type => exact adds_addBar type
  | rest position => exact adds_addRest position
  | chord entries articulation decorator => exact adds_addChord entries articulation decorator
  | note entry => exact adds_addChord [entry] none none
  | articulations tags => exact .withStave fun _ => adds_applyTags tags
  | decorator decorator => exact .withStave fun _ => adds_decorate decorator
  | annotations tokens => exact adds_addAnnotations tokens
  | tuplet tuplets notes => exact absurd rfl (htuplet tuplets notes)
  | command line => exact adds_runCommand line
  | textVoice => exact adds_addTextVoice
  | textFont spec => exact adds_setTextFont spec
  | text text style => exact adds_addTextNote text style
  | fret fret string =>
      have quiet := quiet_resolveFret (s := s) fret string
      simp only [handle]
      split <;> rename_i heq <;> rw [heq] at quiet <;> exact .quiet quiet
  | render => exact absurd rfl hrender
  | reset => exact absurd rfl hreset

end Session

/-! ## Events -/

/-- A voice without the bar that it may end with. -/
def withoutEndBar (voice : List Tickable) : List Tickable :=
  if (endBar? voice).isSome then voice.dropLast else voice

/-- A stave with its voices in progress ended, a bar at the end of each taken off first and made the
end bar of its view. -/
def Stave.ended (a : Stave) : Stave :=
  { a with
    tab := a.tab.map fun v => { v with endBar := (endBar? a.tabNotes).or v.endBar }
    staff := a.staff.map fun v => { v with endBar := (endBar? a.staffNotes).or v.endBar }
    tabVoices := withVoice a.tabVoices (withoutEndBar a.tabNotes)
    staffVoices := withVoice a.staffVoices (withoutEndBar a.staffNotes)
    tabNotes := []
    staffNotes := [] }

theorem Stave.finish_eq_ended (a : Stave) : a.finish = a.ended := by
  have htab : a.finishTab =
      { a with
        tab := a.tab.map fun v => { v with endBar := (endBar? a.tabNotes).or v.endBar }
        tabNotes := withoutEndBar a.tabNotes } := by
    unfold finishTab withoutEndBar
    cases endBar? a.tabNotes <;> simp
  have hstaff (b : Stave) : b.finishStaff =
      { b with
        staff := b.staff.map fun v => { v with endBar := (endBar? b.staffNotes).or v.endBar }
        staffNotes := withoutEndBar b.staffNotes } := by
    unfold finishStaff withoutEndBar
    cases endBar? b.staffNotes <;> simp
  rw [finish, hstaff, htab]
  rfl

namespace Event

/-- The factor by which an event multiplies the time of objects. -/
def factor : Event → Ticks
  | .tuplet tuplets _ => (Session.tupletOccupies : Ticks) / (tuplets : Ticks)
  | _ => 1

/-- What an event may leave of the active stave. Its voices in progress have grown, or they are
ended without anything having been added. -/
inductive Leaves : Event → Stave → Stave → Prop
  | inProgress {event : Event} {a b : Stave} (h : a.Grows (Tickable.Altered event.factor) b) :
      Leaves event a b
  | voice (declaration : StaveDeclaration) {a b : Stave} (h : a.Grows (Tickable.Altered 1) b)
      (htab : b.tabNotes.length = a.tabNotes.length)
      (hstaff : b.staffNotes.length = a.staffNotes.length) :
      Leaves (.voice declaration) a b.closeVoice
  | render {a b : Stave} (h : a.Grows (Tickable.Altered 1) b)
      (htab : b.tabNotes.length = a.tabNotes.length)
      (hstaff : b.staffNotes.length = a.staffNotes.length) :
      Leaves .render a b.ended

/-- What an event leaves of a session: links and staves keep their numbers, those that there were
come first; a stave that was not active is as it was, unless rendering has ended its voices; and of
the active stave there is what `Leaves` says. -/
structure Preserves (event : Event) (s t : Session) : Prop where
  links : s.LinksGrow t
  earlier : ∀ (i : Nat) a, s.score.earlier[i]? = some a →
    ∃ b, t.score.staves[i]? = some b ∧ (b = a ∨ (event = .render ∧ b = a.ended))
  active : ∀ a, s.score.active = some a →
    ∃ b, t.score.staves[s.score.earlier.length]? = some b ∧ event.Leaves a b

namespace Preserves

variable {event : Event} {s t u : Session}

theorem staves_of_prefix {i : Nat} {a : Stave} (h : u.score.staves <+: t.score.staves)
    (ha : u.score.staves[i]? = some a) : t.score.staves[i]? = some a := by
  obtain ⟨rest, heq⟩ := h
  rw [← heq, List.getElem?_append_left (List.getElem?_eq_some_iff.1 ha).1, ha]

/-- The session has grown, and after that staves may have been opened. -/
theorem of_grows (h : s.Grows (Tickable.Altered event.factor) u) (hlinks : u.LinksGrow t)
    (hstaves : u.score.staves <+: t.score.staves) : event.Preserves s t where
  links := h.links.trans hlinks
  earlier := by
    intro i a ha
    rw [← h.earlier] at ha
    exact ⟨a, staves_of_prefix hstaves (Score.staves_eq_some.2 (.inl ha)), .inl rfl⟩
  active := by
    intro a ha
    obtain ⟨b, hb, hab⟩ := h.active_of_some ha
    rw [← h.earlier]
    exact ⟨b, staves_of_prefix hstaves (Score.staves_eq_some.2 (.inr ⟨rfl, hb⟩)), .inProgress hab⟩

theorem of_adds (h : s.Adds t) : event.Preserves s t :=
  of_grows (h.mono fun _ _ => .of_dressed) (.refl t) List.prefix_rfl

/-- The end of a bend changes no more than marks and ghosts. -/
theorem closed {a : Stave} (ha : s.score.active = some a) (through : Bool) :
    ∃ b, (s.closeBends through).score.active = some b ∧ a.Grows (Tickable.Altered 1) b ∧
      b.tabNotes.length = a.tabNotes.length ∧ b.staffNotes.length = a.staffNotes.length := by
  have hmarked := (s.marked_closeBends through).active
  rw [ha] at hmarked
  generalize (s.closeBends through).score.active = x at hmarked ⊢
  cases hmarked with
  | some hab =>
      exact ⟨_, rfl, (Stave.Grows.of_marked hab).mono fun _ _ => .of_dressed,
        hab.tabNotes.length_eq.symm, hab.staffNotes.length_eq.symm⟩

theorem addStave (d : StaveDeclaration) : event.Preserves s (s.addStave d).state := by
  have hplaced : (s.closeBends true).score.staves <+:
        ((s.closeBends true).placeStave d).score.staves ∧
      (s.closeBends true).LinksGrow ((s.closeBends true).placeStave d) := by
    unfold Session.placeStave
    cases d.staff <;> cases d.tablature <;>
      exact ⟨List.prefix_append _ _, .of_eq rfl rfl⟩
  have hclosed := Session.adds_closeBends (s := s) true
  -- The key that the spelling memory starts from is not written.
  exact of_grows (hclosed.mono fun _ _ => .of_dressed)
    (hplaced.2.trans (.of_eq rfl rfl)) hplaced.1

theorem addVoice (d : StaveDeclaration) : (Event.voice d).Preserves s (s.addVoice d).state := by
  unfold Session.addVoice
  split
  · exact addStave d
  · rename_i a ha
    have hclosed := Session.adds_closeBends (s := s) true
    refine ⟨hclosed.links.trans (.of_eq rfl rfl), ?_, ?_⟩
    · intro i c hc
      rw [← hclosed.earlier] at hc
      exact ⟨c, Score.staves_eq_some.2 (.inl hc), .inl rfl⟩
    · intro c hc
      rw [ha] at hc
      cases hc
      obtain ⟨b, hb, hgrows, htab, hstaff⟩ := closed ha true
      refine ⟨b.closeVoice, ?_, .voice d hgrows htab hstaff⟩
      show ((s.closeBends true).onActive Stave.closeVoice).score.staves[_]? = _
      rw [Session.onActive_eq hb, ← hclosed.earlier]
      exact Score.staves_eq_some.2 (.inr ⟨rfl, rfl⟩)

theorem render : Event.render.Preserves s s.render.1 := by
  have hclosed := Session.adds_closeBends (s := s) true
  have hstaves : s.render.1.score.staves = (s.closeBends true).score.staves.map Stave.finish :=
    Score.staves_onEvery _ _
  refine ⟨hclosed.links.trans (.of_eq rfl rfl), ?_, ?_⟩
  · intro i a ha
    rw [← hclosed.earlier] at ha
    refine ⟨a.ended, ?_, .inr ⟨rfl, rfl⟩⟩
    rw [hstaves, List.getElem?_map, Score.staves_eq_some.2 (.inl ha), Option.map_some,
      Stave.finish_eq_ended]
  · intro a ha
    obtain ⟨b, hb, hgrows, htab, hstaff⟩ := closed ha true
    refine ⟨b.ended, ?_, .render hgrows htab hstaff⟩
    rw [← hclosed.earlier, hstaves, List.getElem?_map, Score.staves_eq_some.2 (.inr ⟨rfl, hb⟩),
      Option.map_some, Stave.finish_eq_ended]

/-- **Every event preserves what there is**, whether it is carried out or not, unless it starts
anew. -/
theorem handle (s : Session) {event : Event} (h : event ≠ .reset) :
    event.Preserves s (s.handle event).state := by
  cases event with
  | stave d => exact addStave d
  | voice d => exact addVoice d
  | tuplet tuplets notes =>
      exact of_grows (Session.grows_makeTuplets tuplets notes) (.refl _) List.prefix_rfl
  | render => exact render
  | reset => exact absurd rfl h
  | _ =>
      exact of_adds (Session.adds_handle h (fun _ => nofun) (fun _ => nofun) nofun
        fun _ _ => nofun)

end Preserves

end Event

/-! ## Runs -/

/-- The finished voices of a stave are the first finished voices of another. -/
structure Stave.FinishedIn (a b : Stave) : Prop where
  tab : a.tabVoices <+: b.tabVoices
  staff : a.staffVoices <+: b.staffVoices

namespace Stave.FinishedIn

variable {a b c : Stave}

theorem refl (a : Stave) : a.FinishedIn a := ⟨List.prefix_rfl, List.prefix_rfl⟩

theorem trans (h : a.FinishedIn b) (h' : b.FinishedIn c) : a.FinishedIn c :=
  ⟨h.tab.trans h'.tab, h.staff.trans h'.staff⟩

theorem prefix_withVoice (finished : List (List Tickable)) (notes : List Tickable) :
    finished <+: withVoice finished notes := by
  unfold withVoice
  split
  · exact List.prefix_rfl
  · exact List.prefix_append _ _

theorem of_grows {R : Tickable → Tickable → Prop} (h : a.Grows R b) : a.FinishedIn b := by
  rw [h.frame]
  exact ⟨List.prefix_rfl, List.prefix_rfl⟩

theorem closeVoice (a : Stave) : a.FinishedIn a.closeVoice :=
  ⟨prefix_withVoice _ _, prefix_withVoice _ _⟩

theorem ended (a : Stave) : a.FinishedIn a.ended := ⟨prefix_withVoice _ _, prefix_withVoice _ _⟩

theorem of_leaves {event : Event} (h : event.Leaves a b) : a.FinishedIn b := by
  cases h with
  | inProgress h => exact of_grows h
  | voice d h => exact (of_grows h).trans (.closeVoice _)
  | render h => exact (of_grows h).trans (.ended _)

end Stave.FinishedIn

/-- A score that has the links and the finished voices of an earlier one, each in its place. -/
structure Score.KeepsFinished (before after : Score) : Prop where
  tabLinks : before.tabLinks <+: after.tabLinks
  staffLinks : before.staffLinks <+: after.staffLinks
  staves : ∀ (i : Nat) a, before.staves[i]? = some a →
    ∃ b, after.staves[i]? = some b ∧ a.FinishedIn b

namespace Score.KeepsFinished

variable {x y z : Score}

theorem refl (x : Score) : x.KeepsFinished x :=
  ⟨List.prefix_rfl, List.prefix_rfl, fun _ a ha => ⟨a, ha, .refl a⟩⟩

theorem trans (h : x.KeepsFinished y) (h' : y.KeepsFinished z) : x.KeepsFinished z where
  tabLinks := h.tabLinks.trans h'.tabLinks
  staffLinks := h.staffLinks.trans h'.staffLinks
  staves := by
    intro i a ha
    obtain ⟨b, hb, hab⟩ := h.staves i a ha
    obtain ⟨c, hc, hbc⟩ := h'.staves i b hb
    exact ⟨c, hc, hab.trans hbc⟩

theorem of_preserves {event : Event} {s t : Session} (h : event.Preserves s t) :
    s.score.KeepsFinished t.score where
  tabLinks := h.links.tab
  staffLinks := h.links.staff
  staves := by
    intro i a ha
    rcases Score.staves_eq_some.1 ha with hearlier | ⟨rfl, hactive⟩
    · obtain ⟨b, hb, rfl | ⟨-, rfl⟩⟩ := h.earlier i a hearlier
      · exact ⟨b, hb, .refl b⟩
      · exact ⟨a.ended, hb, .ended a⟩
    · obtain ⟨b, hb, hleaves⟩ := h.active a hactive
      exact ⟨b, hb, .of_leaves hleaves⟩

end Score.KeepsFinished

namespace Session

/-- What is finished stays in all that comes later. -/
theorem keepsFinished_follow {events : List Event} (h : .reset ∉ events) (s : Session) :
    s.score.KeepsFinished (s.follow events).score := by
  induction events generalizing s with
  | nil => exact .refl s.score
  | cons event events ih =>
      have hevent : event ≠ .reset := fun heq => h (heq ▸ List.mem_cons_self)
      have hevents : .reset ∉ events := fun hmem => h (List.mem_cons_of_mem _ hmem)
      exact (Score.KeepsFinished.of_preserves (.handle s hevent)).trans (ih hevents _)

/-- **A score only grows.** One event alters nothing but the voice in progress of the active stave,
and there only what `Event.Leaves` allows. Over any events the finished voices and the links stay
what they are, and in front of all that comes to them. -/
theorem score_only_grows (s : Session) :
    (∀ event : Event, event ≠ .reset → event.Preserves s (s.handle event).state) ∧
      ∀ events : List Event, .reset ∉ events → s.score.KeepsFinished (s.follow events).score :=
  ⟨fun _ hevent => .handle s hevent, fun _ hevents => keepsFinished_follow hevents s⟩

/-- A voice is ended while a bend is open, and what follows stands at the place of its anchor. -/
theorem score_only_grows_openBend :
    let s := (start .standard).follow openBend
    let next : List Event := [.voice (.defaults .tablature), .rest 0, .bar .single, .render]
    s.bend.isSome ∧ Event.voice (.defaults .tablature) ≠ .reset ∧ .reset ∉ next ∧
      (Event.voice (.defaults .tablature)).Preserves s
        (s.handle (.voice (.defaults .tablature))).state ∧
      s.score.KeepsFinished (s.follow next).score := by
  intro s next
  have hvoice : Event.voice (.defaults .tablature) ≠ .reset := nofun
  have hnext : .reset ∉ next := by simp [next]
  exact ⟨rfl, hvoice, hnext, (score_only_grows s).1 _ hvoice, (score_only_grows s).2 next hnext⟩

end Session

end Tablature
