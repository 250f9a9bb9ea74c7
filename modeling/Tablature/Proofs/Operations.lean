/-
# Tablature.Proofs.Operations — every operation is made of moves.

One lemma for each operation of a session says that its state, carried out or refused, is reached by
moves (`Tablature.Proofs.Moves`), and moves are steps (`Tablature.Proofs.Steps`). Events follow from
these, and directives from their scripts (`Tablature.Proofs.Scripts`), and with them the induction
principles that all invariants use: `follow_induction` and `follow_moves_induction` for sessions
after any events, and `compile_induction` for the session of a list of directives.
-/
import Mathlib.Data.List.Induction
import Tablature.Proofs.ChordSlots
import Tablature.Proofs.Moves
import Tablature.Proofs.Scripts

namespace Tablature

/-! ## Sequences of operations -/

namespace Moves

theorem andThen {ε : Type} {s : Session} {o : Outcome ε Session}
    {next : Session → Outcome ε Session}
    (first : Moves s o.state) (second : Moves o.state (next o.state).state) :
    Moves s (o.andThen next).state :=
  Outcome.andThen_related (R := Moves) trans first second

theorem forEach {ε α : Type} {each : α → Session → Outcome ε Session}
    (h : ∀ a t, Moves t (each a t).state) (xs : List α) (s : Session) :
    Moves s (Outcome.forEach each xs s).state :=
  Outcome.forEach_related refl trans h xs s

theorem needing {ε α : Type} {value : Except ε α} {s : Session} {next : α → Outcome ε Session}
    (h : ∀ a, value = .ok a → Moves s (next a).state) :
    Moves s (Outcome.needing value s next).state :=
  Outcome.needing_related refl h

theorem withStave {s : Session} {next : Stave → Outcome Cause Session}
    (h : ∀ a, s.score.active = some a → Moves s (next a).state) :
    Moves s (s.withStave next).state := by
  unfold Session.withStave
  split
  · exact h _ ‹_›
  · exact refl s

theorem foldl {α : Type} {f : Session → α → Session} (h : ∀ t a, Moves t (f t a)) (xs : List α)
    (s : Session) : Moves s (xs.foldl f s) := by
  induction xs generalizing s with
  | nil => exact refl s
  | cons a xs ih => exact (h s a).trans (ih (f s a))

end Moves

namespace Session

variable {s : Session}

/-! ## Changes of the active stave -/

theorem moves_onActive {f : Stave → Stave}
    (h : ∀ a, s.score.active = some a → Stave.Move (s.bend = none) a (f a)) :
    Moves s (s.onActive f) := by
  cases ha : s.score.active with
  | none => rw [onActive_eq_self ha]; exact .refl s
  | some a =>
      rw [onActive_eq ha]
      exact .calm (.active ha (h a ha))

/-! ## Settings, staves, bars and rests -/

theorem quiet_withSettings (settings : Settings) : Quiet s (s.withSettings settings) :=
  ⟨rfl, rfl, rfl, rfl, rfl, rfl⟩

theorem moves_setDuration (time : String) (dot : Bool) : Moves s (s.setDuration time dot).state :=
  .needing fun _ _ => .quiet ⟨rfl, rfl, rfl, rfl, rfl, rfl⟩

theorem moves_setOptions (entries : List (String × String)) :
    Moves s (s.setOptions entries).state := by
  refine .andThen (.forEach (fun entry t => ?_) entries s) ?_
  · exact .needing fun _ _ => .quiet (quiet_withSettings _)
  · exact .quiet ⟨rfl, rfl, rfl, rfl, rfl, rfl⟩

theorem moves_runCommand (line : String) : Moves s (s.runCommand line).state := by
  simp only [runCommand]
  split
  · split
    · exact .quiet ⟨rfl, rfl, rfl, rfl, rfl, rfl⟩
    · exact .refl s
  · exact .refl s

theorem moves_closeBends (through : Bool) : Moves s (s.closeBends through) :=
  .move (.closeBends s through)

theorem quiet_setKey (key : String) : Quiet s (s.setKey key).state := ⟨rfl, rfl, rfl, rfl, rfl, rfl⟩

theorem quiet_resetMemory : Quiet s s.resetMemory.state := ⟨rfl, rfl, rfl, rfl, rfl, rfl⟩

/-- A stave is placed by moving the cursor and then adding a stave without voices. -/
theorem moves_placeStave (d : StaveDeclaration) (h : s.bend = none) :
    Moves s (s.placeStave d) := by
  have place (t u : Session) (tab : Option TabView) (staff : Option StaffView) (hq : Quiet s t)
      (hu : Quiet
        { t with score := t.score.addStave (.blank tab staff (BeamGroup.default d.time)) } u) :
      Moves s u :=
    .trans (.quiet hq) (.trans (.calm (.openStave t tab staff _ (hq.bend.trans h))) (.quiet hu))
  have moved (cursor : Float) (clef : Clef) : Quiet s { s with cursor := cursor, clef := clef } :=
    ⟨rfl, rfl, rfl, rfl, rfl, rfl⟩
  unfold placeStave
  cases d.staff <;> cases d.tablature <;>
    exact place _ _ _ _ (moved _ _) ⟨rfl, rfl, rfl, rfl, rfl, rfl⟩

theorem moves_addStave (d : StaveDeclaration) : Moves s (s.addStave d).state :=
  ((moves_closeBends true).trans (moves_placeStave d (bend_closeBends true))).trans
    (.quiet (quiet_setKey d.key))

theorem moves_addVoice (d : StaveDeclaration) : Moves s (s.addVoice d).state := by
  unfold addVoice
  split
  · exact moves_addStave d
  · exact (moves_closeBends true).trans
      (moves_onActive fun a _ => .closeVoice a (bend_closeBends true))

theorem moves_addBar (type : BarType) : Moves s (s.addBar type).state := by
  refine .andThen ((moves_closeBends true).trans (.quiet quiet_resetMemory)) ?_
  refine .withStave fun _ _ => ?_
  exact moves_onActive fun a _ => .bar a type (quiet_resetMemory.bend.trans (bend_closeBends true))

theorem moves_addRest (position : Int) : Moves s (s.addRest position).state := by
  refine (moves_closeBends true).trans (.needing fun key _ => .withStave fun _ _ => ?_)
  exact moves_onActive fun a _ => .rest a _ key (bend_closeBends true)

/-! ## Marks at the last notes -/

theorem moves_onTabNotes {f : List Tickable → List Tickable}
    (h : ∀ notes, List.Forall₂ (Marks TabAllows) notes (f notes)) : Moves s (s.onTabNotes f) :=
  moves_onActive fun a _ => .markTab a (h a.tabNotes)

theorem moves_onStaffNotes {f : List Tickable → List Tickable}
    (h : ∀ a, s.score.active = some a →
      List.Forall₂ (Marks StaffAllows) a.staffNotes (f a.staffNotes)) :
    Moves s (s.onStaffNotes f) :=
  moves_onActive fun a ha => .markStaff a (h a ha)

theorem moves_markLastTab {m : Modifier} (h : m.isPlain) : Moves s (s.markLastTab 0 m) :=
  moves_onTabNotes fun notes =>
    forall₂_modify (fun _ => .refl) (fun _ => .add .refl ⟨rfl, h⟩) notes _

theorem moves_markLastStaff {m : Modifier} (h : m.isPlain) : Moves s (s.markLastStaff 0 m) :=
  moves_onStaffNotes fun a _ =>
    forall₂_modify (fun _ => .refl) (fun _ => .add .refl (.inl ⟨rfl, h⟩)) a.staffNotes _

theorem moves_decorate (decorator : Decorator) : Moves s (s.decorate decorator) := by
  cases decorator with
  | vibrato => exact moves_markLastTab rfl
  | harshVibrato => exact moves_markLastTab rfl
  | upStroke => exact (moves_markLastTab rfl).trans (moves_markLastStaff rfl)
  | downStroke => exact (moves_markLastTab rfl).trans (moves_markLastStaff rfl)

theorem moves_decorateWith (decorator : Option Decorator) : Moves s (s.decorateWith decorator) := by
  cases decorator with
  | none => exact .refl s
  | some decorator => exact moves_decorate decorator

/-! ## Articulations -/

theorem active_articulateTab (a : Stave) (tag : Articulation) (span : Span) :
    (s.articulateTab a tag span).score.active = s.score.active := by
  cases tag <;> try rfl
  simp only [articulateTab, openBends]
  split <;> rfl

theorem moves_articulateTab {a : Stave} {indices : List Nat} {span : Span}
    (ha : s.score.active = some a) (hspan : Span.ofNotes? a.tabNotes indices = some span)
    (hne : span.isEmpty = false) (htab : a.tab.isSome) (tag : Articulation) :
    Moves s (s.articulateTab a tag span) := by
  have drawn {link : TabLink} (h : TabLink.Draws (s.tabLinkOf a span) link) :
      Moves s (s.addTabLink link) := .beside (.linkTab ha hspan hne h) rfl rfl rfl
  cases tag with
  | slide => exact drawn .slide
  | hammerOn => exact drawn (.tie "H")
  | pullOff => exact drawn (.tie "P")
  | tap => exact drawn (.tie " ")
  | tapTie => exact drawn (.tie " ")
  | bend => exact .move (.openBends s ((tabNotes_eq ha).symm ▸ hspan) hne ⟨a, ha, htab⟩)
  | vibrato => exact .refl s
  | harshVibrato => exact .refl s

theorem moves_linkSpan {a : Stave} (ha : s.score.active = some a) (tag : Articulation)
    (indices : List Nat) : Moves s (s.linkSpan a tag (Span.ofNotes? a.tabNotes indices)) := by
  cases hspan : Span.ofNotes? a.tabNotes indices with
  | none => exact .refl s
  | some span =>
      simp only [linkSpan]
      split
      · exact .refl s
      · rename_i hne
        rw [Bool.not_eq_true] at hne
        -- Tablature first; the link on the staff needs that the stave is still the same.
        have onTab : Moves s (if a.tab.isSome then s.articulateTab a tag span else s) := by
          split
          · exact moves_articulateTab ha hspan hne ‹_› tag
          · exact .refl s
        have active : (if a.tab.isSome then s.articulateTab a tag span else s).score.active =
            some a := by
          split
          · rw [active_articulateTab, ha]
          · exact ha
        split
        · rename_i hstaff
          exact onTab.trans (.beside (.linkStaff active hspan hne hstaff) rfl rfl rfl)
        · exact onTab

/-- A tap is marked before it is linked; the mark changes nothing that a link reads. -/
theorem linkSpan_markLastTab {a : Stave} (ha : s.score.active = some a) (m : Modifier)
    (tag : Articulation) (indices : List Nat) : ∃ b,
      (s.markLastTab 0 m).score.active = some b ∧
      (s.markLastTab 0 m).linkSpan a tag (Span.ofNotes? a.tabNotes indices) =
        (s.markLastTab 0 m).linkSpan b tag (Span.ofNotes? b.tabNotes indices) := by
  refine ⟨{ a with tabNotes := a.tabNotes.modify (a.tabNotes.length - 1) (.mark 0 m) }, ?_, ?_⟩
  · rw [markLastTab, onTabNotes_eq ha]
  · rw [Span.ofNotes?_modify_mark]
    simp [linkSpan, articulateTab, tabLinkOf, staffLinkOf, tabAddress, staffAddress]

theorem moves_articulate {a : Stave} (ha : s.score.active = some a) (tag : Articulation)
    (indices : List Nat) : Moves s (s.articulate a tag indices) := by
  cases tag with
  | vibrato => exact moves_markLastTab rfl
  | harshVibrato => exact moves_markLastTab rfl
  | tap =>
      simp only [articulate]
      split
      · obtain ⟨b, hb, heq⟩ := linkSpan_markLastTab ha s.tapCaption .tap indices
        rw [heq]
        exact (moves_markLastTab rfl).trans (moves_linkSpan hb .tap indices)
      · exact moves_linkSpan ha .tap indices
  | slide => exact moves_linkSpan ha _ indices
  | hammerOn => exact moves_linkSpan ha _ indices
  | pullOff => exact moves_linkSpan ha _ indices
  | tapTie => exact moves_linkSpan ha _ indices
  | bend => exact moves_linkSpan ha _ indices

theorem moves_applyTags (tags : List (Option Articulation)) : Moves s (s.applyTags tags) := by
  have tagged (t : Session) (tag : Articulation) : Moves t (articulateTagged tags t tag) := by
    simp only [articulateTagged]
    split
    · exact moves_articulate ‹_› tag _
    · exact .refl t
  simp only [applyTags]
  split
  · exact moves_closeBends false
  · split
    · exact .foldl tagged _ s
    · exact (Moves.foldl tagged _ s).trans (moves_closeBends false)

/-! ## Chords -/

theorem moves_emit {entries : List ResolvedEntry} (h : entries ≠ [])
    (hmarks : ∀ e ∈ entries, e.MarksItsKey) : Moves s (s.emit entries) := by
  have written : Moves s
      (s.onActive (·.push (.tab (s.tabNote entries)) (.staff (s.staffNote entries)))) :=
    moves_onActive fun a _ => .note a s entries h hmarks
  exact (written.trans (moves_applyTags _)).trans (moves_decorateWith _)

theorem moves_foldl_emit {slots : List (List ResolvedEntry)} (h : ∀ slot ∈ slots, slot ≠ [])
    (hmarks : ∀ slot ∈ slots, ∀ e ∈ slot, e.MarksItsKey) : Moves s (slots.foldl emit s) := by
  induction slots generalizing s with
  | nil => exact .refl s
  | cons slot slots ih =>
      exact (moves_emit (h slot List.mem_cons_self) (hmarks slot List.mem_cons_self)).trans
        (ih (fun other hother => h other (List.mem_cons_of_mem slot hother))
          fun other hother => hmarks other (List.mem_cons_of_mem slot hother))

theorem moves_applyChordTag (size : Nat) (tag : Option Articulation) :
    Moves s (s.applyChordTag size tag) := by
  cases tag with
  | none => exact .refl s
  | some tag => exact moves_applyTags _

theorem moves_writeChord {chord : List NoteEntry} {entries : List ResolvedEntry}
    (hlen : entries.length = chord.length) (hmarks : ∀ e ∈ entries, e.MarksItsKey)
    (articulation : Option Articulation) (decorator : Option Decorator) :
    Moves s (s.writeChord chord entries articulation decorator) := by
  have slotted : Moves s ((Chord.slots (Chord.placesOf chord) entries).foldl emit s) := by
    refine moves_foldl_emit (fun _ h => Chord.ne_nil_of_mem_slots hlen h) fun slot hslot e he => ?_
    obtain ⟨q, rfl, -⟩ := Chord.mem_of_mem_slots hslot
    exact hmarks e (Chord.mem_of_mem_entriesAt he)
  exact (slotted.trans (moves_applyChordTag chord.length articulation)).trans
    (moves_decorateWith decorator)

theorem moves_addChord (chord : List NoteEntry) (articulation : Option Articulation)
    (decorator : Option Decorator) : Moves s (s.addChord chord articulation decorator).state := by
  have remembered (memory : SpellingMemory) : Moves s { s with memory := memory } :=
    .quiet ⟨rfl, rfl, rfl, rfl, rfl, rfl⟩
  unfold addChord
  split
  · exact .refl s
  · refine .withStave fun a _ => ?_
    split
    · exact remembered _
    · rename_i memory entries hresolved
      exact (remembered memory).trans
        (moves_writeChord (ResolvedEntry.length_of_resolveAll hresolved)
          (ResolvedEntry.marksItsKey_of_resolveAll hresolved) articulation decorator)

/-! ## Annotations -/

theorem isPlain_sharedMark {markup : Markup} {m : Modifier} (h : markup.sharedMark? = some m) :
    m.isPlain := by
  cases markup <;> cases h <;> rfl

theorem isPlain_tabMark {t : PlacedToken} {m : Modifier} (h : t.tabMark? = some m) : m.isPlain := by
  unfold PlacedToken.tabMark? at h
  split at h
  · cases h
    rfl
  · exact isPlain_sharedMark h

theorem marks_onTab (t : PlacedToken) (note : Tickable) : Marks TabAllows note (t.onTab note) := by
  unfold PlacedToken.onTab
  split
  · exact .add .refl ⟨rfl, isPlain_tabMark ‹_›⟩
  · exact .refl

theorem marks_captionOnStaff (t : PlacedToken) (note : Tickable) :
    Marks StaffAllows note (t.captionOnStaff note) := by
  unfold PlacedToken.captionOnStaff
  split
  · exact .add .refl (.inl ⟨rfl, rfl⟩)
  · exact .refl

theorem marks_addFingers {note u : Tickable} (token : String) {marks : List FingerMark}
    (hu : Marks StaffAllows note u) :
    Marks StaffAllows note (PlacedToken.addFingers token u.keyCount marks u).state := by
  induction marks generalizing u with
  | nil => exact hu
  | cons m marks ih =>
      rw [PlacedToken.addFingers]
      split
      · exact hu
      · rename_i hkey
        simp only [Bool.or_eq_true, decide_eq_true_eq, not_or, Nat.not_lt] at hkey
        have hfinger : m.modifier.isFingerMark := by
          unfold FingerMark.modifier
          split <;> rfl
        rw [← Tickable.keyCount_mark u (m.note - 1) m.modifier]
        exact ih (.add hu (.inr ⟨by omega, hfinger⟩))

theorem marks_onStaff (t : PlacedToken) (note : Tickable) :
    Marks StaffAllows note (t.onStaff note).state := by
  unfold PlacedToken.onStaff
  split
  · exact marks_addFingers t.token .refl
  · split
    · exact .add .refl (.inl ⟨rfl, isPlain_sharedMark ‹_›⟩)
    · exact .refl

section Apply

variable {allows : Tickable → Nat → Modifier → Prop}

theorem marks_same (notes : List Tickable) : List.Forall₂ (Marks allows) notes notes :=
  List.forall₂_same.2 fun _ _ => .refl

theorem marks_applyTo {f : PlacedToken → Tickable → Tickable}
    (h : ∀ t note, Marks allows note (f t note)) (tokens : List PlacedToken)
    (notes : List Tickable) :
    List.Forall₂ (Marks allows) notes (PlacedToken.applyTo f tokens notes) := by
  induction tokens generalizing notes with
  | nil => exact marks_same notes
  | cons t tokens ih =>
      cases notes with
      | nil => exact .nil
      | cons note notes => exact .cons (h t note) (ih notes)

theorem marks_applyLast {f : PlacedToken → Tickable → Tickable}
    (h : ∀ t note, Marks allows note (f t note)) (tokens : List PlacedToken)
    (notes : List Tickable) :
    List.Forall₂ (Marks allows) notes (PlacedToken.applyLast f tokens notes) :=
  forall₂_take_append (fun _ => .refl) (marks_applyTo h tokens _)

theorem marks_applyUntil {f : PlacedToken → Tickable → Outcome Cause Tickable}
    (h : ∀ t note, Marks allows note (f t note).state) (tokens : List PlacedToken)
    (notes : List Tickable) :
    List.Forall₂ (Marks allows) notes (PlacedToken.applyUntil f tokens notes).state := by
  induction tokens generalizing notes with
  | nil => exact marks_same notes
  | cons t tokens ih =>
      cases notes with
      | nil => exact .nil
      | cons note notes =>
          simp only [PlacedToken.applyUntil]
          split
          · exact .cons (h t note) (marks_same notes)
          · exact .cons (h t note) (ih notes)

theorem marks_applyLastUntil {f : PlacedToken → Tickable → Outcome Cause Tickable}
    (h : ∀ t note, Marks allows note (f t note).state) (tokens : List PlacedToken)
    (notes : List Tickable) :
    List.Forall₂ (Marks allows) notes (PlacedToken.applyLastUntil f tokens notes).state :=
  forall₂_take_append (fun _ => .refl) (marks_applyUntil h tokens _)

end Apply

theorem moves_annotateTexts (a : Stave) (tokens : List PlacedToken) (side : Side) :
    Moves s (s.annotateTexts a tokens side).state := by
  have sided : Moves s (s.withSide side) := .quiet (quiet_withSettings _)
  unfold annotateTexts
  split
  · exact sided.trans (moves_onTabNotes fun notes => marks_applyLast marks_onTab tokens notes)
  · split
    · exact .refl s
    · exact sided.trans (moves_onStaffNotes fun b _ =>
        marks_applyLast marks_captionOnStaff tokens b.staffNotes)

theorem moves_annotateStaff (a : Stave) (tokens : List PlacedToken) :
    Moves s (annotateStaff a tokens s).state := by
  unfold annotateStaff
  split
  · exact .refl s
  · split
    · exact .refl s
    · show Moves s (s.onStaffNotes fun _ =>
        (PlacedToken.applyLastUntil PlacedToken.onStaff tokens s.staffNotes).state)
      refine moves_onStaffNotes fun b hb => ?_
      rw [staffNotes_eq hb]
      exact marks_applyLastUntil marks_onStaff tokens b.staffNotes

theorem moves_addAnnotations (tokens : List String) : Moves s (s.addAnnotations tokens).state := by
  refine .needing fun markups _ => .withStave fun a _ => ?_
  split
  · exact .refl s
  · exact .andThen (moves_annotateTexts a _ _) (moves_annotateStaff a _)

/-! ## Tuplets, texts and rendering -/

theorem moves_bracket {a : Stave} (ha : s.score.active = some a) {tuplets count : Nat}
    (htuplets : 0 < tuplets) (h : count ≤ tupletRoom a) :
    Moves s (s.bracket a tuplets count) := by
  let factor : Ticks := (tupletOccupies : Ticks) / (tuplets : Ticks)
  have hfactor : 0 < factor := by
    rw [show factor = (tupletOccupies : Ticks) * (tuplets : Ticks)⁻¹ from Rat.div_def _ _]
    exact Rat.mul_pos (Rat.natCast_pos.2 Nat.two_pos) (Rat.inv_pos.2 (Rat.natCast_pos.2 htuplets))
  let b : Stave := { a with
    tabNotes := scaleLast count factor a.tabNotes
    staffNotes := scaleLast count factor a.staffNotes }
  let scaled := (s.onTabNotes (scaleLast count factor)).onStaffNotes (scaleLast count factor)
  -- Both voices are scaled in one step: a stave with one of them scaled would not be aligned.
  have hscaled : scaled = { s with score := { s.score with active := some b } } := by
    simp only [scaled, onStaffNotes, onTabNotes_eq ha]
    rfl
  have hb : scaled.score.active = some b := by rw [hscaled]
  have hroom : count ≤ tupletRoom b := by simpa [tupletRoom, b] using h
  have hmoves : Moves s scaled := by
    rw [hscaled]
    exact .calm (.active ha (.scale a count factor h hfactor))
  -- The brackets are made before the scaling, but their addresses are the same after it.
  have hstaff : s.staffTuplet a tuplets count = scaled.staffTuplet b tuplets count := by
    simp [staffTuplet, staffAddress, tupletOf, b, hscaled]
  have htab (t : Session) (ht : t.score.earlier = s.score.earlier) :
      s.tabTuplet a tuplets count = t.tabTuplet b tuplets count := by
    simp [tabTuplet, tabAddress, tupletOf, b, ht]
  let linked : Session := if a.staff.isSome then
    scaled.addStaffLink (.tuplet (s.staffTuplet a tuplets count)) else scaled
  have hlinked : Moves s linked := by
    simp only [linked]
    split
    · rw [hstaff]
      exact hmoves.trans (.beside (.bracketStaff hb tuplets count hroom ‹_›) rfl rfl rfl)
    · exact hmoves
  have hactive : linked.score.active = some b := by
    simp only [linked]
    split <;> exact hb
  have hearlier : linked.score.earlier = s.score.earlier := by
    simp only [linked]
    split <;> simp [addStaffLink, hscaled]
  simp only [bracket]
  cases s.settings.tabStems with
  | false => exact hlinked
  | true =>
      rw [if_pos rfl, htab linked hearlier]
      exact hlinked.trans (.beside (.bracketTab hactive tuplets count hroom) rfl rfl rfl)

theorem moves_makeTuplets (tuplets : Nat) (notes : Option Nat) :
    Moves s (s.makeTuplets tuplets notes).state := by
  simp only [makeTuplets]
  split
  · exact .refl s
  · rename_i hzero
    simp only [Bool.or_eq_true, decide_eq_true_eq, not_or] at hzero
    refine .withStave fun a ha => ?_
    split
    · exact .refl s
    · exact moves_bracket ha (Nat.pos_of_ne_zero hzero.1) (by omega)

theorem moves_addTextVoice : Moves s s.addTextVoice.state :=
  .withStave fun _ _ => moves_onActive fun a _ => .texts a _

theorem moves_setTextFont (spec : String) : Moves s (s.setTextFont spec).state := by
  refine .needing fun font _ => ?_
  cases font with
  | none => exact .refl s
  | some font => exact .quiet (quiet_withSettings _)

theorem moves_addTextNote (text : String) (style : TextStyle) :
    Moves s (s.addTextNote text style).state := by
  refine .withStave fun _ _ => ?_
  split
  · exact .refl s
  · exact moves_onActive fun a _ => .texts a _

theorem moves_render : Moves s s.render.1 :=
  (moves_closeBends true).trans
    ((Moves.calm (.finish _ (bend_closeBends true))).trans (.quiet ⟨rfl, rfl, rfl, rfl, rfl, rfl⟩))

theorem quiet_resolveFret (fret string : Nat) : Quiet s (s.resolveFret fret string).1 :=
  ⟨rfl, rfl, rfl, rfl, rfl, rfl⟩

end Session

/-! ## What holds of every stave -/

/-- **The invariant principle for staves.** What holds of staves without voices and is kept by every
change of a stave is kept for all staves by every step of a session. -/
theorem Step.forall_staves {P : Stave → Prop}
    (blank : ∀ tab staff beamGroups, P (.blank tab staff beamGroups))
    (each : ∀ {idle : Prop} {a b : Stave}, StaveStep idle a b → P a → P b) {s t : Session}
    (h : Step s t) (hs : ∀ stave ∈ s.score.staves, P stave) :
    ∀ stave ∈ t.score.staves, P stave := by
  have ofStaves {u v : Session} (hu : ∀ stave ∈ u.score.staves, P stave)
      (heq : v.score.staves = u.score.staves) : ∀ stave ∈ v.score.staves, P stave := by
    rwa [heq]
  cases h with
  | quiet h => exact ofStaves hs (by rw [Score.staves, h.earlier, h.active, Score.staves])
  | stave ha h => exact Score.forall_active ha (each h) hs
  | openStave tab staff beamGroups h =>
      exact Score.forall_addStave (blank tab staff beamGroups) hs
  | closeBends through =>
      unfold Session.closeBends
      split
      · exact hs
      · rename_i chain _
        cases ha : s.score.active with
        | none =>
            refine ofStaves hs ?_
            rw [Session.onTabNotes, Session.onActive_eq_self (s := { s with bend := none }) ha]
        | some a =>
            rw [Session.onTabNotes_eq (s := { s with bend := none }) ha]
            exact Score.forall_active ha (each (@StaveStep.closeChain True a chain through)) hs
  | openBends hspan hne => exact ofStaves hs (by rw [Session.score_openBends])
  | linkTab => exact hs
  | linkStaff => exact hs
  | bracketTab => exact hs
  | bracketStaff => exact hs
  | finish => exact Score.forall_onEvery (fun a => each (@StaveStep.finish True a trivial)) hs
  | reset =>
      intro stave hmem
      cases hmem

/-! ## Events -/

theorem Step.setup {s t : Session} (h : Step s t) : t.setup = s.setup := by
  cases h with
  | quiet h => exact h.setup
  | closeBends through =>
      unfold Session.closeBends
      split <;> rfl
  | openBends hspan hne =>
      unfold Session.openBends
      dsimp only
      split <;> rfl
  | _ => rfl

/-- **Every event is made of moves**, whether it is carried out or not, unless it starts anew. -/
theorem moves_handle (s : Session) {event : Event} (h : event ≠ .reset) :
    Moves s (s.handle event).state := by
  cases event with
  | options entries => exact Session.moves_setOptions entries
  | duration time dot => exact Session.moves_setDuration time dot
  | stave declaration => exact Session.moves_addStave declaration
  | voice declaration => exact Session.moves_addVoice declaration
  | bar type => exact Session.moves_addBar type
  | rest position => exact Session.moves_addRest position
  | chord entries articulation decorator =>
      exact Session.moves_addChord entries articulation decorator
  | note entry => exact Session.moves_addChord [entry] none none
  | articulations tags => exact .withStave fun _ _ => Session.moves_applyTags tags
  | decorator decorator => exact .withStave fun _ _ => Session.moves_decorate decorator
  | annotations tokens => exact Session.moves_addAnnotations tokens
  | tuplet tuplets notes => exact Session.moves_makeTuplets tuplets notes
  | command line => exact Session.moves_runCommand line
  | textVoice => exact Session.moves_addTextVoice
  | textFont spec => exact Session.moves_setTextFont spec
  | text text style => exact Session.moves_addTextNote text style
  | fret fret string =>
      have quiet := Session.quiet_resolveFret (s := s) fret string
      simp only [Session.handle]
      split <;> rename_i heq <;> rw [heq] at quiet <;> exact .quiet quiet
  | render => exact Session.moves_render
  | reset => exact absurd rfl h

theorem moves_follow {events : List Event} (h : .reset ∉ events) (s : Session) :
    Moves s (s.follow events) := by
  induction events generalizing s with
  | nil => exact .refl s
  | cons event events ih =>
      rw [List.mem_cons, not_or] at h
      exact (moves_handle s (Ne.symm h.1)).trans (ih h.2 _)

/-- **Every event is made of steps**, whether it is carried out or not. -/
theorem steps_handle (s : Session) (event : Event) : Steps s (s.handle event).state := by
  by_cases h : event = .reset
  · subst h
    exact .step (.reset s)
  · exact (moves_handle s h).steps

theorem steps_follow (events : List Event) (s : Session) : Steps s (s.follow events) := by
  induction events generalizing s with
  | nil => exact .refl s
  | cons event events ih => exact (steps_handle s event).trans (ih _)

/-- **The invariant principle.** What holds at the start and is kept by every step holds after any
events. -/
theorem follow_induction {P : Session → Prop} (start : ∀ setup, P (.start setup))
    (each : ∀ {s t}, Step s t → P s → P t) (setup : PageSetup) (events : List Event) :
    P (Session.follow events (.start setup)) :=
  (steps_follow events _).keeps each (start setup)

/-- The setup is never changed. -/
theorem setup_follow (events : List Event) (s : Session) : (s.follow events).setup = s.setup :=
  (steps_follow events s).keeps (P := fun t => t.setup = s.setup)
    (fun h ht => h.setup.trans ht) rfl

/-- Whatever has happened, all that counts are the moves since the last reset. -/
theorem moves_of_start (setup : PageSetup) (events : List Event) :
    Moves (.start setup) (Session.follow events (.start setup)) := by
  induction events using List.reverseRecOn with
  | nil => exact .refl _
  | append_singleton events event ih =>
      rw [Session.follow_append]
      show Moves _ ((Session.follow events (.start setup)).handle event).state
      by_cases h : event = .reset
      · subst h
        show Moves _ (Session.start (Session.follow events (.start setup)).setup)
        rw [setup_follow]
        exact .refl _
      · exact ih.trans (moves_handle _ h)

/-- **The invariant principle for bends.** What holds at the start and is kept by every move holds
after any events. -/
theorem follow_moves_induction {P : Session → Prop} (start : ∀ setup, P (.start setup))
    (each : ∀ {s t}, Move s t → P s → P t) (setup : PageSetup) (events : List Event) :
    P (Session.follow events (.start setup)) :=
  (moves_of_start setup events).keeps each (start setup)

/-! ## Directives -/

/-- **A list of directives is made of steps**, whether it compiles or not: the events of its script
are. -/
theorem Session.steps_compile (directives : List Directive) (s : Session) :
    Steps s (s.compile directives).state := by
  have carried (step : Except Cause Event) (t : Session) : Steps t (t.carry step).state := by
    cases step with
    | ok event => exact steps_handle t event
    | error cause => exact .refl t
  show Steps s (s.compile directives).unplaced.state
  rw [compile_eq_playScript]
  exact Outcome.forEach_related (R := Steps) .refl .trans carried _ s

/-- **The invariant principle for compilation.** What holds at the start and is kept by every step
holds of the session of every list of directives. -/
theorem compile_induction {P : Session → Prop} (start : ∀ setup, P (.start setup))
    (each : ∀ {s t}, Step s t → P s → P t) (setup : PageSetup) (directives : List Directive) :
    P ((Session.start setup).compile directives).state :=
  (Session.steps_compile directives _).keeps each (start setup)

theorem compileDirectives_eq_ok {setup : PageSetup} {ds : List Directive} {s : Session}
    (h : compileDirectives setup ds = .ok s) :
    ((Session.start setup).compile ds).fault = none ∧
      ((Session.start setup).compile ds).state = s := by
  simp only [compileDirectives] at h
  split at h
  · cases h
  · cases h
    exact ⟨‹_›, rfl⟩

theorem compileDirectives_of_fault {setup : PageSetup} {ds : List Directive}
    (h : ((Session.start setup).compile ds).fault = none) :
    compileDirectives setup ds = .ok ((Session.start setup).compile ds).state := by
  simp only [compileDirectives, h]

end Tablature
