/-
# Tablature.Proofs.Multipliers — by what the time of an object is multiplied.

Whatever is written has the multiplier one, and of all events only a tuplet changes multipliers, by
two over the number of its notes (`Session.Multiplied.handle`). So every multiplier in a score, on
tablature, on the staff and among the texts, is the product of the factors of some tuplets that were
asked for (`Session.follow_multiplied`). Which ones these are depends on what was written when; that
no other factor can come in is what a bound on the times of a score needs.
-/
import Mathlib.Algebra.BigOperators.Group.List.Basic
import Mathlib.Algebra.Field.Rat
import Mathlib.Algebra.Order.BigOperators.GroupWithZero.List
import Mathlib.Algebra.Order.Ring.Rat
import Mathlib.Data.Nat.Cast.Order.Ring
import Tablature.Proofs.Tuplets

namespace Tablature

/-! ## Objects -/

namespace Tickable

/-- The object takes time and its multiplier has a property, or it is a bar. Texts are not among the
objects of a voice of notes. -/
def Multiplied (M : Ticks → Prop) : Tickable → Prop
  | tab n => M n.multiplier
  | staff n => M n.multiplier
  | spacer _ multiplier => M multiplier
  | bar _ => True
  | text _ => False

namespace Multiplied

variable {M N : Ticks → Prop} {t u : Tickable}

theorem mono (ht : t.Multiplied M) (h : ∀ m, M m → N m) : t.Multiplied N := by
  cases t with
  | bar type => trivial
  | text n => exact ht
  | _ => exact h _ ht

theorem dressed (ht : t.Multiplied M) (h : Dressed t u) : u.Multiplied M := by
  induction h with
  | refl => exact ht
  | @mark u index m _ ih => cases u <;> exact ih
  | @hide u _ ih => cases u <;> exact ih

theorem scaleTicks (ht : t.Multiplied M) {factor : Ticks} (h : ∀ m, M m → N (m * factor)) :
    (t.scaleTicks factor).Multiplied N := by
  cases t with
  | bar type => trivial
  | text n => exact ht
  | _ => exact h _ ht

end Multiplied

end Tickable

/-! ## Staves -/

/-- Every multiplier on a stave has a property, and texts are not multiplied. -/
structure Stave.Multiplied (M : Ticks → Prop) (a : Stave) : Prop where
  objects : a.Every (Tickable.Multiplied M) (Tickable.Multiplied M)
  texts : ∀ voice ∈ a.textVoices, ∀ t ∈ voice, t.multiplier = 1

namespace Stave.Multiplied

variable {M N : Ticks → Prop} {a b : Stave}

theorem mono (ha : a.Multiplied M) (h : ∀ m, M m → N m) : a.Multiplied N where
  objects :=
    { tabVoices := fun voice hvoice t ht => (ha.objects.tabVoices voice hvoice t ht).mono h
      tabNotes := fun t ht => (ha.objects.tabNotes t ht).mono h
      staffVoices := fun voice hvoice t ht => (ha.objects.staffVoices voice hvoice t ht).mono h
      staffNotes := fun t ht => (ha.objects.staffNotes t ht).mono h }
  texts := ha.texts

theorem marked (h : a.Marked b) (ha : a.Multiplied M) : b.Multiplied M := by
  have htab : ∀ t ∈ b.tabNotes, t.Multiplied M :=
    forall_mem_of_forall₂ (fun _ _ hdressed ht => Tickable.Multiplied.dressed ht hdressed)
      h.tabNotes ha.objects.tabNotes
  have hstaff : ∀ t ∈ b.staffNotes, t.Multiplied M :=
    forall_mem_of_forall₂
      (fun _ _ hmarks ht => Tickable.Multiplied.dressed ht (Tickable.Dressed.of_marks hmarks))
      h.staffNotes ha.objects.staffNotes
  rw [h.frame]
  exact ⟨(ha.objects.withTabNotes htab).withStaffNotes hstaff, ha.texts⟩

theorem push (ha : a.Multiplied M) {onTab onStaff : Tickable} (htab : onTab.Multiplied M)
    (hstaff : onStaff.Multiplied M) : (a.push onTab onStaff).Multiplied M :=
  ⟨ha.objects.push htab hstaff, ha.texts⟩

/-- The last objects are scaled, each of them once. -/
theorem scale (ha : a.Multiplied M) {factor : Ticks} (keep : ∀ m, M m → N m)
    (scale : ∀ m, M m → N (m * factor)) (count : Nat) :
    ({ a with
        tabNotes := Session.scaleLast count factor a.tabNotes
        staffNotes := Session.scaleLast count factor a.staffNotes } : Stave).Multiplied N := by
  have scaled {notes : List Tickable} (h : ∀ t ∈ notes, t.Multiplied M) :
      ∀ t ∈ Session.scaleLast count factor notes, t.Multiplied N := by
    refine List.forall_mem_append.2 ⟨fun t ht => (h t (List.mem_of_mem_take ht)).mono keep, ?_⟩
    exact List.forall_mem_map.2 fun t ht => (h t (List.mem_of_mem_drop ht)).scaleTicks scale
  have hkept := ha.mono keep
  exact ⟨(hkept.objects.withTabNotes (scaled ha.objects.tabNotes)).withStaffNotes
    (scaled ha.objects.staffNotes), hkept.texts⟩

theorem withTexts (ha : a.Multiplied M) {voices : List (List TextNote)}
    (h : ∀ voice ∈ voices, ∀ t ∈ voice, t.multiplier = 1) :
    ({ a with textVoices := voices } : Stave).Multiplied M :=
  ⟨ha.objects.texts voices, h⟩

theorem closeVoice (ha : a.Multiplied M) : a.closeVoice.Multiplied M :=
  ⟨ha.objects.closeVoice, ha.texts⟩

theorem finish (ha : a.Multiplied M) : a.finish.Multiplied M :=
  ⟨ha.objects.finish, a.textVoices_finish ▸ ha.texts⟩

end Stave.Multiplied

/-! ## Sessions -/

/-- Every multiplier in a session has a property, and texts are not multiplied. -/
def Session.Multiplied (M : Ticks → Prop) (s : Session) : Prop :=
  ∀ a ∈ s.score.staves, a.Multiplied M

namespace Session.Multiplied

variable {M N : Ticks → Prop} {s t : Session}

theorem start (setup : PageSetup) : (Session.start setup).Multiplied M := by
  intro a ha
  cases ha

theorem mono (hs : s.Multiplied M) (h : ∀ m, M m → N m) : s.Multiplied N :=
  fun a ha => (hs a ha).mono h

/-- A change that touches no stave. -/
theorem beside (hearlier : t.score.earlier = s.score.earlier)
    (hactive : t.score.active = s.score.active) (hs : s.Multiplied M) : t.Multiplied M := by
  intro a ha
  rw [Score.staves, hearlier, hactive] at ha
  exact hs a ha

theorem onActive {f : Stave → Stave} (hf : ∀ a : Stave, a.Multiplied M → (f a).Multiplied M)
    (hs : s.Multiplied M) : (s.onActive f).Multiplied M := by
  intro b hb
  rcases Score.mem_staves.1 hb with hearlier | hactive
  · exact hs b (Score.mem_staves.2 (.inl hearlier))
  · obtain ⟨a, ha, rfl⟩ := Option.map_eq_some_iff.1 hactive
    exact hf a (hs a (Score.mem_staves.2 (.inr ha)))

theorem marked (h : s.Marked t) (hs : s.Multiplied M) : t.Multiplied M := by
  intro b hb
  rcases Score.mem_staves.1 hb with hearlier | hactive
  · exact hs b (Score.mem_staves.2 (.inl (h.earlier ▸ hearlier)))
  · have hrel := h.active
    rw [hactive] at hrel
    generalize ha : s.score.active = active at hrel
    cases hrel with
    | some hab => exact (hs _ (Score.mem_staves.2 (.inr ha))).marked hab

theorem push (hs : s.Multiplied M) {onTab onStaff : Tickable} (htab : onTab.Multiplied M)
    (hstaff : onStaff.Multiplied M) : (s.onActive (·.push onTab onStaff)).Multiplied M :=
  hs.onActive fun _ ha => ha.push htab hstaff

theorem withStave {next : Stave → Outcome Cause Session} (hs : s.Multiplied M)
    (h : ∀ a, s.score.active = some a → (next a).state.Multiplied M) :
    (s.withStave next).state.Multiplied M := Session.withStave_kept hs h

theorem needing {α : Type} {value : Except Cause α} {next : α → Outcome Cause Session}
    (hs : s.Multiplied M) (h : ∀ a, (next a).state.Multiplied M) :
    (Outcome.needing value s next).state.Multiplied M :=
  Outcome.needing_kept (P := Session.Multiplied M) hs fun a _ => h a

theorem andThen {o : Outcome Cause Session} {next : Session → Outcome Cause Session}
    (first : o.state.Multiplied M) (second : (next o.state).state.Multiplied M) :
    (o.andThen next).state.Multiplied M :=
  Outcome.andThen_kept (P := Session.Multiplied M) first second

/-! ### Operations -/

theorem closeBends (hs : s.Multiplied M) (through : Bool) : (s.closeBends through).Multiplied M :=
  hs.marked (marked_closeBends through)

theorem setOptions (hs : s.Multiplied M) (entries : List (String × String)) :
    (s.setOptions entries).state.Multiplied M := by
  have hset : (Outcome.forEach setOption entries s).state.Multiplied M :=
    Outcome.forEach_kept (P := Session.Multiplied M)
      (fun _ _ _ ht => ht.needing fun _ => ht.beside rfl rfl) hs
  exact hset.andThen (hset.beside rfl rfl)

theorem runCommand (hs : s.Multiplied M) (line : String) :
    (s.runCommand line).state.Multiplied M := by
  simp only [Session.runCommand]
  split
  · split
    · exact hs.beside rfl rfl
    · exact hs
  · exact hs

theorem addStave (hs : s.Multiplied M) (d : StaveDeclaration) :
    (s.addStave d).state.Multiplied M := by
  have blank (tab : Option TabView) (staff : Option StaffView) (beamGroups : List BeamGroup) :
      (Stave.blank tab staff beamGroups).Multiplied M :=
    ⟨.blank tab staff beamGroups, List.forall_mem_nil _⟩
  have placed : ((s.closeBends true).placeStave d).Multiplied M := by
    unfold placeStave
    cases d.staff <;> cases d.tablature <;>
      exact Score.forall_addStave (blank _ _ _) (hs.closeBends true)
  exact placed.beside rfl rfl

theorem addVoice (hs : s.Multiplied M) (d : StaveDeclaration) :
    (s.addVoice d).state.Multiplied M := by
  unfold Session.addVoice
  split
  · exact hs.addStave d
  · exact (hs.closeBends true).onActive fun _ ha => ha.closeVoice

theorem addBar (hs : s.Multiplied M) (type : BarType) :
    (s.addBar type).state.Multiplied M := by
  have hreset : (s.closeBends true).resetMemory.state.Multiplied M :=
    (hs.closeBends true).beside rfl rfl
  exact hreset.andThen (hreset.withStave fun _ _ => hreset.push trivial trivial)

theorem addRest (one : M 1) (hs : s.Multiplied M) (position : Int) :
    (s.addRest position).state.Multiplied M := by
  have hclosed := hs.closeBends true
  refine hclosed.needing fun key => hclosed.withStave fun _ _ => hclosed.push ?_ one
  unfold tabRest
  split <;> exact one

theorem writeChord (one : M 1) (hs : s.Multiplied M) (chord : List NoteEntry)
    (entries : List ResolvedEntry) (articulation : Option Articulation)
    (decorator : Option Decorator) :
    (s.writeChord chord entries articulation decorator).Multiplied M := by
  have emitted (slots : List (List ResolvedEntry)) (t : Session) (ht : t.Multiplied M) :
      (slots.foldl emit t).Multiplied M := by
    induction slots generalizing t with
    | nil => exact ht
    | cons slot slots ih =>
        have hpushed : (t.onActive
            (·.push (.tab (t.tabNote slot)) (.staff (t.staffNote slot)))).Multiplied M :=
          ht.push one one
        exact ih _ (hpushed.marked ((marked_applyTags _).trans (marked_decorateWith _)))
  exact (emitted _ s hs).marked ((marked_applyChordTag _ _).trans (marked_decorateWith _))

theorem addChord (one : M 1) (hs : s.Multiplied M) (chord : List NoteEntry)
    (articulation : Option Articulation) (decorator : Option Decorator) :
    (s.addChord chord articulation decorator).state.Multiplied M := by
  unfold Session.addChord
  split
  · exact hs
  · refine hs.withStave fun _ _ => ?_
    have hmemory (memory : SpellingMemory) : ({ s with memory := memory } : Session).Multiplied M :=
      hs.beside rfl rfl
    split
    · exact hmemory _
    · exact (hmemory _).writeChord one chord _ articulation decorator

theorem addTextNote (hs : s.Multiplied M) (text : String) (style : TextStyle) :
    (s.addTextNote text style).state.Multiplied M := by
  refine hs.withStave fun _ _ => ?_
  split
  · exact hs
  · refine hs.onActive fun a ha => ha.withTexts ?_
    exact forall_mem_modify (P := fun voice => ∀ t ∈ voice, TextNote.multiplier t = 1)
      (fun _ hvoice => List.forall_mem_append.2 ⟨hvoice, List.forall_mem_singleton.2 rfl⟩)
      ha.texts _

theorem addTextVoice (hs : s.Multiplied M) : s.addTextVoice.state.Multiplied M :=
  hs.withStave fun _ _ => hs.onActive fun _ ha => ha.withTexts <|
    List.forall_mem_append.2 ⟨ha.texts, List.forall_mem_singleton.2 (List.forall_mem_nil _)⟩

theorem setTextFont (hs : s.Multiplied M) (spec : String) :
    (s.setTextFont spec).state.Multiplied M := by
  refine hs.needing fun font => ?_
  cases font with
  | none => exact hs
  | some font => exact hs.beside rfl rfl

theorem makeTuplets (hs : s.Multiplied M) {tuplets : Nat} (notes : Option Nat)
    (keep : ∀ m, M m → N m) (scale : 0 < tuplets → ∀ m, M m → N (m * tupletFactor tuplets)) :
    (s.makeTuplets tuplets notes).state.Multiplied N := by
  have hkept := hs.mono keep
  simp only [Session.makeTuplets]
  split
  · exact hkept
  · rename_i hgiven
    have hpos : 0 < tuplets := by
      simp at hgiven
      omega
    refine hkept.withStave fun a ha => ?_
    split
    · exact hkept
    · intro b hb
      rcases Score.mem_staves.1 hb with hearlier | hactive
      · refine hkept b (Score.mem_staves.2 (.inl ?_))
        unfold bracket at hearlier
        dsimp only at hearlier
        split at hearlier <;> split at hearlier <;> exact hearlier
      · rw [Outcome.done, active_bracket ha] at hactive
        cases hactive
        exact (hs a (Score.mem_staves.2 (.inr ha))).scale keep (scale hpos) _

theorem render (hs : s.Multiplied M) : s.render.1.Multiplied M :=
  Score.forall_onEvery (fun _ ha => ha.finish) (hs.closeBends true)

/-- **What an event makes of multipliers.** An event leaves them as they are and writes objects with
the multiplier one, and if it is a tuplet it multiplies some of them once by its factor. This is so
whether it is carried out or not. -/
theorem handle (hs : s.Multiplied M) (event : Event) (one : N 1) (keep : ∀ m, M m → N m)
    (scale : ∀ tuplets notes, event = .tuplet tuplets notes → 0 < tuplets →
      ∀ m, M m → N (m * tupletFactor tuplets)) :
    (s.handle event).state.Multiplied N := by
  have hkept := hs.mono keep
  cases event with
  | options entries => exact hkept.setOptions entries
  | duration time dot => exact hkept.needing fun _ => hkept.beside rfl rfl
  | stave declaration => exact hkept.addStave declaration
  | voice declaration => exact hkept.addVoice declaration
  | bar type => exact hkept.addBar type
  | rest position => exact hkept.addRest one position
  | chord entries articulation decorator =>
      exact hkept.addChord one entries articulation decorator
  | note entry => exact hkept.addChord one [entry] none none
  | articulations tags => exact hkept.withStave fun _ _ => hkept.marked (marked_applyTags tags)
  | decorator decorator =>
      exact hkept.withStave fun _ _ => hkept.marked (marked_decorate decorator)
  | annotations tokens => exact hkept.marked (marked_addAnnotations tokens)
  | tuplet tuplets notes => exact hs.makeTuplets notes keep (scale tuplets notes rfl)
  | command line => exact hkept.runCommand line
  | textVoice => exact hkept.addTextVoice
  | textFont spec => exact hkept.setTextFont spec
  | text text style => exact hkept.addTextNote text style
  | fret fret string =>
      have quiet := quiet_resolveFret (s := s) fret string
      simp only [Session.handle]
      split <;> rename_i heq <;> rw [heq] at quiet <;> exact hkept.beside quiet.earlier quiet.active
  | render => exact hkept.render
  | reset => exact .start s.setup

end Session.Multiplied

/-! ## Runs -/

/-- The numbers of notes that the tuplets among some events count. -/
def tupletCounts (events : List Event) : List Nat :=
  events.filterMap fun
    | .tuplet tuplets _ => some tuplets
    | _ => none

/-- The numbers of notes that the tuplets in a list of directives count. -/
def Directive.tupletCounts (ds : List Directive) : List Nat :=
  Tablature.tupletCounts (Script.events (ds.flatMap script))

theorem Session.tupletFactor_pos {count : Nat} (h : 0 < count) : 0 < tupletFactor count :=
  div_pos (Nat.cast_pos.2 Nat.two_pos) (Nat.cast_pos.2 h)

/-- A product of the factors of some tuplets, each of at least one note. -/
def TupletProduct (counts : List Nat) (m : Ticks) : Prop :=
  ∃ chosen : List Nat, chosen.Sublist counts ∧ (∀ count ∈ chosen, 0 < count) ∧
    m = (chosen.map Session.tupletFactor).prod

namespace TupletProduct

variable {counts more : List Nat} {m : Ticks}

theorem one : TupletProduct counts 1 := ⟨[], List.nil_sublist _, List.forall_mem_nil _, rfl⟩

theorem append (h : TupletProduct counts m) (more : List Nat) :
    TupletProduct (counts ++ more) m := by
  obtain ⟨chosen, hchosen, hpos, rfl⟩ := h
  exact ⟨chosen, hchosen.trans (List.sublist_append_left _ _), hpos, rfl⟩

theorem mul (h : TupletProduct counts m) {count : Nat} (hcount : 0 < count) :
    TupletProduct (counts ++ [count]) (m * Session.tupletFactor count) := by
  obtain ⟨chosen, hchosen, hpos, rfl⟩ := h
  refine ⟨chosen ++ [count], hchosen.append_right _, ?_, ?_⟩
  · exact List.forall_mem_append.2 ⟨hpos, List.forall_mem_singleton.2 hcount⟩
  · rw [List.map_append, List.prod_append, List.map_singleton, List.prod_singleton]

theorem pos (h : TupletProduct counts m) : 0 < m := by
  obtain ⟨chosen, -, hpos, rfl⟩ := h
  exact List.prod_pos (List.forall_mem_map.2 fun count hcount =>
    Session.tupletFactor_pos (hpos count hcount))

end TupletProduct

namespace Session

/-- **Multipliers are products of tuplets.** After any events, every multiplier is the product of
the factors of some of the tuplets among the events. -/
theorem follow_multiplied (setup : PageSetup) (events : List Event) :
    (follow events (.start setup)).Multiplied (TupletProduct (tupletCounts events)) := by
  induction events using List.reverseRecOn with
  | nil => exact .start setup
  | append_singleton events event ih =>
      have hcounts : tupletCounts (events ++ [event]) =
          tupletCounts events ++ tupletCounts [event] := List.filterMap_append
      rw [follow_append, hcounts]
      refine ih.handle event .one (fun _ hm => hm.append _) ?_
      rintro tuplets notes rfl hpos m hm
      exact hm.mul hpos

end Session

theorem compileDirectives_multiplied {setup : PageSetup} {ds : List Directive} {s : Session}
    (h : compileDirectives setup ds = .ok s) :
    s.Multiplied (TupletProduct (Directive.tupletCounts ds)) := by
  rw [Session.eq_follow_of_playScript (compileDirectives_eq_ok_iff.1 h)]
  exact Session.follow_multiplied setup _

end Tablature
