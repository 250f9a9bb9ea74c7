/-
# Tablature.Proofs.Objects — what holds of every object.

Many invariants are about single objects: whatever a stave shows, in a finished voice or in the one
in progress, on tablature or on the staff, has a property (`Stave.Every`). What each change of a
stave asks of such a property is said here once. Most changes replace objects one by one, write new
ones or leave some out; only the end of a bend looks at where an object stands, because it marks the
anchor of its chain (`BendChain.forall_mem_close`).
-/
import Tablature.Proofs.Operations

namespace Tablature

variable {P : Tickable → Prop}

/-! ## Voices -/

theorem forall_mem_modify {α : Type} {P : α → Prop} {f : α → α} (hf : ∀ a, P a → P (f a))
    {xs : List α} (h : ∀ a ∈ xs, P a) (i : Nat) : ∀ a ∈ xs.modify i f, P a := by
  intro a ha
  obtain ⟨j, hj⟩ := List.mem_iff_getElem?.1 ha
  rw [List.getElem?_modify, Option.map_eq_map, Option.map_eq_some_iff] at hj
  obtain ⟨b, hb, rfl⟩ := hj
  have hbefore := h b (List.mem_of_getElem? hb)
  split
  · exact hf b hbefore
  · exact hbefore

/-- Objects that are changed one by one. -/
theorem forall_mem_of_forall₂ {R : Tickable → Tickable → Prop} {xs ys : List Tickable}
    (keep : ∀ t u, R t u → P t → P u) (hR : List.Forall₂ R xs ys) (h : ∀ t ∈ xs, P t) :
    ∀ u ∈ ys, P u := by
  induction hR with
  | nil => exact List.forall_mem_nil _
  | cons htu _ ih =>
      obtain ⟨hfirst, hrest⟩ := List.forall_mem_cons.1 h
      exact List.forall_mem_cons.2 ⟨keep _ _ htu hfirst, ih hrest⟩

theorem Session.forall_mem_scaleLast {factor : Ticks} {voice : List Tickable}
    (scale : ∀ t, P t → P (t.scaleTicks factor)) (h : ∀ t ∈ voice, P t) (count : Nat) :
    ∀ t ∈ Session.scaleLast count factor voice, P t := by
  refine List.forall_mem_append.2 ⟨fun t ht => h t (List.mem_of_mem_take ht), ?_⟩
  exact List.forall_mem_map.2 fun t ht => scale t (h t (List.mem_of_mem_drop ht))

theorem BendChain.forall_mem_hideRange {voice : List Tickable} (hide : ∀ t, P t → P t.hide)
    (h : ∀ t ∈ voice, P t) (start stop : Nat) : ∀ t ∈ hideRange start stop voice, P t := by
  intro t ht
  obtain ⟨i, hi, rfl⟩ := List.mem_mapIdx.1 ht
  have hbefore := h _ (List.getElem_mem hi)
  split
  · exact hide _ hbefore
  · exact hbefore

/-- The end of a bend marks the anchor and hides objects. -/
theorem BendChain.forall_mem_close {chain : BendChain} {voice : List Tickable}
    (hide : ∀ t, P t → P t.hide)
    (anchored : ∀ t, voice[chain.anchor]? = some t → P t → P (markAnchor chain.phrases t))
    (h : ∀ t ∈ voice, P t) (through : Bool) : ∀ t ∈ chain.close through voice, P t := by
  have hmarked : ∀ t ∈ voice.modify chain.anchor (markAnchor chain.phrases), P t := by
    intro t ht
    obtain ⟨i, hi⟩ := List.mem_iff_getElem?.1 ht
    rw [List.getElem?_modify, Option.map_eq_map, Option.map_eq_some_iff] at hi
    obtain ⟨u, hu, rfl⟩ := hi
    split
    · rename_i hanchor
      rw [← hanchor] at hu
      exact anchored u hu (h u (List.mem_of_getElem? hu))
    · exact h u (List.mem_of_getElem? hu)
  exact forall_mem_hideRange hide hmarked _ _

/-! ## Staves -/

/-- Every object on tablature has one property, and every object on the staff another. -/
structure Stave.Every (P Q : Tickable → Prop) (a : Stave) : Prop where
  tabVoices : ∀ voice ∈ a.tabVoices, ∀ t ∈ voice, P t
  tabNotes : ∀ t ∈ a.tabNotes, P t
  staffVoices : ∀ voice ∈ a.staffVoices, ∀ t ∈ voice, Q t
  staffNotes : ∀ t ∈ a.staffNotes, Q t

namespace Stave.Every

variable {Q : Tickable → Prop} {a : Stave}

theorem blank (tab : Option TabView) (staff : Option StaffView) (beamGroups : List BeamGroup) :
    (Stave.blank tab staff beamGroups).Every P Q :=
  ⟨List.forall_mem_nil _, List.forall_mem_nil _, List.forall_mem_nil _, List.forall_mem_nil _⟩

theorem texts (h : a.Every P Q) (voices : List (List TextNote)) :
    ({ a with textVoices := voices } : Stave).Every P Q :=
  ⟨h.tabVoices, h.tabNotes, h.staffVoices, h.staffNotes⟩

theorem withTabNotes (h : a.Every P Q) {notes : List Tickable} (hnotes : ∀ t ∈ notes, P t) :
    ({ a with tabNotes := notes } : Stave).Every P Q :=
  ⟨h.tabVoices, hnotes, h.staffVoices, h.staffNotes⟩

theorem withStaffNotes (h : a.Every P Q) {notes : List Tickable} (hnotes : ∀ t ∈ notes, Q t) :
    ({ a with staffNotes := notes } : Stave).Every P Q :=
  ⟨h.tabVoices, h.tabNotes, h.staffVoices, hnotes⟩

theorem push (h : a.Every P Q) {onTab onStaff : Tickable} (htab : P onTab) (hstaff : Q onStaff) :
    (a.push onTab onStaff).Every P Q := by
  refine ⟨h.tabVoices, ?_, h.staffVoices, ?_⟩
  · exact List.forall_mem_append.2 ⟨h.tabNotes, List.forall_mem_singleton.2 htab⟩
  · unfold Stave.push
    dsimp only
    split
    · exact List.forall_mem_append.2 ⟨h.staffNotes, List.forall_mem_singleton.2 hstaff⟩
    · exact h.staffNotes

theorem scale (h : a.Every P Q) {factor : Ticks} (tab : ∀ t, P t → P (t.scaleTicks factor))
    (staff : ∀ t, Q t → Q (t.scaleTicks factor)) (count : Nat) :
    ({ a with
        tabNotes := Session.scaleLast count factor a.tabNotes
        staffNotes := Session.scaleLast count factor a.staffNotes } : Stave).Every P Q :=
  ⟨h.tabVoices, Session.forall_mem_scaleLast tab h.tabNotes count, h.staffVoices,
    Session.forall_mem_scaleLast staff h.staffNotes count⟩

theorem withVoice {finished : List (List Tickable)} {notes : List Tickable}
    (hfinished : ∀ voice ∈ finished, ∀ t ∈ voice, P t) (hnotes : ∀ t ∈ notes, P t) :
    ∀ voice ∈ Stave.withVoice finished notes, ∀ t ∈ voice, P t := by
  unfold Stave.withVoice
  split
  · exact hfinished
  · exact List.forall_mem_append.2 ⟨hfinished, List.forall_mem_singleton.2 hnotes⟩

theorem closeVoice (h : a.Every P Q) : a.closeVoice.Every P Q :=
  ⟨withVoice h.tabVoices h.tabNotes, List.forall_mem_nil _, withVoice h.staffVoices h.staffNotes,
    List.forall_mem_nil _⟩

theorem finishTab (h : a.Every P Q) : a.finishTab.Every P Q := by
  unfold Stave.finishTab
  split
  · exact ⟨h.tabVoices, fun t ht => h.tabNotes t (List.dropLast_subset _ ht), h.staffVoices,
      h.staffNotes⟩
  · exact h

theorem finishStaff (h : a.Every P Q) : a.finishStaff.Every P Q := by
  unfold Stave.finishStaff
  split
  · exact ⟨h.tabVoices, h.tabNotes, h.staffVoices,
      fun t ht => h.staffNotes t (List.dropLast_subset _ ht)⟩
  · exact h

theorem finish (h : a.Every P Q) : a.finish.Every P Q := h.finishTab.finishStaff.closeVoice

end Stave.Every

theorem Stave.textVoices_finish (a : Stave) : a.finish.textVoices = a.textVoices := by
  have htab : a.finishTab.textVoices = a.textVoices := by
    unfold Stave.finishTab
    split <;> rfl
  rw [← htab]
  unfold Stave.finish Stave.finishStaff
  split <;> rfl

/-! ## Sessions -/

theorem Session.withStave_kept {P : Session → Prop} {s : Session}
    {next : Stave → Outcome Cause Session} (hs : P s)
    (h : ∀ a, s.score.active = some a → P (next a).state) : P (s.withStave next).state := by
  unfold Session.withStave
  split
  · exact h _ ‹_›
  · exact hs

/-- **The invariant principle for calm changes.** What holds of staves without voices and is kept by
every move of a stave and by its finish is kept for all staves by a calm change. -/
theorem Session.Change.forall_staves {P : Stave → Prop}
    (blank : ∀ tab staff beamGroups, P (.blank tab staff beamGroups))
    (move : ∀ {idle : Prop} {a b : Stave}, Stave.Move idle a b → P a → P b)
    (finish : ∀ a : Stave, P a → P a.finish) {s t : Session} (h : Change s t)
    (hs : ∀ stave ∈ s.score.staves, P stave) : ∀ stave ∈ t.score.staves, P stave := by
  cases h with
  | beside _ hearlier hactive =>
      rw [Score.staves, hearlier, hactive]
      exact hs
  | active ha h => exact Score.forall_active ha (move h) hs
  | openStave tab staff beamGroups _ =>
      exact Score.forall_addStave (blank tab staff beamGroups) hs
  | finish _ => exact Score.forall_onEvery finish hs

end Tablature
