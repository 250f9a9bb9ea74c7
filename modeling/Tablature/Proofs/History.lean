/-
# Tablature.Proofs.History — what is written stays where it is.

A link names its notes by stave, voice and place, and nothing ever renumbers it. This module says
why that is enough. An object of a voice may gain marks, be scaled or be hidden (`Tickable.Later`),
but it never moves and never changes what it stands for. A voice may grow, and bars at its end may
be taken off when it is finished; everything up to its last note stays (`Continues`). Every step of
a session short of a reset continues all voices of all staves under their old numbers
(`Step.continues`).
-/
import Tablature.Proofs.Steps
import Tablature.Proofs.Voices

namespace Tablature

/-! ## Objects -/

/-- What an object of a voice may become: it keeps what it stands for, its marks are only added to,
and a note that is hidden stays hidden. -/
inductive Tickable.Later : Tickable → Tickable → Prop
  | tab (n : TabNote) (ghost : Bool) (hidden : n.ghost → ghost) (multiplier : Ticks)
      (added : List Attached) :
      Later (.tab n) (.tab { n with ghost, multiplier, modifiers := n.modifiers ++ added })
  | staff (n : StaffNote) (multiplier : Ticks) (added : List Attached) :
      Later (.staff n) (.staff { n with multiplier, modifiers := n.modifiers ++ added })
  | bar (type : BarType) : Later (.bar type) (.bar type)
  | spacer (duration : Duration) (multiplier multiplier' : Ticks) :
      Later (.spacer duration multiplier) (.spacer duration multiplier')
  | text (n : TextNote) (multiplier : Ticks) : Later (.text n) (.text { n with multiplier })

namespace Tickable.Later

variable {t u v : Tickable}

theorem refl (t : Tickable) : Later t t := by
  cases t with
  | tab n => simpa using Later.tab n n.ghost id n.multiplier []
  | staff n => simpa using Later.staff n n.multiplier []
  | bar type => exact .bar type
  | spacer duration multiplier => exact .spacer duration multiplier multiplier
  | text n => exact .text n n.multiplier

theorem trans (h : Later t u) (h' : Later u v) : Later t v := by
  cases h with
  | tab n _ hidden _ added =>
      cases h' with
      | tab _ ghost hidden' multiplier added' =>
          simpa using Later.tab n ghost (fun hn => hidden' (hidden hn)) multiplier (added ++ added')
  | staff n _ added =>
      cases h' with
      | staff _ multiplier added' => simpa using Later.staff n multiplier (added ++ added')
  | bar type => exact h'
  | spacer duration multiplier _ =>
      cases h' with
      | spacer _ _ multiplier' => exact .spacer duration multiplier multiplier'
  | text n _ =>
      cases h' with
      | text _ multiplier => exact .text n multiplier

theorem mark (t : Tickable) (index : Nat) (m : Modifier) : Later t (t.mark index m) := by
  cases t with
  | tab n => exact .tab n n.ghost id n.multiplier [⟨index, m⟩]
  | staff n => exact .staff n n.multiplier [⟨index, m⟩]
  | bar type => exact refl _
  | spacer duration multiplier => exact refl _
  | text n => exact refl _

theorem hide (t : Tickable) : Later t t.hide := by
  cases t with
  | tab n => simpa [Tickable.hide] using Later.tab n true (fun _ => rfl) n.multiplier []
  | staff n => exact refl _
  | bar type => exact refl _
  | spacer duration multiplier => exact refl _
  | text n => exact refl _

theorem scaleTicks (t : Tickable) (factor : Ticks) : Later t (t.scaleTicks factor) := by
  cases t with
  | tab n =>
      simpa [Tickable.scaleTicks] using Later.tab n n.ghost id (n.multiplier * factor) []
  | staff n => simpa [Tickable.scaleTicks] using Later.staff n (n.multiplier * factor) []
  | bar type => exact .bar type
  | spacer duration multiplier => exact .spacer duration multiplier _
  | text n => exact .text n _

theorem marks {allows : Tickable → Nat → Modifier → Prop} (h : Marks allows t u) : Later t u := by
  induction h with
  | refl => exact refl t
  | add _ _ ih => exact ih.trans (mark _ _ _)

theorem bar?_eq (h : Later t u) : u.bar? = t.bar? := by
  cases h <;> rfl

end Tickable.Later

/-! ## Voices -/

/-- A place with something other than a bar at it or after it. -/
def Settled (voice : List Tickable) (i : Nat) : Prop :=
  ∃ j t, i ≤ j ∧ voice[j]? = some t ∧ t.bar? = none

theorem Settled.here {voice : List Tickable} {i : Nat} {t : Tickable} (h : voice[i]? = some t)
    (ht : t.bar? = none) : Settled voice i :=
  ⟨i, t, Nat.le_refl i, h, ht⟩

/-- One voice continues another: at every settled place stands what stood there before. -/
def Continues (xs ys : List Tickable) : Prop :=
  ∀ i t, xs[i]? = some t → Settled xs i → ∃ u, ys[i]? = some u ∧ t.Later u

namespace Continues

variable {xs ys zs : List Tickable}

theorem refl (xs : List Tickable) : Continues xs xs := fun _ t ht _ => ⟨t, ht, .refl t⟩

theorem settled (h : Continues xs ys) {i : Nat} (hi : Settled xs i) : Settled ys i := by
  obtain ⟨j, t, hij, ht, hbar⟩ := hi
  obtain ⟨u, hu, hlater⟩ := h j t ht (.here ht hbar)
  exact ⟨j, u, hij, hu, hlater.bar?_eq.trans hbar⟩

theorem trans (h : Continues xs ys) (h' : Continues ys zs) : Continues xs zs := by
  intro i t ht hi
  obtain ⟨u, hu, hlater⟩ := h i t ht hi
  obtain ⟨v, hv, hlater'⟩ := h' i u hu (h.settled hi)
  exact ⟨v, hv, hlater.trans hlater'⟩

theorem of_forall₂ (h : List.Forall₂ Tickable.Later xs ys) : Continues xs ys := by
  intro i t ht _
  exact forall₂_getElem? h ht

theorem append (xs zs : List Tickable) : Continues xs (xs ++ zs) := by
  intro i t ht _
  have hi : i < xs.length := (List.getElem?_eq_some_iff.1 ht).1
  exact ⟨t, by rw [List.getElem?_append_left hi, ht], .refl t⟩

/-- A bar at the end is not settled, so it may be taken off. -/
theorem dropBar {type : BarType} (h : endBar? xs = some type) : Continues xs xs.dropLast := by
  intro i t ht hi
  obtain ⟨j, u, hij, hu, hbar⟩ := hi
  have hj : j < xs.length := (List.getElem?_eq_some_iff.1 hu).1
  have hnotlast : j ≠ xs.length - 1 := by
    intro hlast
    rw [endBar?, List.getLast?_eq_getElem?, ← hlast, hu] at h
    rw [Option.bind_some, hbar] at h
    cases h
  refine ⟨t, ?_, .refl t⟩
  rw [List.dropLast_eq_take, List.getElem?_take, if_pos (by omega), ht]

theorem closed (chain : BendChain) (through : Bool) (xs : List Tickable) :
    Continues xs (chain.close through xs) :=
  .of_forall₂ (chain.forall₂_close .refl .trans (fun t index phrase => .mark t index (.bend phrase))
    .hide through xs)

theorem scaled (count : Nat) (factor : Ticks) (xs : List Tickable) :
    Continues xs (Session.scaleLast count factor xs) := by
  refine .of_forall₂ (forall₂_take_append .refl ?_)
  rw [List.forall₂_map_right_iff]
  exact List.forall₂_same.2 fun t _ => .scaleTicks t factor

theorem marked {allows : Tickable → Nat → Modifier → Prop}
    (h : List.Forall₂ (Marks allows) xs ys) : Continues xs ys :=
  .of_forall₂ (h.imp fun _ _ => .marks)

end Continues

/-! ## Staves -/

/-- One stave continues another: every voice that has a number keeps it and is continued. -/
structure Stave.Continues (a b : Stave) : Prop where
  tab : ∀ v xs, a.tabVoice? v = some xs → ∃ ys, b.tabVoice? v = some ys ∧ Tablature.Continues xs ys
  staff :
    ∀ v xs, a.staffVoice? v = some xs → ∃ ys, b.staffVoice? v = some ys ∧ Tablature.Continues xs ys

/-- The voice in progress continued, the finished voices as they were. -/
theorem continues_inProgress {finished : List (List Tickable)} {notes notes' : List Tickable}
    (h : Continues notes notes') (v : Nat) (xs : List Tickable)
    (hv : (finished ++ [notes])[v]? = some xs) :
    ∃ ys, (finished ++ [notes'])[v]? = some ys ∧ Continues xs ys := by
  rw [List.getElem?_append] at hv ⊢
  split at hv
  · exact ⟨xs, by rw [if_pos ‹_›, hv], .refl xs⟩
  · rw [if_neg ‹_›]
    have hzero : v - finished.length = 0 := by
      have hlt := (List.getElem?_eq_some_iff.1 hv).1
      simpa using hlt
    rw [hzero] at hv ⊢
    cases hv
    exact ⟨notes', rfl, h⟩

/-- The voice in progress finished: it keeps its number; if it is dropped, an empty one has it. -/
theorem continues_finished {finished : List (List Tickable)} {notes : List Tickable} (v : Nat)
    (xs : List Tickable) (hv : (finished ++ [notes])[v]? = some xs) :
    ∃ ys, (Stave.withVoice finished notes ++ [[]])[v]? = some ys ∧ Continues xs ys := by
  unfold Stave.withVoice
  split
  · rename_i hempty
    rw [List.isEmpty_iff.1 hempty] at hv
    exact ⟨xs, hv, .refl xs⟩
  · have hlt := (List.getElem?_eq_some_iff.1 hv).1
    exact ⟨xs, by rw [List.getElem?_append_left hlt, hv], .refl xs⟩

namespace Stave.Continues

theorem refl (a : Stave) : a.Continues a :=
  ⟨fun _ xs h => ⟨xs, h, .refl xs⟩, fun _ xs h => ⟨xs, h, .refl xs⟩⟩

theorem trans {a b c : Stave} (h : a.Continues b) (h' : b.Continues c) : a.Continues c where
  tab := fun v xs hxs => by
    obtain ⟨ys, hys, hcont⟩ := h.tab v xs hxs
    obtain ⟨zs, hzs, hcont'⟩ := h'.tab v ys hys
    exact ⟨zs, hzs, hcont.trans hcont'⟩
  staff := fun v xs hxs => by
    obtain ⟨ys, hys, hcont⟩ := h.staff v xs hxs
    obtain ⟨zs, hzs, hcont'⟩ := h'.staff v ys hys
    exact ⟨zs, hzs, hcont.trans hcont'⟩

/-- A change of the voices in progress alone. -/
theorem inProgress {a b : Stave} (htab : b.tabVoices = a.tabVoices)
    (hstaff : b.staffVoices = a.staffVoices) (tab : Tablature.Continues a.tabNotes b.tabNotes)
    (staff : Tablature.Continues a.staffNotes b.staffNotes) : a.Continues b where
  tab := fun v xs h => by
    rw [Stave.tabVoice?, htab]
    exact continues_inProgress tab v xs h
  staff := fun v xs h => by
    rw [Stave.staffVoice?, hstaff]
    exact continues_inProgress staff v xs h

theorem push (a : Stave) (onTab onStaff : Tickable) : a.Continues (a.push onTab onStaff) := by
  refine .inProgress rfl rfl (.append _ _) ?_
  unfold Stave.push
  dsimp only
  split
  · exact .append _ _
  · exact .refl _

theorem closeVoice (a : Stave) : a.Continues a.closeVoice :=
  ⟨continues_finished, continues_finished⟩

theorem finishTab (a : Stave) : a.Continues a.finishTab := by
  unfold Stave.finishTab
  split
  · exact .inProgress rfl rfl (.dropBar ‹_›) (.refl _)
  · exact .refl a

theorem finishStaff (a : Stave) : a.Continues a.finishStaff := by
  unfold Stave.finishStaff
  split
  · exact .inProgress rfl rfl (.refl _) (.dropBar ‹_›)
  · exact .refl a

theorem finish (a : Stave) : a.Continues a.finish :=
  ((finishTab a).trans (finishStaff _)).trans (closeVoice _)

/-- Whatever happens to a stave continues its voices. -/
theorem step {idle : Prop} {a b : Stave} (h : StaveStep idle a b) : a.Continues b := by
  cases h with
  | texts voices => exact .inProgress rfl rfl (.refl _) (.refl _)
  | bar type => exact .push a _ _
  | rest session key => exact .push a _ _
  | note session entries hne => exact .push a _ _
  | markTab h => exact .inProgress rfl rfl (.marked h) (.refl _)
  | markStaff h => exact .inProgress rfl rfl (.refl _) (.marked h)
  | scale count factor =>
      exact .inProgress rfl rfl (.scaled count factor _) (.scaled count factor _)
  | closeChain chain through => exact .inProgress rfl rfl (.closed chain through _) (.refl _)
  | closeVoice => exact .closeVoice a
  | finish => exact .finish a

end Stave.Continues

/-! ## Scores -/

/-- A stave by its number: one of the earlier ones, or the active one. -/
theorem Score.staves_eq_some {s : Score} {i : Nat} {a : Stave} :
    s.staves[i]? = some a ↔
      s.earlier[i]? = some a ∨ (i = s.earlier.length ∧ s.active = some a) := by
  unfold Score.staves
  rcases Nat.lt_trichotomy i s.earlier.length with hlt | rfl | hlt
  · rw [List.getElem?_append_left hlt]
    simp [Nat.ne_of_lt hlt]
  · rw [List.getElem?_append_right (Nat.le_refl _), Nat.sub_self]
    cases s.active <;> simp
  · rw [List.getElem?_append_right (Nat.le_of_lt hlt)]
    have hrest : s.active.toList[i - s.earlier.length]? = none := by
      have hlength : s.active.toList.length ≤ 1 := by cases s.active <;> simp
      exact List.getElem?_eq_none (by omega)
    simp [hrest, Nat.ne_of_gt hlt, Nat.le_of_lt hlt]

theorem Score.mem_staves {s : Score} {a : Stave} :
    a ∈ s.staves ↔ a ∈ s.earlier ∨ s.active = some a := by
  rw [Score.staves, List.mem_append, Option.mem_toList]

/-! ### What holds of every stave -/

namespace Score

variable {P : Stave → Prop} {s : Score}

theorem forall_active {a b : Stave} (ha : s.active = some a) (hb : P a → P b)
    (h : ∀ stave ∈ s.staves, P stave) :
    ∀ stave ∈ ({ s with active := some b } : Score).staves, P stave := by
  intro stave hmem
  rcases mem_staves.1 hmem with hearlier | hactive
  · exact h stave (mem_staves.2 (.inl hearlier))
  · cases hactive
    exact hb (h a (mem_staves.2 (.inr ha)))

theorem forall_addStave {a : Stave} (ha : P a) (h : ∀ stave ∈ s.staves, P stave) :
    ∀ stave ∈ (s.addStave a).staves, P stave := by
  intro stave hmem
  rcases mem_staves.1 hmem with hearlier | hactive
  · exact h stave hearlier
  · cases hactive
    exact ha

theorem forall_onEvery {f : Stave → Stave} (hf : ∀ a, P a → P (f a))
    (h : ∀ stave ∈ s.staves, P stave) : ∀ stave ∈ (s.onEvery f).staves, P stave := by
  rw [staves_onEvery]
  exact List.forall_mem_map.2 fun a ha => hf a (h a ha)

end Score

/-! ### Scores that go on -/

/-- One score continues another: every stave keeps its number and is continued. -/
def Score.Continues (s t : Score) : Prop :=
  ∀ (i : Nat) a, s.staves[i]? = some a → ∃ b, t.staves[i]? = some b ∧ a.Continues b

namespace Score.Continues

variable {s t : Score}

theorem of_staves (h : t.staves = s.staves) : s.Continues t :=
  fun _ a ha => ⟨a, by rw [h, ha], .refl a⟩

theorem active {a b : Stave} (ha : s.active = some a) (h : a.Continues b) :
    s.Continues { s with active := some b } := by
  intro i c hc
  rcases Score.staves_eq_some.1 hc with hearlier | ⟨hi, hactive⟩
  · exact ⟨c, Score.staves_eq_some.2 (.inl hearlier), .refl c⟩
  · rw [ha] at hactive
    cases hactive
    exact ⟨b, Score.staves_eq_some.2 (.inr ⟨hi, rfl⟩), h⟩

theorem addStave (s : Score) (stave : Stave) : s.Continues (s.addStave stave) := by
  intro i a ha
  have hi : i < s.staves.length := (List.getElem?_eq_some_iff.1 ha).1
  refine ⟨a, ?_, .refl a⟩
  show (s.staves ++ [stave])[i]? = some a
  rw [List.getElem?_append_left hi, ha]

theorem onEvery {f : Stave → Stave} (h : ∀ a : Stave, a.Continues (f a)) (s : Score) :
    s.Continues (s.onEvery f) := by
  intro i a ha
  exact ⟨f a, by rw [Score.staves_onEvery, List.getElem?_map, ha, Option.map_some], h a⟩

/-- The objects that an address resolves to before and after. -/
theorem tabNote? (h : s.Continues t) {r : NoteRef} {x : Tickable} (hx : s.tabNote? r = some x)
    (hbar : x.bar? = none) : ∃ y, t.tabNote? r = some y ∧ x.Later y := by
  simp only [Score.tabNote?, Option.bind_eq_some_iff] at hx ⊢
  obtain ⟨xs, ⟨a, ha, hxs⟩, hx⟩ := hx
  obtain ⟨b, hb, hab⟩ := h r.stave a ha
  obtain ⟨ys, hys, hcont⟩ := hab.tab r.voice xs hxs
  obtain ⟨y, hy, hlater⟩ := hcont r.index x hx (.here hx hbar)
  exact ⟨y, ⟨ys, ⟨b, hb, hys⟩, hy⟩, hlater⟩

theorem staffNote? (h : s.Continues t) {r : NoteRef} {x : Tickable} (hx : s.staffNote? r = some x)
    (hbar : x.bar? = none) : ∃ y, t.staffNote? r = some y ∧ x.Later y := by
  simp only [Score.staffNote?, Option.bind_eq_some_iff] at hx ⊢
  obtain ⟨xs, ⟨a, ha, hxs⟩, hx⟩ := hx
  obtain ⟨b, hb, hab⟩ := h r.stave a ha
  obtain ⟨ys, hys, hcont⟩ := hab.staff r.voice xs hxs
  obtain ⟨y, hy, hlater⟩ := hcont r.index x hx (.here hx hbar)
  exact ⟨y, ⟨ys, ⟨b, hb, hys⟩, hy⟩, hlater⟩

/-- Before a note that stays nothing new appears: what stands there afterwards stood there. -/
theorem tabNote?_before (h : s.Continues t) {r : NoteRef} {x y : Tickable} {i : Nat}
    (hx : s.tabNote? r = some x) (hbar : x.bar? = none) (hi : i < r.index)
    (hy : t.tabNote? { r with index := i } = some y) :
    ∃ z, s.tabNote? { r with index := i } = some z ∧ z.Later y := by
  simp only [Score.tabNote?, Option.bind_eq_some_iff] at hx hy ⊢
  obtain ⟨xs, ⟨a, ha, hxs⟩, hx⟩ := hx
  obtain ⟨b, hb, hab⟩ := h r.stave a ha
  obtain ⟨ys, hys, hcont⟩ := hab.tab r.voice xs hxs
  obtain ⟨ys', ⟨b', hb', hys'⟩, hy⟩ := hy
  rw [hb] at hb'
  cases hb'
  rw [hys] at hys'
  cases hys'
  -- The place is before a note that was there, so it was taken, and what took it stays.
  have hlt : i < xs.length := Nat.lt_trans hi (List.getElem?_eq_some_iff.1 hx).1
  obtain ⟨u, hu, hlater⟩ :=
    hcont i xs[i] (List.getElem?_eq_getElem hlt) ⟨r.index, x, Nat.le_of_lt hi, hx, hbar⟩
  rw [hy] at hu
  cases hu
  exact ⟨xs[i], ⟨xs, ⟨a, ha, hxs⟩, List.getElem?_eq_getElem hlt⟩, hlater⟩

end Score.Continues

/-! ## Sessions -/

/-- The objects of the voice in progress by their addresses. -/
theorem Session.tabNote?_tabAddress {s : Session} {a : Stave} (ha : s.score.active = some a)
    (i : Nat) : s.score.tabNote? (s.tabAddress a i) = a.tabNotes[i]? := by
  simp [Score.tabNote?, tabAddress, Score.staves, ha, Stave.tabVoice?]

theorem Session.continues_closeBends (s : Session) (through : Bool) :
    s.score.Continues (s.closeBends through).score := by
  unfold Session.closeBends
  split
  · exact .of_staves rfl
  · rename_i chain _
    cases ha : s.score.active with
    | none =>
        refine .of_staves ?_
        simp [Session.onTabNotes, Session.onActive, Score.onActive, Score.staves, ha]
    | some a =>
        have ha' : ({ s with bend := none } : Session).score.active = some a := ha
        rw [Session.onTabNotes_eq ha']
        exact .active ha (.inProgress rfl rfl (.closed chain through _) (.refl _))

/-- **What is written stays.** A step either starts the session anew or continues its score. -/
theorem Step.continues {s t : Session} (h : Step s t) :
    t = s.reset ∨ s.score.Continues t.score := by
  cases h with
  | quiet h => exact .inr (.of_staves (by simp [Score.staves, h.earlier, h.active]))
  | stave ha h => exact .inr (.active ha (.step h))
  | openStave tab staff beamGroups _ => exact .inr (.addStave s.score _)
  | closeBends through => exact .inr (s.continues_closeBends through)
  | openBends hspan hne =>
      refine .inr (.of_staves ?_)
      rw [Session.score_openBends]
  | linkTab => exact .inr (.of_staves rfl)
  | linkStaff => exact .inr (.of_staves rfl)
  | bracketTab => exact .inr (.of_staves rfl)
  | bracketStaff => exact .inr (.of_staves rfl)
  | finish => exact .inr (.onEvery .finish s.score)
  | reset => exact .inl rfl

end Tablature
