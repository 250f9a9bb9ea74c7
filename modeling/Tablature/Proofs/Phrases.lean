/-
# Tablature.Proofs.Phrases — which transitions a bend chain gathers.

A chain is extended by hops, from the nearest visible note to a note with bent strings. It pairs
the positions that it was opened with, the bent positions of the one note and those of the other
by their places in three lists, and each of these lists is in the order of its own note
(`Hop.stepAt?`). What a phrase should hold is said by strings: the transitions of the string of
its position, from the fret that the one note has on it to the fret of the other (`Hop.bend?`).
The two agree if the bent strings of every hop are, on both notes, the first ones of one list
(`Hop.stepAt?_eq_bend?`).
-/
import Tablature.Proofs.Pairing

namespace Tablature

open TabPosition (strings placesOn)

/-! ## Phrases by position -/

namespace BendChain

/-- The transitions that phrases have at a position. -/
def stepsAt (phrases : List (Nat × List BendStep)) (index : Nat) : List BendStep :=
  (phrases.filter (·.1 == index)).flatMap (·.2)

/-- Phrases that hold the transitions of every position that has some. -/
structure Gathers (steps : Nat → List BendStep) (phrases : List (Nat × List BendStep)) : Prop where
  rising : phrases.Pairwise fun p q => p.1 < q.1
  nonempty : ∀ p ∈ phrases, p.2 ≠ []
  stepsAt : ∀ i, stepsAt phrases i = steps i

variable {phrases : List (Nat × List BendStep)} {p : Nat × List BendStep} {index : Nat}
  {step : BendStep}

theorem stepsAt_cons (p : Nat × List BendStep) (phrases : List (Nat × List BendStep)) (i : Nat) :
    stepsAt (p :: phrases) i = (if p.1 = i then p.2 else []) ++ stepsAt phrases i := by
  unfold stepsAt
  by_cases h : p.1 = i
  · rw [List.filter_cons_of_pos (by simpa using h), List.flatMap_cons, if_pos h]
  · rw [List.filter_cons_of_neg (by simpa using h), if_neg h, List.nil_append]

theorem stepsAt_of_forall_ne (h : ∀ q ∈ phrases, q.1 ≠ index) : stepsAt phrases index = [] := by
  have hnil : phrases.filter (·.1 == index) = [] :=
    List.filter_eq_nil_iff.2 fun q hq => by simpa using h q hq
  rw [stepsAt, hnil, List.flatMap_nil]

theorem stepsAt_of_mem (h : phrases.Pairwise fun p q => p.1 < q.1) (hp : p ∈ phrases) :
    stepsAt phrases p.1 = p.2 := by
  induction h with
  | nil => cases hp
  | @cons q phrases hfirst _ ih =>
      rw [stepsAt_cons]
      rcases List.mem_cons.1 hp with rfl | hp
      · rw [if_pos rfl, stepsAt_of_forall_ne fun r hr => (hfirst r hr).ne', List.append_nil]
      · rw [if_neg (hfirst p hp).ne, ih hp, List.nil_append]

theorem fst_of_mem_insertStep (hp : p ∈ insertStep index step phrases) :
    p.1 = index ∨ ∃ q ∈ phrases, p.1 = q.1 := by
  induction phrases with
  | nil => exact .inl (by rw [List.mem_singleton.1 hp])
  | cons q phrases ih =>
      obtain ⟨other, steps⟩ := q
      have known {r : Nat × List BendStep} (hr : r ∈ (other, steps) :: phrases) (heq : p.1 = r.1) :
          p.1 = index ∨ ∃ q ∈ (other, steps) :: phrases, p.1 = q.1 := .inr ⟨r, hr, heq⟩
      rw [insertStep] at hp
      split at hp
      · rcases List.mem_cons.1 hp with rfl | hp
        · exact .inl rfl
        · exact known hp rfl
      · split at hp
        · rcases List.mem_cons.1 hp with rfl | hp
          · exact known List.mem_cons_self rfl
          · exact known (List.mem_cons_of_mem _ hp) rfl
        · rcases List.mem_cons.1 hp with rfl | hp
          · exact known List.mem_cons_self rfl
          · rcases ih hp with hindex | ⟨r, hr, heq⟩
            · exact .inl hindex
            · exact known (List.mem_cons_of_mem _ hr) heq

theorem rising_insertStep (h : phrases.Pairwise fun p q => p.1 < q.1) :
    (insertStep index step phrases).Pairwise fun p q => p.1 < q.1 := by
  induction h with
  | nil => exact List.pairwise_singleton _ _
  | @cons q phrases hfirst hrest ih =>
      obtain ⟨other, steps⟩ := q
      rw [insertStep]
      split
      · rename_i hlt
        refine .cons (fun r hr => ?_) (.cons hfirst hrest)
        rcases List.mem_cons.1 hr with rfl | hr
        · exact hlt
        · exact Nat.lt_trans hlt (hfirst r hr)
      · split
        · exact .cons hfirst hrest
        · refine .cons (fun r hr => ?_) ih
          rcases fst_of_mem_insertStep hr with heq | ⟨s, hs, heq⟩
          · dsimp only
            omega
          · exact heq ▸ hfirst s hs

theorem nonempty_insertStep (h : ∀ p ∈ phrases, p.2 ≠ []) :
    ∀ p ∈ insertStep index step phrases, p.2 ≠ [] := by
  induction phrases with
  | nil =>
      intro p hp
      rw [List.mem_singleton.1 hp]
      exact List.cons_ne_nil _ _
  | cons q phrases ih =>
      obtain ⟨other, steps⟩ := q
      intro p hp
      rw [insertStep] at hp
      split at hp
      · rcases List.mem_cons.1 hp with rfl | hp
        · exact List.cons_ne_nil _ _
        · exact h p hp
      · split at hp
        · rcases List.mem_cons.1 hp with rfl | hp
          · exact List.append_ne_nil_of_right_ne_nil _ (List.cons_ne_nil _ _)
          · exact h p (List.mem_cons_of_mem _ hp)
        · rcases List.mem_cons.1 hp with rfl | hp
          · exact h _ List.mem_cons_self
          · exact ih (fun r hr => h r (List.mem_cons_of_mem _ hr)) p hp

theorem stepsAt_insertStep (h : phrases.Pairwise fun p q => p.1 < q.1) (i : Nat) :
    stepsAt (insertStep index step phrases) i =
      stepsAt phrases i ++ if i = index then [step] else [] := by
  induction h with
  | nil =>
      rw [insertStep, stepsAt_cons]
      by_cases hi : i = index
      · rw [if_pos hi.symm, if_pos hi]
        rfl
      · rw [if_neg (Ne.symm hi), if_neg hi]
        rfl
  | @cons q phrases hfirst _ ih =>
      obtain ⟨other, steps⟩ := q
      rw [insertStep]
      split
      · -- Every phrase that there is belongs to a later position.
        rename_i hlt
        rw [stepsAt_cons]
        by_cases hi : i = index
        · rw [if_pos hi.symm, if_pos hi, stepsAt_of_forall_ne]
          · rfl
          · intro r hr
            rcases List.mem_cons.1 hr with rfl | hr
            · dsimp only
              omega
            · have := hfirst r hr
              dsimp only at this
              omega
        · rw [if_neg (Ne.symm hi), if_neg hi, List.nil_append, List.append_nil]
      · split
        · rename_i _ heq
          subst heq
          rw [stepsAt_cons, stepsAt_cons]
          by_cases hi : i = index
          · rw [if_pos hi.symm, if_pos hi.symm, if_pos hi, hi,
              stepsAt_of_forall_ne fun r hr => (hfirst r hr).ne', List.append_nil, List.append_nil]
          · rw [if_neg (Ne.symm hi), if_neg (Ne.symm hi), if_neg hi, List.append_nil]
        · rw [stepsAt_cons, stepsAt_cons, ih, List.append_assoc]

namespace Gathers

variable {steps : Nat → List BendStep}

theorem eq_of_mem (h : Gathers steps phrases) (hp : p ∈ phrases) : p.2 = steps p.1 := by
  rw [← h.stepsAt, stepsAt_of_mem h.rising hp]

theorem mem_of_ne (h : Gathers steps phrases) {i : Nat} (hi : steps i ≠ []) :
    (i, steps i) ∈ phrases := by
  have hsome : ∃ q ∈ phrases, q.1 = i := by
    by_contra hnone
    refine hi ((h.stepsAt i).symm.trans (stepsAt_of_forall_ne fun q hq heq => ?_))
    exact hnone ⟨q, hq, heq⟩
  obtain ⟨⟨j, phrase⟩, hq, rfl⟩ := hsome
  exact h.eq_of_mem hq ▸ hq

theorem eq_nil_iff (h : Gathers steps phrases) : phrases = [] ↔ ∀ i, steps i = [] := by
  constructor
  · rintro rfl i
    exact (h.stepsAt i).symm
  · intro hall
    refine List.eq_nil_iff_forall_not_mem.2 fun p hp => h.nonempty p hp ?_
    rw [h.eq_of_mem hp, hall]

theorem congr (h : Gathers steps phrases) {steps' : Nat → List BendStep}
    (heq : ∀ i, steps' i = steps i) : Gathers steps' phrases :=
  ⟨h.rising, h.nonempty, fun i => (h.stepsAt i).trans (heq i).symm⟩

/-- One more transition at a position. -/
theorem insertStep (h : Gathers steps phrases) (index : Nat) (step : BendStep) :
    Gathers (fun i => steps i ++ if i = index then [step] else [])
      (BendChain.insertStep index step phrases) where
  rising := rising_insertStep h.rising
  nonempty := nonempty_insertStep h.nonempty
  stepsAt := fun i => by rw [stepsAt_insertStep h.rising, h.stepsAt]

end Gathers

end BendChain

/-! ## Orders of strings -/

theorem getElem?_of_prefix {α : Type} {xs ys : List α} (h : xs <+: ys) {k : Nat} {a : α}
    (hk : xs[k]? = some a) : ys[k]? = some a := by
  obtain ⟨rest, rfl⟩ := h
  rw [List.getElem?_append_left (List.getElem?_eq_some_iff.1 hk).1, hk]

namespace TabPosition

theorem nodup_placesOn (linked : List Nat) (positions : List TabPosition) :
    (placesOn linked positions).Nodup :=
  (pairwise_indicesWhere _ positions 0).imp Nat.ne_of_lt

theorem exists_placesOn {linked : List Nat} {positions : List TabPosition} {k string : Nat}
    (hk : ((strings positions).filter linked.contains)[k]? = some string) :
    ∃ place, (placesOn linked positions)[k]? = some place ∧
      (strings positions)[place]? = some string := by
  have hlt := (List.getElem?_eq_some_iff.1 hk).1
  rw [← length_placesOn] at hlt
  have hplace : (placesOn linked positions)[k]? = some _ := List.getElem?_eq_getElem hlt
  exact ⟨_, hplace, (string_placesOn hplace).trans hk⟩

end TabPosition

/-! ## Hops -/

/-- The positions of two notes that a bend may connect, and the strings that are bent on the second
note. -/
structure Hop where
  before : List TabPosition
  after : List TabPosition
  bent : List Nat
  deriving DecidableEq, Repr

namespace Hop

/-- The fret number at a place. -/
def fretAt? (positions : List TabPosition) (place : Nat) : Option Nat :=
  (positions[place]?).bind fun position => position.fret.number?

/-- The fret number on a string. -/
def fretOn? (positions : List TabPosition) (string : Nat) : Option Nat :=
  (positions.find? (·.string == string)).bind fun position => position.fret.number?

/-- The transition between two frets, if there are both. -/
def step? : Option Nat → Option Nat → Option BendStep
  | some start, some stop => some (.between start stop)
  | _, _ => none

/-- The bent strings that both notes have, in the order of the first. -/
def linked (h : Hop) : List Nat := (strings h.before).filter h.bent.contains

/-- The linked strings in the order of the second note. -/
def reached (h : Hop) : List Nat := (strings h.after).filter h.linked.contains

/-- **The transition of a string**: from its fret on the first note to its fret on the second, if it
is bent there. -/
def bend? (h : Hop) (string : Nat) : Option BendStep :=
  if h.bent.contains string then step? (fretOn? h.before string) (fretOn? h.after string) else none

/-- The transition that belongs to an anchor when three lists of places are paired. -/
def pairedStep? (h : Hop) : (anchors sources targets : List Nat) → (anchor : Nat) → Option BendStep
  | anchor :: anchors, source :: sources, target :: targets, place =>
      if place = anchor then step? (fretAt? h.before source) (fretAt? h.after target)
      else h.pairedStep? anchors sources targets place
  | _, _, _, _ => none

/-- **The transition that a chain gets at a position**, when it was opened with some. -/
def stepAt? (h : Hop) (anchors : List Nat) (anchor : Nat) : Option BendStep :=
  h.pairedStep? anchors (placesOn h.linked h.before) (placesOn h.linked h.after) anchor

/-- Does the hop lead nowhere? -/
def Silent (h : Hop) : Prop := ∀ anchor, h.stepAt? (placesOn h.linked h.before) anchor = none

variable {h : Hop}

theorem pairedStep?_of_not_mem {anchors sources targets : List Nat} {anchor : Nat}
    (ha : anchor ∉ anchors) : h.pairedStep? anchors sources targets anchor = none := by
  induction anchors generalizing sources targets with
  | nil => rfl
  | cons a anchors ih =>
      cases sources with
      | nil => rfl
      | cons s sources =>
          cases targets with
          | nil => rfl
          | cons t targets =>
              have hne : anchor ≠ a := fun heq => ha (heq ▸ List.mem_cons_self)
              rw [pairedStep?, if_neg hne]
              exact ih fun hmem => ha (List.mem_cons_of_mem a hmem)

theorem stepAt?_of_linked_nil (hnil : h.linked = []) (anchors : List Nat) (anchor : Nat) :
    h.stepAt? anchors anchor = none := by
  have hplaces (positions : List TabPosition) : placesOn [] positions = [] := by
    refine List.eq_nil_iff_forall_not_mem.2 fun i hi => ?_
    obtain ⟨_, _, _, _, hq⟩ := mem_indicesWhere.1 hi
    cases hq
  rw [stepAt?, hnil, hplaces]
  cases anchors <;> rfl

theorem transition?_eq {first last : TabNote} (hfirst : first.positions = h.before)
    (hlast : last.positions = h.after) (source target : Nat) :
    BendChain.transition? first last source target =
      step? (fretAt? h.before source) (fretAt? h.after target) := by
  rw [← hfirst, ← hlast]
  rfl

/-- **What a hop adds to a chain**: the paired transitions, each at its anchor. -/
theorem gathers_transitions {first last : TabNote} (hfirst : first.positions = h.before)
    (hlast : last.positions = h.after) {anchors : List Nat} (hnodup : anchors.Nodup)
    (sources targets : List Nat) {chain : BendChain} {steps : Nat → List BendStep}
    (hchain : BendChain.Gathers steps chain.phrases) :
    BendChain.Gathers (fun i => steps i ++ (h.pairedStep? anchors sources targets i).toList)
      ((BendChain.transitions first last anchors sources targets).foldl BendChain.addStep
        chain).phrases := by
  induction anchors generalizing sources targets chain steps with
  | nil => exact hchain.congr fun i => List.append_nil _
  | cons a anchors ih =>
      obtain ⟨ha, hnodup⟩ := List.nodup_cons.1 hnodup
      cases sources with
      | nil => exact hchain.congr fun i => List.append_nil _
      | cons s sources =>
          cases targets with
          | nil => exact hchain.congr fun i => List.append_nil _
          | cons t targets =>
              have hlater : h.pairedStep? anchors sources targets a = none :=
                pairedStep?_of_not_mem ha
              rw [BendChain.transitions, transition?_eq hfirst hlast]
              cases hstep : step? (fretAt? h.before s) (fretAt? h.after t) with
              | none =>
                  refine (ih hnodup sources targets hchain).congr fun i => ?_
                  rw [pairedStep?, hstep]
                  by_cases hi : i = a
                  · rw [hi, if_pos rfl, hlater]
                  · rw [if_neg hi]
              | some step =>
                  have hadded : BendChain.Gathers (fun i => steps i ++ if i = a then [step] else [])
                      (chain.addStep (a, step)).phrases := hchain.insertStep a step
                  refine (ih hnodup sources targets hadded).congr fun i => ?_
                  rw [pairedStep?, hstep]
                  by_cases hi : i = a
                  · rw [if_pos hi, if_pos hi, hi, hlater]
                    exact (List.append_nil _).symm
                  · rw [if_neg hi, if_neg hi, List.append_nil]

/-! ## Transitions of strings -/

theorem fretOn?_eq_fretAt? {positions : List TabPosition} (hnodup : (strings positions).Nodup)
    {place string : Nat} (h : (strings positions)[place]? = some string) :
    fretOn? positions string = fretAt? positions place := by
  induction positions generalizing place with
  | nil => cases h
  | cons q positions ih =>
      obtain ⟨hq, hrest⟩ := List.nodup_cons.1 hnodup
      cases place with
      | zero =>
          cases h
          rw [fretOn?, List.find?_cons_of_pos (by simp)]
          rfl
      | succ place =>
          have hlater : string ∈ strings positions := List.mem_of_getElem? h
          have hne : q.string ≠ string := by
            rintro rfl
            exact hq hlater
          rw [fretOn?, List.find?_cons_of_neg (by simpa using hne)]
          exact ih hrest h

theorem bend?_of_not_mem {string : Nat} (hstring : string ∉ h.linked) : h.bend? string = none := by
  unfold bend?
  split
  · rename_i hbent
    have hnone : h.before.find? (·.string == string) = none := by
      refine List.find?_eq_none.2 fun q hq heq => hstring ?_
      rw [beq_iff_eq] at heq
      exact List.mem_filter.2 ⟨List.mem_map.2 ⟨q, hq, heq⟩, hbent⟩
    rw [fretOn?, hnone]
    rfl
  · rfl

theorem bend?_of_mem {string : Nat} (hstring : string ∈ h.linked) :
    h.bend? string = step? (fretOn? h.before string) (fretOn? h.after string) :=
  if_pos (List.mem_filter.1 hstring).2

/-- The transition of an anchor is found at its place in the three lists. -/
theorem pairedStep?_getElem? {anchors : List Nat} (hnodup : anchors.Nodup)
    (sources targets : List Nat) {k anchor : Nat} (hk : anchors[k]? = some anchor) :
    h.pairedStep? anchors sources targets anchor =
      (sources[k]?).bind fun source => (targets[k]?).bind fun target =>
        step? (fretAt? h.before source) (fretAt? h.after target) := by
  induction anchors generalizing sources targets k with
  | nil => cases hk
  | cons a anchors ih =>
      obtain ⟨ha, hnodup⟩ := List.nodup_cons.1 hnodup
      cases sources with
      | nil => rfl
      | cons s sources =>
          cases targets with
          | nil => simp [pairedStep?]
          | cons t targets =>
              cases k with
              | zero =>
                  cases hk
                  exact if_pos rfl
              | succ k =>
                  have hne : anchor ≠ a := by
                    rintro rfl
                    exact ha (List.mem_of_getElem? hk)
                  rw [pairedStep?, if_neg hne]
                  exact ih hnodup sources targets hk

theorem filter_linked (h : Hop) : (strings h.before).filter h.linked.contains = h.linked := by
  refine List.filter_congr fun string hstring => ?_
  rw [Bool.eq_iff_iff, List.contains_iff_mem]
  exact ⟨fun hlinked => (List.mem_filter.1 hlinked).2,
    fun hbent => List.mem_filter.2 ⟨hstring, hbent⟩⟩

/-- No string twice on either note. -/
structure Clear (h : Hop) : Prop where
  before : (strings h.before).Nodup
  after : (strings h.after).Nodup

instance (h : Hop) : Decidable h.Clear :=
  decidable_of_iff ((strings h.before).Nodup ∧ (strings h.after).Nodup)
    ⟨fun ⟨before, after⟩ => ⟨before, after⟩, fun h => ⟨h.before, h.after⟩⟩

/-- **What a chain gets at a position, by strings**: the frets belong to the strings that stand at
the same place among the linked strings of either note. -/
theorem stepAt?_eq (hclear : h.Clear) {anchors : List Nat} (hnodup : anchors.Nodup) {k anchor : Nat}
    (hk : anchors[k]? = some anchor) :
    h.stepAt? anchors anchor =
      (h.linked[k]?).bind fun source => (h.reached[k]?).bind fun target =>
        step? (fretOn? h.before source) (fretOn? h.after target) := by
  have fretAt {positions : List TabPosition} (hpositions : (strings positions).Nodup) :
      ((placesOn h.linked positions)[k]?).map (fretAt? positions) =
        (((strings positions).filter h.linked.contains)[k]?).map (fretOn? positions) := by
    cases hplace : (placesOn h.linked positions)[k]? with
    | none =>
        rw [List.getElem?_eq_none_iff, TabPosition.length_placesOn] at hplace
        rw [List.getElem?_eq_none hplace]
        rfl
    | some place =>
        have hstring := TabPosition.string_placesOn hplace
        have hlt := (List.getElem?_eq_some_iff.1 hplace).1
        rw [TabPosition.length_placesOn] at hlt
        rw [List.getElem?_eq_getElem hlt] at hstring ⊢
        exact congrArg some (fretOn?_eq_fretAt? hpositions hstring).symm
  have hsource := fretAt hclear.before
  have htarget := fretAt hclear.after
  rw [filter_linked] at hsource
  have both (f g : Nat → Option Nat) (source target : Option Nat) :
      (source.bind fun a => target.bind fun b => step? (f a) (g b)) =
        (source.map f).bind fun a => (target.map g).bind fun b => step? a b := by
    cases source <;> cases target <;> rfl
  rw [stepAt?, pairedStep?_getElem? hnodup _ _ hk, both, hsource, htarget, ← both]
  rfl

/-- A hop that follows an order of strings: the linked strings are the first ones of it, and both
notes have them in this order. -/
structure Follows (h : Hop) (order : List Nat) : Prop where
  linked : h.linked <+: order
  reached : h.reached = h.linked

instance (h : Hop) (order : List Nat) : Decidable (h.Follows order) :=
  decidable_of_iff (h.linked <+: order ∧ h.reached = h.linked)
    ⟨fun ⟨linked, reached⟩ => ⟨linked, reached⟩, fun h => ⟨h.linked, h.reached⟩⟩

/-- **Where a chain pairs strings rightly**: when it was opened with the first strings of an
order, it gets from every hop that follows the order, at each of its positions, the transition of
the string. -/
theorem stepAt?_eq_bend? (hclear : h.Clear) {order opened : List Nat} (horder : order.Nodup)
    (hopened : opened <+: order) (hfollows : h.Follows order) {anchors : List Nat}
    (hnodup : anchors.Nodup) {k anchor string : Nat} (hk : anchors[k]? = some anchor)
    (hstring : opened[k]? = some string) : h.stepAt? anchors anchor = h.bend? string := by
  have hplace : order[k]? = some string := getElem?_of_prefix hopened hstring
  rw [stepAt?_eq hclear hnodup hk, hfollows.reached]
  cases hlinked : h.linked[k]? with
  | none =>
      -- The string stands only at its own place of the order, and so many are not linked.
      refine (bend?_of_not_mem fun hmem => ?_).symm
      obtain ⟨j, hj⟩ := List.mem_iff_getElem?.1 hmem
      have hplace' : order[j]? = some string := getElem?_of_prefix hfollows.linked hj
      have hjk : j = k := (List.getElem?_inj (List.getElem?_eq_some_iff.1 hplace').1 horder).1
        (hplace'.trans hplace.symm)
      rw [hjk, hlinked] at hj
      cases hj
  | some source =>
      have hsource : order[k]? = some source :=
        getElem?_of_prefix hfollows.linked hlinked
      cases hsource.symm.trans hplace
      exact (bend?_of_mem (List.mem_of_getElem? hlinked)).symm

theorem nodup_linked (hclear : h.Clear) : h.linked.Nodup := hclear.before.filter _

/-- A hop that leads nowhere and has its strings in one order has no transition of any string. -/
theorem bend?_of_silent (hclear : h.Clear) (hreached : h.reached = h.linked) (hsilent : h.Silent)
    (string : Nat) : h.bend? string = none := by
  by_cases hmem : string ∈ h.linked
  · obtain ⟨k, hk⟩ := List.mem_iff_getElem?.1 hmem
    obtain ⟨place, hplace, -⟩ := TabPosition.exists_placesOn (h.filter_linked.symm ▸ hk)
    rw [← stepAt?_eq_bend? hclear (nodup_linked hclear) List.prefix_rfl
      ⟨List.prefix_rfl, hreached⟩ (TabPosition.nodup_placesOn _ _) hplace hk]
    exact hsilent place
  · exact bend?_of_not_mem hmem

end Hop

end Tablature
