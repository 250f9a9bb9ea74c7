/-
# Tablature.Proofs.ChordOrder — in which order a chord is engraved.

The entries of a chord are resolved one after the other, and engraved slot by slot. The two orders
agree exactly when the places of the entries never fall (`arrange_of_isChain`), which can be seen
from the strings: once a string is repeated, the chord has to stay on it (`KeepsOrder`). Otherwise a
new run starts behind a melody, and its first entry is engraved before entries that were resolved
before it (`exists_fall`).
-/
import Mathlib.Data.List.Chain
import Mathlib.Data.List.Forall2
import Tablature.Proofs.ChordSlots

namespace Tablature

/-- The entry is a fret on a string, without a pitch letter. -/
def NoteEntry.IsFretOn (e : NoteEntry) (string : Nat) : Prop :=
  e.letterPitch = none ∧ e.fret.isSome ∧ e.string = some string

namespace Chord

/-! ## The order of the slots -/

/-- Values of the entries of a chord in the order in which its slots hold them. -/
def arrange {α : Type} (places : List Nat) (values : List α) : List α :=
  (List.range (places.foldl (fun count place => max count (place + 1)) 0)).flatMap fun place =>
    ((places.zip values).filter (·.1 == place)).map (·.2)

theorem map_arrange {α β : Type} (f : α → β) (places : List Nat) (values : List α) :
    (arrange places values).map f = arrange places (values.map f) := by
  simp only [arrange, List.map_flatMap]
  congr 1
  funext place
  rw [List.map_map, List.zip_map_right, List.filter_map, List.map_map]
  rfl

/-- Arranging looks at places only, so values that are related stay so. -/
theorem forall₂_arrange {α β : Type} {R : α → β → Prop} {xs : List α} {ys : List β}
    (h : List.Forall₂ R xs ys) (places : List Nat) :
    List.Forall₂ R (arrange places xs) (arrange places ys) := by
  -- Both lists are the two sides of one list of related pairs.
  obtain ⟨pairs, hxs, hys⟩ :
      ∃ pairs : List { p : α × β // R p.1 p.2 },
        pairs.map (·.1.1) = xs ∧ pairs.map (·.1.2) = ys := by
    induction h with
    | nil => exact ⟨[], rfl, rfl⟩
    | @cons x y xs ys hR _ ih =>
        obtain ⟨pairs, hxs, hys⟩ := ih
        exact ⟨⟨(x, y), hR⟩ :: pairs, congrArg (x :: ·) hxs, congrArg (y :: ·) hys⟩
  rw [← hxs, ← hys, ← map_arrange, ← map_arrange, List.forall₂_map_left_iff,
    List.forall₂_map_right_iff]
  exact List.forall₂_same.2 fun pair _ => pair.2

theorem flatten_slots (places : List Nat) (entries : List ResolvedEntry) :
    (slots places entries).flatten = arrange places entries := by
  rw [slots, arrange, List.flatMap_def]
  rfl

theorem lt_count {places : List Nat} {p : Nat} (h : p ∈ places) :
    p < places.foldl (fun count place => max count (place + 1)) 0 := by
  have grows (places : List Nat) (count : Nat) :
      count ≤ places.foldl (fun count place => max count (place + 1)) count := by
    induction places generalizing count with
    | nil => exact Nat.le_refl count
    | cons q places ih => exact Nat.le_trans (Nat.le_max_left _ _) (ih _)
  have bounds (places : List Nat) (count : Nat) (h : p ∈ places) :
      p < places.foldl (fun count place => max count (place + 1)) count := by
    induction places generalizing count with
    | nil => cases h
    | cons q places ih =>
        rcases List.mem_cons.1 h with rfl | h
        · have hfirst : p < max count (p + 1) := by omega
          exact Nat.lt_of_lt_of_le hfirst (grows places _)
        · exact ih _ h
  exact bounds places 0 h

theorem mem_of_mem_arrange {α : Type} {places : List Nat} {values : List α} {a : α}
    (h : a ∈ arrange places values) : a ∈ values := by
  simp only [arrange, List.mem_flatMap, List.mem_map, List.mem_filter] at h
  obtain ⟨_, _, ⟨place, b⟩, ⟨hmem, _⟩, rfl⟩ := h
  exact (List.of_mem_zip hmem).2

/-- The slots begin with the entries that start a run. -/
theorem exists_arrange_append {α : Type} {places : List Nat} (h : 0 ∈ places) (values : List α) :
    ∃ rest, arrange places values =
      ((places.zip values).filter (·.1 == 0)).map (·.2) ++ rest := by
  have hcount := lt_count h
  unfold arrange
  generalize places.foldl (fun count place => max count (place + 1)) 0 = count at hcount
  obtain ⟨n, rfl⟩ : ∃ n, count = n + 1 := ⟨count - 1, by omega⟩
  rw [List.range_succ_eq_map, List.flatMap_cons]
  exact ⟨_, rfl⟩

/-- At a fall the entry behind it is engraved before the entry in front of it: right after the
entries before the fall that start a run. -/
theorem exists_arrange_fall {α : Type} {before behind : List Nat} {p : Nat} (hp : 0 < p) (first : α)
    {middle : List α} (hlen : before.length = middle.length) (up down : α) (after : List α) :
    ∃ starts rest,
      arrange (0 :: before ++ p :: 0 :: behind) (first :: middle ++ up :: down :: after) =
        first :: starts ++ down :: rest ∧
      ∀ value ∈ starts, value ∈ middle := by
  have hzero : 0 ∈ 0 :: before ++ p :: 0 :: behind := List.mem_cons_self
  obtain ⟨rest, harrange⟩ :=
    exists_arrange_append hzero (first :: middle ++ up :: down :: after)
  have hnot : (p == 0) = false := beq_false_of_ne (Nat.ne_of_gt hp)
  rw [List.cons_append, List.cons_append, List.zip_cons_cons, List.zip_append hlen,
    List.zip_cons_cons, List.zip_cons_cons] at harrange
  refine ⟨((before.zip middle).filter (·.1 == 0)).map (·.2),
    ((behind.zip after).filter (·.1 == 0)).map (·.2) ++ rest, ?_, fun value hvalue => ?_⟩
  · rw [List.cons_append, List.cons_append, harrange]
    simp [hnot]
  · simp only [List.mem_map, List.mem_filter] at hvalue
    obtain ⟨⟨place, v⟩, ⟨hmem, _⟩, rfl⟩ := hvalue
    exact (List.of_mem_zip hmem).2

/-- Members below a bound, kept in groups, are in order if their ranks rise. -/
theorem flatMap_filter_of_pairwise {α : Type} {values : List (Nat × α)}
    (h : values.Pairwise fun a b => a.1 ≤ b.1) (n : Nat) :
    ((List.range n).flatMap fun place => values.filter (·.1 == place)) =
      values.filter (·.1 < n) := by
  have split (values : List (Nat × α)) (h : values.Pairwise fun a b => a.1 ≤ b.1) (n : Nat) :
      values.filter (·.1 < n) ++ values.filter (·.1 == n) = values.filter (·.1 < n + 1) := by
    induction values with
    | nil => rfl
    | cons a values ih =>
        obtain ⟨hle, htail⟩ := List.pairwise_cons.1 h
        have hrest := ih htail
        rw [List.filter_cons, List.filter_cons, List.filter_cons]
        rcases Nat.lt_trichotomy a.1 n with hlt | heq | hgt
        · have hsucc : a.1 < n + 1 := by omega
          have hne : (a.1 == n) = false := beq_false_of_ne (Nat.ne_of_lt hlt)
          rw [decide_eq_true hlt, decide_eq_true hsucc, hne, if_pos rfl, if_pos rfl,
            if_neg Bool.false_ne_true, List.cons_append, hrest]
        · -- From here on nothing is below the bound any more.
          have hnone : values.filter (·.1 < n) = [] :=
            List.filter_eq_nil_iff.2 fun b hb => by
              have hab := hle b hb
              simp only [decide_eq_true_eq]
              omega
          have hnot : ¬ a.1 < n := by omega
          have hsucc : a.1 < n + 1 := by omega
          have hsame : (a.1 == n) = true := beq_iff_eq.2 heq
          rw [hnone, List.nil_append] at hrest
          rw [decide_eq_false hnot, decide_eq_true hsucc, hsame, hnone, if_neg Bool.false_ne_true,
            if_pos rfl, if_pos rfl, List.nil_append, hrest]
        · have hnot : ¬ a.1 < n := by omega
          have hnot' : ¬ a.1 < n + 1 := by omega
          have hne : (a.1 == n) = false := beq_false_of_ne (Nat.ne_of_gt hgt)
          rw [decide_eq_false hnot, decide_eq_false hnot', hne, if_neg Bool.false_ne_true,
            if_neg Bool.false_ne_true, if_neg Bool.false_ne_true, hrest]
  induction n with
  | zero => simp
  | succ n ih => rw [List.range_succ, List.flatMap_append, ih, ← split values h n]; simp

/-- If the places never fall, the slots hold the entries in the order of the chord. -/
theorem arrange_of_isChain {α : Type} {places : List Nat} {values : List α}
    (h : places.IsChain (· ≤ ·)) (hlen : places.length = values.length) :
    arrange places values = values := by
  have hpairs : (places.zip values).Pairwise fun a b => a.1 ≤ b.1 := by
    have hfst : ((places.zip values).map (·.1)).Pairwise (· ≤ ·) := by
      rw [List.map_fst_zip (Nat.le_of_eq hlen)]
      exact List.isChain_iff_pairwise.1 h
    exact List.pairwise_map.1 hfst
  have hall : (places.zip values).filter
      (·.1 < places.foldl (fun count place => max count (place + 1)) 0) = places.zip values := by
    refine List.filter_eq_self.2 fun a ha => ?_
    have hmem : a.1 ∈ places := (List.of_mem_zip ha).1
    simpa using lt_count hmem
  rw [arrange, ← List.map_flatMap, flatMap_filter_of_pairwise hpairs, hall,
    List.map_snd_zip (Nat.le_of_eq hlen.symm)]

/-! ## Places on strings -/

/-- The place of each entry in its run, for entries on strings: a run ends where the string
changes. -/
def runPlaces (string next : Nat) : List Nat → List Nat
  | [] => []
  | s :: strings =>
      let place := if s = string then next else 0
      place :: runPlaces s (place + 1) strings

/-- The place of each entry of a chord on strings. -/
def placesOn : List Nat → List Nat
  | [] => []
  | s :: strings => runPlaces s 0 (s :: strings)

theorem places_eq_runPlaces {entries : List NoteEntry} {strings : List Nat}
    (h : List.Forall₂ NoteEntry.IsFretOn entries strings) (string next : Nat) :
    places (some string) next entries = runPlaces string next strings := by
  induction h generalizing string next with
  | nil => rfl
  | @cons e s entries strings hfret _ ih =>
      obtain ⟨hletter, _, hs⟩ := hfret
      have hplace : (if e.letterPitch.isSome || e.string != some string then 0 else next) =
          if s = string then next else 0 := by
        rw [hletter, hs]
        by_cases hsame : s = string <;> simp [hsame]
      rw [places, runPlaces, hplace, hs]
      exact congrArg _ (ih s _)

theorem placesOf_eq_placesOn {chord : List NoteEntry} {strings : List Nat}
    (h : List.Forall₂ NoteEntry.IsFretOn chord strings) : placesOf chord = placesOn strings := by
  cases h with
  | nil => rfl
  | @cons e s entries strings hfret hrest =>
      obtain ⟨_, _, hs⟩ := id hfret
      rw [placesOf, hs]
      exact places_eq_runPlaces (.cons hfret hrest) s 0

@[simp] theorem length_runPlaces (string next : Nat) (strings : List Nat) :
    (runPlaces string next strings).length = strings.length := by
  induction strings generalizing string next with
  | nil => rfl
  | cons s strings ih => simp [runPlaces, ih]

@[simp] theorem length_placesOn (strings : List Nat) :
    (placesOn strings).length = strings.length := by
  cases strings with
  | nil => rfl
  | cons s strings => exact length_runPlaces s 0 _

/-- A place is the next one of a run, or a new run starts. -/
theorem isChain_steps_runPlaces (n string : Nat) (strings : List Nat) :
    (n :: runPlaces string (n + 1) strings).IsChain fun p q => q = 0 ∨ q = p + 1 := by
  induction strings generalizing n string with
  | nil => exact .singleton n
  | cons s strings ih =>
      rw [runPlaces]
      refine List.isChain_cons_cons.2 ⟨?_, ih _ s⟩
      by_cases h : s = string <;> simp [h]

theorem placesOn_cons (s : Nat) (strings : List Nat) :
    placesOn (s :: strings) = 0 :: runPlaces s 1 strings := by
  rw [placesOn, runPlaces, if_pos rfl]

/-! ## Orders that are kept -/

/-- Does a chord on these strings keep its order? Once a string is repeated, it stays on it. -/
def KeepsOrder : List Nat → Prop
  | s :: t :: rest => if t = s then ∀ u ∈ rest, u = s else KeepsOrder (t :: rest)
  | _ => True

instance decidableKeepsOrder : (strings : List Nat) → Decidable (KeepsOrder strings)
  | [] => .isTrue trivial
  | [_] => .isTrue trivial
  | s :: t :: rest =>
      if h : t = s then decidable_of_iff (∀ u ∈ rest, u = s) (by rw [KeepsOrder, if_pos h])
      else
        have := decidableKeepsOrder (t :: rest)
        decidable_of_iff (KeepsOrder (t :: rest)) (by rw [KeepsOrder, if_neg h])

/-- Inside a run the places rise to the end only if the string never changes again. -/
theorem isChain_runPlaces_of_pos {n : Nat} (hn : 0 < n) (s : Nat) (strings : List Nat) :
    (n :: runPlaces s (n + 1) strings).IsChain (· ≤ ·) ↔ ∀ u ∈ strings, u = s := by
  induction strings generalizing n with
  | nil => simp [runPlaces]
  | cons t strings ih =>
      rw [runPlaces, List.isChain_cons_cons]
      by_cases h : t = s
      · subst h
        rw [if_pos rfl, ih (Nat.succ_pos n)]
        simp
      · rw [if_neg h]
        constructor
        · intro hchain
          omega
        · intro hall
          exact absurd (hall t List.mem_cons_self) h

theorem isChain_placesOn (strings : List Nat) :
    (placesOn strings).IsChain (· ≤ ·) ↔ KeepsOrder strings := by
  have start (s : Nat) (strings : List Nat) :
      (0 :: runPlaces s 1 strings).IsChain (· ≤ ·) ↔ KeepsOrder (s :: strings) := by
    induction strings generalizing s with
    | nil => simp [runPlaces, KeepsOrder]
    | cons t strings ih =>
        rw [runPlaces, List.isChain_cons_cons, KeepsOrder]
        by_cases h : t = s
        · subst h
          rw [if_pos rfl, if_pos rfl, isChain_runPlaces_of_pos Nat.one_pos]
          simp
        · rw [if_neg h, if_neg h, ih t]
          simp
  cases strings with
  | nil => simp [placesOn, KeepsOrder]
  | cons s strings => rw [placesOn_cons, start]

theorem keepsOrder_of_length_le_two {strings : List Nat} (h : strings.length ≤ 2) :
    KeepsOrder strings := by
  match strings, h with
  | [], _ => trivial
  | [_], _ => trivial
  | [s, t], _ =>
      rw [KeepsOrder]
      split
      · exact fun _ hu => nomatch hu
      · trivial

/-- **If an order is not kept, there is a fall**: behind an entry inside a run a new run starts. -/
theorem exists_fall {strings : List Nat} (h : ¬ KeepsOrder strings) :
    ∃ before b behind, placesOn strings = 0 :: before ++ b :: 0 :: behind ∧ 0 < b := by
  -- Where the places fall they fall to 0, since every step is to 0 or to the next place.
  have falls (places : List Nat) (hsteps : places.IsChain fun p q => q = 0 ∨ q = p + 1)
      (hfall : ¬ places.IsChain (· ≤ ·)) :
      ∃ before b behind, places = before ++ b :: 0 :: behind ∧ 0 < b := by
    induction places with
    | nil => exact absurd .nil hfall
    | cons p places ih =>
        cases places with
        | nil => exact absurd (.singleton p) hfall
        | cons q places =>
            obtain ⟨hq, hsteps⟩ := List.isChain_cons_cons.1 hsteps
            by_cases hle : p ≤ q
            · have htail : ¬ (q :: places).IsChain (· ≤ ·) :=
                fun htail => hfall (List.isChain_cons_cons.2 ⟨hle, htail⟩)
              obtain ⟨before, b, behind, heq, hb⟩ := ih hsteps htail
              exact ⟨p :: before, b, behind, by rw [heq]; rfl, hb⟩
            · obtain rfl : q = 0 := by omega
              exact ⟨[], p, places, rfl, by omega⟩
  rw [← isChain_placesOn] at h
  cases strings with
  | nil => exact absurd .nil h
  | cons s strings =>
      rw [placesOn_cons] at h ⊢
      obtain ⟨before, b, behind, heq, hb⟩ := falls _ (isChain_steps_runPlaces 0 s strings) h
      cases before with
      | nil =>
          -- The first place is 0, so it is not where the fall is.
          have hfirst : 0 = b := (List.cons.inj heq).1
          omega
      | cons p before =>
          have hfirst : 0 = p := (List.cons.inj heq).1
          exact ⟨before, b, behind, by rw [heq, ← hfirst], hb⟩

end Chord

end Tablature
