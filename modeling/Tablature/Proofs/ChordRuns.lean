/-
# Tablature.Proofs.ChordRuns — the runs of a chord and their columns.

The session follows a chord entry by entry, with the string of the run so far and the place after
its last entry. What it makes of the chord can be said without either: cut the chord into runs
(`Chord.runs`), write them below each other, and every column is a note (`Chord.slots_eq`). No entry
is lost and none stands in two columns (`Chord.perm_columns`), and the entries of a column are in
the order of the chord (`Chord.sublist_of_mem_columns`).
-/
import Mathlib.Data.List.Perm.Basic
import Mathlib.Data.List.SplitBy
import Tablature.Proofs.Marking

namespace Tablature

/-- Does an entry go on with the run of the entry before it? It has to be on the same string, and no
pitch letter. -/
def NoteEntry.continues (previous e : NoteEntry) : Bool :=
  e.letterPitch.isNone && e.string == previous.string

namespace Chord

/-! ## Runs and columns -/

section Runs

variable {α β : Type}

/-- The runs of a chord whose entries come with some values. -/
def runs (chord : List (NoteEntry × α)) : List (List (NoteEntry × α)) :=
  chord.splitBy fun previous e => previous.1.continues e.1

theorem flatten_runs (chord : List (NoteEntry × α)) : (runs chord).flatten = chord :=
  List.flatten_splitBy _ _

/-- The members at a place of their runs, in the order of the runs. -/
def column (runs : List (List α)) (place : Nat) : List α := runs.filterMap (·[place]?)

/-- The length of the longest of some runs. -/
def longest (runs : List (List α)) : Nat := (runs.map List.length).foldr max 0

/-- All columns of some runs. -/
def columns (runs : List (List α)) : List (List α) := (List.range (longest runs)).map (column runs)

@[simp] theorem length_columns (runs : List (List α)) : (columns runs).length = longest runs := by
  rw [columns, List.length_map, List.length_range]

@[simp] theorem longest_cons (run : List α) (runs : List (List α)) :
    longest (run :: runs) = max run.length (longest runs) := rfl

theorem column_cons (run : List α) (runs : List (List α)) (place : Nat) :
    column (run :: runs) place = run[place]?.toList ++ column runs place := by
  rw [column, List.filterMap_cons]
  cases run[place]? <;> rfl

theorem column_map (f : α → β) (runs : List (List α)) (place : Nat) :
    column (runs.map (List.map f)) place = (column runs place).map f := by
  simp only [column, List.filterMap_map, List.map_filterMap, Function.comp_def, List.getElem?_map]

theorem longest_map (f : α → β) (runs : List (List α)) :
    longest (runs.map (List.map f)) = longest runs := by
  simp only [longest, List.map_map, Function.comp_def, List.length_map]

theorem column_ne_nil {runs : List (List α)} {place : Nat} (h : place < longest runs) :
    column runs place ≠ [] := by
  induction runs with
  | nil => cases h
  | cons run runs ih =>
      rw [column_cons, Ne, List.append_eq_nil_iff]
      rintro ⟨hrun, hruns⟩
      rcases Nat.lt_or_ge place run.length with hlt | hge
      · rw [List.getElem?_eq_getElem hlt] at hrun
        cases hrun
      · exact ih (by rw [longest_cons] at h; omega) hruns

theorem ne_nil_of_mem_columns {runs : List (List α)} {column : List α}
    (h : column ∈ columns runs) : column ≠ [] := by
  obtain ⟨place, hplace, rfl⟩ := List.mem_map.1 h
  exact column_ne_nil (List.mem_range.1 hplace)

/-- The places of a run, each with the member there. -/
theorem flatMap_getElem? (run : List α) {n : Nat} (h : run.length ≤ n) :
    ((List.range n).flatMap fun place => run[place]?.toList) = run := by
  induction run generalizing n with
  | nil => simp
  | cons a run ih =>
      obtain ⟨n, rfl⟩ : ∃ k, n = k + 1 := ⟨n - 1, by rw [List.length_cons] at h; omega⟩
      rw [List.range_succ_eq_map, List.flatMap_cons, List.flatMap_map]
      exact congrArg (a :: ·) (ih (Nat.le_of_succ_le_succ h))

theorem perm_flatMap_column {runs : List (List α)} {n : Nat} (h : longest runs ≤ n) :
    ((List.range n).flatMap (column runs)).Perm runs.flatten := by
  induction runs with
  | nil => simp [column]
  | cons run runs ih =>
      obtain ⟨hrun, hruns⟩ := Nat.max_le.1 h
      have hsplit := (List.flatMap_append_perm (List.range n) (fun place => run[place]?.toList)
        (column runs)).symm
      have hcolumns : column (run :: runs) = fun place => run[place]?.toList ++ column runs place :=
        funext (column_cons run runs)
      rw [hcolumns]
      rw [flatMap_getElem? run hrun] at hsplit
      exact hsplit.trans ((ih hruns).append_left run)

/-- **The columns hold every member once.** -/
theorem perm_columns (runs : List (List α)) : (columns runs).flatten.Perm runs.flatten := by
  rw [columns, ← List.flatMap_def]
  exact perm_flatMap_column (Nat.le_refl (longest runs))

theorem column_sublist (runs : List (List α)) (place : Nat) :
    (column runs place).Sublist runs.flatten := by
  induction runs with
  | nil => exact .slnil
  | cons run runs ih =>
      rw [column_cons, List.flatten_cons]
      refine .append ?_ ih
      cases hmember : run[place]? with
      | none => exact List.nil_sublist run
      | some a => exact List.singleton_sublist.2 (List.mem_of_getElem? hmember)

/-- **A column is in the order of the chord.** -/
theorem sublist_of_mem_columns {runs : List (List α)} {column : List α}
    (h : column ∈ columns runs) : column.Sublist runs.flatten := by
  obtain ⟨place, _, rfl⟩ := List.mem_map.1 h
  exact column_sublist runs place

/-! ### Places -/

/-- Inside a run the places go up by one. -/
theorem places_append {e : NoteEntry} {run : List NoteEntry}
    (h : (e :: run).IsChain (NoteEntry.continues · ·)) (next : Nat) (rest : List NoteEntry) :
    places e.string next (run ++ rest) =
      List.range' next run.length ++
        places ((e :: run).getLast (List.cons_ne_nil e run)).string (next + run.length) rest := by
  induction run generalizing e next with
  | nil => rfl
  | cons f run ih =>
      obtain ⟨hfollows, hrun⟩ := List.isChain_cons_cons.1 h
      obtain ⟨hletter, hstring⟩ : f.letterPitch.isNone ∧ (f.string == e.string) := by
        simpa [NoteEntry.continues] using hfollows
      have hplace : (if f.letterPitch.isSome || f.string != e.string then 0 else next) = next := by
        simp [Option.isNone_iff_eq_none.1 hletter, bne, hstring]
      have hnext : next + (f :: run).length = next + 1 + run.length := by
        rw [List.length_cons]
        omega
      rw [List.cons_append, places, hplace, ih hrun, hnext, List.length_cons, List.range'_succ,
        List.getLast_cons_cons]
      rfl

/-- Every run starts anew, at the first place. -/
theorem places_flatten {runs : List (List NoteEntry)} (hne : [] ∉ runs)
    (hruns : ∀ run ∈ runs, run.IsChain (NoteEntry.continues · ·))
    (hbreaks : runs.IsChain fun run later =>
      ∃ hrun hlater, (run.getLast hrun).continues (later.head hlater) = false)
    {string : Option Nat} {next : Nat}
    (hstart : next = 0 ∨ ∀ e ∈ runs.flatten.head?, e.letterPitch.isSome ∨ e.string ≠ string) :
    places string next runs.flatten = runs.flatMap fun run => List.range run.length := by
  induction runs generalizing string next with
  | nil => rfl
  | cons run runs ih =>
      rw [List.mem_cons, not_or] at hne
      obtain ⟨e, run, rfl⟩ := List.exists_cons_of_ne_nil (Ne.symm hne.1)
      obtain ⟨hrun, hlater⟩ := List.forall_mem_cons.1 hruns
      obtain ⟨hbreak, hbreaks⟩ := List.isChain_cons.1 hbreaks
      have hplace : (if e.letterPitch.isSome || e.string != string then 0 else next) = 0 := by
        rcases hstart with rfl | hstart
        · exact ite_self 0
        · have he := hstart e rfl
          exact if_pos (by simpa using he)
      let last := (e :: run).getLast (List.cons_ne_nil e run)
      -- The run after this one breaks with its last entry.
      have hnext : ∀ f ∈ runs.flatten.head?, f.letterPitch.isSome ∨ f.string ≠ last.string := by
        intro f hf
        cases runs with
        | nil => cases hf
        | cons later runs =>
            obtain ⟨_, hnonempty, hfalse⟩ := hbreak later rfl
            obtain ⟨g, later, rfl⟩ := List.exists_cons_of_ne_nil hnonempty
            cases hf
            simp only [NoteEntry.continues, Bool.and_eq_false_iff, Option.isNone_eq_false_iff,
              beq_eq_false_iff_ne] at hfalse
            exact hfalse
      have hrest : places last.string (1 + run.length) runs.flatten =
          runs.flatMap fun run => List.range run.length := ih hne.2 hlater hbreaks (.inr hnext)
      rw [List.flatten_cons, List.cons_append, places, hplace, places_append hrun, hrest,
        List.flatMap_cons, List.length_cons, List.range_eq_range', List.range'_succ]
      rfl

/-- **The places of a chord count its runs**, one after the other. -/
theorem placesOf_eq (chord : List (NoteEntry × α)) :
    placesOf (chord.map (·.1)) = (runs chord).flatMap fun run => List.range run.length := by
  let entries := (runs chord).map (List.map Prod.fst)
  have hflatten : chord.map (·.1) = entries.flatten := by
    rw [← List.map_flatten, flatten_runs]
  have hlengths : ((runs chord).flatMap fun run => List.range run.length) =
      entries.flatMap fun run => List.range run.length := by
    simp only [entries, List.flatMap_map, List.length_map]
  have hne : [] ∉ entries := fun h => by
    obtain ⟨run, hrun, hnil⟩ := List.mem_map.1 h
    rw [List.map_eq_nil_iff.1 hnil] at hrun
    exact List.nil_notMem_splitBy _ _ hrun
  have hruns : ∀ run ∈ entries, run.IsChain (NoteEntry.continues · ·) := fun run h => by
    obtain ⟨run, hrun, rfl⟩ := List.mem_map.1 h
    exact (List.isChain_map _).2 (List.isChain_of_mem_splitBy hrun)
  have hbreaks : entries.IsChain fun run later =>
      ∃ hrun hlater, (run.getLast hrun).continues (later.head hlater) = false := by
    refine (List.isChain_map _).2 ((List.isChain_getLast_head_splitBy _ chord).imp ?_)
    rintro run later ⟨hrun, hlater, hfalse⟩
    exact ⟨by simpa using hrun, by simpa using hlater, by simpa using hfalse⟩
  obtain ⟨string, hstring⟩ : ∃ string, placesOf (chord.map (·.1)) =
      places string 0 (chord.map (·.1)) := by
    cases chord with
    | nil => exact ⟨none, rfl⟩
    | cons first chord => exact ⟨first.1.string, rfl⟩
  rw [hlengths, hstring, hflatten, places_flatten hne hruns hbreaks (.inl rfl)]

/-- The members at a place, when each run is counted from its first member. -/
theorem filter_zip_range (runs : List (List α)) (place : Nat) :
    (((runs.flatMap fun run => List.range run.length).zip runs.flatten).filter
      (·.1 == place)).map (·.2) = column runs place := by
  have counted (run : List α) (start i : Nat) :
      (((List.range' start run.length).zip run).filter (·.1 == start + i)).map (·.2) =
        run[i]?.toList := by
    induction run generalizing start i with
    | nil => rfl
    | cons a run ih =>
        rw [List.length_cons, List.range'_succ, List.zip_cons_cons, List.filter_cons]
        cases i with
        | zero =>
            -- The places after the first are larger.
            have hrest : ((List.range' (start + 1) run.length).zip run).filter
                (·.1 == start + 0) = [] := by
              refine List.filter_eq_nil_iff.2 fun pair hpair => ?_
              have hle := (List.mem_range'_1.1 (List.of_mem_zip hpair).1).1
              simp only [beq_iff_eq]
              omega
            rw [if_pos (by simp), hrest]
            rfl
        | succ i =>
            have hplace : start + (i + 1) = start + 1 + i := by omega
            rw [if_neg (by simp), hplace, ih]
            rfl
  induction runs with
  | nil => rfl
  | cons run runs ih =>
      rw [List.flatMap_cons, List.flatten_cons, List.zip_append (List.length_range ..),
        List.filter_append, List.map_append, ih, column_cons]
      have hrun := counted run 0 place
      rw [Nat.zero_add, ← List.range_eq_range'] at hrun
      rw [hrun]

theorem foldl_range (runs : List (List α)) (count : Nat) :
    (runs.flatMap fun run => List.range run.length).foldl
      (fun count place => max count (place + 1)) count = max count (longest runs) := by
  have counted (n count : Nat) : (List.range n).foldl (fun count place => max count (place + 1))
      count = max count n := by
    induction n with
    | zero => exact (Nat.max_eq_left (Nat.zero_le count)).symm
    | succ n ih =>
        rw [List.range_succ, List.foldl_append, ih]
        show max (max count n) (n + 1) = max count (n + 1)
        omega
  induction runs generalizing count with
  | nil => exact (Nat.max_eq_left (Nat.zero_le count)).symm
  | cons run runs ih =>
      rw [List.flatMap_cons, List.foldl_append, counted, ih, longest_cons, Nat.max_assoc]

end Runs

/-- **The slots of a chord are the columns of its runs.** -/
theorem slots_eq (chord : List (NoteEntry × ResolvedEntry)) :
    slots (placesOf (chord.map (·.1))) (chord.map (·.2)) =
      (columns (runs chord)).map (List.map (·.2)) := by
  let entries := (runs chord).map (List.map Prod.snd)
  have hflatten : chord.map (·.2) = entries.flatten := by
    rw [← List.map_flatten, flatten_runs]
  have hplaces : placesOf (chord.map (·.1)) =
      entries.flatMap fun run => List.range run.length := by
    rw [placesOf_eq]
    simp only [entries, List.flatMap_map, List.length_map]
  have hlongest : longest entries = longest (runs chord) := longest_map _ _
  rw [slots, hplaces, hflatten, foldl_range, Nat.zero_max, hlongest, columns, List.map_map]
  refine List.map_congr_left fun place _ => ?_
  rw [entriesAt, filter_zip_range]
  exact column_map _ _ _

end Chord

end Tablature
