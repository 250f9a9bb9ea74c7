/-
# Tablature.Proofs.Refusals — calls that are refused, and which runs read back.

A call that is refused writes nothing, but the memory keeps what was spelled before the entry that
cannot be resolved. A *run* is a sequence of calls, some carried out and some refused. Its notes
always read back if nothing is written after a refused call and the chords that are carried out
always read back, and in no other case (`readsBack_iff_isSafe`).
-/
import Mathlib.Data.List.ReduceOption
import Tablature.Proofs.Engraving

namespace Tablature

open Chord (KeepsOrder)

/-- A call that writes a chord: the strings of its entries when it is carried out, nothing when it
is refused. -/
abbrev Call := Option (List Nat)

namespace Call

/-- A call with entries on some strings, by the reason why it was refused if it was. -/
def ofFault (strings : List Nat) : Option Cause → Call
  | none => some strings
  | some _ => none

/-- What a call may engrave and spell. A refused call engraves nothing, but it may have spelled any
classes. -/
def Yields : Call → List Nat × List PitchClass → Prop
  | some strings, chord => chord.1 = strings ∧ strings.length = chord.2.length
  | none, chord => chord.1 = []

/-- Nothing is written after a refused call. -/
def RefusedLast (run : List Call) : Prop :=
  run.Pairwise fun call later => call = none → later.getD [] = []

theorem Yields.strings {call : Call} {chord : List Nat × List PitchClass} (h : call.Yields chord) :
    chord.1 = call.getD [] := by
  cases call with
  | none => exact h
  | some strings => exact h.1

/-- A run whose calls write nothing engraves nothing. -/
theorem unwritten_of_yields {run : List Call} {chords : List (List Nat × List PitchClass)}
    (h : List.Forall₂ Yields run chords) (hnone : ∀ call ∈ run, call.getD [] = []) :
    ∀ chord ∈ chords, chord.1 = [] := by
  induction h with
  | nil => exact List.forall_mem_nil _
  | cons hfirst _ ih =>
      obtain ⟨hcall, hrest⟩ := List.forall_mem_cons.1 hnone
      exact List.forall_mem_cons.2 ⟨hfirst.strings.trans hcall, ih hrest⟩

end Call

@[simp] theorem engraveChord_nil (m : SpellingMemory) (classes : List PitchClass) :
    engraveChord m [] classes = [] := rfl

theorem engrave_unwritten {chords : List (List Nat × List PitchClass)}
    (h : ∀ chord ∈ chords, chord.1 = []) (m : SpellingMemory) : engrave m chords = [] := by
  induction chords generalizing m with
  | nil => rfl
  | cons chord chords ih =>
      obtain ⟨strings, classes⟩ := chord
      obtain ⟨hnil, hrest⟩ := List.forall_mem_cons.1 h
      have hstrings : strings = [] := hnil
      rw [engrave, ih hrest, hstrings, engraveChord_nil, List.append_nil]

/-! ## Runs and the chords that they write -/

/-- When nothing is written after a refused call, only the calls carried out matter. -/
theorem exists_carried {run : List Call} {chords : List (List Nat × List PitchClass)}
    (h : List.Forall₂ Call.Yields run chords) (hlast : Call.RefusedLast run) :
    ∃ written : List (List Nat × List PitchClass), written.map (·.1) = run.reduceOption ∧
      (∀ chord ∈ written, chord.1.length = chord.2.length) ∧
      ∀ m, engrave m written = engrave m chords := by
  induction h with
  | nil => exact ⟨[], rfl, List.forall_mem_nil _, fun _ => rfl⟩
  | @cons call chord run chords hfirst hrest ih =>
      obtain ⟨hafter, htail⟩ := List.pairwise_cons.1 hlast
      cases call with
      | none =>
          -- Nothing comes after this call, so what it has spelled is never seen.
          have hnone : ∀ later ∈ run, later.getD [] = [] := fun later hmem => hafter later hmem rfl
          have hempty : ∀ strings ∈ run.reduceOption, strings = [] := fun strings hmem =>
            hnone _ (List.reduceOption_mem_iff.1 hmem)
          have hunwritten : ∀ c ∈ chord :: chords, c.1 = [] :=
            List.forall_mem_cons.2 ⟨hfirst, Call.unwritten_of_yields hrest hnone⟩
          refine ⟨run.reduceOption.map fun strings => (strings, []), ?_, ?_, fun m => ?_⟩
          · rw [List.map_map, List.reduceOption_cons_of_none]
            exact List.map_id _
          · intro c hc
            obtain ⟨strings, hmem, rfl⟩ := List.mem_map.1 hc
            show strings.length = 0
            rw [hempty strings hmem, List.length_nil]
          · rw [engrave_unwritten hunwritten]
            refine engrave_unwritten (fun c hc => ?_) m
            obtain ⟨strings, hmem, rfl⟩ := List.mem_map.1 hc
            exact hempty strings hmem
      | some strings =>
          obtain ⟨written, hshape, hlen, hsame⟩ := ih htail
          obtain ⟨rfl, hlength⟩ := hfirst
          refine ⟨chord :: written, ?_, List.forall_mem_cons.2 ⟨hlength, hlen⟩, fun m => ?_⟩
          · rw [List.map_cons, hshape, List.reduceOption_cons_of_some]
          · rw [engrave, engrave, hsame]

/-- Any chords of the calls carried out are those of a run in which refused calls spell nothing. -/
theorem exists_run (run : List Call) {written : List (List Nat × List PitchClass)}
    (hshape : written.map (·.1) = run.reduceOption)
    (hlen : ∀ chord ∈ written, chord.1.length = chord.2.length) :
    ∃ chords, List.Forall₂ Call.Yields run chords ∧
      chords.flatMap (·.2) = written.flatMap (·.2) ∧ ∀ m, engrave m chords = engrave m written := by
  induction run generalizing written with
  | nil =>
      have hnil : written = [] := List.map_eq_nil_iff.1 hshape
      exact ⟨[], .nil, by rw [hnil], fun m => by rw [hnil]⟩
  | cons call run ih =>
      cases call with
      | none =>
          rw [List.reduceOption_cons_of_none] at hshape
          obtain ⟨chords, hyields, hclasses, hsame⟩ := ih hshape hlen
          exact ⟨([], []) :: chords, .cons rfl hyields, hclasses, hsame⟩
      | some strings =>
          rw [List.reduceOption_cons_of_some] at hshape
          obtain ⟨chord, rest, rfl, rfl, hrest⟩ := List.map_eq_cons_iff.1 hshape
          obtain ⟨hlength, hlen⟩ := List.forall_mem_cons.1 hlen
          obtain ⟨chords, hyields, hclasses, hsame⟩ := ih hrest hlen
          refine ⟨chord :: chords, .cons ⟨rfl, hlength⟩ hyields, ?_, fun m => ?_⟩
          · rw [List.flatMap_cons, List.flatMap_cons, hclasses]
          · rw [engrave, engrave, hsame]

theorem exists_refused {run : List Call} (h : ¬ Call.RefusedLast run) :
    ∃ before after strings, run = before ++ none :: after ∧ strings ∈ after.reduceOption ∧
      strings ≠ [] := by
  induction run with
  | nil => exact absurd .nil h
  | cons call run ih =>
      by_cases hlast : Call.RefusedLast run
      · have hfirst : ¬ ∀ later ∈ run, call = none → later.getD [] = [] :=
          fun hfirst => h (List.pairwise_cons.2 ⟨hfirst, hlast⟩)
        push Not at hfirst
        obtain ⟨later, hmem, rfl, hne⟩ := hfirst
        cases later with
        | none => exact absurd rfl hne
        | some strings => exact ⟨[], run, strings, rfl, List.reduceOption_mem_iff.2 hmem, hne⟩
      · obtain ⟨before, after, strings, rfl, hmem, hne⟩ := ih hlast
        exact ⟨call :: before, after, strings, rfl, hmem, hne⟩

/-! ## What a refused call teaches -/

/-- Chords of a class that needs no accidental are engraved without. -/
theorem eq_of_mem_engrave_uniform {m : SpellingMemory} {v : PitchClass} {l : Letter}
    (h : (m.spell [v]).2 = [(l, none)]) {shape : List (List Nat)} {key : StaffKey}
    (hmem : key ∈ engrave m (shape.map (uniform v))) : key = ((l, none), v) := by
  induction shape with
  | nil => cases hmem
  | cons strings shape ih =>
      rw [List.map_cons, uniform, engrave, spell_replicate h] at hmem
      rcases List.mem_append.1 hmem with hmem | hmem
      · rw [engraveChord, spell_replicate h, List.zip_replicate'] at hmem
        exact List.eq_of_mem_replicate (Chord.mem_of_mem_arrange hmem)
      · exact ih hmem

theorem engrave_ne_nil {m : SpellingMemory} {chords : List (List Nat × List PitchClass)}
    {chord : List Nat × List PitchClass} (hmem : chord ∈ chords) (hne : chord.1 ≠ [])
    (hlen : chord.1.length = chord.2.length) : engrave m chords ≠ [] := by
  induction chords generalizing m with
  | nil => cases hmem
  | cons first chords ih =>
      obtain ⟨strings, classes⟩ := first
      rw [engrave]
      rcases List.mem_cons.1 hmem with rfl | hmem
      · cases strings with
        | nil => exact absurd rfl hne
        | cons s strings =>
            cases classes with
            | nil => cases hlen
            | cons v classes =>
                have hzero : 0 ∈ Chord.placesOn (s :: strings) := by
                  rw [Chord.placesOn_cons]
                  exact List.mem_cons_self
                obtain ⟨rest, harrange⟩ := Chord.exists_arrange_append hzero
                  ((m.spell (v :: classes)).2.zip (v :: classes))
                rw [engraveChord, harrange, Chord.placesOn_cons, SpellingMemory.spell]
                simp
      · exact fun hnil => ih hmem (List.append_eq_nil_iff.1 hnil).2

/-- In every key a refused call can teach the memory an accidental that no reader has seen. -/
theorem exists_not_readsBack_of_refused {key : String} (hkey : key ∈ knownKeys) {run : List Call}
    (h : ¬ Call.RefusedLast run) :
    ∃ chords, List.Forall₂ Call.Yields run chords ∧
      ¬ ReadsBack (.start key) (engrave (.ofKnown key) chords) := by
  obtain ⟨l, a, b, hunmarked, hspell, hclass, hne⟩ := spell_neighbours hkey
  obtain ⟨before, after, strings, rfl, hmem, hwritten⟩ := exists_refused h
  let x := (neighbours key).1
  let y := (neighbours key).2
  obtain ⟨first, hfirst, hspelled, hengraved⟩ := exists_run before
    (map_uniform x before.reduceOption) fun _ => length_uniform
  obtain ⟨last, hlast, _, hengraved'⟩ := exists_run after
    (map_uniform y after.reduceOption) fun _ => length_uniform
  have hyields : List.Forall₂ Call.Yields (none :: after) (([], [y]) :: last) := .cons rfl hlast
  refine ⟨first ++ ([], [y]) :: last, List.rel_append hfirst hyields, fun hreads => ?_⟩
  -- What is written before the refused call leaves memory and reader as they are at the start.
  obtain ⟨hmemory, hpast⟩ := engrave_uniform (r := .start key) hunmarked before.reduceOption
  have hstart : ((SpellingMemory.ofKnown key).spell (first.flatMap (·.2))).1 = .ofKnown key := by
    rw [hspelled]
    exact hmemory
  let m := ((SpellingMemory.ofKnown key).spell [y]).1
  have hbehind : ReadsBack (.start key) (engrave m last) := by
    rw [engrave_append, hstart, hengraved, engrave, engraveChord_nil, List.nil_append] at hreads
    have hrest := (readsBack_append.1 hreads).2
    rw [hpast] at hrest
    exact hrest
  rw [hengraved'] at hbehind
  -- Behind it the second class is written without its accidental, so it is read as the first.
  have hy : (m.spell [y]).2 = [(l, none)] := by
    simp only [m, SpellingMemory.spell, List.cons.injEq, and_true] at hspell ⊢
    exact hspell.2.1
  have hx : (Reader.start key).hears (l, none) = x := by
    have hshort : [x].length ≤ 2 := Nat.le_succ 1
    have hecho := SpellingMemory.echo_of_length_le_two (fresh_ofKnown hkey) hshort
    rw [SpellingMemory.echo, hunmarked] at hecho
    exact List.head_eq_of_cons_eq hecho
  have hkeys : engrave m (after.reduceOption.map (uniform y)) ≠ [] :=
    engrave_ne_nil (List.mem_map_of_mem hmem) hwritten List.length_replicate.symm
  obtain ⟨key, keys, hcons⟩ := List.exists_cons_of_ne_nil hkeys
  have hkeymem : key ∈ engrave m (after.reduceOption.map (uniform y)) :=
    hcons ▸ List.mem_cons_self
  have hhead : key = ((l, none), y) := eq_of_mem_engrave_uniform hy hkeymem
  rw [hcons, hhead] at hbehind
  have hheard : (Reader.start _).hears (l, none) = y := (List.cons.inj hbehind).1
  exact hne (hx.symm.trans hheard)

/-! ## Which runs read back -/

/-- **The runs whose notes read back in a key**: nothing is written after a refused call, and there
are at most two notes, or the key is plain and every chord keeps its order. -/
def IsSafe (key : String) (run : List Call) : Prop :=
  Call.RefusedLast run ∧ (run.reduceOption.flatten.length ≤ 2 ∨
    (IsPlainKey key ∧ ∀ strings ∈ run.reduceOption, KeepsOrder strings))

instance (key : String) (run : List Call) : Decidable (IsSafe key run) := by
  unfold IsSafe Call.RefusedLast
  infer_instance

theorem readsBack_iff_isSafe {key : String} (hkey : key ∈ knownKeys) (run : List Call) :
    (∀ chords, List.Forall₂ Call.Yields run chords →
      ReadsBack (.start key) (engrave (.ofKnown key) chords)) ↔ IsSafe key run := by
  constructor
  · intro hall
    refine ⟨?_, ?_⟩
    · by_contra hlast
      obtain ⟨chords, hyields, hwrong⟩ := exists_not_readsBack_of_refused hkey hlast
      exact hwrong (hall chords hyields)
    · refine (readsBack_iff hkey run.reduceOption).1 fun written hshape hlen => ?_
      obtain ⟨chords, hyields, _, hsame⟩ := exists_run run hshape hlen
      rw [← hsame]
      exact hall chords hyields
  · rintro ⟨hlast, hsafe⟩ chords hyields
    obtain ⟨written, hshape, hlen, hsame⟩ := exists_carried hyields hlast
    rw [← hsame]
    exact (readsBack_iff hkey run.reduceOption).2 hsafe written hshape hlen

end Tablature
