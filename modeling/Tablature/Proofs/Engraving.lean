/-
# Tablature.Proofs.Engraving — when engraved chords read back right.

The notes of a chord are spelled in the order of its entries and engraved in the order of its slots.
`engrave` follows the memory through a sequence of chords and gives the keys in the order in which
they stand on the staff, each with the pitch class that it should be read as.

Two things go wrong. In keys with flats or many sharps the memory and the reader part after two
notes (`Tablature.Proofs.Reading`). In every key, a chord that does not keep its order puts a note
that was spelled later in front of the accidental that it relies on. Apart from these everything
reads back right, and both go wrong as soon as there are three notes to choose: `readsBack_iff`.
-/
import Tablature.Proofs.ChordOrder
import Tablature.Proofs.Reading

namespace Tablature

open Chord (KeepsOrder arrange placesOn)

/-! ## Keys on the staff -/

/-- A key on the staff with the pitch class that it should be read as. -/
abbrev StaffKey := Written × PitchClass

/-- The keys of a chord on some strings, in the order of its slots, when its entries have some
pitch classes. -/
def engraveChord (m : SpellingMemory) (strings : List Nat) (classes : List PitchClass) :
    List StaffKey :=
  arrange (placesOn strings) ((m.spell classes).2.zip classes)

/-- The keys of a sequence of chords, each given by its strings and its pitch classes. -/
def engrave (m : SpellingMemory) : List (List Nat × List PitchClass) → List StaffKey
  | [] => []
  | (strings, classes) :: chords =>
      engraveChord m strings classes ++ engrave (m.spell classes).1 chords

/-- The keys read back as they should. -/
def ReadsBack (r : Reader) (keys : List StaffKey) : Prop := r.read (keys.map (·.1)) = keys.map (·.2)

/-- What a reader has in force after some keys. -/
def Reader.past (r : Reader) (keys : List StaffKey) : Reader :=
  (keys.map (·.1)).foldl Reader.after r

theorem readsBack_append {r : Reader} {first last : List StaffKey} :
    ReadsBack r (first ++ last) ↔ ReadsBack r first ∧ ReadsBack (r.past first) last := by
  rw [ReadsBack, List.map_append, List.map_append, Reader.read_append]
  constructor
  · intro h
    exact List.append_inj h (by simp)
  · rintro ⟨h, h'⟩
    exact congrArg₂ (· ++ ·) h h'

theorem engrave_append (m : SpellingMemory) (first last : List (List Nat × List PitchClass)) :
    engrave m (first ++ last) =
      engrave m first ++ engrave (m.spell (first.flatMap (·.2))).1 last := by
  induction first generalizing m with
  | nil => rfl
  | cons chord first ih =>
      obtain ⟨strings, classes⟩ := chord
      rw [List.cons_append, engrave, engrave, ih, List.flatMap_cons, SpellingMemory.spell_append,
        List.append_assoc]

/-! ## Chords that keep their order -/

/-- Chords that keep their order are engraved as they are spelled. -/
theorem engrave_of_keepsOrder (m : SpellingMemory) {chords : List (List Nat × List PitchClass)}
    (hlen : ∀ chord ∈ chords, chord.1.length = chord.2.length)
    (horder : ∀ chord ∈ chords, KeepsOrder chord.1) :
    engrave m chords =
      (m.spell (chords.flatMap (·.2))).2.zip (chords.flatMap (·.2)) := by
  induction chords generalizing m with
  | nil => rfl
  | cons chord chords ih =>
      obtain ⟨strings, classes⟩ := chord
      have hchord : engraveChord m strings classes = (m.spell classes).2.zip classes := by
        refine Chord.arrange_of_isChain ((Chord.isChain_placesOn strings).2
          (horder _ List.mem_cons_self)) ?_
        have hsame := hlen _ List.mem_cons_self
        simpa using hsame
      rw [engrave, hchord, ih _ (fun c hc => hlen c (List.mem_cons_of_mem _ hc))
        (fun c hc => horder c (List.mem_cons_of_mem _ hc)), List.flatMap_cons,
        SpellingMemory.spell_append, List.zip_append (by simp)]

theorem readsBack_of_keepsOrder {m : SpellingMemory} {r : Reader}
    {chords : List (List Nat × List PitchClass)}
    (hlen : ∀ chord ∈ chords, chord.1.length = chord.2.length)
    (horder : ∀ chord ∈ chords, KeepsOrder chord.1) :
    ReadsBack r (engrave m chords) ↔
      m.echo r (chords.flatMap (·.2)) = chords.flatMap (·.2) := by
  rw [engrave_of_keepsOrder m hlen horder, ReadsBack, List.map_fst_zip (by simp),
    List.map_snd_zip (by simp), SpellingMemory.echo]

/-! ## Chords that do not -/

section Repeated

variable {m : SpellingMemory} {v : PitchClass} {l : Letter}

theorem select_of_unmarked (h : (m.spell [v]).2 = [(l, none)]) :
    (m.select (.canonical v)).1 = m ∧ (m.select (.canonical v)).2.written = (l, none) := by
  have hwritten : (m.select (.canonical v)).2.written = (l, none) := List.head_eq_of_cons_eq h
  refine ⟨SpellingMemory.select_unchanged ?_, hwritten⟩
  have hmark := congrArg Prod.snd hwritten
  cases hchange : (m.select (.canonical v)).2.change with
  | false => rfl
  | true => simp [Selection.written, Selection.mark, hchange] at hmark

/-- A class that needs no accidental needs none when it is repeated. -/
theorem spell_replicate (h : (m.spell [v]).2 = [(l, none)]) (n : Nat) :
    m.spell (List.replicate n v) = (m, List.replicate n (l, none)) := by
  obtain ⟨hsame, hwritten⟩ := select_of_unmarked h
  induction n with
  | zero => rfl
  | succ n ih =>
      rw [List.replicate_succ, List.replicate_succ, SpellingMemory.spell, hsame, hwritten, ih]

end Repeated

/-- A chord on some strings with one class on all of them. -/
def uniform (v : PitchClass) (strings : List Nat) : List Nat × List PitchClass :=
  (strings, List.replicate strings.length v)

theorem map_uniform (v : PitchClass) (shape : List (List Nat)) :
    (shape.map (uniform v)).map (·.1) = shape := by
  rw [List.map_map]
  exact List.map_id shape

theorem length_uniform {v : PitchClass} {shape : List (List Nat)}
    {chord : List Nat × List PitchClass} (h : chord ∈ shape.map (uniform v)) :
    chord.1.length = chord.2.length := by
  obtain ⟨strings, _, rfl⟩ := List.mem_map.1 h
  exact List.length_replicate.symm

/-- Chords of a class that needs no accidental change nothing for memory and reader. -/
theorem engrave_uniform {m : SpellingMemory} {r : Reader} {v : PitchClass} {l : Letter}
    (h : (m.spell [v]).2 = [(l, none)]) (shape : List (List Nat)) :
    (m.spell ((shape.map (uniform v)).flatMap (·.2))).1 = m ∧
    r.past (engrave m (shape.map (uniform v))) = r := by
  induction shape with
  | nil => exact ⟨rfl, rfl⟩
  | cons strings shape ih =>
      obtain ⟨hmemory, hreader⟩ := ih
      have hspell := spell_replicate h strings.length
      refine ⟨?_, ?_⟩
      · rw [List.map_cons, uniform, List.flatMap_cons, SpellingMemory.spell_append, hspell]
        exact hmemory
      · have hunmarked : ∀ w ∈ (engraveChord m strings (List.replicate strings.length v)).map (·.1),
            w.2 = none := by
          intro w hw
          rw [engraveChord, Chord.map_arrange, hspell, List.map_fst_zip (by simp)] at hw
          rw [List.eq_of_mem_replicate (Chord.mem_of_mem_arrange hw)]
        rw [List.map_cons, uniform, engrave, hspell, Reader.past, List.map_append,
          List.foldl_append, Reader.foldl_after_unmarked hunmarked]
        exact hreader

section Fall

variable {m : SpellingMemory} {x y : PitchClass} {l : Letter} {a b : Accidental}

/-- Two classes on the same letter, each of them repeated: only where a class comes first it needs
its accidental. -/
theorem spell_replicate_append
    (h : (m.spell [y, y, x, x]).2 = [(l, some a), (l, none), (l, some b), (l, none)]) (n k : Nat) :
    (m.spell (List.replicate (n + 1) y ++ List.replicate (k + 2) x)).2 =
      (l, some a) :: List.replicate n (l, none) ++
        (l, some b) :: (l, none) :: List.replicate k (l, none) := by
  let m₁ := (m.select (.canonical y)).1
  obtain ⟨hy, hy', hx, hx'⟩ : (m.select (.canonical y)).2.written = (l, some a) ∧
      (m₁.spell [y]).2 = [(l, none)] ∧
      ((m₁.spell [y]).1.select (.canonical x)).2.written = (l, some b) ∧
      ((((m₁.spell [y]).1.select (.canonical x)).1).spell [x]).2 = [(l, none)] := by
    simp only [SpellingMemory.spell, List.cons.injEq, and_true] at h ⊢
    exact h
  have hsame : (m₁.spell [y]).1 = m₁ := (select_of_unmarked hy').1
  rw [hsame] at hx hx'
  rw [List.replicate_succ, List.cons_append, SpellingMemory.spell, hy,
    SpellingMemory.spell_append, spell_replicate hy', List.replicate_succ, SpellingMemory.spell, hx,
    spell_replicate hx']
  rfl

/-- **A fall is read wrong.** When the second of two neighbouring classes is spelled up to a fall
and the first one from there on, the entry behind the fall needs no accidental any more; but it is
engraved where the accidental of the second class is still in force. -/
theorem not_readsBack_of_fall
    (hspell : (m.spell [y, y, x, x]).2 = [(l, some a), (l, none), (l, some b), (l, none)])
    (hclass : NoteName.pitchClass ⟨l, some a⟩ = y) (hne : x ≠ y) {strings before behind : List Nat}
    {p : Nat} (hplaces : placesOn strings = 0 :: before ++ p :: 0 :: behind) (hp : 0 < p)
    (r : Reader) :
    ¬ ReadsBack r (engraveChord m strings
      (List.replicate (before.length + 1) y ++ List.replicate (behind.length + 2) x)) := by
  have hkeys : (m.spell (List.replicate (before.length + 1) y ++
      List.replicate (behind.length + 2) x)).2.zip
        (List.replicate (before.length + 1) y ++ List.replicate (behind.length + 2) x) =
      ((l, some a), y) :: List.replicate before.length ((l, none), y) ++
        ((l, some b), x) :: ((l, none), x) :: List.replicate behind.length ((l, none), x) := by
    rw [spell_replicate_append hspell, List.replicate_succ, List.replicate_succ,
      List.replicate_succ, List.cons_append, List.cons_append, List.zip_cons_cons,
      List.zip_append (by simp), List.zip_replicate', List.zip_cons_cons, List.zip_cons_cons,
      List.zip_replicate', List.cons_append]
  have hlen : before.length = (List.replicate before.length (((l, none), y) : StaffKey)).length :=
    List.length_replicate.symm
  obtain ⟨starts, rest, harrange, hmem⟩ := Chord.exists_arrange_fall hp
    ((l, some a), y) hlen ((l, some b), x) ((l, none), x)
      (List.replicate behind.length ((l, none), x))
  have hstarts : ∀ w ∈ starts.map (·.1), w.2 = none := by
    intro w hw
    obtain ⟨key, hkey, rfl⟩ := List.mem_map.1 hw
    rw [List.eq_of_mem_replicate (hmem key hkey)]
  intro hreads
  rw [engraveChord, hkeys, hplaces, harrange] at hreads
  have hbehind := (readsBack_append.1 hreads).2
  -- The key behind the fall follows starts of runs, none of which has an accidental but the first.
  have hpast : r.past (((l, some a), y) :: starts) = r.after (l, some a) := by
    rw [Reader.past, List.map_cons, List.foldl_cons, Reader.foldl_after_unmarked hstarts]
  rw [hpast] at hbehind
  have hheard : (r.after (l, some a)).hears (l, none) = x := (List.cons.inj hbehind).1
  have hforce : (r.after (l, some a)).hears (l, none) = NoteName.pitchClass ⟨l, some a⟩ := by
    show NoteName.pitchClass ⟨l, replaceAt r l (some a) l⟩ = _
    rw [replaceAt_same]
  exact hne (hheard.symm.trans (hforce.trans hclass))

end Fall

/-! ## Which shapes read back -/

/-- A list of classes, dealt to the chords of a shape. -/
theorem exists_chords (shape : List (List Nat)) {classes : List PitchClass}
    (h : classes.length = shape.flatten.length) :
    ∃ chords : List (List Nat × List PitchClass), chords.map (·.1) = shape ∧
      (∀ chord ∈ chords, chord.1.length = chord.2.length) ∧ chords.flatMap (·.2) = classes := by
  induction shape generalizing classes with
  | nil =>
      have hnil : classes = [] := List.length_eq_zero_iff.1 h
      exact ⟨[], rfl, List.forall_mem_nil _, hnil.symm⟩
  | cons strings shape ih =>
      rw [List.flatten_cons, List.length_append] at h
      have hrest : (classes.drop strings.length).length = shape.flatten.length := by
        rw [List.length_drop, h]
        omega
      obtain ⟨chords, hshape, hlen, hclasses⟩ := ih hrest
      refine ⟨(strings, classes.take strings.length) :: chords, ?_, ?_, ?_⟩
      · rw [List.map_cons, hshape]
      · intro chord hchord
        rcases List.mem_cons.1 hchord with rfl | hchord
        · show strings.length = (classes.take strings.length).length
          rw [List.length_take]
          omega
        · exact hlen chord hchord
      · rw [List.flatMap_cons, hclasses]
        exact List.take_append_drop strings.length classes

section Shapes

variable {key : String}

/-- In a key that is not plain, any three notes of chords that keep their order can be read
wrong. -/
theorem exists_not_readsBack_of_not_plain (hkey : key ∈ knownKeys) (hplain : ¬ IsPlainKey key)
    {shape : List (List Nat)} (hlong : 2 < shape.flatten.length)
    (horder : ∀ strings ∈ shape, KeepsOrder strings) :
    ∃ chords : List (List Nat × List PitchClass), chords.map (·.1) = shape ∧
      (∀ chord ∈ chords, chord.1.length = chord.2.length) ∧
      ¬ ReadsBack (.start key) (engrave (.ofKnown key) chords) := by
  -- The trap is set with the first three notes; the others do not matter.
  let start := [(trap key).1, (trap key).2, (trap key).1]
  let rest := List.replicate (shape.flatten.length - 3) (trap key).1
  have hcount : (start ++ rest).length = shape.flatten.length := by
    simp only [start, rest, List.length_append, List.length_cons, List.length_nil,
      List.length_replicate]
    omega
  obtain ⟨chords, hshape, hlen, hclasses⟩ := exists_chords shape hcount
  refine ⟨chords, hshape, hlen, fun hreads => ?_⟩
  have hkeeps : ∀ chord ∈ chords, KeepsOrder chord.1 := fun chord hchord =>
    horder chord.1 (hshape ▸ List.mem_map_of_mem hchord)
  have hecho := (readsBack_of_keepsOrder hlen hkeeps).1 hreads
  rw [hclasses, SpellingMemory.echo, SpellingMemory.spell_append, Reader.read_append] at hecho
  exact echo_trap hkey hplain (List.append_inj hecho (by simp)).1

/-- In every key a chord that does not keep its order can be read wrong, wherever it stands. -/
theorem exists_not_readsBack_of_not_keepsOrder (hkey : key ∈ knownKeys) {shape : List (List Nat)}
    {strings : List Nat} (hmem : strings ∈ shape) (hfalls : ¬ KeepsOrder strings) :
    ∃ chords : List (List Nat × List PitchClass), chords.map (·.1) = shape ∧
      (∀ chord ∈ chords, chord.1.length = chord.2.length) ∧
      ¬ ReadsBack (.start key) (engrave (.ofKnown key) chords) := by
  obtain ⟨l, a, b, hunmarked, hspell, hclass, hne⟩ := spell_neighbours hkey
  obtain ⟨before, p, behind, hplaces, hp⟩ := Chord.exists_fall hfalls
  obtain ⟨first, last, rfl⟩ := List.append_of_mem hmem
  let x := (neighbours key).1
  let y := (neighbours key).2
  let falling := List.replicate (before.length + 1) y ++ List.replicate (behind.length + 2) x
  refine ⟨first.map (uniform x) ++ (strings, falling) :: last.map (uniform x), ?_, ?_,
    fun hreads => ?_⟩
  · rw [List.map_append, List.map_cons, map_uniform, map_uniform]
  · intro chord hchord
    rcases List.mem_append.1 hchord with hchord | hchord
    · exact length_uniform hchord
    · rcases List.mem_cons.1 hchord with rfl | hchord
      · have hlength := Chord.length_placesOn strings
        rw [hplaces] at hlength
        simp only [falling, List.length_append, List.length_cons, List.length_replicate]
          at hlength ⊢
        omega
      · exact length_uniform hchord
  · -- The chords before the fall leave memory and reader as they are at the start.
    obtain ⟨hmemory, hpast⟩ := engrave_uniform (r := .start key) hunmarked first
    rw [engrave_append, hmemory, engrave] at hreads
    have hbehind := (readsBack_append.1 hreads).2
    rw [hpast] at hbehind
    exact not_readsBack_of_fall hspell hclass hne hplaces hp _ (readsBack_append.1 hbehind).1

/-- **Which shapes always read back.** Chords on some strings read back in a key, whatever their
classes are, if there are at most two notes, or if the key is plain and every chord keeps its order;
and in no other case. -/
theorem readsBack_iff (hkey : key ∈ knownKeys) (shape : List (List Nat)) :
    (∀ chords : List (List Nat × List PitchClass), chords.map (·.1) = shape →
      (∀ chord ∈ chords, chord.1.length = chord.2.length) →
      ReadsBack (.start key) (engrave (.ofKnown key) chords)) ↔
    shape.flatten.length ≤ 2 ∨ (IsPlainKey key ∧ ∀ strings ∈ shape, KeepsOrder strings) := by
  constructor
  · intro hall
    by_contra hnone
    obtain ⟨hlong, hneither⟩ := not_or.1 hnone
    -- Either some chord falls, or the chords are in order and the key is to blame.
    by_cases horder : ∀ strings ∈ shape, KeepsOrder strings
    · have hplain : ¬ IsPlainKey key := fun hplain => hneither ⟨hplain, horder⟩
      obtain ⟨chords, hshape, hlen, hwrong⟩ :=
        exists_not_readsBack_of_not_plain hkey hplain (Nat.lt_of_not_le hlong) horder
      exact hwrong (hall chords hshape hlen)
    · push Not at horder
      obtain ⟨strings, hmem, hfalls⟩ := horder
      obtain ⟨chords, hshape, hlen, hwrong⟩ :=
        exists_not_readsBack_of_not_keepsOrder hkey hmem hfalls
      exact hwrong (hall chords hshape hlen)
  · rintro hcond chords rfl hlen
    rcases hcond with hshort | ⟨hplain, horder⟩
    · have hkeeps : ∀ chord ∈ chords, KeepsOrder chord.1 := by
        intro chord hchord
        refine Chord.keepsOrder_of_length_le_two (Nat.le_trans ?_ hshort)
        exact (List.sublist_flatten_of_mem (List.mem_map_of_mem hchord)).length_le
      refine (readsBack_of_keepsOrder hlen hkeeps).2 ?_
      refine SpellingMemory.echo_of_length_le_two (fresh_ofKnown hkey) (Nat.le_trans ?_ hshort)
      have hsame : chords.map (·.2.length) = chords.map (·.1.length) :=
        List.map_congr_left fun chord hchord => (hlen chord hchord).symm
      rw [List.length_flatMap, List.length_flatten, List.map_map, hsame]
      exact Nat.le_refl _
    · have hkeeps : ∀ chord ∈ chords, KeepsOrder chord.1 := fun chord hchord =>
        horder chord.1 (List.mem_map_of_mem hchord)
      refine (readsBack_of_keepsOrder hlen hkeeps).2 ?_
      exact SpellingMemory.echo_of_canonical (fresh_ofKnown hkey).toAgrees
        (canonical_ofKnown hkey hplain) _

end Shapes

end Tablature
