/-
# Tablature.Proofs.Reading — engraved accidentals read back.

A reader of a staff knows the key signature. An accidental at a key stays in force for its letter,
in every octave, until the next one; a key without an accidental is read with what is in force. The
memory that spells notes should never be wrong about what such a reader has in force. `Agrees` says
that it is not: while it holds, every note that is spelled reads back right (`Agrees.hears_select`).

Selecting a note keeps the agreement unless the pitch class returns to the name that the key gives
it under another letter. Then the name is remembered under the letter that came in, and the memory
and the reader part. In keys whose tones have the names that frets have, those with no flats and at
most five sharps, this never happens; in every other key three notes are enough (`trap`).
-/
import Tablature.Key.Memory
import Tablature.Session.Resolve

namespace Tablature

/-! ## Key signatures -/

/-- Steps from C round the circle of fifths. -/
def Letter.fifths : Letter → Int
  | f => -1
  | c => 0
  | g => 1
  | d => 2
  | a => 3
  | e => 4
  | b => 5

/-- Steps from C round the circle of fifths, seven for an accidental. -/
def NoteName.fifths (n : NoteName) : Int :=
  n.letter.fifths + 7 * (n.accidental.map Accidental.offset).getD 0

/-- The sharps of a key signature; flats count below zero. -/
def KeySignature.fifths (k : KeySignature) : Int := k.root.fifths - if k.minor then 3 else 0

/-- The sharps or flats of a key as it is written. -/
def fifthsOf (key : String) : Int :=
  match KeySignature.read key with
  | .ok k => k.fifths
  | .error _ => 0

/-- The accidental that a signature of so many sharps puts on a letter. Sharps come in the order of
the fifths, flats in the opposite order. -/
def signatureAccidental (fifths : Int) (l : Letter) : Option Accidental :=
  if l.fifths + 1 < fifths then some .sharp
  else if fifths < l.fifths - 5 then some .flat
  else none

/-! ## Readers -/

/-- What is written at a key: its letter, and the accidental next to it if there is one. -/
abbrev Written := Letter × Option Accidental

/-- What a reader has in force for each letter. -/
abbrev Reader := Letter → Option Accidental

namespace Reader

/-- At the start of a stave: the key signature. -/
def start (key : String) : Reader := signatureAccidental (fifthsOf key)

/-- After a key: its accidental is in force for its letter. -/
def after (r : Reader) (w : Written) : Reader :=
  match w.2 with
  | some a => replaceAt r w.1 (some a)
  | none => r

/-- The pitch class that a key is read as. -/
def hears (r : Reader) (w : Written) : PitchClass := NoteName.pitchClass ⟨w.1, r.after w w.1⟩

/-- The pitch classes that keys are read as, one after the other. -/
def read (r : Reader) : List Written → List PitchClass
  | [] => []
  | w :: ws => r.hears w :: (r.after w).read ws

theorem read_append (r : Reader) (ws vs : List Written) :
    r.read (ws ++ vs) = r.read ws ++ (ws.foldl after r).read vs := by
  induction ws generalizing r with
  | nil => rfl
  | cons w ws ih => rw [List.cons_append, read, ih]; rfl

@[simp] theorem length_read (r : Reader) (ws : List Written) : (r.read ws).length = ws.length := by
  induction ws generalizing r with
  | nil => rfl
  | cons w ws ih => simp [read, ih]

/-- Keys without accidentals change nothing for a reader. -/
theorem foldl_after_unmarked {ws : List Written} (h : ∀ w ∈ ws, w.2 = none) (r : Reader) :
    ws.foldl after r = r := by
  induction ws with
  | nil => rfl
  | cons w ws ih =>
      have hw : r.after w = r := by rw [after, h w List.mem_cons_self]
      rw [List.foldl_cons, hw]
      exact ih fun v hv => h v (List.mem_cons_of_mem w hv)

end Reader

/-! ## Spelling a sequence of pitch classes -/

/-- What a selection writes at a key, with accidentals only where the spelling changes. -/
def Selection.written (s : Selection) : Written :=
  (s.note.letter, (s.mark .standard).map (·.accidental))

namespace SpellingMemory

/-- Spells pitch classes in their canonical names, one after the other. -/
def spell (m : SpellingMemory) : List PitchClass → SpellingMemory × List Written
  | [] => (m, [])
  | v :: vs =>
      let first := m.select (.canonical v)
      let rest := first.1.spell vs
      (rest.1, first.2.written :: rest.2)

theorem spell_append (m : SpellingMemory) (us vs : List PitchClass) :
    m.spell (us ++ vs) =
      (((m.spell us).1.spell vs).1, (m.spell us).2 ++ ((m.spell us).1.spell vs).2) := by
  induction us generalizing m with
  | nil => rfl
  | cons u us ih => simp only [List.cons_append, spell, ih]

@[simp] theorem length_spell (m : SpellingMemory) (vs : List PitchClass) :
    (m.spell vs).2.length = vs.length := by
  induction vs generalizing m with
  | nil => rfl
  | cons v vs ih => simp [spell, ih]

/-- A selection that asks for no mark leaves the memory as it is. -/
theorem select_unchanged {m : SpellingMemory} {n : NoteName} (h : (m.select n).2.change = false) :
    (m.select n).1 = m := by
  unfold select at h ⊢
  dsimp only at h ⊢
  split
  · rfl
  · rw [if_neg ‹_›] at h
    split at h
    · rfl
    · cases h

/-! ## Agreement -/

/-- The names of the key are names of their classes, as they are written. -/
def KeyNamed (m : SpellingMemory) : Prop :=
  ∀ v n, m.ofKey v = some n → n.pitchClass = v ∧ n.normalized = n

/-- **The memory agrees with a reader**: it has the same name in force for every letter, and a pitch
class has a name only if that name is in force. -/
structure Agrees (m : SpellingMemory) (r : Reader) : Prop where
  letters : ∀ l, (⟨l, r l⟩ : NoteName).normalized = m.byLetter l
  classes : ∀ v n, m.byClass v = some n → n.pitchClass = v ∧ m.byLetter n.letter = n
  key : m.KeyNamed

namespace Agrees

variable {m : SpellingMemory} {r : Reader}

/-- A name in force needs no accidental. -/
theorem hears_unmarked (h : m.Agrees r) {n : NoteName} (hn : m.byLetter n.letter = n) :
    r.hears (n.letter, none) = n.pitchClass := by
  show NoteName.pitchClass ⟨n.letter, r n.letter⟩ = n.pitchClass
  rw [← NoteName.pitchClass_normalized, h.letters, hn]

/-- A name with its accidental written reads as it should, whatever is in force. -/
theorem hears_marked (r : Reader) (n : NoteName) :
    r.hears (n.letter, some (n.accidental.getD .natural)) = n.pitchClass := by
  obtain ⟨letter, accidental⟩ := n
  show NoteName.pitchClass ⟨letter, replaceAt r letter _ letter⟩ = _
  rw [replaceAt_same]
  cases accidental <;> rfl

/-- A name with its accidental written is that name, when it is written as names are. -/
theorem normalized_marked {n : NoteName} (h : n.normalized = n) :
    (⟨n.letter, some (n.accidental.getD .natural)⟩ : NoteName).normalized = n := by
  obtain ⟨letter, accidental⟩ := n
  cases accidental with
  | none => rfl
  | some a => cases a <;> first | rfl | cases h

theorem hears_select (h : m.Agrees r) (n : NoteName) :
    r.hears (m.select n).2.written = n.pitchClass := by
  rw [← NoteName.pitchClass_normalized n]
  unfold select
  dsimp only
  split
  · rename_i hletter
    exact h.hears_unmarked hletter
  · split
    · rename_i known hknown
      obtain ⟨hclass, hletter⟩ := h.classes _ _ hknown
      exact (h.hears_unmarked hletter).trans hclass
    · -- The name is the key's, or else the note itself; both have the class of the note.
      refine (hears_marked r ((m.ofKey n.normalized.pitchClass).getD n.normalized)).trans ?_
      cases hkey : m.ofKey n.normalized.pitchClass with
      | none => rfl
      | some name => exact (h.key _ _ hkey).1

/-- The agreement survives a selection that returns to no name under another letter. -/
theorem select (h : m.Agrees r) {n : NoteName}
    (hsame : ∀ name, m.byClass n.normalized.pitchClass = none →
      m.ofKey n.normalized.pitchClass = some name → name.letter = n.normalized.letter) :
    (m.select n).1.Agrees (r.after (m.select n).2.written) := by
  unfold SpellingMemory.select
  dsimp only
  split
  · exact h
  · split
    · exact h
    · rename_i hnone
      let note := n.normalized
      let name := (m.ofKey note.pitchClass).getD note
      have hname : name.letter = note.letter ∧ name.pitchClass = note.pitchClass ∧
          name.normalized = name := by
        cases hkey : m.ofKey note.pitchClass with
        | none =>
            have heq : name = note := by simp only [name, hkey, Option.getD_none]
            rw [heq]
            exact ⟨rfl, rfl, NoteName.normalized_normalized n⟩
        | some k =>
            have heq : name = k := by simp only [name, hkey, Option.getD_some]
            rw [heq]
            exact ⟨hsame k hnone hkey, (h.key _ _ hkey).1, (h.key _ _ hkey).2⟩
      obtain ⟨hletter, hclass, hnormal⟩ := hname
      show (m.assign note.letter name note.pitchClass).Agrees
        (replaceAt r name.letter (some (name.accidental.getD .natural)))
      refine ⟨fun l => ?_, fun v k hk => ?_, h.key⟩
      · by_cases hl : l = name.letter
        · subst hl
          rw [replaceAt_same, normalized_marked hnormal, hletter]
          exact (replaceAt_same _ _ _).symm
        · rw [replaceAt_of_ne r hl, h.letters]
          exact (replaceAt_of_ne m.byLetter (hletter ▸ hl) name).symm
      · by_cases hv : v = note.pitchClass
        · subst hv
          have hk' : k = name := by
            have hsome : some k = some name := hk.symm.trans (replaceAt_same _ _ _)
            exact Option.some.inj hsome
          subst hk'
          exact ⟨hclass, by rw [hletter]; exact replaceAt_same _ _ _⟩
        · -- Another class keeps its name only if the letter of that name is not the changed one.
          have hother : replaceAt m.byClass (m.byLetter note.letter).pitchClass none v = some k :=
            (replaceAt_of_ne _ hv _).symm.trans hk
          have hold : v ≠ (m.byLetter note.letter).pitchClass := by
            intro heq
            rw [heq, replaceAt_same] at hother
            cases hother
          rw [replaceAt_of_ne _ hold] at hother
          obtain ⟨hkclass, hkletter⟩ := h.classes v k hother
          refine ⟨hkclass, ?_⟩
          have hne : k.letter ≠ note.letter := by
            intro heq
            rw [heq] at hkletter
            exact hold (by rw [hkletter, hkclass])
          exact (replaceAt_of_ne m.byLetter hne name).trans hkletter

end Agrees

/-! ## Keys -/

/-- A memory at the start of a measure agrees with the reader of a key signature. -/
structure Fresh (m : SpellingMemory) (r : Reader) : Prop extends m.Agrees r where
  untouched : m.byClass = m.ofKey

/-- The tones of the key have the names that frets have. -/
def Canonical (m : SpellingMemory) : Prop := ∀ v n, m.ofKey v = some n → n = .canonical v

/-- Spells some pitch classes in a key and reads them back. -/
def echo (m : SpellingMemory) (r : Reader) (vs : List PitchClass) : List PitchClass :=
  r.read (m.spell vs).2

theorem canonical_normalized (v : PitchClass) :
    (NoteName.canonical v).normalized = NoteName.canonical v := by
  revert v
  decide

theorem hears_canonical {m : SpellingMemory} {r : Reader} (h : m.Agrees r) (v : PitchClass) :
    r.hears (m.select (.canonical v)).2.written = v :=
  (h.hears_select _).trans (NoteName.canonical_pitchClass v)

/-- **In canonical keys every sequence of notes reads back right.** -/
theorem echo_of_canonical {m : SpellingMemory} {r : Reader} (h : m.Agrees r) (hm : m.Canonical)
    (vs : List PitchClass) : m.echo r vs = vs := by
  induction vs generalizing m r with
  | nil => rfl
  | cons v vs ih =>
      have hkey : (m.select (.canonical v)).1.ofKey = m.ofKey := by
        unfold SpellingMemory.select
        dsimp only
        split
        · rfl
        · split <;> rfl
      have hnext : (m.select (.canonical v)).1.Agrees
          (r.after (m.select (.canonical v)).2.written) := by
        refine h.select fun name _ hname => ?_
        rw [hm _ name hname, NoteName.pitchClass_normalized, NoteName.canonical_pitchClass,
          canonical_normalized]
      have hcanonical : (m.select (.canonical v)).1.Canonical := by
        intro u n hn
        rw [hkey] at hn
        exact hm u n hn
      show r.hears _ :: _ = v :: vs
      rw [hears_canonical h v]
      exact congrArg (v :: ·) (ih hnext hcanonical)

/-- **In every key the first two notes read back right.** -/
theorem echo_of_length_le_two {m : SpellingMemory} {r : Reader} (h : m.Fresh r)
    {vs : List PitchClass} (hlen : vs.length ≤ 2) : m.echo r vs = vs := by
  match vs, hlen with
  | [], _ => rfl
  | [u], _ => exact congrArg (· :: []) (hears_canonical h.toAgrees u)
  | [u, v], _ =>
      have hnext : (m.select (.canonical u)).1.Agrees
          (r.after (m.select (.canonical u)).2.written) := by
        -- At the start a class without a name has none from the key either.
        refine h.toAgrees.select fun name hnone hname => ?_
        rw [h.untouched, hname] at hnone
        cases hnone
      show [_, _] = [u, v]
      rw [hears_canonical h.toAgrees u, hears_canonical hnext v]

end SpellingMemory

/-! ## The keys that a stave may declare -/

/-- The memory at the start of a measure in a key that can be read. -/
def SpellingMemory.ofKnown (key : String) : SpellingMemory :=
  match SpellingMemory.forKey key with
  | .ok m => m
  | .error _ => .cMajor

/-- The keys whose tones have the names that frets have: no flats and at most five sharps. -/
def IsPlainKey (key : String) : Prop := 0 ≤ fifthsOf key ∧ fifthsOf key ≤ 5

instance (key : String) : Decidable (IsPlainKey key) := by
  unfold IsPlainKey
  infer_instance

section Known

variable {key : String}

theorem forKey_eq_ofKnown (h : key ∈ knownKeys) :
    SpellingMemory.forKey key = .ok (.ofKnown key) := by
  have readable : ∀ key ∈ knownKeys, (SpellingMemory.forKey key).isOk = true := by decide +kernel
  have hok := readable key h
  unfold SpellingMemory.ofKnown
  cases hkey : SpellingMemory.forKey key with
  | ok m => rfl
  | error cause =>
      rw [hkey] at hok
      cases hok

theorem fresh_ofKnown (h : key ∈ knownKeys) :
    (SpellingMemory.ofKnown key).Fresh (.start key) := by
  have checked : ∀ key ∈ knownKeys,
      (∀ l ∈ Letter.all, (⟨l, Reader.start key l⟩ : NoteName).normalized =
        (SpellingMemory.ofKnown key).byLetter l) ∧
      (∀ v, (SpellingMemory.ofKnown key).byClass v = (SpellingMemory.ofKnown key).ofKey v) ∧
      ∀ v, ∀ n ∈ (SpellingMemory.ofKnown key).ofKey v, n.pitchClass = v ∧ n.normalized = n ∧
        (SpellingMemory.ofKnown key).byLetter n.letter = n := by
    decide +kernel
  obtain ⟨hletters, hclasses, hnames⟩ := checked key h
  refine ⟨⟨fun l => hletters l l.mem_all, fun v n hn => ?_, fun v n hn => ?_⟩, funext hclasses⟩
  · rw [hclasses] at hn
    exact ⟨(hnames v n hn).1, (hnames v n hn).2.2⟩
  · exact ⟨(hnames v n hn).1, (hnames v n hn).2.1⟩

theorem canonical_ofKnown (h : key ∈ knownKeys) (hplain : IsPlainKey key) :
    (SpellingMemory.ofKnown key).Canonical := by
  have checked : ∀ key ∈ knownKeys, IsPlainKey key →
      ∀ v, ∀ n ∈ (SpellingMemory.ofKnown key).ofKey v, n = .canonical v := by
    decide +kernel
  exact fun v n hn => checked key h hplain v n hn

/-- Two classes; in every key but the plain ones the first, the second and again the first do not
read back. -/
def trap (key : String) : PitchClass × PitchClass :=
  if 5 < fifthsOf key then (4, 5)
  else if -2 < fifthsOf key then (11, 10)
  else if -4 < fifthsOf key then (4, 3)
  else if -6 < fifthsOf key then (2, 1)
  else (0, 11)

theorem echo_trap (h : key ∈ knownKeys) (hplain : ¬ IsPlainKey key) :
    (SpellingMemory.ofKnown key).echo (.start key) [(trap key).1, (trap key).2, (trap key).1] ≠
      [(trap key).1, (trap key).2, (trap key).1] := by
  have checked : ∀ key ∈ knownKeys, ¬ IsPlainKey key →
      (SpellingMemory.ofKnown key).echo (.start key) [(trap key).1, (trap key).2, (trap key).1] ≠
        [(trap key).1, (trap key).2, (trap key).1] := by
    decide +kernel
  exact checked key h hplain

/-- A class of the key and one outside it that are written on the same letter. -/
def neighbours (key : String) : PitchClass × PitchClass :=
  if fifthsOf key < -3 then (1, 2)
  else if fifthsOf key < 1 then (5, 6)
  else if fifthsOf key < 6 then (6, 5)
  else (8, 7)

/-- The one of the key is written without an accidental; the other one needs an accidental, then the
first needs one, and neither needs it twice. -/
theorem spell_neighbours (h : key ∈ knownKeys) : ∃ l a b,
    ((SpellingMemory.ofKnown key).spell [(neighbours key).1]).2 = [(l, none)] ∧
    ((SpellingMemory.ofKnown key).spell
      [(neighbours key).2, (neighbours key).2, (neighbours key).1, (neighbours key).1]).2 =
        [(l, some a), (l, none), (l, some b), (l, none)] ∧
    NoteName.pitchClass ⟨l, some a⟩ = (neighbours key).2 ∧
    (neighbours key).1 ≠ (neighbours key).2 := by
  have checked : ∀ key ∈ knownKeys,
      ∃ l ∈ Letter.all, ∃ a ∈ Accidental.all, ∃ b ∈ Accidental.all,
      ((SpellingMemory.ofKnown key).spell [(neighbours key).1]).2 = [(l, none)] ∧
      ((SpellingMemory.ofKnown key).spell
        [(neighbours key).2, (neighbours key).2, (neighbours key).1, (neighbours key).1]).2 =
          [(l, some a), (l, none), (l, some b), (l, none)] ∧
      NoteName.pitchClass ⟨l, some a⟩ = (neighbours key).2 ∧
      (neighbours key).1 ≠ (neighbours key).2 := by
    decide +kernel
  obtain ⟨l, _, a, _, b, _, hfacts⟩ := checked key h
  exact ⟨l, a, b, hfacts⟩

end Known

end Tablature
