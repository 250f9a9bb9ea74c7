/-
# Tablature.Pitch.NoteName — spelled note names and pitch classes.

A note name is a letter with an optional accidental. Names keep their letter, so `a#` and `bb`
differ although they share a pitch class. The *raw value* of a name counts semitones from C
without wrapping (`cb` is -1), its *pitch class* wraps into the twelve classes of the octave.
-/
import Tablature.Pitch.Letter
import Tablature.Pitch.Accidental
import Tablature.Text.Blank

namespace Tablature

/-- One of the twelve classes of pitches that differ by octaves, C being zero. -/
abbrev PitchClass := Fin 12

/-- There are pitch classes, so that numerals stand for them. -/
instance PitchClass.neZero : @NeZero Nat Zero.ofOfNat0 12 := ⟨Nat.succ_ne_zero 11⟩

/-- The class of a number of semitones above some C. -/
def PitchClass.ofInt (semitones : Int) : PitchClass := Fin.ofNat 12 (semitones % 12).toNat

/-- A letter with an optional accidental. -/
structure NoteName where
  letter : Letter
  accidental : Option Accidental
  deriving DecidableEq, Repr

namespace NoteName

/-- A letter without an accidental. -/
def natural (letter : Letter) : NoteName := ⟨letter, none⟩

/-- Semitones above C, not wrapped. -/
def rawValue (n : NoteName) : Int :=
  n.letter.semitones + (n.accidental.map Accidental.offset).getD 0

/-- The pitch class of a name. -/
def pitchClass (n : NoteName) : PitchClass := PitchClass.ofInt n.rawValue

/-- The canonical name of a pitch class: a natural, or else a sharp. -/
def canonical (v : PitchClass) : NoteName :=
  match v.val with
  | 0 => ⟨.c, none⟩
  | 1 => ⟨.c, some .sharp⟩
  | 2 => ⟨.d, none⟩
  | 3 => ⟨.d, some .sharp⟩
  | 4 => ⟨.e, none⟩
  | 5 => ⟨.f, none⟩
  | 6 => ⟨.f, some .sharp⟩
  | 7 => ⟨.g, none⟩
  | 8 => ⟨.g, some .sharp⟩
  | 9 => ⟨.a, none⟩
  | 10 => ⟨.a, some .sharp⟩
  | _ => ⟨.b, none⟩

/-- The same name with a written natural left out. -/
def normalized (n : NoteName) : NoteName :=
  if n.accidental = some .natural then natural n.letter else n

/-- A name as it is written. -/
def text (n : NoteName) : List Char :=
  n.letter.char :: ((n.accidental.map fun a => a.symbol.toList).getD [])

/-- A name as a string. -/
def toText (n : NoteName) : String := String.ofList n.text

/-- The name that a text without blanks around it stands for, in small letters. -/
def ofChars? : List Char → Option NoteName
  | [] => none
  | c :: rest =>
      match Letter.ofChar? c with
      | none => none
      | some letter =>
          match rest with
          | [] => some ⟨letter, none⟩
          | _ => (Accidental.ofSymbol? rest).map fun a => ⟨letter, some a⟩

/-- Reads a name: blanks around it and capitals do not matter. -/
def read (text : String) : Except Cause NoteName :=
  match ofChars? (Text.lower (Text.trim text.toList)) with
  | some n => .ok n
  | none => .error (.badNoteName text)

theorem canonical_pitchClass (v : PitchClass) : (canonical v).pitchClass = v := by
  revert v; decide

theorem rawValue_normalized (n : NoteName) : n.normalized.rawValue = n.rawValue := by
  unfold normalized
  split
  · rename_i h
    simp [natural, rawValue, h, Accidental.offset]
  · rfl

theorem pitchClass_normalized (n : NoteName) : n.normalized.pitchClass = n.pitchClass := by
  simp [pitchClass, rawValue_normalized]

theorem normalized_normalized (n : NoteName) : n.normalized.normalized = n.normalized := by
  unfold normalized
  split
  · simp [natural]
  · simp_all

end NoteName

end Tablature
