/-
# Tablature.Meter — time signatures and beam groups.

A beam group is kept unreduced, since two eighths and one quarter are beamed differently.
-/
import Tablature.Duration

namespace Tablature

/-- A time signature. -/
inductive TimeSignature
  | common
  | cutCommon
  | numeric (beats beatValue : Nat)
  deriving DecidableEq, Repr

namespace TimeSignature

/-- Reads a positive number of 32 bits, blanks around it left out. -/
def readPart (text : List Char) : Option Nat :=
  (Text.Numeral.readNat32 (Text.trim text)).filter (0 < ·)

/-- Reads a time signature: `C`, the cut `C`, or two numbers with a stroke between them. -/
def ofChars? (text : List Char) : Option TimeSignature :=
  match Text.trim text with
  | ['C'] => some common
  | ['C', '|'] => some cutCommon
  | body =>
      match Text.splitFirst '/' body with
      | none => none
      | some (beats, beatValue) =>
          match readPart beats, readPart beatValue with
          | some beats, some beatValue => some (numeric beats beatValue)
          | _, _ => none

/-- Reads a time signature. -/
def read (text : String) : Except Cause TimeSignature :=
  match ofChars? text.toList with
  | some t => .ok t
  | none => .error (.badTimeSignature text)

/-- A time signature as it is written. -/
def text : TimeSignature → List Char
  | common => ['C']
  | cutCommon => ['C', '|']
  | numeric beats beatValue => Text.Numeral.digits beats ++ '/' :: Text.Numeral.digits beatValue

/-- A time signature as a string. -/
def toText (t : TimeSignature) : String := String.ofList t.text

end TimeSignature

/-- A unit of beaming: so many notes of one value. -/
structure BeamGroup where
  count : Nat
  value : Nat
  deriving DecidableEq, Repr

namespace BeamGroup

/-- How long a group lasts. -/
def ticks (g : BeamGroup) : Ticks :=
  ((ticksPerWhole * g.count : Nat) : Ticks) / ((max g.value 1 : Nat) : Ticks)

/-- A group as it is written. -/
def toText (g : BeamGroup) : String :=
  String.ofList (Text.Numeral.digits g.count ++ '/' :: Text.Numeral.digits g.value)

/-- The group for a number of beats. Halves and quarters up to four are beamed one by one, short
eighths and sixteenths as the beat falls; otherwise beats in threes are beamed in threes, values
shorter than a quarter in twos and the rest one by one. -/
def forBeats (beats value : Nat) : BeamGroup :=
  if 1 ≤ beats && beats ≤ 4 && (value == 2 || value == 4) then ⟨1, value⟩
  else if value = 8 || value = 16 then
    match beats with
    | 1 => ⟨1, value⟩
    | 2 => ⟨2, value⟩
    | 3 => ⟨3, value⟩
    | 4 => ⟨2, value⟩
    | _ => if beats % 3 = 0 then ⟨3, value⟩ else ⟨2, value⟩
  else if beats % 3 = 0 then ⟨3, value⟩
  else if 4 < value then ⟨2, value⟩
  else ⟨1, value⟩

/-- The beam groups of a stave: those of its numbers, or of four quarters. -/
def default : Option TimeSignature → List BeamGroup
  | some (.numeric beats beatValue) => [forBeats beats beatValue]
  | _ => [forBeats 4 4]

end BeamGroup

end Tablature
