/-
# Tablature.Pitch.Accidental — the five accidentals.

An accidental raises or lowers a letter by up to two semitones. The natural changes nothing and is
written only to cancel another accidental.
-/
import Tablature.Fault

namespace Tablature

/-- An accidental. -/
inductive Accidental
  | doubleFlat
  | flat
  | natural
  | sharp
  | doubleSharp
  deriving DecidableEq, Repr

namespace Accidental

/-- The accidentals, from the lowest to the highest. -/
def all : List Accidental := [doubleFlat, flat, natural, sharp, doubleSharp]

/-- Semitones that the accidental adds. -/
def offset : Accidental → Int
  | doubleFlat => -2
  | flat => -1
  | natural => 0
  | sharp => 1
  | doubleSharp => 2

/-- An accidental as it is written. -/
def symbol : Accidental → String
  | doubleFlat => "bb"
  | flat => "b"
  | natural => "n"
  | sharp => "#"
  | doubleSharp => "##"

/-- The accidental that adds so many semitones; none adds nothing. -/
def ofOffset? (offset : Int) : Option Accidental :=
  if offset = -2 then some doubleFlat
  else if offset = -1 then some flat
  else if offset = 1 then some sharp
  else if offset = 2 then some doubleSharp
  else none

/-- The accidental with a given symbol. -/
def ofSymbol? (symbol : List Char) : Option Accidental :=
  match symbol with
  | ['b', 'b'] => some doubleFlat
  | ['b'] => some flat
  | ['n'] => some natural
  | ['#'] => some sharp
  | ['#', '#'] => some doubleSharp
  | _ => none

/-- Reads an accidental. -/
def read (text : String) : Except Cause Accidental :=
  match ofSymbol? text.toList with
  | some a => .ok a
  | none => .error (.badAccidental text)

theorem ofSymbol?_symbol (a : Accidental) : ofSymbol? a.symbol.toList = some a := by
  cases a <;> decide

end Accidental

end Tablature
