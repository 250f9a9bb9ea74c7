/-
# Tablature.Tuning — frets, strings and the pitches on them.

Strings are numbered from one, the highest first. A tuning gives each open string as semitones
above the C of octave zero; the pitch at a fret is so many semitones higher, in its canonical
name.
-/
import Tablature.Pitch

namespace Tablature

/-- A fret number, or a muted string. -/
inductive Fret
  | number (n : Nat)
  | muted
  deriving DecidableEq, Repr

namespace Fret

/-- The number of a fret that is not muted. -/
def number? : Fret → Option Nat
  | number n => some n
  | muted => none

/-- A fret as it is written. -/
def text : Fret → List Char
  | number n => Text.Numeral.digits n
  | muted => ['X']

/-- A fret as a string. -/
def toText (f : Fret) : String := String.ofList f.text

/-- Reads a fret: a number of 32 bits, or `x` in either case. -/
def read (text : String) : Except Cause Fret :=
  let body := Text.trim text.toList
  if Text.lower body = ['x'] then .ok muted
  else match Text.Numeral.readNat32 body with
    | some n => .ok (number n)
    | none => .error (.badFret (String.ofList body))

end Fret

/-- Open strings, the highest first, in semitones above the C of octave zero. -/
structure Tuning where
  strings : List Int
  deriving DecidableEq, Repr

namespace Tuning

/-- The tunings that have names. -/
def named : List (String × String) :=
  [("standard", "E/5,B/4,G/4,D/4,A/3,E/3"),
    ("dagdad", "D/5,A/4,G/4,D/4,A/3,D/3"),
    ("dropd", "E/5,B/4,G/4,D/4,A/3,D/3"),
    ("eb", "Eb/5,Bb/4,Gb/4,Db/4,Ab/3,Eb/3"),
    ("standardBanjo", "D/5,B/4,G/4,D/4,G/5")]

/-- The tuning in force when none is declared. -/
def standard : Tuning := ⟨[64, 59, 55, 50, 45, 40]⟩

/-- The list of pitches behind a name, or the text itself. -/
def expand (spec : String) : String := ((named.find? (·.1 == spec)).map (·.2)).getD spec

/-- The open strings of a list of pitches, if all of them can be read. -/
def readStrings : List (List Char) → Option (List Int)
  | [] => some []
  | piece :: pieces =>
      match Pitch.read (String.ofList piece), readStrings pieces with
      | .ok p, some rest => some (p.semitones :: rest)
      | _, _ => none

/-- Reads the name of a tuning or a list of pitches between commas. -/
def read (spec : String) : Except Cause Tuning :=
  match readStrings (Text.splitAll ',' (expand spec).toList) with
  | some strings => .ok ⟨strings⟩
  | none => .error (.badTuning spec)

/-- The open string with a number, the first being one. -/
def openString (t : Tuning) (string : Nat) : Except Cause Int :=
  match string with
  | 0 => .error (.stringOutOfRange t.strings.length 0)
  | place + 1 =>
      match t.strings[place]? with
      | some value => .ok value
      | none => .error (.stringOutOfRange t.strings.length (place + 1))

/-- The pitch so many semitones above the C of octave zero, in its canonical name. -/
def pitchAtHeight (height : Int) : Pitch :=
  ⟨NoteName.canonical (PitchClass.ofInt height), Int.fdiv height 12⟩

/-- The pitch at a fret of a string. Fret and height must be integers of 32 bits. -/
def pitchAt (t : Tuning) (fret string : Nat) : Except Cause Pitch :=
  match t.openString string with
  | .error cause => .error cause
  | .ok value =>
      if fits32 fret && fits32 (value + fret) then .ok (pitchAtHeight (value + fret))
      else .error (.fretOutOfRange fret)

end Tuning

end Tablature
