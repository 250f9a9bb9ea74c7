/-
# Tablature.Pitch — note names placed in octaves.

A pitch is written `name/octave`, for instance `c#/4`. Its place in semitones and in diatonic
steps is computed within 32 bits: a value outside is moved to the nearest end of the range.
-/
import Tablature.Pitch.NoteName

namespace Tablature

/-- The integers of 32 bits: the nearest one to `n`. -/
def clamp32 (n : Int) : Int := max (-2147483648) (min 2147483647 n)

/-- Is `n` an integer of 32 bits? -/
def fits32 (n : Int) : Bool := decide (-2147483648 ≤ n) && decide (n < 2147483648)

/-- A note name in an octave. -/
structure Pitch where
  name : NoteName
  octave : Int
  deriving DecidableEq, Repr

namespace Pitch

/-- Semitones above the C of octave zero, in exact integers. -/
def height (p : Pitch) : Int := 12 * p.octave + p.name.rawValue

/-- Semitones above the C of octave zero, kept within 32 bits. -/
def semitones (p : Pitch) : Int := clamp32 (clamp32 (p.octave * 12) + p.name.rawValue)

/-- The General MIDI key of a pitch, C in octave four being key 60, if there is such a key. -/
def midiKey? (p : Pitch) : Option Nat :=
  let key := 12 * (p.octave + 1) + p.name.rawValue
  if 0 ≤ key ∧ key ≤ 127 then some key.toNat else none

/-- Steps of the scale above the C of octave zero, kept within 32 bits. -/
def diatonicSteps (p : Pitch) : Int := clamp32 (clamp32 (p.octave * 7) + p.name.letter.index)

/-- A pitch as it is written. -/
def text (p : Pitch) : List Char := p.name.text ++ '/' :: Text.Numeral.ofInt p.octave

/-- A pitch as a string. -/
def toText (p : Pitch) : String := String.ofList p.text

/-- Reads a pitch. The octave is looked at before the name. -/
def read (text : String) : Except Cause Pitch :=
  match Text.splitFirst '/' text.toList with
  | none => .error (.badPitch text)
  | some (name, octave) =>
      match Text.Numeral.readInt32 (Text.trim octave) with
      | none => .error (.badPitchOctave text)
      | some octave =>
          match NoteName.read (String.ofList name) with
          | .ok name => .ok ⟨name, octave⟩
          | .error cause => .error cause

end Pitch

end Tablature
