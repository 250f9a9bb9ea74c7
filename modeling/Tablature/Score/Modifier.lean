/-
# Tablature.Score.Modifier — marks attached to notes.
-/
import Tablature.Markup.Token
import Tablature.Settings.Basic
import Tablature.Tuning

namespace Tablature

/-- A fret on a string. -/
structure TabPosition where
  fret : Fret
  string : Nat
  deriving DecidableEq, Repr

/-- Where a bend leads. -/
inductive BendDirection
  | up
  | down
  deriving DecidableEq, Repr

/-- The name of a direction. -/
def BendDirection.name : BendDirection → String
  | up => "up"
  | down => "down"

/-- One transition of a bend. A release has no label. -/
structure BendStep where
  direction : BendDirection
  label : String
  deriving DecidableEq, Repr

namespace BendStep

/-- The label of an upward bend by an interval, ending at a fret. -/
def upLabel (interval target : Nat) : String :=
  match interval with
  | 1 => "1/2"
  | 2 => "Full"
  | 3 => "1 1/2"
  | _ => "Bend to " ++ Text.Numeral.natText target

/-- The transition from one fret to another. -/
def between (source target : Nat) : BendStep :=
  if target < source then ⟨.down, ""⟩ else ⟨.up, upLabel (target - source) target⟩

end BendStep

/-- A text above or below a note. -/
structure Caption where
  text : String
  font : Font
  side : Side
  deriving DecidableEq, Repr

/-- A mark at a note. -/
inductive Modifier
  /-- A whole bend phrase, drawn from the note it starts at. -/
  | bend (phrase : List BendStep)
  | vibrato (harsh : Bool)
  | articulation (code : String) (position : Position)
  | caption (caption : Caption)
  | stroke (stroke : Stroke)
  | accidental (accidental : Accidental) (cautionary : Bool)
  | fingering (label : String) (position : Position)
  | stringNumber (label : String) (position : Position)
  deriving DecidableEq, Repr

/-- A mark together with the position or key of the note that it belongs to, counted from zero. -/
structure Attached where
  index : Nat
  modifier : Modifier
  deriving DecidableEq, Repr

end Tablature
