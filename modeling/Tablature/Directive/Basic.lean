/-
# Tablature.Directive.Basic — the directives that describe a score.

A directive opens a stave or a voice, or sets options. A stave or voice has a line of note
elements and a line of text tokens. A note element may set the duration, run a command, write a
chord and write a single note, in this order. Directives, options and note elements know where
they were written.
-/
import Tablature.Tuning

namespace Tablature

/-- Articulations written at a position of a chord; each connects the position with the note
before. -/
inductive Articulation
  | bend
  | slide
  | hammerOn
  | pullOff
  | tap
  | tapTie
  | vibrato
  | harshVibrato
  deriving DecidableEq, Repr

namespace Articulation

/-- The articulations in the order in which they are applied. -/
def all : List Articulation :=
  [bend, slide, hammerOn, pullOff, tap, tapTie, vibrato, harshVibrato]

/-- The letter of an articulation. -/
def letter : Articulation → String
  | bend => "b"
  | slide => "s"
  | hammerOn => "h"
  | pullOff => "p"
  | tap => "t"
  | tapTie => "T"
  | vibrato => "v"
  | harshVibrato => "V"

/-- The articulation with a given letter. -/
def ofLetter? (text : String) : Option Articulation := all.find? (·.letter == text)

theorem ofLetter?_letter (a : Articulation) : ofLetter? a.letter = some a := by
  cases a <;> decide

end Articulation

/-- Decorations of a whole note. -/
inductive Decorator
  | vibrato
  | harshVibrato
  | upStroke
  | downStroke
  deriving DecidableEq, Repr

namespace Decorator

/-- The decorations. -/
def all : List Decorator := [vibrato, harshVibrato, upStroke, downStroke]

/-- The letter of a decoration. -/
def letter : Decorator → String
  | vibrato => "v"
  | harshVibrato => "V"
  | upStroke => "u"
  | downStroke => "d"

/-- The decoration with a given letter. -/
def ofLetter? (text : String) : Option Decorator := all.find? (·.letter == text)

theorem ofLetter?_letter (d : Decorator) : ofLetter? d.letter = some d := by
  cases d <;> decide

end Decorator

/-- An option: key and value as they are written. -/
structure OptionEntry where
  key : String
  value : String
  line : Option Nat
  column : Option Nat
  deriving DecidableEq, Repr

/-- An explicit pitch letter. The type `c` makes the accidental a courtesy. -/
structure LetterPitch where
  key : String
  accidental : Option String
  accidentalType : Option String
  deriving DecidableEq, Repr

/-- One position of a chord, or a single note. -/
structure NoteEntry where
  time : Option String
  dot : Bool
  fret : Option Fret
  string : Option Nat
  letterPitch : Option LetterPitch
  octave : Option Int
  articulation : Option Articulation
  decorator : Option Decorator
  deriving DecidableEq, Repr

/-- The parameters of a command; which of them make sense depends on the command. -/
inductive Parameters
  | tuplet (tuplet : Nat) (notes : Option Nat)
  | rest (position : Int)
  | tokens (tokens : List String)
  | line (text : String)
  deriving DecidableEq, Repr

/-- One element of a line of notes. -/
structure NoteElement where
  time : Option String
  dot : Bool
  command : Option String
  barName : Option String
  parameters : Option Parameters
  chord : Option (List NoteEntry)
  articulation : Option Articulation
  decorator : Option Decorator
  fret : Option Fret
  string : Option Nat
  letterPitch : Option LetterPitch
  octave : Option Int
  line : Option Nat
  column : Option Nat
  deriving DecidableEq, Repr

/-- The single note of an element, if it has a fret or a pitch letter. An octave counts only with a
pitch letter. -/
def NoteElement.singleNote? (e : NoteElement) : Option NoteEntry :=
  if e.letterPitch.isNone && e.fret.isNone then none
  else some
    { time := e.time
      dot := e.dot
      fret := e.fret
      string := e.string
      letterPitch := e.letterPitch
      octave := if e.letterPitch.isSome then e.octave else none
      articulation := e.articulation
      decorator := e.decorator }

/-- A directive: its keyword, options, note elements and text tokens. The keyword is not checked
here, so that an unknown one is reported with its position. -/
structure Directive where
  keyword : String
  options : List OptionEntry
  settings : List OptionEntry
  notes : List NoteElement
  text : List String
  line : Option Nat
  column : Option Nat
  deriving DecidableEq, Repr

end Tablature
