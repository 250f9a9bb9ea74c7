/-
# Tablature.Directive.Encode — directives written as JSON.

Every field is written, `null` standing for what is absent.
-/
import Tablature.Directive.Basic
import Tablature.Json.Value

namespace Tablature

open Json

/-- Writes an option. -/
def OptionEntry.encode (o : OptionEntry) : Value :=
  .object
    [("key", .string o.key), ("value", .string o.value), ("_l", .option .nat o.line),
      ("_c", .option .nat o.column)]

/-- Writes a text token. -/
def Directive.encodeToken (text : String) : Value := .object [("text", .string text)]

/-- Writes an articulation. -/
def Articulation.encode (a : Articulation) : Value := .string a.letter

/-- Writes a decoration. -/
def Decorator.encode (d : Decorator) : Value := .string d.letter

/-- Writes a fret, always as a text. -/
def Fret.encode (f : Fret) : Value := .string f.toText

/-- Writes an explicit pitch letter. -/
def LetterPitch.encode (p : LetterPitch) : Value :=
  .object
    [("key", .string p.key), ("accidental", .option .string p.accidental),
      ("accidental_type", .option .string p.accidentalType)]

/-- Writes a position of a chord. -/
def NoteEntry.encode (n : NoteEntry) : Value :=
  .object
    [("time", .option .string n.time), ("dot", .boolean n.dot),
      ("fret", .option Fret.encode n.fret),
      ("string", .option .nat n.string), ("abc", .option LetterPitch.encode n.letterPitch),
      ("octave", .option .int n.octave),
      ("articulation", .option Articulation.encode n.articulation),
      ("decorator", .option Decorator.encode n.decorator)]

/-- Writes the parameters of a command. -/
def Parameters.encode : Parameters → Value
  | .tuplet count notes => .object [("tuplet", .nat count), ("notes", .option .nat notes)]
  | .rest position => .object [("position", .int position)]
  | .tokens words => .list .string words
  | .line text => .string text

/-- Writes a note element. -/
def NoteElement.encode (e : NoteElement) : Value :=
  .object
    [("time", .option .string e.time), ("dot", .boolean e.dot),
      ("command", .option .string e.command), ("type", .option .string e.barName),
      ("params", .option Parameters.encode e.parameters),
      ("chord", .option (.list NoteEntry.encode) e.chord),
      ("articulation", .option Articulation.encode e.articulation),
      ("decorator", .option Decorator.encode e.decorator), ("fret", .option Fret.encode e.fret),
      ("string", .option .nat e.string), ("abc", .option LetterPitch.encode e.letterPitch),
      ("octave", .option .int e.octave), ("_l", .option .nat e.line),
      ("_c", .option .nat e.column)]

/-- Writes a directive. -/
def Directive.encode (d : Directive) : Value :=
  .object
    [("element", .string d.keyword), ("options", .list OptionEntry.encode d.options),
      ("params", .list OptionEntry.encode d.settings), ("notes", .list NoteElement.encode d.notes),
      ("text", .list Directive.encodeToken d.text), ("_l", .option .nat d.line),
      ("_c", .option .nat d.column)]

/-- Writes a list of directives. -/
def Directive.encodeList (directives : List Directive) : Value := .list Directive.encode directives

end Tablature
