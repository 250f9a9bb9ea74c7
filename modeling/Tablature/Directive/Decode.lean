/-
# Tablature.Directive.Decode — directives read from JSON.

The field names are those of the directive format. Numbers in options are turned into their texts:
an integer of 64 bits keeps its digits, any other number is read as a double and written plainly.
A tag is its letter, or an object whose one member has the letter as its name and `null` as its
value. The parameters of a command are tried as a tuplet, a rest, a list of tokens and a line.
-/
import Tablature.Directive.Basic
import Tablature.Json.Reader
import Tablature.Json.Record

namespace Tablature

open Json

namespace Directive.Names

/-- The fields of an option. -/
def optionEntry : List String := ["key", "value", "_l", "_c"]

/-- The fields of a text token. -/
def textToken : List String := ["text"]

/-- The fields of an explicit pitch letter. -/
def letterPitch : List String := ["key", "accidental", "accidental_type"]

/-- The fields of a position of a chord. -/
def noteEntry : List String :=
  ["time", "dot", "fret", "string", "abc", "octave", "articulation", "decorator"]

/-- The fields of a note element. -/
def noteElement : List String :=
  ["time", "dot", "command", "type", "params", "chord", "articulation", "decorator", "fret",
    "string", "abc", "octave", "_l", "_c"]

/-- The fields of a directive. -/
def directive : List String := ["element", "options", "params", "notes", "text", "_l", "_c"]

/-- The fields of the parameters of a tuplet. -/
def tuplet : List String := ["tuplet", "notes"]

/-- The fields of the parameters of a rest. -/
def rest : List String := ["position"]

end Directive.Names

/-- The text of an option's value. -/
def OptionEntry.decodeValue : Value → Option String
  | .string s => some s
  | .boolean true => some "true"
  | .boolean false => some "false"
  | .number n =>
      match n with
      | .integer value =>
          if -9223372036854775808 ≤ value ∧ value < 9223372036854775808 then
            some (Text.Numeral.intText value)
          else n.toFloat?.map Decimal.plain
      | .decimal _ => n.toFloat?.map Decimal.plain
  | _ => none

/-- Reads an option. -/
def OptionEntry.decode (v : Value) : Option OptionEntry := do
  let r ← Record.read Directive.Names.optionEntry v
  let key ← r.required "key" Value.asString?
  let value ← r.required "value" OptionEntry.decodeValue
  let line ← r.optionalOrNothing "_l" Value.asNat32?
  let column ← r.optionalOrNothing "_c" Value.asNat32?
  return { key, value, line, column }

/-- Reads a text token. -/
def Directive.decodeToken (v : Value) : Option String := do
  let r ← Record.read Directive.Names.textToken v
  r.required "text" Value.asString?

/-- The letter of a tag. -/
def Directive.decodeTag : Value → Option String
  | .string s => some s
  | .object [(name, .null)] => some name
  | _ => none

/-- Reads an articulation. -/
def Articulation.decode (v : Value) : Option Articulation := do
  Articulation.ofLetter? (← Directive.decodeTag v)

/-- Reads a decoration. -/
def Decorator.decode (v : Value) : Option Decorator := do
  Decorator.ofLetter? (← Directive.decodeTag v)

/-- Reads a fret: a number, or a text. -/
def Fret.decode : Value → Option Fret
  | .string s => (Fret.read s).toOption
  | v => v.asNat32?.map Fret.number

/-- Reads an explicit pitch letter. -/
def LetterPitch.decode (v : Value) : Option LetterPitch := do
  let r ← Record.read Directive.Names.letterPitch v
  let key ← r.required "key" Value.asString?
  let accidental ← r.optional "accidental" Value.asString?
  let accidentalType ← r.optional "accidental_type" Value.asString?
  return { key, accidental, accidentalType }

/-- Reads a position of a chord. -/
def NoteEntry.decode (v : Value) : Option NoteEntry := do
  let r ← Record.read Directive.Names.noteEntry v
  let time ← r.optional "time" Value.asString?
  let dot ← r.orElse "dot" false Value.asBool?
  let fret ← r.optional "fret" Fret.decode
  let string ← r.optional "string" Value.asNat32?
  let letterPitch ← r.optional "abc" LetterPitch.decode
  let octave ← r.optional "octave" Value.asInt32?
  let articulation ← r.optional "articulation" Articulation.decode
  let decorator ← r.optional "decorator" Decorator.decode
  return { time, dot, fret, string, letterPitch, octave, articulation, decorator }

namespace Parameters

/-- The parameters of a tuplet. -/
def decodeTuplet (members : List (String × Value)) : Option Parameters := do
  let r ← Record.ofMembers Directive.Names.tuplet members
  let tuplet ← r.required "tuplet" Value.asNat32?
  let notes ← r.optional "notes" Value.asNat32?
  return .tuplet tuplet notes

/-- The parameters of a rest. -/
def decodeRest (members : List (String × Value)) : Option Parameters := do
  let r ← Record.ofMembers Directive.Names.rest members
  let position ← r.required "position" Value.asInt32?
  return .rest position

/-- How deep the parameters of a command may be nested. -/
def depthLimit : Nat := 123

/-- The parameters of a command in the first shape that fits. -/
def decodeShape : Value → Option Parameters
  | .object members => (decodeTuplet members).or (decodeRest members)
  | .array items => (Value.decodeAll Value.asString? items).map .tokens
  | .string s => some (.line s)
  | _ => none

/-- Reads the parameters of a command. They are kept as a whole before a shape is chosen, so every
number in them must be one that can be kept, and their nesting is limited. -/
def decode (v : Value) : Option Parameters :=
  if v.numbersInRange && v.depth ≤ depthLimit then decodeShape v else none

end Parameters

/-- Reads a note element. -/
def NoteElement.decode (v : Value) : Option NoteElement := do
  let r ← Record.read Directive.Names.noteElement v
  let time ← r.optional "time" Value.asString?
  let dot ← r.orElse "dot" false Value.asBool?
  let command ← r.optional "command" Value.asString?
  let barName ← r.optional "type" Value.asString?
  let parameters ← r.optional "params" Parameters.decode
  let chord ← r.optional "chord" (Value.asList? NoteEntry.decode)
  let articulation ← r.optional "articulation" Articulation.decode
  let decorator ← r.optional "decorator" Decorator.decode
  let fret ← r.optional "fret" Fret.decode
  let string ← r.optional "string" Value.asNat32?
  let letterPitch ← r.optional "abc" LetterPitch.decode
  let octave ← r.optional "octave" Value.asInt32?
  let line ← r.optionalOrNothing "_l" Value.asNat32?
  let column ← r.optionalOrNothing "_c" Value.asNat32?
  return { time, dot, command, barName, parameters, chord, articulation, decorator, fret, string,
           letterPitch, octave, line, column }

namespace Directive

/-- Reads a directive. -/
def decode (v : Value) : Option Directive := do
  let r ← Record.read Names.directive v
  let keyword ← r.required "element" Value.asString?
  let options ← r.orElse "options" [] (Value.asList? OptionEntry.decode)
  let settings ← r.orElse "params" [] (Value.asList? OptionEntry.decode)
  let notes ← r.orElse "notes" [] (Value.asList? NoteElement.decode)
  let text ← r.orElse "text" [] (Value.asList? decodeToken)
  let line ← r.optionalOrNothing "_l" Value.asNat32?
  let column ← r.optionalOrNothing "_c" Value.asNat32?
  return { keyword, options, settings, notes, text, line, column }

/-- Reads a list of directives. -/
def decodeList (v : Value) : Option (List Directive) := v.asList? decode

/-- The directives of a JSON text. -/
def read (json : String) : Except Fault (List Directive) :=
  match (Value.read? json).bind decodeList with
  | some directives => .ok directives
  | none => .error (.nowhere .undecodable)

end Directive

end Tablature
