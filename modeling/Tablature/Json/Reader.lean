/-
# Tablature.Json.Reader — the value of a JSON text.

The reader is a machine with a stack: one frame for every array or object that is open. It takes one
token at a time, so the nesting of a text costs no recursion and is not limited.
-/
import Tablature.Json.Token

namespace Tablature.Json

/-- An array or an object that is still open, the last item or member first. An object holds the
name of the member whose value is being read. -/
inductive Frame
  | array (items : List Value)
  | object (members : List (String × Value)) (name : Option String)

/-- What may come next. -/
inductive Phase
  | value
  | firstItem
  | firstName
  | name
  | colon
  | afterValue
  | done (value : Value)

/-- The reader between two tokens. -/
structure Reader where
  stack : List Frame
  phase : Phase

namespace Reader

/-- Before the first token. -/
def start : Reader := ⟨[], .value⟩

/-- A value is complete: it is the result, an item, or the value of a member. -/
def complete (value : Value) : List Frame → Option Reader
  | [] => some ⟨[], .done value⟩
  | .array items :: stack => some ⟨.array (value :: items) :: stack, .afterValue⟩
  | .object members (some name) :: stack =>
      some ⟨.object ((name, value) :: members) none :: stack, .afterValue⟩
  | .object _ none :: _ => none

/-- A token that starts a value. -/
def startValue (stack : List Frame) : Token → Option Reader
  | .openArray => some ⟨.array [] :: stack, .firstItem⟩
  | .openObject => some ⟨.object [] none :: stack, .firstName⟩
  | .null => complete .null stack
  | .boolean b => complete (.boolean b) stack
  | .number n => complete (.number n) stack
  | .string s => complete (.string s) stack
  | _ => none

/-- The innermost array or object ends. -/
def close (token : Token) : List Frame → Option Reader
  | .array items :: stack =>
      match token with
      | .closeArray => complete (.array items.reverse) stack
      | _ => none
  | .object members _ :: stack =>
      match token with
      | .closeObject => complete (.object members.reverse) stack
      | _ => none
  | [] => none

/-- A string that names a member. -/
def startMember (token : Token) : List Frame → Option Reader
  | .object members _ :: stack =>
      match token with
      | .string name => some ⟨.object members (some name) :: stack, .colon⟩
      | _ => none
  | _ => none

/-- A comma inside an array or an object. -/
def separate : List Frame → Option Reader
  | .array items :: stack => some ⟨.array items :: stack, .value⟩
  | .object members name :: stack => some ⟨.object members name :: stack, .name⟩
  | [] => none

/-- One token. -/
def step (r : Reader) (token : Token) : Option Reader :=
  match r.phase with
  | .value => startValue r.stack token
  | .firstItem =>
      match token with
      | .closeArray => close token r.stack
      | _ => startValue r.stack token
  | .firstName =>
      match token with
      | .closeObject => close token r.stack
      | _ => startMember token r.stack
  | .name => startMember token r.stack
  | .colon =>
      match token with
      | .colon => some ⟨r.stack, .value⟩
      | _ => none
  | .afterValue =>
      match token with
      | .comma => separate r.stack
      | _ => close token r.stack
  | .done _ => none

/-- All tokens of a text. -/
def run : Reader → List Token → Option Value
  | r, [] =>
      match r.phase with
      | .done value => some value
      | _ => none
  | r, token :: tokens =>
      match r.step token with
      | some next => run next tokens
      | none => none

end Reader

/-- The value of a JSON text. -/
def Value.read? (text : String) : Option Value :=
  match Token.scan text.toList with
  | some tokens => Reader.start.run tokens
  | none => none

end Tablature.Json
