/-
# Tablature.Json.Writer — JSON texts of values.

Two layouts: `compact` puts no space anywhere; `pretty` puts every item and member on a line of
its own, indented by two spaces a level, and writes empty arrays and objects on one line. In
strings the quote, the backslash and the control characters are escaped and nothing else.
-/
import Tablature.Json.Value

namespace Tablature.Json

open Tablature.Text

/-- A hexadecimal digit. -/
def hexDigit (n : Nat) : Char :=
  if n < 10 then Char.ofNat (0x30 + n) else Char.ofNat (0x61 + (n - 10))

/-- A character inside a string. -/
def writeChar (c : Char) : List Char :=
  if c = '"' then ['\\', '"']
  else if c = '\\' then ['\\', '\\']
  else if c = '\x08' then ['\\', 'b']
  else if c = '\x0c' then ['\\', 'f']
  else if c = '\n' then ['\\', 'n']
  else if c = '\r' then ['\\', 'r']
  else if c = '\t' then ['\\', 't']
  else if c.toNat < 0x20 then
    ['\\', 'u', '0', '0', hexDigit (c.toNat / 16), hexDigit (c.toNat % 16)]
  else [c]

/-- A string in its quotes. -/
def writeString (s : String) : List Char := '"' :: s.toList.flatMap writeChar ++ ['"']

/-- The start of a line at a level of nesting. -/
def newLine (level : Nat) : List Char := '\n' :: List.replicate (2 * level) ' '

namespace Value

/-- The text of a value that holds no other value. -/
def writeLeaf : Value → List Char
  | .null => ['n', 'u', 'l', 'l']
  | .boolean true => ['t', 'r', 'u', 'e']
  | .boolean false => ['f', 'a', 'l', 's', 'e']
  | .number n => n.text
  | .string s => writeString s
  | .array _ => ['[', ']']
  | .object _ => ['\x7b', '\x7d']

mutual

/-- The text of a value without any space. -/
def compact : Value → List Char
  | .array (item :: items) => '[' :: item.compact ++ compactItems items
  | .object ((name, value) :: members) =>
      '\x7b' :: writeString name ++ ':' :: value.compact ++ compactMembers members
  | leaf => leaf.writeLeaf

/-- The items after the first, and the end of the array. -/
def compactItems : List Value → List Char
  | [] => [']']
  | item :: items => ',' :: item.compact ++ compactItems items

/-- The members after the first, and the end of the object. -/
def compactMembers : List (String × Value) → List Char
  | [] => ['\x7d']
  | (name, value) :: members =>
      ',' :: writeString name ++ ':' :: value.compact ++ compactMembers members

end

mutual

/-- The text of a value at a level of nesting, one line for every item and member. -/
def pretty (level : Nat) : Value → List Char
  | .array (item :: items) =>
      '[' :: newLine (level + 1) ++ item.pretty (level + 1) ++ prettyItems level items
  | .object ((name, value) :: members) =>
      '\x7b' :: newLine (level + 1) ++ writeString name ++ ':' :: ' ' :: value.pretty (level + 1)
        ++ prettyMembers level members
  | leaf => leaf.writeLeaf

/-- The items after the first, and the end of the array. -/
def prettyItems (level : Nat) : List Value → List Char
  | [] => newLine level ++ [']']
  | item :: items =>
      ',' :: newLine (level + 1) ++ item.pretty (level + 1) ++ prettyItems level items

/-- The members after the first, and the end of the object. -/
def prettyMembers (level : Nat) : List (String × Value) → List Char
  | [] => newLine level ++ ['\x7d']
  | (name, value) :: members =>
      ',' :: newLine (level + 1) ++ writeString name ++ ':' :: ' ' :: value.pretty (level + 1)
        ++ prettyMembers level members

end

/-- The compact text of a value. -/
def compactText (v : Value) : String := String.ofList v.compact

/-- The indented text of a value. -/
def prettyText (v : Value) : String := String.ofList (v.pretty 0)

end Value

end Tablature.Json
