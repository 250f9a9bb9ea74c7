/-
# Tablature.Json.Token — the tokens of a JSON text.

White space is the space, the tab, the line feed and the carriage return. Strings are read in
three steps: the characters up to the closing quote, then their escapes, then the pairs of
surrogates among the escapes. Numbers follow the grammar exactly: no leading zeros, no sign `+`,
and digits on both sides of a point.
-/
import Tablature.Json.Value
import Tablature.Text.Blank

namespace Tablature.Json

open Tablature.Text

/-- A token of a JSON text. -/
inductive Token
  | openArray
  | closeArray
  | openObject
  | closeObject
  | comma
  | colon
  | null
  | boolean (value : Bool)
  | number (value : Number)
  | string (value : String)

namespace Token

/-- The white space between tokens. -/
def isSpace (c : Char) : Bool := c == ' ' || c == '\t' || c == '\n' || c == '\r'

/-! ## Strings -/

/-- One element of a string: a character, or a 16-bit unit given by an escape. -/
inductive Element
  | char (c : Char)
  | codeUnit (n : Nat)

/-- The text of a string up to its closing quote, and what follows the quote. -/
def untilQuote : List Char → Option (List Char × List Char)
  | [] => none
  | '"' :: rest => some ([], rest)
  | '\\' :: c :: rest => (untilQuote rest).map fun (body, after) => ('\\' :: c :: body, after)
  | c :: rest => (untilQuote rest).map fun (body, after) => (c :: body, after)

/-- The value of a hexadecimal digit. -/
def hexValue? (c : Char) : Option Nat :=
  if c.isDigit then some (c.toNat - 0x30)
  else if 'a' ≤ c ∧ c ≤ 'f' then some (c.toNat - 0x61 + 10)
  else if 'A' ≤ c ∧ c ≤ 'F' then some (c.toNat - 0x41 + 10)
  else none

/-- The value of four hexadecimal digits. -/
def hexUnit? (a b c d : Char) : Option Nat := do
  let a ← hexValue? a
  let b ← hexValue? b
  let c ← hexValue? c
  let d ← hexValue? d
  return ((a * 16 + b) * 16 + c) * 16 + d

/-- The character of an escape of two characters. -/
def shortEscape? : Char → Option Char
  | '"' => some '"'
  | '\\' => some '\\'
  | '/' => some '/'
  | 'b' => some '\x08'
  | 'f' => some '\x0c'
  | 'n' => some '\n'
  | 'r' => some '\r'
  | 't' => some '\t'
  | _ => none

/-- The elements of the body of a string. Control characters must be escaped. -/
def elements : List Char → Option (List Element)
  | [] => some []
  | '\\' :: 'u' :: a :: b :: c :: d :: rest => do
      let n ← hexUnit? a b c d
      let more ← elements rest
      return .codeUnit n :: more
  | '\\' :: c :: rest => do
      let e ← shortEscape? c
      let more ← elements rest
      return .char e :: more
  | c :: rest => do
      if c.toNat < 0x20 || c = '\\' then none
      let more ← elements rest
      return .char c :: more

/-- Is the unit the first half of a pair? -/
def isHighHalf (n : Nat) : Bool := 0xD800 ≤ n && n ≤ 0xDBFF

/-- Is the unit the second half of a pair? -/
def isLowHalf (n : Nat) : Bool := 0xDC00 ≤ n && n ≤ 0xDFFF

/-- The characters of a string. A half without its partner is refused. -/
def joinUnits : List Element → Option (List Char)
  | [] => some []
  | .char c :: rest => (joinUnits rest).map (c :: ·)
  | .codeUnit high :: .codeUnit low :: rest =>
      if isHighHalf high then
        if isLowHalf low then
          (joinUnits rest).map
            (Char.ofNat (0x10000 + (high - 0xD800) * 0x400 + (low - 0xDC00)) :: ·)
        else none
      else if isLowHalf high then none
      else (joinUnits (.codeUnit low :: rest)).map (Char.ofNat high :: ·)
  | .codeUnit n :: rest =>
      if isHighHalf n || isLowHalf n then none
      else (joinUnits rest).map (Char.ofNat n :: ·)

/-- The string after an opening quote, and what follows its closing quote. -/
def scanString (text : List Char) : Option (String × List Char) := do
  let (body, rest) ← untilQuote text
  let chars ← joinUnits (← elements body)
  return (String.ofList chars, rest)

/-! ## Numbers -/

/-- The digits before the point: a single zero, or digits that do not start with one. -/
def scanWhole (text : List Char) : Option (Nat × List Char) :=
  let digits := text.takeWhile Char.isDigit
  let rest := text.dropWhile Char.isDigit
  match digits with
  | [] => none
  | '0' :: _ :: _ => none
  | _ => some (Numeral.accumulate 0 digits, rest)

/-- The digits after a point, if there is a point. -/
def scanFraction : List Char → Option (List Char × List Char)
  | '.' :: text =>
      match text.takeWhile Char.isDigit with
      | [] => none
      | digits => some (digits, text.dropWhile Char.isDigit)
  | text => some ([], text)

/-- A run of digits that must not be empty, as a number. -/
def scanDigits (text : List Char) : Option (Nat × List Char) :=
  match text.takeWhile Char.isDigit with
  | [] => none
  | digits => some (Numeral.accumulate 0 digits, text.dropWhile Char.isDigit)

/-- The exponent, if there is one. -/
def scanExponent : List Char → Option (Option Int × List Char)
  | c :: text =>
      if c = 'e' || c = 'E' then
        match text with
        | '-' :: digits => (scanDigits digits).map fun (n, rest) => (some (-(n : Int)), rest)
        | '+' :: digits => (scanDigits digits).map fun (n, rest) => (some (n : Int), rest)
        | _ => (scanDigits text).map fun (n, rest) => (some (n : Int), rest)
      else some (none, c :: text)
  | [] => some (none, [])

/-- A number without its sign, and what follows it. -/
def scanMagnitude (negative : Bool) (text : List Char) : Option (Number × List Char) := do
  let (whole, rest) ← scanWhole text
  let (fraction, rest) ← scanFraction rest
  let (exponent, rest) ← scanExponent rest
  let number :=
    if fraction = [] && exponent = none && !(negative && whole == 0) then
      Number.integer (if negative then -(whole : Int) else whole)
    else .decimal ⟨negative, whole, fraction, exponent⟩
  return (number, rest)

/-- A number, and what follows it. -/
def scanNumber : List Char → Option (Number × List Char)
  | '-' :: text => scanMagnitude true text
  | text => scanMagnitude false text

/-! ## Token lists -/

/-- The first token of a text that does not start with white space, and what follows the token. -/
def next (text : List Char) : Option (Token × List Char) :=
  match text with
  | '[' :: rest => some (openArray, rest)
  | ']' :: rest => some (closeArray, rest)
  | '\x7b' :: rest => some (openObject, rest)
  | '\x7d' :: rest => some (closeObject, rest)
  | ',' :: rest => some (comma, rest)
  | ':' :: rest => some (colon, rest)
  | '"' :: rest => (scanString rest).map fun (s, after) => (string s, after)
  | 'n' :: 'u' :: 'l' :: 'l' :: rest => some (null, rest)
  | 't' :: 'r' :: 'u' :: 'e' :: rest => some (boolean true, rest)
  | 'f' :: 'a' :: 'l' :: 's' :: 'e' :: rest => some (boolean false, rest)
  | _ => (scanNumber text).map fun (n, after) => (number n, after)

/-- The tokens of a text after those already found (the last of them first). Each step passes at
least one character, so the length of the text is fuel enough. -/
def scanFrom : Nat → List Token → List Char → Option (List Token)
  | 0, _, _ => none
  | fuel + 1, found, text =>
      match text.dropWhile isSpace with
      | [] => some found.reverse
      | rest =>
          match next rest with
          | some (token, after) => scanFrom fuel (token :: found) after
          | none => none

/-- The tokens of a text, if it consists of tokens and white space. -/
def scan (text : List Char) : Option (List Token) := scanFrom (text.length + 1) [] text

end Token

end Tablature.Json
