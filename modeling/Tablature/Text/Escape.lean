/-
# Tablature.Text.Escape — character data of a drawing document.

Four characters have a meaning of their own in markup: `&`, `<`, `>` and the double quote.
`escape` replaces each by its entity and leaves every other character; `unescape` reads the four
entities back and passes over every `&` that starts none of them.
-/
namespace Tablature.Text

/-- The entity of a character that markup gives a meaning, and otherwise the character itself. -/
def entity (c : Char) : List Char :=
  match c with
  | '&' => ['&', 'a', 'm', 'p', ';']
  | '<' => ['&', 'l', 't', ';']
  | '>' => ['&', 'g', 't', ';']
  | '"' => ['&', 'q', 'u', 'o', 't', ';']
  | c => [c]

/-- The text with every character of markup written as its entity. -/
def escape (text : List Char) : List Char := text.flatMap entity

/-- The text that character data stands for. -/
def unescape : List Char → List Char
  | '&' :: 'a' :: 'm' :: 'p' :: ';' :: rest => '&' :: unescape rest
  | '&' :: 'l' :: 't' :: ';' :: rest => '<' :: unescape rest
  | '&' :: 'g' :: 't' :: ';' :: rest => '>' :: unescape rest
  | '&' :: 'q' :: 'u' :: 'o' :: 't' :: ';' :: rest => '"' :: unescape rest
  | c :: rest => c :: unescape rest
  | [] => []

/-- The escaped form of a string. -/
def escapeString (text : String) : String := String.ofList (escape text.toList)

@[simp] theorem escape_nil : escape [] = [] := rfl

@[simp] theorem escape_cons (c : Char) (text : List Char) :
    escape (c :: text) = entity c ++ escape text := rfl

end Tablature.Text
