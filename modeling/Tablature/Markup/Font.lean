/-
# Tablature.Markup.Font — fonts written as `Face-Size-Style`.
-/
import Tablature.Fault
import Tablature.Text.Blank

namespace Tablature

/-- A font: family, size in points and style. -/
structure Font where
  family : String
  size : Nat
  style : Option String
  deriving DecidableEq, Repr

namespace Font

/-- The font of three written parts. An empty style is none; the size must be a number. -/
def ofParts (family size style : List Char) : Except Cause Font :=
  match Text.Numeral.readNat32 (Text.trim size) with
  | some points =>
      .ok ⟨String.ofList family, points, if style = [] then none else some (String.ofList style)⟩
  | none => .error (.badFontSize (String.ofList size))

/-- The two parts before the first two dashes, and what follows them. -/
def splitDashes (text : List Char) : Option (List Char × List Char × List Char) := do
  let (family, rest) ← Text.splitFirst '-' text
  let (size, rest) ← Text.splitFirst '-' rest
  return (family, size, rest)

/-- Reads a font. A text without two dashes is no font at all; the style ends at the first point. -/
def read (text : String) : Except Cause (Option Font) :=
  match splitDashes text.toList with
  | none => .ok none
  | some (family, size, rest) => (ofParts family size (rest.takeWhile (· ≠ '.'))).map some

end Font

end Tablature
