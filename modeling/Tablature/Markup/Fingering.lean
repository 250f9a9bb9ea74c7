/-
# Tablature.Markup.Fingering — the entries of a fingering token.

An entry says which key of a chord is meant (counted from one), where the mark goes, whether it is a
finger or a string number, and what is written: `note:position:kind:label`. Entries are joined by
dashes.
-/
import Tablature.Fault
import Tablature.Text.Blank

namespace Tablature

/-- Where a mark stands beside its note. -/
inductive Position
  | left
  | right
  | above
  | below
  deriving DecidableEq, Repr

/-- The name of a position. -/
def Position.name : Position → String
  | left => "left"
  | right => "right"
  | above => "above"
  | below => "below"

/-- What a fingering entry shows. -/
inductive FingerKind
  | finger
  | stringNumber
  deriving DecidableEq, Repr

/-- The name of a kind of fingering entry. -/
def FingerKind.name : FingerKind → String
  | finger => "finger"
  | stringNumber => "string_number"

/-- One entry of a fingering token. -/
structure FingerMark where
  note : Nat
  position : Position
  kind : FingerKind
  label : String
  deriving DecidableEq, Repr

namespace FingerMark

/-- The bound of note numbers: they fit in 64 bits. -/
def noteBound : Nat := Nat.pow 2 64

/-- The position that a letter stands for. -/
def positionOf? : Char → Option Position
  | 'l' => some .left
  | 'r' => some .right
  | 'a' => some .above
  | 'b' => some .below
  | _ => none

/-- The letter of a position. -/
def positionChar : Position → Char
  | .left => 'l'
  | .right => 'r'
  | .above => 'a'
  | .below => 'b'

/-- The kind that a letter stands for. -/
def kindOf? : Char → Option FingerKind
  | 'f' => some .finger
  | 's' => some .stringNumber
  | _ => none

/-- The letter of a kind. -/
def kindChar : FingerKind → Char
  | .finger => 'f'
  | .stringNumber => 's'

/-- An entry as it is written. -/
def text (m : FingerMark) : List Char :=
  Text.Numeral.digits m.note
    ++ ':' :: positionChar m.position :: ':' :: kindChar m.kind :: ':' :: m.label.toList

/-- Reads an entry without blanks around it. The label is not empty and holds no dash and no
point. -/
def ofChars? (piece : List Char) : Option FingerMark := do
  let (note, rest) ← Text.splitFirst ':' piece
  let note ← (Text.Numeral.readDigits note).filter (· < noteBound)
  match rest with
  | p :: ':' :: k :: ':' :: label => do
      let position ← positionOf? p
      let kind ← kindOf? k
      if label = [] || label.any (fun c => c == '-' || c == '.') then none
      else return ⟨note, position, kind, String.ofList label⟩
  | _ => none

/-- The entries of a list of pieces, if all of them can be read. -/
def ofPieces? : List (List Char) → Option (List FingerMark)
  | [] => some []
  | piece :: pieces =>
      match ofChars? (Text.trim piece), ofPieces? pieces with
      | some mark, some marks => some (mark :: marks)
      | _, _ => none

/-- Reads the body of a fingering token. -/
def readBody (body : List Char) : Except Cause (List FingerMark) :=
  match ofPieces? (Text.splitAll '-' body) with
  | some marks => .ok marks
  | none => .error (.badFingering (String.ofList body))

/-- The body of a fingering token with the given entries. -/
def bodyText : List FingerMark → List Char
  | [] => []
  | [m] => m.text
  | m :: marks => m.text ++ '-' :: bodyText marks

end FingerMark

end Tablature
