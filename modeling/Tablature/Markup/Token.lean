/-
# Tablature.Markup.Token — annotation tokens.

An annotation token is plain text unless it starts with a point:

* `.a>/t.` and `.a>/b.`: the articulation `a>` above or below the note;
* `.stroke/bu.`: a stroke, one of `bu bd ru rd qu qd`;
* `.fingering/1:l:f:2-2:r:s:3.`: fingerings and string numbers;
* `.Face-Size-Style.text`: text in a font of its own;
* `.big.text`, `.italic.text`, `.medium.text`, `.top.text`, `.bottom.text`: text in a style or
  place.

The forms are tried in this order. The text after a font or a style runs to the end of the token
and holds no line feed; a token with one is plain text.
-/
import Tablature.Markup.Font
import Tablature.Markup.Fingering

namespace Tablature

/-- A stroke across the strings. -/
inductive Stroke
  | brushUp
  | brushDown
  | rollUp
  | rollDown
  | rasquedoUp
  | rasquedoDown
  deriving DecidableEq, Repr

namespace Stroke

/-- The name of a stroke. -/
def name : Stroke → String
  | brushUp => "brush_up"
  | brushDown => "brush_down"
  | rollUp => "roll_up"
  | rollDown => "roll_down"
  | rasquedoUp => "rasquedo_up"
  | rasquedoDown => "rasquedo_down"

/-- Does the stroke go upwards? -/
def isUpward : Stroke → Bool
  | brushUp | rollUp | rasquedoUp => true
  | brushDown | rollDown | rasquedoDown => false

/-- Reads the two letters of a stroke. -/
def read (code : List Char) : Except Cause Stroke :=
  match code with
  | ['b', 'u'] => .ok brushUp
  | ['b', 'd'] => .ok brushDown
  | ['r', 'u'] => .ok rollUp
  | ['r', 'd'] => .ok rollDown
  | ['q', 'u'] => .ok rasquedoUp
  | ['q', 'd'] => .ok rasquedoDown
  | _ => .error (.badStroke (String.ofList code))

end Stroke

/-- A style or place written in front of a text. An unknown one changes nothing. -/
inductive Shortcut
  | big
  | italic
  | medium
  | top
  | bottom
  | other (name : String)
  deriving DecidableEq, Repr

/-- The style or place with a given name. -/
def Shortcut.ofName (name : List Char) : Shortcut :=
  let word := String.ofList name
  if word = "big" then big
  else if word = "italic" || word = "italics" then italic
  else if word = "medium" then medium
  else if word = "top" then top
  else if word = "bottom" then bottom
  else other word

/-- A text annotation. -/
inductive TextMarkup
  | plain (text : String)
  | withFont (font : Font) (text : String)
  | styled (shortcut : Shortcut) (text : String)
  deriving DecidableEq, Repr

/-- What is written. -/
def TextMarkup.text : TextMarkup → String
  | plain text => text
  | withFont _ text => text
  | styled _ text => text

/-- An annotation token. -/
inductive Markup
  | articulation (code : String) (position : Position)
  | stroke (stroke : Stroke)
  | fingering (marks : List FingerMark)
  | label (text : TextMarkup)
  deriving DecidableEq, Repr

namespace Markup

/-- The code and the side of an articulation token. The code starts with `a` and ends at the first
stroke; after the side a point must follow somewhere. -/
def articulationParts? : List Char → Option (List Char × Position)
  | '.' :: 'a' :: rest =>
      match Text.splitFirst '/' rest with
      | some (code, 't' :: tail) =>
          if tail.contains '.' then some ('a' :: code, .above) else none
      | some (code, 'b' :: tail) =>
          if tail.contains '.' then some ('a' :: code, .below) else none
      | _ => none
  | _ => none

/-- The body of a token that opens with the given text: not empty, up to the next point. -/
def bodyAfter? (opening : String) (token : List Char) : Option (List Char) :=
  match Text.afterStart? opening.toList token with
  | none => none
  | some rest =>
      match Text.splitFirst '.' rest with
      | some ([], _) => none
      | some (body, _) => some body
      | none => none

/-- Does the text stay on one line? -/
def onOneLine (text : List Char) : Bool := ! text.contains '\n'

/-- The four parts of a text with a font of its own. -/
def fontParts? : List Char → Option (List Char × List Char × List Char × List Char)
  | '.' :: rest => do
      let (family, size, rest) ← Font.splitDashes rest
      let (style, text) ← Text.splitFirst '.' rest
      if onOneLine text then return (family, size, style, text) else none
  | _ => none

/-- The two parts of a text with a style or place. -/
def shortcutParts? : List Char → Option (List Char × List Char)
  | '.' :: rest => do
      let (name, text) ← Text.splitFirst '.' rest
      if onOneLine text then return (name, text) else none
  | _ => none

/-- Reads a token as a text. -/
def readText (token : List Char) : Except Cause TextMarkup :=
  match fontParts? token with
  | some (family, size, style, text) =>
      (Font.ofParts family size style).map fun font => .withFont font (String.ofList text)
  | none =>
      match shortcutParts? token with
      | some (name, text) => .ok (.styled (Shortcut.ofName name) (String.ofList text))
      | none => .ok (.plain (String.ofList token))

/-- Reads a token as a list of characters. -/
def ofChars (token : List Char) : Except Cause Markup :=
  match articulationParts? token with
  | some (code, position) => .ok (.articulation (String.ofList code) position)
  | none =>
      match bodyAfter? ".stroke/" token with
      | some code => (Stroke.read code).map .stroke
      | none =>
          match bodyAfter? ".fingering/" token with
          | some body => (FingerMark.readBody body).map .fingering
          | none => (readText token).map .label

/-- Reads an annotation token. -/
def read (token : String) : Except Cause Markup := ofChars token.toList

end Markup

end Tablature
