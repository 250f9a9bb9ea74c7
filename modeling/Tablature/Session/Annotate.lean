/-
# Tablature.Session.Annotate — annotation tokens applied to notes.

The tokens of a list belong to the last objects of the voice in progress, one token to each.
Texts go to tablature if the stave has it and to the staff otherwise; articulations and strokes go
to every view; fingerings go to the staff. A token that puts its text on top or at the bottom does
so for all texts after it.
-/
import Tablature.Session.Basic

namespace Tablature

/-- The tokens read, up to the first that is wrong. -/
def Markup.readAll : List String → Except Cause (List Markup)
  | [] => .ok []
  | token :: tokens =>
      match Markup.read token with
      | .error cause => .error cause
      | .ok markup => (Markup.readAll tokens).map (markup :: ·)

namespace Caption

/-- The font that a text is written in, given the one in force. -/
def fontOf (font : Font) : TextMarkup → Font
  | .plain _ => font
  | .withFont own _ => own
  | .styled .big _ => { font with style := some "bold", size := 14 }
  | .styled .italic _ => { font with family := "Times", style := some "italic" }
  | .styled .medium _ => { font with size := 12 }
  | .styled _ _ => font

/-- The side for this text and for those after it, given the one in force. -/
def sideOf (side : Side) : TextMarkup → Side
  | .styled .top _ => .top
  | .styled .bottom _ => .bottom
  | _ => side

/-- Is the text left out? A styled text may be empty and then only changes the style. -/
def isOmitted : TextMarkup → Bool
  | .plain _ => false
  | t => t.text == ""

/-- The caption of a text, unless it is left out. -/
def ofMarkup? (font : Font) (side : Side) (t : TextMarkup) : Option Caption :=
  if isOmitted t then none else some ⟨t.text, fontOf font t, sideOf side t⟩

/-- The captions of a list of tokens, and the side in force after them. Tokens that are no texts
have none. -/
def ofMarkups (font : Font) : Side → List Markup → List (Option Caption) × Side
  | side, [] => ([], side)
  | side, .label t :: rest =>
      let (captions, last) := ofMarkups font (sideOf side t) rest
      (ofMarkup? font side t :: captions, last)
  | side, _ :: rest =>
      let (captions, last) := ofMarkups font side rest
      (none :: captions, last)

end Caption

/-- The mark of a token that goes to every view. -/
def Markup.sharedMark? : Markup → Option Modifier
  | .articulation code position => some (.articulation code position)
  | .stroke s => some (.stroke s)
  | _ => none

/-- The mark of a fingering entry. -/
def FingerMark.modifier (m : FingerMark) : Modifier :=
  match m.kind with
  | .finger => .fingering m.label m.position
  | .stringNumber => .stringNumber m.label m.position

/-- A token with its written form and the caption it has, if any. -/
structure PlacedToken where
  token : String
  markup : Markup
  caption : Option Caption

namespace PlacedToken

/-- The mark of a token on tablature. -/
def tabMark? (t : PlacedToken) : Option Modifier :=
  match t.caption with
  | some caption => some (.caption caption)
  | none => t.markup.sharedMark?

/-- An object of tablature with the mark of a token. -/
def onTab (t : PlacedToken) (note : Tickable) : Tickable :=
  match t.tabMark? with
  | some modifier => note.mark 0 modifier
  | none => note

/-- An object of the staff with the text of a token. -/
def captionOnStaff (t : PlacedToken) (note : Tickable) : Tickable :=
  match t.caption with
  | some caption => note.mark 0 (.caption caption)
  | none => note

/-- An object of the staff with a list of fingering entries, up to the first for a key it does not
have. -/
def addFingers (token : String) (keys : Nat) :
    List FingerMark → Tickable → Outcome Cause Tickable
  | [], note => .done note
  | m :: marks, note =>
      if m.note = 0 || keys < m.note then .stopped note (.noSuchKeyForFinger token)
      else addFingers token keys marks (note.mark (m.note - 1) m.modifier)

/-- An object of the staff with the other marks of a token. -/
def onStaff (t : PlacedToken) (note : Tickable) : Outcome Cause Tickable :=
  match t.markup with
  | .fingering marks => addFingers t.token note.keyCount marks note
  | markup =>
      match markup.sharedMark? with
      | some modifier => .done (note.mark 0 modifier)
      | none => .done note

/-- Pairs tokens with objects, and applies each token to its object. -/
def applyTo (f : PlacedToken → Tickable → Tickable) :
    List PlacedToken → List Tickable → List Tickable
  | t :: tokens, note :: notes => f t note :: applyTo f tokens notes
  | _, notes => notes

/-- Pairs tokens with objects, and applies each token to its object, up to the first that fails. -/
def applyUntil (f : PlacedToken → Tickable → Outcome Cause Tickable) :
    List PlacedToken → List Tickable → Outcome Cause (List Tickable)
  | t :: tokens, note :: notes =>
      let marked := f t note
      match marked.fault with
      | some cause => .stopped (marked.state :: notes) cause
      | none => (applyUntil f tokens notes).mapState (marked.state :: ·)
  | _, notes => .done notes

/-- The tokens of a list with their captions. -/
def ofLists : List String → List Markup → List (Option Caption) → List PlacedToken
  | token :: tokens, markup :: markups, caption :: captions =>
      ⟨token, markup, caption⟩ :: ofLists tokens markups captions
  | _, _, _ => []

/-- A voice with tokens applied to its last objects. -/
def applyLast (f : PlacedToken → Tickable → Tickable) (tokens : List PlacedToken)
    (notes : List Tickable) : List Tickable :=
  let start := notes.length - tokens.length
  notes.take start ++ applyTo f tokens (notes.drop start)

/-- A voice with tokens applied to its last objects, up to the first that fails. -/
def applyLastUntil (f : PlacedToken → Tickable → Outcome Cause Tickable)
    (tokens : List PlacedToken) (notes : List Tickable) : Outcome Cause (List Tickable) :=
  let start := notes.length - tokens.length
  (applyUntil f tokens (notes.drop start)).mapState (notes.take start ++ ·)

end PlacedToken

namespace Session

/-- The session with another side for texts. -/
def withSide (s : Session) (side : Side) : Session :=
  s.withSettings { s.settings with annotationSide := side }

/-- Writes the texts of tokens, on tablature with their other marks, or else on the staff. -/
def annotateTexts (s : Session) (stave : Stave) (tokens : List PlacedToken) (side : Side) :
    Outcome Cause Session :=
  if stave.tab.isSome then
    .done ((s.withSide side).onTabNotes (PlacedToken.applyLast PlacedToken.onTab tokens))
  else if stave.staffNotes.length < tokens.length then .stopped s .tooManyAnnotations
  else
    .done ((s.withSide side).onStaffNotes
      (PlacedToken.applyLast PlacedToken.captionOnStaff tokens))

/-- Writes the marks of tokens on the staff, if there is one. -/
def annotateStaff (stave : Stave) (tokens : List PlacedToken) (s : Session) :
    Outcome Cause Session :=
  if stave.staff.isNone then .done s
  else if s.staffNotes.length < tokens.length then .stopped s .tooManyAnnotations
  else
    (PlacedToken.applyLastUntil PlacedToken.onStaff tokens s.staffNotes).mapState fun notes =>
      s.onStaffNotes fun _ => notes

/-- Adds annotations, one for each of the last objects. -/
def addAnnotations (s : Session) (tokens : List String) : Outcome Cause Session :=
  .needing (Markup.readAll tokens) s fun markups =>
    s.withStave fun stave =>
      if stave.tabNotes.length < markups.length then .stopped s .tooManyAnnotations
      else
        let (captions, side) := Caption.ofMarkups s.captionFont s.settings.annotationSide markups
        let placed := PlacedToken.ofLists tokens markups captions
        (s.annotateTexts stave placed side).andThen (annotateStaff stave placed)

end Session

end Tablature
