/-
# Tablature.Preview.Note — notes, rests and their marks.

Each function gives the elements of one object. The heights of the keys or positions of a note are
computed apart, because links need them again. A note on a staff may not get finished: its keys may
be too many steps away to be counted, or its ledger lines may have no end.
-/
import Tablature.Layout
import Tablature.Preview.Element
import Tablature.Preview.Sketch
import Tablature.Preview.Timeline

namespace Tablature.Preview

/-- The height of one step of the scale on a staff. -/
def stepHeight : Float := 5.0

/-- The length of a stem. -/
def stemLength : Float := 30.0

/-- The width of a stem. -/
def stemWidth : Float := 1.2

/-- The size of fret numbers. -/
def fretSize : Float := 11.0

/-- The size of labels. -/
def labelSize : Float := 10.0

/-- The width of the lines of a stave. -/
def staffLineWidth : Float := 0.8

/-- A line in the colour of notes. -/
def stroke (x1 y1 x2 y2 width : Float) : Element := .line ⟨x1, y1⟩ ⟨x2, y2⟩ noteColor width

/-! ## Marks -/

/-- The sign of an accidental. -/
def accidentalGlyph : Accidental → String
  | .doubleFlat => "𝄫"
  | .flat => "♭"
  | .natural => "♮"
  | .sharp => "♯"
  | .doubleSharp => "𝄪"

/-- The sign of an articulation; an unknown code stands for itself. -/
def articulationGlyph (code : String) : String :=
  match code with
  | "a>" => ">"
  | "a." => "·"
  | "a-" => "–"
  | "a^" => "^"
  | "a|" => "∨"
  | "am" => "⊓"
  | "a@a" => "𝄐"
  | "a@u" => "𝄐"
  | "a+" => "+"
  | other => other

/-- How far from its key a mark stands. -/
def offsetOf : Position → Point
  | .left => ⟨-14.0, 4.0⟩
  | .right => ⟨14.0, 4.0⟩
  | .above => ⟨0.0, -10.0⟩
  | .below => ⟨0.0, 16.0⟩

/-- A mark that is drawn in the same way on both views, above or below the note. -/
def sharedMark (x above below : Float) : Modifier → List Element
  | .vibrato harsh =>
      [.text ⟨x + 6.0, above⟩ (if harsh then "≈≈≈" else "~~~") 12.0 "normal" "start"]
  | .articulation code position =>
      let y := if position = .below then below else above
      [.text ⟨x, y⟩ (articulationGlyph code) 12.0 "bold" "middle"]
  | .caption caption =>
      let y := match caption.side with
        | .top => above
        | .bottom => below
      [.styledText ⟨x, y⟩ caption.text caption.font.family (Float.ofNat caption.font.size)
        caption.font.style "middle"]
  | .stroke kind =>
      let arrow := if kind.isUpward then "↑" else "↓"
      [.text ⟨x - 12.0, (above + below) / 2.0⟩ arrow 14.0 "normal" "middle"]
  | .bend _ | .accidental _ _ | .fingering _ _ | .stringNumber _ _ => []

/-! ## Notes on a staff -/

/-- The steps of the scale from the C of octave zero to the middle line under a clef. -/
def middleLine (clef : Option Clef) : Int :=
  match clef.getD .treble with
  | .treble | .percussion => 4 * 7 + 6
  | .bass => 3 * 7 + 1
  | .tenor => 3 * 7 + 5
  | .alto => 4 * 7

/-- The steps of the scale from the middle line up to a key. -/
def stepsAbove (key : Pitch) (clef : Option Clef) : Int := key.diatonicSteps - middleLine clef

/-- The height of the middle line of a staff whose top line has the height `top`. -/
def middleOf (top : Float) : Float := top + 2.0 * staffLineSpacing

/-- The height of the bottom line of a staff. -/
def bottomOf (top : Float) : Float := top + 4.0 * staffLineSpacing

/-- The steps from the middle line up to a key as they are counted, in integers of 32 bits. -/
def countSteps (key : Pitch) (clef : Option Clef) : Sketch Int :=
  if fits32 (stepsAbove key clef) then .finished (stepsAbove key clef) else .overflow

/-- The height that is so many steps above the middle line of a staff. -/
def heightAt (top : Float) (steps : Int) : Float := middleOf top - Float.ofInt steps * stepHeight

/-- The height of a key on a staff. -/
def keyY (key : Pitch) (top : Float) (clef : Option Clef) : Sketch Float :=
  heightAt top <$> countSteps key clef

/-- A ledger line. -/
def ledger (x y : Float) : Element := .line ⟨x - 9.0, y⟩ ⟨x + 9.0, y⟩ staffColor staffLineWidth

/-- A row of ledger lines: which of the heights need one, and which height comes after which. -/
structure LedgerRow where
  needed : Float → Bool
  next : Float → Float

/-- The lines of a row from `y` on, one after the other for as long as one is needed. There are none at
all if that is for ever. -/
def LedgerRow.lines (row : LedgerRow) (x y : Float) : Option (List Element) :=
  if row.needed y then do
    let further ← row |>.lines x (row.next y)
    return ledger x y :: further
  else
    return []
partial_fixpoint

/-- The row above a staff for a key at `target`. -/
def rowAbove (target : Float) : LedgerRow where
  needed y := decide (target - 1.0 ≤ y)
  next y := y - staffLineSpacing

/-- The row below a staff for a key at `target`. -/
def rowBelow (target : Float) : LedgerRow where
  needed y := decide (y ≤ target + 1.0)
  next y := y + staffLineSpacing

/-- The ledger lines of a key at `target`, those above the staff and then those below it. -/
def ledgerLines (x top target : Float) : Sketch (List Element) := do
  let above ← .ofLoop ((rowAbove target).lines x (top - staffLineSpacing))
  let below ← .ofLoop ((rowBelow target).lines x (bottomOf top + staffLineSpacing))
  return above ++ below

/-- Is the note head of a duration filled? -/
def isFilled (d : Duration) : Bool := d.value != .whole && d.value != .half

/-- The head of a key at the height `y`. -/
def keyHead (note : StaffNote) (x y : Float) : Element :=
  if note.duration.slash then
    stroke (x - headRadiusX) (y + headRadiusY) (x + headRadiusX) (y - headRadiusY) 2.5
  else .head ⟨x, y⟩ (isFilled note.duration)

/-- The head of a key with its ledger lines. -/
def staffHead (note : StaffNote) (x top y : Float) : Sketch (List Element) :=
  (· ++ [keyHead note x y]) <$> ledgerLines x top y

/-- The dot beside a key. -/
def dot (x y : Float) : Element := .rect ⟨x + 8.0, y - 1.5⟩ 3.0 3.0 noteColor

/-- The stem of a note: down from a chord above the middle line, up otherwise. -/
def staffStem (note : StaffNote) (x middle : Float) (ys : List Float) : List Element :=
  if note.duration.value = .whole || ys.isEmpty then []
  else
    let high := ys.foldl smaller (1.0 / 0.0)
    let low := ys.foldl larger (-1.0 / 0.0)
    if middle ≤ (high + low) / 2.0 then
      let sx := x + headRadiusX - 0.5
      [stroke sx low sx (high - stemLength) stemWidth]
    else
      let sx := x - headRadiusX + 0.5
      [stroke sx high sx (low + stemLength) stemWidth]

/-- A mark at a note on a staff. -/
def staffMark (x top : Float) (ys : List Float) (attached : Attached) : List Element :=
  let y := (ys[attached.index]?).getD (middleOf top)
  let label (text : String) (position : Position) : List Element :=
    let offset := offsetOf position
    [.text ⟨x + offset.x, y + offset.y⟩ text labelSize "normal" "middle"]
  match attached.modifier with
  | .accidental accidental cautionary =>
      let sign := accidentalGlyph accidental
      let shown := if cautionary then "(" ++ sign ++ ")" else sign
      [.text ⟨x - 10.0, y + 4.0⟩ shown 13.0 "normal" "end"]
  | .fingering text position => label text position
  | .stringNumber text position => label text position
  | other => sharedMark x (top - 12.0) (bottomOf top + 20.0) other

/-- The heights of the keys of a note; a rest has the height of the middle line. -/
def staffHeights (note : StaffNote) (top : Float) (clef : Option Clef) : Sketch (List Float) :=
  if note.rest then return [middleOf top]
  else .all (note.keys.map fun key => keyY key top clef)

/-- A rest. -/
def restElement (note : StaffNote) (x top : Float) : Element :=
  let height := if isFilled note.duration then 12.0 else 5.0
  .rect ⟨x - 4.0, middleOf top - height / 2.0⟩ 8.0 height noteColor

/-- A note or rest on a staff, its keys being at the heights `ys`. -/
def staffNoteElements (note : StaffNote) (x top : Float) (ys : List Float) :
    Sketch (List Element) :=
  if note.rest then return [restElement note x top]
  else do
    let heads ← .all (ys.map (staffHead note x top))
    return heads.flatten
      ++ (if note.duration.dotted then ys.map (dot x) else [])
      ++ staffStem note x (middleOf top) ys
      ++ note.modifiers.flatMap (staffMark x top ys)

/-! ## Notes on tablature -/

/-- The height of a string whose first one has the height `first`. -/
def stringY (first : Float) (string : Nat) : Float :=
  first + Float.ofNat (string - 1) * tabLineSpacing

/-- The heights of the positions of a note. -/
def tabHeights (note : TabNote) (first : Float) : List Float :=
  note.positions.map fun p => stringY first p.string

/-- The number of a position on its string. -/
def fretElements (x first : Float) (p : TabPosition) : List Element :=
  let y := stringY first p.string
  [.rect ⟨x - 6.0, y - 6.0⟩ 12.0 12.0 backgroundColor,
    .text ⟨x, y + 4.0⟩ p.fret.toText fretSize "normal" "middle"]

/-- The stem of a note on tablature. -/
def tabStem (note : TabNote) (x first last : Float) (beam : BeamPolicy) : List Element :=
  if beam.tabStems && note.stem && note.duration.value != .whole then
    match beam.tabStemDirection with
    | .up => [stroke x (first - 6.0) x (first - 6.0 - stemLength / 2.0) stemWidth]
    | .down => [stroke x (last + 6.0) x (last + 6.0 + stemLength / 2.0) stemWidth]
  else []

/-- The label of a bend phrase. -/
def bendLabel (phrase : List BendStep) : String :=
  String.intercalate " / " <| phrase.map fun step =>
    match step.direction with
    | .up => step.label
    | .down => "release"

/-- A mark at a note on tablature. -/
def tabMark (x first last : Float) (ys : List Float) (attached : Attached) : List Element :=
  match attached.modifier with
  | .bend phrase =>
      let y := (ys[attached.index]?).getD first
      [.curve ⟨x + 6.0, y⟩ ⟨x + 14.0, y⟩ ⟨x + 14.0, first - 14.0⟩,
        .text ⟨x + 14.0, first - 18.0⟩ (bendLabel phrase) labelSize "normal" "middle"]
  | other => sharedMark x (first - 14.0) (last + 22.0) other

/-- A note on tablature; a hidden one is not drawn. -/
def tabNoteElements (note : TabNote) (x first last : Float) (beam : BeamPolicy) : List Element :=
  if note.ghost then []
  else
    note.positions.flatMap (fretElements x first)
      ++ tabStem note x first last beam
      ++ note.modifiers.flatMap (tabMark x first last (tabHeights note first))

end Tablature.Preview
