/-
# Tablature.Preview.Stave — staves, bar lines and texts.

A stave is drawn view by view. Beside the elements, drawing a view gives the places of its notes,
which the links need.
-/
import Tablature.Preview.Note

namespace Tablature.Preview

/-- One of the two views of a stave. -/
inductive View
  | tab
  | staff
  deriving DecidableEq, Repr

/-- Where a note was drawn: its place along the stave, and the height of each key or position. -/
structure Placement where
  x : Float
  ys : List Float

/-- The places of notes by view and address. -/
abbrev Placements := List ((View × NoteRef) × Placement)

/-- Elements together with the places of the notes among them. -/
structure Picture where
  elements : List Element
  placements : Placements

namespace Picture

/-- Nothing drawn. -/
def blank : Picture := ⟨[], []⟩

/-- One picture after the other. -/
def append (p q : Picture) : Picture := ⟨p.elements ++ q.elements, p.placements ++ q.placements⟩

/-- Pictures in a row. -/
def join (pictures : List Picture) : Picture := pictures.foldr append blank

/-- Elements without notes. -/
def ofElements (elements : List Element) : Picture := ⟨elements, []⟩

end Picture

/-- Pictures in a row, if each of them gets finished. -/
def Sketch.join (pictures : List (Sketch Picture)) : Sketch Picture :=
  Picture.join <$> .all pictures

/-! ## Bar lines -/

/-- The width of a thin bar line. -/
def barWidth : Float := 1.0

/-- The width of a thick bar line. -/
def thickBarWidth : Float := 3.0

/-- A bar line at `x`. -/
def barLine (type : BarType) (x top bottom : Float) : List Element :=
  let thin (x : Float) : Element := .line ⟨x, top⟩ ⟨x, bottom⟩ barColor barWidth
  let thick (x : Float) : Element := .line ⟨x, top⟩ ⟨x, bottom⟩ barColor thickBarWidth
  let dots (x : Float) : List Element :=
    let middle := (top + bottom) / 2.0
    [.rect ⟨x - 1.5, middle - 6.0⟩ 3.0 3.0 barColor, .rect ⟨x - 1.5, middle + 3.0⟩ 3.0 3.0 barColor]
  match type with
  | .single => [thin x]
  | .double => [thin (x - 4.0), thin x]
  | .final => [thin (x - 5.0), thick x]
  | .repeatBegin => [thick x, thin (x + 5.0)] ++ dots (x + 10.0)
  | .repeatEnd => dots (x - 10.0) ++ [thin (x - 5.0), thick x]
  | .repeatBoth => dots (x - 10.0) ++ [thin (x - 5.0), thick x, thin (x + 5.0)] ++ dots (x + 10.0)

/-- The bar line at the end of a stave. -/
def endBarLine (bar : Option BarType) (x top bottom : Float) : List Element :=
  match bar with
  | some type => barLine type x top bottom
  | none => []

/-! ## The lines of a stave -/

/-- A line of a stave. -/
def staveLine (x width y : Float) : Element := .line ⟨x, y⟩ ⟨x + width, y⟩ staffColor staffLineWidth

/-- `count` lines of a stave at equal distances. -/
def staveLines (x width first spacing : Float) (count : Nat) : List Element :=
  (List.range count).map fun i => staveLine x width (first + Float.ofNat i * spacing)

/-- A clef; the rarer ones are letters. -/
def clefElements (clef : Option Clef) (x top : Float) : List Element :=
  let letter (text : String) : List Element :=
    [.text ⟨x + 12.0, top + 24.0⟩ text 20.0 "bold" "middle"]
  match clef with
  | some .treble => [.glyph ⟨x + 14.0, top + 32.0⟩ (Char.ofNat 0x1D11E) 40.0]
  | some .bass => [.glyph ⟨x + 14.0, top + 30.0⟩ (Char.ofNat 0x1D122) 30.0]
  | some .tenor => letter "T"
  | some .alto => letter "A"
  | some .percussion => letter "P"
  | none => []

/-- A time signature. -/
def timeElements (time : Option TimeSignature) (x top : Float) : List Element :=
  match time with
  | some t => [.text ⟨x + 42.0, top + 24.0⟩ t.toText 14.0 "bold" "middle"]
  | none => []

/-- The word TAB at the start of tablature. -/
def tabGlyph (x first last : Float) : List Element :=
  let step := (last - first) / 3.0
  let letter (i : Float) (text : String) : Element :=
    .text ⟨x + 15.0, first + step * (i + 0.5) + 5.0⟩ text 14.0 "bold" "middle"
  [letter 0.0 "T", letter 1.0 "A", letter 2.0 "B"]

/-! ## Views -/

/-- How far below its stave's top the first line of a staff is. -/
def staffTopOffset : Float := 40.0

/-- How far below its stave's top the first string of tablature is. -/
def tabTopOffset : Float := 26.0

/-- How far right of its place a note is drawn. -/
def headWidth : Float := headRadiusX * 2.0

/-- The picture of one object of a voice on a staff. -/
def staffObject (view : StaffView) (top : Float) (stave voice index : Nat) (left : Float) :
    Tickable → Sketch Picture
  | .staff note => do
      let x := left + headWidth
      let ys ← staffHeights note top view.clef
      let elements ← staffNoteElements note x top ys
      return { elements, placements := [((.staff, ⟨stave, voice, index⟩), ⟨x, ys⟩)] }
  | .bar _ => return .ofElements (barLine .single (left + headWidth - headWidth) top (bottomOf top))
  | _ => return .blank

/-- The picture of one object of a voice on tablature. -/
def tabObject (first last : Float) (beam : BeamPolicy) (stave voice index : Nat) (left : Float) :
    Tickable → Sketch Picture
  | .tab note =>
      let x := left + headWidth
      return { elements := tabNoteElements note x first last beam
               placements := [((.tab, ⟨stave, voice, index⟩), ⟨x, tabHeights note first⟩)] }
  | .bar _ => return .ofElements (barLine .single (left + headWidth - headWidth) first last)
  | _ => return .blank

/-- The pictures of the voices of a view. -/
def voicePictures (timeline : Timeline) (object : Nat → Nat → Float → Tickable → Sketch Picture)
    (voices : List (List Tickable)) : Sketch Picture :=
  .join (voices.mapIdx fun voice notes =>
    .join ((timeline.place notes).map fun (index, left, note) => object voice index left note))

/-- The picture of a staff with its voices. -/
def staffPicture (timeline : Timeline) (stave : Nat) (view : StaffView)
    (voices : List (List Tickable)) : Sketch Picture :=
  let top := view.y + staffTopOffset
  .join
    [.finished (.ofElements (staveLines view.x view.width top staffLineSpacing 5
        ++ clefElements view.clef view.x top ++ timeElements view.time view.x top)),
      voicePictures timeline (staffObject view top stave) voices,
      .finished (.ofElements (endBarLine view.endBar (view.x + view.width) top (bottomOf top)))]

/-- The picture of tablature with its voices. -/
def tabPicture (timeline : Timeline) (stave : Nat) (beam : BeamPolicy) (view : TabView)
    (voices : List (List Tickable)) : Sketch Picture :=
  let first := view.y + tabTopOffset
  let last := first + Float.ofNat (view.lines - 1) * tabLineSpacing
  .join
    [.finished (.ofElements (staveLines view.x view.width first tabLineSpacing view.lines
        ++ if view.glyph then tabGlyph view.x first last else [])),
      voicePictures timeline (tabObject first last beam stave) voices,
      .finished (.ofElements (endBarLine view.endBar (view.x + view.width) first last))]

/-! ## Texts -/

/-- The anchor of an alignment. -/
def anchorOf : Justification → String
  | .left => "start"
  | .center => "middle"
  | .right => "end"

/-- A text of the text voice with number `row`, below the stave's lower edge. An empty text is not
drawn. -/
def textElements (bottom : Float) (row : Nat) (left : Float) (note : TextNote) : List Element :=
  if note.text = "" then []
  else
    let y := bottom + Float.ofInt note.line * staffLineSpacing + Float.ofNat row * labelSize * 1.5
    [.styledText ⟨left + headWidth, y⟩ (note.glyph.getD note.text) note.font.family
      (Float.ofNat note.font.size) note.font.style (anchorOf note.justification)]

/-- The texts of one voice. -/
def textVoiceElements (timeline : Timeline) (bottom : Float) (row : Nat) (voice : List TextNote) :
    List Element :=
  (voice.zip (timeline.place (voice.map Tickable.text))).flatMap fun (note, _, left, _) =>
    textElements bottom row left note

/-- The lower edge of a stave. -/
def lowerEdge (g : StaveGroup) : Float :=
  let bottom := match g.staff with
    | some (view, _) => larger 0.0 (view.y + view.height)
    | none => 0.0
  match g.tab with
  | some (view, _) => larger bottom (view.y + view.height)
  | none => bottom

/-- The picture of a stave: the staff, the tablature, the texts. -/
def stavePicture (g : StaveGroup) : Sketch Picture :=
  let timeline := Timeline.of g
  let staff := match g.staff with
    | some (view, voices) => staffPicture timeline g.index view voices
    | none => .finished .blank
  let tab := match g.tab with
    | some (view, voices) => tabPicture timeline g.index g.beam view voices
    | none => .finished .blank
  let texts := g.textVoices.mapIdx (textVoiceElements timeline (lowerEdge g))
  .join [staff, tab, .finished (.ofElements texts.flatten)]

end Tablature.Preview
