/-
# Tablature.Preview.Drawing — a layout engine that draws a preview.

This is no engraver: notes are spread along the staves in proportion to their time, so that a
score can be looked at without a layout library. Links are drawn between the places that their
notes were given; a link whose notes have no places is not drawn.
-/
import Tablature.Preview.Stave

namespace Tablature.Preview

/-! ## Links -/

/-- The place of a note. -/
def placement? (placements : Placements) (view : View) (note : NoteRef) : Option Placement :=
  (placements.find? fun p => p.1 = (view, note)).map (·.2)

/-- The points of a link between two placed notes. -/
def pointPairs (first last : Placement) (firstIndices lastIndices : List Nat) :
    List (Point × Point) :=
  (firstIndices.zip lastIndices).filterMap fun (a, b) =>
    match first.ys[a]?, last.ys[b]? with
    | some ya, some yb => some (⟨first.x, ya⟩, ⟨last.x, yb⟩)
    | _, _ => none

/-- The points that a link joins. -/
def linkPoints (placements : Placements) (view : View) (link : Link) : List (Point × Point) :=
  match placement? placements view link.first, placement? placements view link.last with
  | some first, some last => pointPairs first last link.firstIndices link.lastIndices
  | _, _ => []

/-- A curve between two points whose middle is drawn towards a height. -/
def curveThrough (start stop : Point) (height : Float) : Element :=
  .curve start ⟨(start.x + stop.x) / 2.0, height⟩ stop

/-- A slide. -/
def slideElement (a b : Point) : Element :=
  stroke (a.x + 6.0) (a.y + 3.0) (b.x - 6.0) (b.y - 3.0) linkWidth

/-- A tie on tablature with its label; a blank label is not drawn. -/
def tabTieElements (label : String) (a b : Point) : List Element :=
  let lift := smaller a.y b.y - 16.0
  curveThrough ⟨a.x, a.y - 7.0⟩ ⟨b.x, b.y - 7.0⟩ lift ::
    if Text.trim label.toList = [] then []
    else [.text ⟨(a.x + b.x) / 2.0, lift⟩ label labelSize "normal" "middle"]

/-- A tie on a staff. -/
def staffTieElement (a b : Point) : Element :=
  curveThrough ⟨a.x + 4.0, a.y + 5.0⟩ ⟨b.x - 4.0, b.y + 5.0⟩ (larger a.y b.y + 12.0)

/-- The bracket of a tuplet over the notes that have places. -/
def tupletElements (placements : Placements) (view : View) (tuplet : Tuplet) : List Element :=
  let placed := tuplet.notes.filterMap (placement? placements view)
  match placed.head?, placed.getLast? with
  | some first, some last =>
      let top := (placed.flatMap (·.ys)).foldl smaller (1.0 / 0.0) - stemLength - 8.0
      let left := first.x - 4.0
      let right := last.x + 4.0
      let middle := (first.x + last.x) / 2.0
      [stroke left top right top linkWidth, stroke left top left (top + 5.0) linkWidth,
        stroke right top right (top + 5.0) linkWidth,
        .rect ⟨middle - 6.0, top - 6.0⟩ 12.0 12.0 backgroundColor,
        .text ⟨middle, top + 4.0⟩ (Text.Numeral.natText tuplet.count) labelSize "italic" "middle"]
  | _, _ => []

/-- A link on tablature. -/
def tabLinkElements (placements : Placements) : TabLink → List Element
  | .slide link => (linkPoints placements .tab link).map fun (a, b) => slideElement a b
  | .tie link label =>
      (linkPoints placements .tab link).flatMap fun (a, b) => tabTieElements label a b
  | .tuplet tuplet => tupletElements placements .tab tuplet

/-- A link on a staff. -/
def staffLinkElements (placements : Placements) : StaffLink → List Element
  | .tie link => (linkPoints placements .staff link).map fun (a, b) => staffTieElement a b
  | .tuplet tuplet => tupletElements placements .staff tuplet

/-! ## The engine -/

/-- What is drawn so far; without a surface nothing is. -/
structure Drawing where
  surface : Option Surface
  picture : Picture

namespace Drawing

/-- Before the first call. -/
def start : Drawing := ⟨none, .blank⟩

/-- More on the surface. -/
def add (d : Drawing) (p : Picture) : Drawing := { d with picture := d.picture.append p }

/-- One call. A new surface starts a new drawing; without a surface nothing is drawn. -/
def perform (d : Drawing) (call : LayoutCall) : Sketch Drawing :=
  match call, d.surface with
  | .prepare width height scale, _ => return ⟨some ⟨width, height, scale⟩, .blank⟩
  | .stave group, some _ => d.add <$> stavePicture group
  | .links tab staff, some _ =>
      return d.add (.ofElements (tab.flatMap (tabLinkElements d.picture.placements)
        ++ staff.flatMap (staffLinkElements d.picture.placements)))
  | _, none => return d

/-- The drawing after a list of calls. -/
def ofCalls (calls : List LayoutCall) : Sketch Drawing := calls.foldlM perform start

/-- The text of a drawing. -/
def document (d : Drawing) : String :=
  match d.surface with
  | some surface => surface.document d.picture.elements
  | none => Surface.placeholder

end Drawing

end Tablature.Preview
