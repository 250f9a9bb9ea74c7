/-
# Tablature.Preview.Element — elements of a drawing and their text.

A drawing is a list of elements; an element is written as a tag with attributes and, for texts,
content. Only `Node.text` writes markup, and it escapes every attribute value and all content, so
that no text of a score can become markup.
-/
import Tablature.Decimal.Layout
import Tablature.Text.Escape

namespace Tablature.Preview

open Tablature.Decimal

/-! ## Tags -/

/-- An element in markup: its tag, its attributes in order, and its content if it has any. -/
structure Node where
  tag : String
  attributes : List (String × String)
  content : Option String
  deriving DecidableEq, Repr

namespace Node

/-- An attribute, after the blank that divides it from what stands before. -/
def attributeText (a : String × String) : String :=
  " " ++ a.1 ++ "=\"" ++ Text.escapeString a.2 ++ "\""

/-- The attributes of an element. -/
def attributesText (attributes : List (String × String)) : String :=
  String.join (attributes.map attributeText)

/-- The tag that opens an element. -/
def opening (n : Node) : String := "<" ++ n.tag ++ attributesText n.attributes

/-- An element as it is written. -/
def text (n : Node) : String :=
  match n.content with
  | none => n.opening ++ "/>"
  | some content => n.opening ++ ">" ++ Text.escapeString content ++ "</" ++ n.tag ++ ">"

end Node

/-! ## Elements -/

/-- A point of a drawing. -/
structure Point where
  x : Float
  y : Float

/-- The colour of notes and texts. -/
def noteColor : String := "#1a1a1a"

/-- The colour of the lines of staves. -/
def staffColor : String := "#555555"

/-- The colour of bar lines. -/
def barColor : String := "#333333"

/-- The colour behind numbers. -/
def backgroundColor : String := "#ffffff"

/-- Half the width of a note head. -/
def headRadiusX : Float := 5.5

/-- Half the height of a note head. -/
def headRadiusY : Float := 4.0

/-- The width of links. -/
def linkWidth : Float := 1.2

/-- An element of a drawing. -/
inductive Element
  | line (start stop : Point) (color : String) (width : Float)
  | rect (corner : Point) (width height : Float) (fill : String)
  /-- Text in the font of the drawing. -/
  | text (place : Point) (content : String) (size : Float) (weight anchor : String)
  /-- Text in a font of its own. -/
  | styledText (place : Point) (content family : String) (size : Float) (style : Option String)
      (anchor : String)
  /-- A curve with one control point. -/
  | curve (start control stop : Point)
  | head (center : Point) (filled : Bool)
  | glyph (place : Point) (glyph : Char) (size : Float)

namespace Element

/-- A coordinate. -/
def coordinate (x : Float) : String := fixed 1 x

/-- A font size. -/
def fontSize (x : Float) : String := fixed 0 x

/-- The weight and the slant of a font style. -/
def weightAndSlant : Option String → String × String
  | some "bold" => ("bold", "normal")
  | some "italic" => ("normal", "italic")
  | _ => ("normal", "normal")

/-- A point between the other points of a path. -/
def pathPoint (p : Point) : String := coordinate p.x ++ "," ++ coordinate p.y

/-- The attributes of a note head's ellipse. -/
def ellipse (center : Point) (radiusX radiusY : Float) : List (String × String) :=
  [("cx", coordinate center.x), ("cy", coordinate center.y), ("rx", coordinate radiusX),
    ("ry", coordinate radiusY)]

/-- The slope of a note head. -/
def slope (center : Point) : String := "rotate(-15," ++ pathPoint center ++ ")"

/-- The width of the stroke of an open note head. -/
def openHeadStroke : Float := 1.5

/-- An element in markup. -/
def node : Element → Node
  | line start stop color width =>
      { tag := "line"
        attributes :=
          [("x1", coordinate start.x), ("y1", coordinate start.y), ("x2", coordinate stop.x),
            ("y2", coordinate stop.y), ("stroke", color), ("stroke-width", coordinate width),
            ("stroke-linecap", "round")]
        content := none }
  | rect corner width height fill =>
      { tag := "rect"
        attributes :=
          [("x", coordinate corner.x), ("y", coordinate corner.y), ("width", coordinate width),
            ("height", coordinate height), ("fill", fill)]
        content := none }
  | text place content size weight anchor =>
      { tag := "text"
        attributes :=
          [("x", coordinate place.x), ("y", coordinate place.y), ("font-size", fontSize size),
            ("font-weight", weight), ("fill", noteColor), ("text-anchor", anchor)]
        content := some content }
  | styledText place content family size style anchor =>
      { tag := "text"
        attributes :=
          [("x", coordinate place.x), ("y", coordinate place.y), ("font-family", family),
            ("font-size", fontSize size), ("font-weight", (weightAndSlant style).1),
            ("font-style", (weightAndSlant style).2), ("fill", noteColor), ("text-anchor", anchor)]
        content := some content }
  | curve start control stop =>
      { tag := "path"
        attributes :=
          [("d", "M" ++ pathPoint start ++ " Q" ++ pathPoint control ++ " " ++ pathPoint stop),
            ("fill", "none"), ("stroke", noteColor), ("stroke-width", coordinate linkWidth),
            ("stroke-linecap", "round")]
        content := none }
  | head center true =>
      { tag := "ellipse"
        attributes :=
          ellipse center headRadiusX headRadiusY ++
            [("fill", noteColor), ("transform", slope center)]
        content := none }
  | head center false =>
      { tag := "ellipse"
        attributes :=
          ellipse center (headRadiusX - openHeadStroke / 2.0)
              (headRadiusY - openHeadStroke / 2.0) ++
            [("fill", "none"), ("stroke", noteColor), ("stroke-width", coordinate openHeadStroke),
              ("transform", slope center)]
        content := none }
  | glyph place sign size =>
      { tag := "text"
        attributes :=
          [("x", coordinate place.x), ("y", coordinate place.y), ("font-size", fontSize size),
            ("fill", noteColor), ("text-anchor", "middle")]
        content := some (String.singleton sign) }

end Element

/-! ## Documents -/

/-- The surface of a drawing. -/
structure Surface where
  width : Float
  height : Float
  scale : Float

namespace Surface

/-- The name space of drawings. -/
def nameSpace : String := "http://www.w3.org/2000/svg"

/-- The attributes of the outermost element. -/
def attributes (s : Surface) : List (String × String) :=
  [("xmlns", nameSpace), ("viewBox", "0 0 " ++ plain s.width ++ " " ++ plain s.height),
    ("width", plain s.width), ("height", plain s.height),
    ("style", "font-family: 'Arial', sans-serif;")]

/-- The text of a drawing: every element on a line of its own inside one scaled group. -/
def document (s : Surface) (elements : List Element) : String :=
  let root : Node := ⟨"svg", s.attributes, none⟩
  let group : Node := ⟨"g", [("transform", "scale(" ++ plain s.scale ++ ")")], none⟩
  root.opening ++ ">\n" ++ group.opening ++ ">\n"
    ++ String.join (elements.map fun e => "  " ++ e.node.text ++ "\n") ++ "</g>\n</svg>\n"

/-- The drawing that stands in for a score that was not rendered. -/
def placeholder : String :=
  let root : Node := ⟨"svg", [("xmlns", nameSpace), ("viewBox", "0 0 400 100")], none⟩
  let message : Node :=
    { tag := "text"
      attributes :=
        [("x", "200"), ("y", "50"), ("text-anchor", "middle"), ("font-size", "14"),
          ("fill", "gray")]
      content := some "Nothing rendered" }
  root.opening ++ ">" ++ message.text ++ "</svg>"

end Surface

end Tablature.Preview
