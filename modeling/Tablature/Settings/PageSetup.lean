/-
# Tablature.Settings.PageSetup — what is fixed before the first directive.
-/
import Tablature.Json.Record

namespace Tablature

/-- The place, size and font that a score starts with. -/
structure PageSetup where
  /-- The left edge of every stave. -/
  x : Float
  /-- The top of the first stave. -/
  y : Float
  width : Float
  fontFace : String
  fontSize : Nat
  fontStyle : Option String
  /-- The space left below the last stave. -/
  bottomSpacing : Float
  tabStaveLowerSpacing : Float
  noteStaveLowerSpacing : Float
  scale : Float

namespace PageSetup

open Json

/-- The setup used when none is given. -/
def standard : PageSetup :=
  { x := 10.0
    y := 10.0
    width := 800.0
    fontFace := "Arial"
    fontSize := 10
    fontStyle := none
    bottomSpacing := 30.0
    tabStaveLowerSpacing := 10.0
    noteStaveLowerSpacing := 0.0
    scale := 1.0 }

/-- The fields of a setup. -/
def names : List String :=
  ["x", "y", "width", "font_face", "font_size", "font_style", "bottom_spacing",
    "tab_stave_lower_spacing", "note_stave_lower_spacing", "scale"]

/-- Reads a setup; every field that is missing has its standard value. -/
def decode (v : Value) : Option PageSetup := do
  let r ← Record.read names v
  let x ← r.orElse "x" standard.x Value.asFloat?
  let y ← r.orElse "y" standard.y Value.asFloat?
  let width ← r.orElse "width" standard.width Value.asFloat?
  let fontFace ← r.orElse "font_face" standard.fontFace Value.asString?
  let fontSize ← r.orElse "font_size" standard.fontSize Value.asNat32?
  let fontStyle ← r.orElse "font_style" standard.fontStyle (Record.nullable Value.asString?)
  let bottomSpacing ← r.orElse "bottom_spacing" standard.bottomSpacing Value.asFloat?
  let tabStaveLowerSpacing ←
    r.orElse "tab_stave_lower_spacing" standard.tabStaveLowerSpacing Value.asFloat?
  let noteStaveLowerSpacing ←
    r.orElse "note_stave_lower_spacing" standard.noteStaveLowerSpacing Value.asFloat?
  let scale ← r.orElse "scale" standard.scale Value.asFloat?
  return { x, y, width, fontFace, fontSize, fontStyle, bottomSpacing, tabStaveLowerSpacing,
           noteStaveLowerSpacing, scale }

/-- Writes a setup. -/
def encode (p : PageSetup) : Value :=
  .object
    [("x", .float p.x), ("y", .float p.y), ("width", .float p.width),
      ("font_face", .string p.fontFace), ("font_size", .nat p.fontSize),
      ("font_style", .option .string p.fontStyle), ("bottom_spacing", .float p.bottomSpacing),
      ("tab_stave_lower_spacing", .float p.tabStaveLowerSpacing),
      ("note_stave_lower_spacing", .float p.noteStaveLowerSpacing), ("scale", .float p.scale)]

end PageSetup

end Tablature
