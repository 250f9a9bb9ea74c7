/-
# Tablature.Interface — the library in single calls.

Every function takes the JSON text of a directive list. The last part is the interface for
programs that exchange texts ending in a zero byte: there a missing text stands for failure, a
text may be missing or no valid UTF-8, and a result that holds a zero byte itself cannot be handed
over.
-/
import Tablature.Compile
import Tablature.Json.Writer
import Tablature.Preview.Drawing
import Tablature.Score.Encode
import Tablature.Session.Render

namespace Tablature

open Json

/-- The text of a score, on many lines. -/
def Score.toJson (s : Score) : String := s.encode.prettyText

/-- Compiles a directive list to the text of its score. -/
def compileToJson (json : String) : Except Fault String :=
  (compileWith .standard json).map fun s => s.score.toJson

/-- The drawing of a session's score, if it gets finished. -/
def Session.draw (s : Session) : Preview.Sketch String :=
  Preview.Drawing.document <$> Preview.Drawing.ofCalls s.render.2

/-- The standard setup with another width, if one is given. -/
def PageSetup.withWidth : Option Float → PageSetup
  | some width => { PageSetup.standard with width := width }
  | none => .standard

/-- Compiles a directive list to a drawing. Only a list that compiles is drawn, so a fault is always
reported. -/
def renderToDocument (json : String) (width : Option Float) :
    Preview.Sketch (Except Fault String) :=
  match compileWith (.withWidth width) json with
  | .ok s => .ok <$> s.draw
  | .error fault => return .error fault

/-- The schedule of a session's score. -/
def Session.schedule (s : Session) : Schedule := .build s.settings s.score.playedVoices

/-- The text of a schedule, on one line. -/
def Schedule.toJson (s : Schedule) : String := s.encode.compactText

/-- Compiles a directive list to the text of its schedule. -/
def scheduleToJson (json : String) : Except Fault String :=
  (compileWith .standard json).map fun s => s.schedule.toJson

/-! ## Texts ending in a zero byte -/

namespace Foreign

/-- The text that some bytes stand for: they end at the first zero byte, and must be UTF-8. -/
def readText (bytes : Option (List UInt8)) : Option String :=
  match bytes with
  | none => none
  | some bytes => String.fromUTF8? ⟨(bytes.takeWhile (· ≠ 0)).toArray⟩

/-- A text as it is handed over; one with a zero byte inside becomes empty. -/
def writeText (text : String) : String := if text.toList.contains '\x00' then "" else text

/-- A position in a fault's JSON. -/
def encodeLocation (here : Location) : Value :=
  .object [("column", .nat here.column), ("line", .nat here.line)]

/-- The JSON of a fault. -/
def encodeFault (f : Fault) : Value :=
  .object
    [("error", .object
      [("kind", .string f.value.kind.name), ("location", .option encodeLocation f.location),
        ("message", .string f.value.message)])]

/-- The text of a score, or of the fault that prevents one; nothing when the input is no text. -/
def compile (bytes : Option (List UInt8)) : Option String :=
  (readText bytes).map fun json =>
    writeText <| match compileToJson json with
      | .ok text => text
      | .error fault => (encodeFault fault).compactText

/-- A width counts when it is above zero. -/
def widthOf (width : Float) : Option Float := if 0.0 < width then some width else none

/-- A drawing as it is handed over: nothing for a fault. -/
def handOver (result : Except Fault String) : Option String := result.toOption.map writeText

/-- The drawing of a score; nothing when the input is no text or does not compile. -/
def render (bytes : Option (List UInt8)) (width : Float) : Preview.Sketch (Option String) :=
  match readText bytes with
  | none => return none
  | some json => handOver <$> renderToDocument json (widthOf width)

end Foreign

end Tablature
