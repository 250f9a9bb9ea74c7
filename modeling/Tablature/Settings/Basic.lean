/-
# Tablature.Settings.Basic — the options of a whole score.

A *setting* is one option with its value read; reading an option gives a setting or a fault, and a
setting changes exactly one field. What an option does is therefore decided by its key alone, and
settings of different fields do not disturb each other.
-/
import Tablature.Settings.Instrument
import Tablature.Settings.PageSetup
import Tablature.Decimal.Reader

namespace Tablature

/-- Which accidentals are marked. -/
inductive AccidentalStrategy
  /-- Only changes of the spelling in force. -/
  | standard
  /-- Also accidentals that are in force already, as courtesy marks. -/
  | cautionary
  deriving DecidableEq, Repr

/-- The name of a strategy. -/
def AccidentalStrategy.name : AccidentalStrategy → String
  | standard => "standard"
  | cautionary => "cautionary"

/-- Above or below a note. -/
inductive Side
  | top
  | bottom
  deriving DecidableEq, Repr

/-- The name of a side. -/
def Side.name : Side → String
  | top => "top"
  | bottom => "bottom"

/-- The direction of stems. -/
inductive StemDirection
  | up
  | down
  deriving DecidableEq, Repr

/-- The name of a direction. -/
def StemDirection.name : StemDirection → String
  | up => "up"
  | down => "down"

/-- The options of a score. -/
structure Settings where
  fontFace : String
  fontSize : Nat
  fontStyle : Option String
  /-- Where text annotations stand unless they say otherwise. -/
  annotationSide : Side
  scale : Float
  width : Float
  /-- Extra space below each staff. -/
  staveDistance : Float
  /-- Extra space added each time options are set. -/
  space : Float
  player : Bool
  tempo : Nat
  instrument : Instrument
  accidentals : AccidentalStrategy
  tabStems : Bool
  tabStemDirection : StemDirection
  beamRests : Bool
  beamStemlets : Bool
  beamMiddleOnly : Bool
  /-- The gap between the connector and the staves. -/
  connectorSpace : Float

/-- One option with its value read. -/
inductive Setting
  | fontFace (value : String)
  | fontSize (value : Nat)
  | fontStyle (value : Option String)
  | annotationSide (value : Side)
  | scale (value : Float)
  | width (value : Float)
  | staveDistance (value : Float)
  | space (value : Float)
  | player (value : Bool)
  | tempo (value : Nat)
  | instrument (value : Instrument)
  | accidentals (value : AccidentalStrategy)
  | tabStems (value : Bool)
  | tabStemDirection (value : StemDirection)
  | beamRests (value : Bool)
  | beamStemlets (value : Bool)
  | beamMiddleOnly (value : Bool)
  | connectorSpace (value : Float)

namespace Setting

/-- A number of 32 bits, blanks around it left out. -/
def readNat (value : String) : Option Nat := Text.Numeral.readNat32 (Text.trim value.toList)

/-- A double, blanks around it left out. -/
def readFloat (value : String) : Option Float := Decimal.readFloat (Text.trim value.toList)

/-- A truth value, exactly as it is written. -/
def readBool (value : String) : Option Bool :=
  if value = "true" then some true else if value = "false" then some false else none

/-- A font style; the empty one and `none` are no style. -/
def readStyle (value : String) : Option String :=
  if value = "" || value = "none" then none else some value

/-- A side. -/
def readSide (value : String) : Option Side :=
  if value = "top" then some .top else if value = "bottom" then some .bottom else none

/-- A strategy for accidentals. -/
def readStrategy (value : String) : Option AccidentalStrategy :=
  if value = "standard" then some .standard
  else if value = "cautionary" then some .cautionary
  else none

/-- A direction of stems. -/
def readDirection (value : String) : Option StemDirection :=
  if value = "up" then some .up else if value = "down" then some .down else none

/-- A value that could be read, as a setting. -/
def checked {α : Type} (key value : String) (setting : α → Setting) :
    Option α → Except Cause Setting
  | some a => .ok (setting a)
  | none => .error (.badOptionValue key value)

/-- Reads an option. -/
def read (key value : String) : Except Cause Setting :=
  match key with
  | "font-face" => .ok (.fontFace value)
  | "font-size" => checked key value .fontSize (readNat value)
  | "font-style" => .ok (.fontStyle (readStyle value))
  | "annotation-position" => checked key value .annotationSide (readSide value)
  | "scale" => checked key value .scale (readFloat value)
  | "width" => checked key value .width (readFloat value)
  | "stave-distance" => checked key value .staveDistance (readFloat value)
  | "space" => checked key value .space (readFloat value)
  | "player" => checked key value .player (readBool value)
  | "tempo" => checked key value .tempo (readNat value)
  | "instrument" => (Instrument.read value).map .instrument
  | "accidentals" => checked key value .accidentals (readStrategy value)
  | "tab-stems" => checked key value .tabStems (readBool value)
  | "tab-stem-direction" => checked key value .tabStemDirection (readDirection value)
  | "beam-rests" => checked key value .beamRests (readBool value)
  | "beam-stemlets" => checked key value .beamStemlets (readBool value)
  | "beam-middle-only" => checked key value .beamMiddleOnly (readBool value)
  | "connector-space" => checked key value .connectorSpace (readFloat value)
  | _ => .error (.unknownOption key)

end Setting

namespace Settings

/-- The settings that a score starts with. -/
def ofPageSetup (p : PageSetup) : Settings :=
  { fontFace := p.fontFace
    fontSize := p.fontSize
    fontStyle := p.fontStyle
    annotationSide := .bottom
    scale := p.scale
    width := p.width
    staveDistance := 0.0
    space := 0.0
    player := false
    tempo := 120
    instrument := .acousticGrandPiano
    accidentals := .standard
    tabStems := false
    tabStemDirection := .up
    beamRests := true
    beamStemlets := true
    beamMiddleOnly := false
    connectorSpace := 5.0 }

/-- The settings with one option changed. -/
def assign (s : Settings) : Setting → Settings
  | .fontFace value => { s with fontFace := value }
  | .fontSize value => { s with fontSize := value }
  | .fontStyle value => { s with fontStyle := value }
  | .annotationSide value => { s with annotationSide := value }
  | .scale value => { s with scale := value }
  | .width value => { s with width := value }
  | .staveDistance value => { s with staveDistance := value }
  | .space value => { s with space := value }
  | .player value => { s with player := value }
  | .tempo value => { s with tempo := value }
  | .instrument value => { s with instrument := value }
  | .accidentals value => { s with accidentals := value }
  | .tabStems value => { s with tabStems := value }
  | .tabStemDirection value => { s with tabStemDirection := value }
  | .beamRests value => { s with beamRests := value }
  | .beamStemlets value => { s with beamStemlets := value }
  | .beamMiddleOnly value => { s with beamMiddleOnly := value }
  | .connectorSpace value => { s with connectorSpace := value }

/-- The settings after an option as it is written. -/
def set (s : Settings) (key value : String) : Except Cause Settings :=
  (Setting.read key value).map s.assign

open Json in
/-- Writes the settings. -/
def encode (s : Settings) : Value :=
  .object
    [("font_face", .string s.fontFace), ("font_size", .nat s.fontSize),
      ("font_style", .option .string s.fontStyle),
      ("annotation_position", .string s.annotationSide.name), ("scale", .float s.scale),
      ("width", .float s.width), ("stave_distance", .float s.staveDistance),
      ("space", .float s.space), ("player", .boolean s.player), ("tempo", .nat s.tempo),
      ("instrument", .string s.instrument.name), ("accidentals", .string s.accidentals.name),
      ("tab_stems", .boolean s.tabStems),
      ("tab_stem_direction", .string s.tabStemDirection.name),
      ("beam_rests", .boolean s.beamRests), ("beam_stemlets", .boolean s.beamStemlets),
      ("beam_middle_only", .boolean s.beamMiddleOnly),
      ("connector_space", .float s.connectorSpace)]

end Settings

end Tablature
