/-
# Tablature.Score.Tickable — what a view of a stave shows.

A *tickable* is one object in a voice of a view: a note on tablature, a note or rest on a staff, a
bar, a spacer that only takes time, or a text. Bars, and texts that say so, take no time.
-/
import Tablature.Score.Modifier
import Tablature.Settings.StaveDeclaration

namespace Tablature

/-- A bar line. -/
inductive BarType
  | single
  | double
  | final
  | repeatBegin
  | repeatEnd
  | repeatBoth
  deriving DecidableEq, Repr

namespace BarType

/-- The name of a bar line. -/
def name : BarType → String
  | single => "single"
  | double => "double"
  | final => "end"
  | repeatBegin => "repeat-begin"
  | repeatEnd => "repeat-end"
  | repeatBoth => "repeat-both"

/-- The bar line with a given name; an unknown name, or none, gives a single line. -/
def ofName : Option String → BarType
  | some "double" => double
  | some "end" => final
  | some "repeat-begin" => repeatBegin
  | some "repeat-end" => repeatEnd
  | some "repeat-both" => repeatBoth
  | _ => single

end BarType

/-- Where a text is aligned. -/
inductive Justification
  | left
  | center
  | right
  deriving DecidableEq, Repr

/-- The name of an alignment. -/
def Justification.name : Justification → String
  | left => "left"
  | center => "center"
  | right => "right"

/-- A note on tablature. -/
structure TabNote where
  positions : List TabPosition
  duration : Duration
  /-- The pitches to sound, shifted by the octave shift in force. -/
  playNotes : List Pitch
  stem : Bool
  /-- Hidden because a bend drawn at an earlier note covers it. -/
  ghost : Bool
  multiplier : Ticks
  modifiers : List Attached
  deriving DecidableEq

/-- A note or a rest on a staff. -/
structure StaffNote where
  keys : List Pitch
  duration : Duration
  rest : Bool
  clef : Clef
  autoStem : Bool
  playNotes : List Pitch
  multiplier : Ticks
  modifiers : List Attached
  deriving DecidableEq

/-- A text below a stave. -/
structure TextNote where
  text : String
  /-- The name of a glyph, for texts that start with `#`. -/
  glyph : Option String
  duration : Duration
  font : Font
  line : Int
  justification : Justification
  smooth : Bool
  ignoresTicks : Bool
  multiplier : Ticks
  deriving DecidableEq

/-- How long a text lasts. -/
def TextNote.ticks (t : TextNote) : Ticks :=
  if t.ignoresTicks then 0 else t.duration.ticks * t.multiplier

/-- An object in a voice of a view. -/
inductive Tickable
  | tab (note : TabNote)
  | staff (note : StaffNote)
  | bar (type : BarType)
  | spacer (duration : Duration) (multiplier : Ticks)
  | text (note : TextNote)
  deriving DecidableEq

namespace Tickable

/-- Does the object take no time? -/
def ignoresTicks : Tickable → Bool
  | bar _ => true
  | text t => t.ignoresTicks
  | _ => false

/-- How long the object lasts. -/
def ticks : Tickable → Ticks
  | tab n => n.duration.ticks * n.multiplier
  | staff n => n.duration.ticks * n.multiplier
  | spacer duration multiplier => duration.ticks * multiplier
  | text t => t.ticks
  | bar _ => 0

/-- The marks of the object. -/
def modifiers : Tickable → List Attached
  | tab n => n.modifiers
  | staff n => n.modifiers
  | _ => []

/-- Is the object a visible note on tablature? -/
def isLiveTab : Tickable → Bool
  | tab n => ! n.ghost
  | _ => false

/-- Is the object a note on tablature? -/
def isTab : Tickable → Bool
  | tab _ => true
  | _ => false

/-- The number of positions or keys that marks can belong to. -/
def keyCount : Tickable → Nat
  | tab n => n.positions.length
  | staff n => n.keys.length
  | _ => 0

/-- Is the object a rest? -/
def isRest : Tickable → Bool
  | spacer _ _ => true
  | staff n => n.rest
  | _ => false

/-- The pitches that the object sounds. -/
def playNotes : Tickable → List Pitch
  | tab n => n.playNotes
  | staff n => if n.rest then [] else n.playNotes
  | _ => []

/-- The bar line of an object that is one. -/
def bar? : Tickable → Option BarType
  | bar type => some type
  | _ => none

/-! ## Changes -/

/-- A mark at a position or key. Bars, spacers and texts take no marks. -/
def mark (index : Nat) (modifier : Modifier) : Tickable → Tickable
  | tab n => tab { n with modifiers := n.modifiers ++ [⟨index, modifier⟩] }
  | staff n => staff { n with modifiers := n.modifiers ++ [⟨index, modifier⟩] }
  | t => t

theorem keyCount_mark (t : Tickable) (index : Nat) (m : Modifier) :
    (t.mark index m).keyCount = t.keyCount := by
  cases t <;> rfl

/-- The object with its time multiplied. Bars take no time. -/
def scaleTicks (factor : Ticks) : Tickable → Tickable
  | tab n => tab { n with multiplier := n.multiplier * factor }
  | staff n => staff { n with multiplier := n.multiplier * factor }
  | spacer duration multiplier => spacer duration (multiplier * factor)
  | text t => text { t with multiplier := t.multiplier * factor }
  | bar type => bar type

/-- The object hidden; only a note on tablature can be. -/
def hide : Tickable → Tickable
  | tab n => tab { n with ghost := true }
  | t => t

end Tickable

/-- The time that the objects of a voice take together. -/
def voiceTicks (voice : List Tickable) : Ticks := .sum (voice.map Tickable.ticks)

/-- The bar line that a voice ends with. -/
def endBar? (voice : List Tickable) : Option BarType := voice.getLast?.bind Tickable.bar?

end Tablature
