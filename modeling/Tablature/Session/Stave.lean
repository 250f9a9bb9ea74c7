/-
# Tablature.Session.Stave — staves, voices, bars and rests.

Each of these events ends an open bend first, so that no chain ever reaches into another voice or
measure. Bars and staves start a new measure for the spelling.
-/
import Tablature.Session.Bend

namespace Tablature

namespace Session

/-- Where notes start on tablature without a staff above it. -/
def tabNoteStart : Float := 40.0

/-- The left edge of a stave. -/
def staveStart (s : Session) : Float := s.setup.x + s.settings.connectorSpace

/-- The width of a stave. -/
def staveWidth (s : Session) : Float := s.settings.width - 20.0

/-- The staff view of a declaration. -/
def staffViewOf (s : Session) (d : StaveDeclaration) : StaffView :=
  { x := s.staveStart
    y := s.cursor
    width := s.staveWidth
    clef := d.clef
    key := d.key
    time := d.time
    endBar := none }

/-- The tablature view of a declaration. -/
def tabViewOf (s : Session) (d : StaveDeclaration) : TabView :=
  { x := s.staveStart
    y := s.cursor
    width := s.staveWidth
    lines := d.strings
    glyph := d.clef.isSome
    noteStart := if d.staff then none else some tabNoteStart
    endBar := none }

/-- The session after room is made for a staff; its clef is in force from then on. -/
def belowStaff (s : Session) (view : StaffView) : Session :=
  { s with
    cursor := s.cursor + ((view.height + s.setup.noteStaveLowerSpacing) + s.settings.staveDistance)
    clef := view.clef.getD .treble }

/-- The session after room is made for tablature. -/
def belowTab (s : Session) (view : TabView) : Session :=
  { s with cursor := s.cursor + (view.height + s.setup.tabStaveLowerSpacing) }

/-- Places the views of a declaration below each other and makes the stave active. -/
def placeStave (s : Session) (d : StaveDeclaration) : Session :=
  let staff := if d.staff then some (s.staffViewOf d) else none
  let s := match staff with
    | some view => s.belowStaff view
    | none => s
  let tab := if d.tablature then some (s.tabViewOf d) else none
  let s := match tab with
    | some view => s.belowTab view
    | none => s
  let score := s.score.addStave (.blank tab staff (BeamGroup.default d.time))
  { s with score := { score with height := s.cursor }, tuning := d.tuning }

/-- Changes the key for the spelling. -/
def setKey (s : Session) (key : String) : Outcome Cause Session :=
  (s.memory.setKey key).mapState fun memory => { s with memory := memory }

/-- Opens a new stave. -/
def addStave (s : Session) (d : StaveDeclaration) : Outcome Cause Session :=
  ((s.closeBends true).placeStave d).setKey d.key

/-- Starts a new voice on the active stave. Without a stave the declaration opens one. -/
def addVoice (s : Session) (d : StaveDeclaration) : Outcome Cause Session :=
  match s.score.active with
  | none => s.addStave d
  | some _ => .done ((s.closeBends true).onActive Stave.closeVoice)

/-- Starts a new measure for the spelling. -/
def resetMemory (s : Session) : Outcome Cause Session :=
  s.memory.reset.mapState fun memory => { s with memory := memory }

/-- Adds a bar line. -/
def addBar (s : Session) (type : BarType) : Outcome Cause Session :=
  (s.closeBends true).resetMemory.andThen fun s =>
    s.withStave fun _ => .done (s.onActive (·.push (.bar type) (.bar type)))

/-- The fret on the lowest string of the standard tuning that gives the height of a rest. -/
def restFret? (position : Int) : Option Nat :=
  let fret := (position + 5) * 2
  if fits32 (position + 5) && fits32 fret && 0 ≤ fret then some fret.toNat else none

/-- The height of a rest: the middle line, or a number of steps from it. -/
def restKey (s : Session) (position : Int) : Except Cause Pitch :=
  if position = 0 then .ok ⟨.natural .b, 4⟩
  else match restFret? position with
    | some fret => s.tuning.pitchAt fret 6
    | none => .error (.badRestPosition position)

/-- A rest as a note on a staff. -/
def restNote (s : Session) (key : Pitch) : Tickable :=
  .staff
    { keys := [key]
      duration := s.duration
      rest := true
      clef := .treble
      autoStem := false
      playNotes := []
      multiplier := 1
      modifiers := [] }

/-- A rest on tablature: drawn if there are stems, otherwise empty space. -/
def tabRest (s : Session) (key : Pitch) : Tickable :=
  if s.settings.tabStems then s.restNote key else .spacer s.duration 1

/-- Adds a rest. -/
def addRest (s : Session) (position : Int) : Outcome Cause Session :=
  let s := s.closeBends true
  .needing (s.restKey position) s fun key =>
    s.withStave fun _ => .done (s.onActive (·.push (s.tabRest key) (s.restNote key)))

end Session

end Tablature
