/-
# Tablature.Session.Basic — a score under construction.

A session holds the score and everything that stays in force from one event to the next: the
tuning, the spelling of the measure, the vertical cursor, the duration, the octave shift, the
clef, and a bend that is not finished yet. Events are operations that leave a session in every
case (`Tablature.Outcome`).
-/
import Tablature.Key.Memory
import Tablature.Outcome
import Tablature.Score.Basic

namespace Tablature

/-- A bend that is not finished: the note that it starts at, the positions of that note it was
opened with, and for each position the transitions so far, positions in rising order. -/
structure BendChain where
  anchor : Nat
  indices : List Nat
  phrases : List (Nat × List BendStep)
  deriving DecidableEq, Repr

/-- A score under construction. -/
structure Session where
  setup : PageSetup
  score : Score
  tuning : Tuning
  memory : SpellingMemory
  /-- The top of the next stave. -/
  cursor : Float
  duration : Duration
  octaveShift : Int
  clef : Clef
  bend : Option BendChain
  rendered : Bool

namespace Session

/-- Nothing done yet. -/
def start (setup : PageSetup) : Session :=
  { setup
    score := .empty (.ofPageSetup setup)
    tuning := .standard
    memory := .cMajor
    cursor := setup.y
    duration := .quarter
    octaveShift := 0
    clef := .treble
    bend := none
    rendered := false }

/-- Everything forgotten but the setup. -/
def reset (s : Session) : Session := start s.setup

/-- The settings in force. -/
def settings (s : Session) : Settings := s.score.settings

/-- The session with other settings. -/
def withSettings (s : Session) (settings : Settings) : Session :=
  { s with score := { s.score with settings := settings } }

/-- The session with its active stave changed. -/
def onActive (s : Session) (f : Stave → Stave) : Session := { s with score := s.score.onActive f }

/-- The session with the voice in progress on tablature changed. -/
def onTabNotes (s : Session) (f : List Tickable → List Tickable) : Session :=
  s.onActive fun stave => { stave with tabNotes := f stave.tabNotes }

/-- The session with the voice in progress on the staff changed. -/
def onStaffNotes (s : Session) (f : List Tickable → List Tickable) : Session :=
  s.onActive fun stave => { stave with staffNotes := f stave.staffNotes }

/-- The voice in progress on tablature, empty without a stave. -/
def tabNotes (s : Session) : List Tickable := (s.score.active.map Stave.tabNotes).getD []

/-- The voice in progress on the staff, empty without a stave. -/
def staffNotes (s : Session) : List Tickable := (s.score.active.map Stave.staffNotes).getD []

/-- An operation on the active stave; without a stave it does nothing and says so. -/
def withStave (s : Session) (next : Stave → Outcome Cause Session) : Outcome Cause Session :=
  match s.score.active with
  | some stave => next stave
  | none => .stopped s .noStave

/-- The address of an object of the voice in progress on tablature. -/
def tabAddress (s : Session) (stave : Stave) (index : Nat) : NoteRef :=
  { stave := s.score.earlier.length, voice := stave.tabVoices.length, index }

/-- The address of an object of the voice in progress on the staff. -/
def staffAddress (s : Session) (stave : Stave) (index : Nat) : NoteRef :=
  { stave := s.score.earlier.length, voice := stave.staffVoices.length, index }

/-- The font for texts. -/
def captionFont (s : Session) : Font :=
  { family := s.settings.fontFace, size := s.settings.fontSize, style := s.settings.fontStyle }

/-- A mark on tablature at the last object. -/
def markLastTab (s : Session) (index : Nat) (modifier : Modifier) : Session :=
  s.onTabNotes fun notes => notes.modify (notes.length - 1) (Tickable.mark index modifier)

/-- A mark on the staff at the last object. -/
def markLastStaff (s : Session) (index : Nat) (modifier : Modifier) : Session :=
  s.onStaffNotes fun notes => notes.modify (notes.length - 1) (Tickable.mark index modifier)

/-- Changes the duration in force. -/
def setDuration (s : Session) (time : String) (dot : Bool) : Outcome Cause Session :=
  .needing (Duration.read time dot) s fun duration => .done { s with duration := duration }

/-- One option of the score. -/
def setOption (entry : String × String) (s : Session) : Outcome Cause Session :=
  .needing (s.settings.set entry.1 entry.2) s fun settings => .done (s.withSettings settings)

/-- The room that the controls of a player take. -/
def playerSpace : Float := 15.0

/-- The cursor moved by the space that the settings ask for. -/
def addSpace (s : Session) : Session :=
  let moved := s.cursor + s.settings.space
  let cursor := if s.settings.player then moved + playerSpace else moved
  { s with cursor := cursor, score := { s.score with height := cursor } }

/-- Sets options one after the other, up to the first that is wrong. Only when all are right is
space added below. -/
def setOptions (s : Session) (entries : List (String × String)) : Outcome Cause Session :=
  (Outcome.forEach setOption entries s).andThen fun s => .done s.addSpace

/-- A command line of the session: the octave shift. -/
def runCommand (s : Session) (line : String) : Outcome Cause Session :=
  let text := line.toList
  let command := Text.firstWord text
  if command = "octave-shift".toList then
    let argument := Text.firstWord (Text.afterFirstWord text)
    match Text.Numeral.readInt32 argument with
    | some shift => .done { s with octaveShift := shift }
    | none => .stopped s (.badOctaveShift (String.ofList argument))
  else .stopped s (.unknownCommand (String.ofList command))

end Session

end Tablature
