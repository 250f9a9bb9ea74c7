/-
# Tablature.Schedule — what is played when.

Staves are played one after the other. Within a stave all voices start together, and the stave
lasts as long as its longest voice. Every object that takes time becomes a note at its exact tick;
notes at the same tick form a group, in the order of staves, voices and slots.
-/
import Tablature.Json.Value
import Tablature.Score.Basic

namespace Tablature

/-- What one object sounds: General MIDI keys, none for a rest. -/
structure ScheduledNote where
  midiKeys : List Nat
  /-- How long it lasts. -/
  ticks : Ticks
  rest : Bool
  deriving DecidableEq

/-- Everything that starts at one tick. -/
structure TickGroup where
  tick : Ticks
  notes : List ScheduledNote
  deriving DecidableEq

/-- The notes of a score in time. -/
structure Timetable where
  events : List TickGroup
  total : Ticks
  deriving DecidableEq

namespace ScheduledNote

/-- What an object of a voice sounds. -/
def of (t : Tickable) : ScheduledNote :=
  { midiKeys := t.playNotes.filterMap Pitch.midiKey?, ticks := t.ticks, rest := t.isRest }

end ScheduledNote

namespace TickGroup

/-- The groups, ticks rising, with one more note. -/
def insert (tick : Ticks) (note : ScheduledNote) : List TickGroup → List TickGroup
  | [] => [⟨tick, [note]⟩]
  | group :: groups =>
      if tick < group.tick then ⟨tick, [note]⟩ :: group :: groups
      else if tick = group.tick then ⟨tick, group.notes ++ [note]⟩ :: groups
      else group :: insert tick note groups

end TickGroup

namespace Timetable

/-- Nothing played yet. -/
def empty : Timetable := ⟨[], 0⟩

/-- The groups with the notes of a voice that is at the tick `now`. -/
def addVoice (now : Ticks) (groups : List TickGroup) : List Tickable → List TickGroup
  | [] => groups
  | t :: voice =>
      if t.ignoresTicks then addVoice now groups voice
      else addVoice (now + t.ticks) (TickGroup.insert now (.of t) groups) voice

/-- How long the longest of some voices lasts. -/
def longest (voices : List (List Tickable)) : Ticks :=
  voices.foldl (fun longest voice => longest.longer (voiceTicks voice)) 0

/-- The timetable with one more stave at its end. -/
def addStave (t : Timetable) (voices : List (List Tickable)) : Timetable :=
  { events := voices.foldl (addVoice t.total) t.events
    total := t.total + longest voices }

/-- The timetable of the played voices of each stave. -/
def build (staves : List (List (List Tickable))) : Timetable := staves.foldl addStave empty

end Timetable

/-! ## Tempo -/

/-- Ticks in a minute, at so many quarter notes a minute. -/
def ticksPerMinute (tempo : Nat) : Ticks := ((max tempo 1 * ticksPerWhole / 4 : Nat) : Ticks)

/-- A quotient of whole numbers as a double. -/
def ratioToFloat (r : Rat) : Float := Float.ofInt r.num / Float.ofNat r.den

/-- Milliseconds that some ticks take. -/
def milliseconds (tempo : Nat) (t : Ticks) : Float :=
  ratioToFloat (t * 60000 / ticksPerMinute tempo)

/-- A timetable with the tempo and the instrument that it is played with. -/
structure Schedule where
  tempo : Nat
  instrument : Instrument
  timetable : Timetable
  deriving DecidableEq

namespace Schedule

/-- The schedule of some played voices. -/
def build (settings : Settings) (staves : List (List (List Tickable))) : Schedule :=
  { tempo := settings.tempo
    instrument := settings.instrument
    timetable := .build staves }

open Json

/-- Writes a note. -/
def encodeNote (tempo : Nat) (n : ScheduledNote) : Value :=
  .object
    [("midi_keys", .list .nat n.midiKeys), ("duration_ms", .float (milliseconds tempo n.ticks)),
      ("rest", .boolean n.rest)]

/-- Writes a group. -/
def encodeGroup (tempo : Nat) (g : TickGroup) : Value :=
  .object
    [("tick", .float (ratioToFloat g.tick)), ("time_ms", .float (milliseconds tempo g.tick)),
      ("notes", .list (encodeNote tempo) g.notes)]

/-- Writes a schedule. -/
def encode (s : Schedule) : Value :=
  .object
    [("tempo", .nat s.tempo), ("instrument", .string s.instrument.name),
      ("program", .nat s.instrument.program),
      ("events", .list (encodeGroup s.tempo) s.timetable.events),
      ("total_ticks", .float (ratioToFloat s.timetable.total)),
      ("total_ms", .float (milliseconds s.tempo s.timetable.total))]

end Schedule

end Tablature
