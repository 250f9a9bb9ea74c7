/-
# Tablature.Session.Chord — chords and single notes.

The entries of a chord fall into *runs*: a run starts at the first entry, at every pitch letter
and wherever the string changes. The entries of a run follow each other in time, so the chord
becomes as many slots as its longest run has entries, and the slot at a place holds the entries at
that place of their runs. All entries are resolved before anything is written.
-/
import Tablature.Session.Articulate
import Tablature.Session.Resolve

namespace Tablature

/-- An entry of a chord, resolved. -/
structure ResolvedEntry where
  position : TabPosition
  /-- The pitch as it is engraved. -/
  key : Pitch
  playNote : Pitch
  mark : Option AccidentalMark
  articulation : Option Articulation
  decorator : Option Decorator
  duration : Option Duration
  deriving DecidableEq, Repr

namespace ResolvedEntry

/-- The duration that an entry states. -/
def readDuration (e : NoteEntry) : Except Cause (Option Duration) :=
  match e.time with
  | some time => (Duration.read time e.dot).map some
  | none => .ok none

/-- An entry with its pitches and its duration. -/
def ofBinding (e : NoteEntry) (b : Binding) (duration : Option Duration) : ResolvedEntry :=
  { position := ⟨b.fret, e.string.getD 0⟩
    key := b.key
    playNote := b.playNote
    mark := b.mark
    articulation := e.articulation
    decorator := e.decorator
    duration }

/-- Resolves an entry: first its pitch, then its duration. -/
def resolve (r : Resolver) (m : SpellingMemory) (e : NoteEntry) : Attempt ResolvedEntry :=
  match r.entry m e with
  | (m, .error cause) => (m, .error cause)
  | (m, .ok binding) => (m, (readDuration e).map (ofBinding e binding))

/-- Resolves entries one after the other, up to the first that cannot be. -/
def resolveAll (r : Resolver) (m : SpellingMemory) :
    List NoteEntry → Attempt (List ResolvedEntry)
  | [] => (m, .ok [])
  | e :: entries =>
      match resolve r m e with
      | (m, .error cause) => (m, .error cause)
      | (m, .ok first) =>
          match resolveAll r m entries with
          | (m, .error cause) => (m, .error cause)
          | (m, .ok rest) => (m, .ok (first :: rest))

end ResolvedEntry

namespace Chord

/-- The place of each entry in its run. `string` is the string of the run so far and `next` the
place after its last entry. -/
def places (string : Option Nat) (next : Nat) : List NoteEntry → List Nat
  | [] => []
  | e :: entries =>
      let place := if e.letterPitch.isSome || e.string != string then 0 else next
      place :: places e.string (place + 1) entries

/-- The place of each entry of a chord in its run. -/
def placesOf : List NoteEntry → List Nat
  | [] => []
  | e :: entries => places e.string 0 (e :: entries)

/-- The entries at one place of their runs, in the order of the chord. -/
def entriesAt (place : Nat) (entries : List (Nat × ResolvedEntry)) : List ResolvedEntry :=
  (entries.filter (·.1 == place)).map (·.2)

/-- The entries of each slot of a chord. -/
def slots (places : List Nat) (entries : List ResolvedEntry) : List (List ResolvedEntry) :=
  let count := places.foldl (fun count place => max count (place + 1)) 0
  (List.range count).map fun place => entriesAt place (places.zip entries)

/-- The accidental marks of the entries of a slot, counted from `start`. -/
def accidentalMarks : List ResolvedEntry → (start : Nat) → List Attached
  | [], _ => []
  | e :: entries, start =>
      match e.mark with
      | some mark =>
          ⟨start, .accidental mark.accidental mark.cautionary⟩
            :: accidentalMarks entries (start + 1)
      | none => accidentalMarks entries (start + 1)

/-- The last of some optional values that is there. -/
def lastSome {α : Type} (values : List (Option α)) : Option α := (values.filterMap id).getLast?

end Chord

namespace Session

/-- The duration of the slot of some entries: the one that its last entry states, or else the one in
force. -/
def slotDuration (s : Session) (entries : List ResolvedEntry) : Duration :=
  ((entries.getLast?).bind (·.duration)).getD s.duration

/-- The slot of some entries on tablature. -/
def tabNote (s : Session) (entries : List ResolvedEntry) : TabNote :=
  { positions := entries.map (·.position)
    duration := s.slotDuration entries
    playNotes := entries.map (·.playNote)
    stem := s.settings.tabStems
    ghost := false
    multiplier := 1
    modifiers := [] }

/-- The slot of some entries on a staff. -/
def staffNote (s : Session) (entries : List ResolvedEntry) : StaffNote :=
  { keys := entries.map (·.key)
    duration := s.slotDuration entries
    rest := false
    clef := s.clef
    autoStem := true
    playNotes := entries.map (·.playNote)
    multiplier := 1
    modifiers := Chord.accidentalMarks entries 0 }

/-- Applies a decoration if there is one. -/
def decorateWith (s : Session) : Option Decorator → Session
  | some decorator => s.decorate decorator
  | none => s

/-- Writes one slot with its articulations and its decoration. -/
def emit (s : Session) (entries : List ResolvedEntry) : Session :=
  let s := s.onActive (·.push (.tab (s.tabNote entries)) (.staff (s.staffNote entries)))
  let s := s.applyTags (entries.map (·.articulation))
  s.decorateWith (Chord.lastSome (entries.map (·.decorator)))

/-- Applies a tag to every position of the last slot, as a chord with so many entries states it. -/
def applyChordTag (s : Session) (size : Nat) : Option Articulation → Session
  | some tag => s.applyTags (List.replicate size (some tag))
  | none => s

/-- Writes a chord whose entries are resolved. -/
def writeChord (s : Session) (chord : List NoteEntry) (entries : List ResolvedEntry)
    (articulation : Option Articulation) (decorator : Option Decorator) : Session :=
  let s := (Chord.slots (Chord.placesOf chord) entries).foldl emit s
  (s.applyChordTag chord.length articulation).decorateWith decorator

/-- Adds a chord. A chord without entries is nothing. -/
def addChord (s : Session) (chord : List NoteEntry) (articulation : Option Articulation)
    (decorator : Option Decorator) : Outcome Cause Session :=
  if chord.isEmpty then .done s
  else s.withStave fun _ =>
    match ResolvedEntry.resolveAll s.resolver s.memory chord with
    | (memory, .error cause) => .stopped { s with memory := memory } cause
    | (memory, .ok entries) =>
        .done (({ s with memory := memory }).writeChord chord entries articulation decorator)

/-- Adds a single note. -/
def addNote (s : Session) (note : NoteEntry) : Outcome Cause Session := s.addChord [note] none none

end Session

end Tablature
