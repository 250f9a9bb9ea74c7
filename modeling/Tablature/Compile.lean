/-
# Tablature.Compile — from directives to a score.

Directives are carried out one after the other, up to the first fault. A fault found in an option
or a note element has the position of that record; one found elsewhere, or in a record without a
position, has the position of the directive.
-/
import Tablature.Directive.Decode
import Tablature.Session.Annotate
import Tablature.Session.Chord
import Tablature.Session.Stave
import Tablature.Session.TextLine

namespace Tablature

/-- The outcome of an operation whose fault has no position yet. -/
def Outcome.located {σ : Type} (o : Outcome Cause σ) : Outcome Fault σ := o.mapFault .nowhere

/-- The outcome with the position of a record for a fault that has none. -/
def Outcome.within {σ : Type} (o : Outcome Fault σ) (line column : Option Nat) : Outcome Fault σ :=
  o.mapFault (·.within line column)

namespace Session

/-- The duration of a note element. -/
def applyTime (e : NoteElement) (s : Session) : Outcome Cause Session :=
  match e.time with
  | some time => s.setDuration time e.dot
  | none => .done s

/-- A command with its parameters. -/
def command (word : String) (e : NoteElement) (s : Session) : Outcome Cause Session :=
  match word, e.parameters with
  | "bar", _ => s.addBar (.ofName e.barName)
  | "tuplet", some (.tuplet tuplet notes) => s.makeTuplets tuplet notes
  | "annotations", some (.tokens tokens) => s.addAnnotations tokens
  | "annotations", some (.line token) => s.addAnnotations [token]
  | "rest", some (.rest position) => s.addRest position
  | "command", some (.line line) => s.runCommand line
  | "tuplet", _ | "annotations", _ | "rest", _ | "command", _ => .stopped s (.badParameters word)
  | _, _ => .stopped s (.unknownCommand word)

/-- The command of a note element. -/
def applyCommand (e : NoteElement) (s : Session) : Outcome Cause Session :=
  match e.command with
  | some word => s.command word e
  | none => .done s

/-- The chord of a note element. -/
def applyChord (e : NoteElement) (s : Session) : Outcome Cause Session :=
  match e.chord with
  | some chord => s.addChord chord e.articulation e.decorator
  | none => .done s

/-- The single note of a note element. -/
def applyNote (e : NoteElement) (s : Session) : Outcome Cause Session :=
  match e.singleNote? with
  | some note => s.addNote note
  | none => .done s

/-- A note element: its duration, its command, its chord and its note. -/
def element (e : NoteElement) (s : Session) : Outcome Fault Session :=
  let o := (((s.applyTime e).andThen (applyCommand e)).andThen (applyChord e)).andThen (applyNote e)
  o.located.within e.line e.column

/-- The notes and then the texts of a directive. -/
def body (d : Directive) (s : Session) : Outcome Fault Session :=
  (Outcome.forEach element d.notes s).andThen fun s =>
    if d.text.isEmpty then .done s else (s.addTextLine d.text).located

/-- A directive that opens a stave. -/
def openStave (kind : StaveKind) (d : Directive) (s : Session) : Outcome Fault Session :=
  .needing (StaveDeclaration.ofOptions kind d.options) s fun declaration =>
    (s.addStave declaration).located.andThen (body d)

/-- A directive that opens a voice. -/
def openVoice (d : Directive) (s : Session) : Outcome Fault Session :=
  .needing (StaveDeclaration.ofOptions .implicit d.options) s fun declaration =>
    (s.addVoice declaration).located.andThen (body d)

/-- What a directive does. -/
def perform (d : Directive) (s : Session) : Outcome Fault Session :=
  match d.keyword with
  | "options" => (s.setOptions (d.settings.map fun o => (o.key, o.value))).located
  | "stave" => s.openStave .staff d
  | "tabstave" => s.openStave .tablature d
  | "voice" => s.openVoice d
  | word => .stopped s (.nowhere (.unknownKeyword word))

/-- A directive, its faults with a position. -/
def directive (d : Directive) (s : Session) : Outcome Fault Session :=
  (s.perform d).within d.line d.column

/-- A list of directives. -/
def compile (s : Session) (directives : List Directive) : Outcome Fault Session :=
  .forEach directive directives s

end Session

/-- The session after a list of directives, or the first fault. -/
def compileDirectives (setup : PageSetup) (directives : List Directive) : Except Fault Session :=
  let o := (Session.start setup).compile directives
  match o.fault with
  | some fault => .error fault
  | none => .ok o.state

/-- The session after the directives of a JSON text, or the first fault. -/
def compileWith (setup : PageSetup) (json : String) : Except Fault Session :=
  match Directive.read json with
  | .error fault => .error fault
  | .ok directives => compileDirectives setup directives

end Tablature
