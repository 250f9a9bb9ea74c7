/-
# Tablature.Session.Event — everything that can happen to a session.

A session is driven by events, one for each of its operations. An event that cannot be carried out
leaves the session as far as it got and says why; the next event then goes on from there. So every
session that can ever be seen is `follow events (start setup)` for some events, and what holds at
the start and is kept by `handle` holds of all of them.
-/
import Tablature.Session.Annotate
import Tablature.Session.Chord
import Tablature.Session.Render
import Tablature.Session.Stave
import Tablature.Session.TextLine

namespace Tablature

/-- One operation of a session with its arguments. -/
inductive Event
  /-- Options of the score, by key and value. -/
  | options (entries : List (String × String))
  | duration (time : String) (dot : Bool)
  | stave (declaration : StaveDeclaration)
  | voice (declaration : StaveDeclaration)
  | bar (type : BarType)
  | rest (position : Int)
  | chord (entries : List NoteEntry) (articulation : Option Articulation)
      (decorator : Option Decorator)
  | note (entry : NoteEntry)
  /-- Articulations of the last slot, one place for each of its positions. -/
  | articulations (tags : List (Option Articulation))
  | decorator (decorator : Decorator)
  | annotations (tokens : List String)
  | tuplet (tuplets : Nat) (notes : Option Nat)
  | command (line : String)
  | textVoice
  | textFont (spec : String)
  | text (text : String) (style : Session.TextStyle)
  /-- A fret is resolved without writing a note; the spelling remembers it. -/
  | fret (fret string : Nat)
  | render
  | reset
  deriving DecidableEq, Repr

namespace Session

/-- What an event does. -/
def handle (s : Session) : Event → Outcome Cause Session
  | .options entries => s.setOptions entries
  | .duration time dot => s.setDuration time dot
  | .stave declaration => s.addStave declaration
  | .voice declaration => s.addVoice declaration
  | .bar type => s.addBar type
  | .rest position => s.addRest position
  | .chord entries articulation decorator => s.addChord entries articulation decorator
  | .note entry => s.addNote entry
  | .articulations tags => s.addArticulations tags
  | .decorator decorator => s.addDecorator decorator
  | .annotations tokens => s.addAnnotations tokens
  | .tuplet tuplets notes => s.makeTuplets tuplets notes
  | .command line => s.runCommand line
  | .textVoice => s.addTextVoice
  | .textFont spec => s.setTextFont spec
  | .text text style => s.addTextNote text style
  | .fret fret string =>
      match s.resolveFret fret string with
      | (after, .ok _) => .done after
      | (after, .error cause) => .stopped after cause
  | .render => .done s.render.1
  | .reset => .done s.reset

/-- The session after some events, whether they were carried out or not. -/
def follow (events : List Event) (s : Session) : Session :=
  events.foldl (fun s event => (s.handle event).state) s

@[simp] theorem follow_nil (s : Session) : follow [] s = s := rfl

@[simp] theorem follow_cons (event : Event) (events : List Event) (s : Session) :
    follow (event :: events) s = follow events (s.handle event).state := rfl

theorem follow_append (before after : List Event) (s : Session) :
    follow (before ++ after) s = follow after (follow before s) := by
  simp [follow]

end Session

end Tablature
