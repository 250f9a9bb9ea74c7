/-
# Tablature.Proofs.Steps — what a session can do, said once.

Every operation of a session, carried out or refused, is a sequence of *steps*: a quiet change that
no voice shows, a change of the active stave, the end of a bend, a new link, a new stave, the finish
of all staves, or the return to the start. `StaveStep` lists the changes of a stave, `Step` the
changes of a session, and `steps_handle` and `steps_compile` say that events and directives are made
of them. What every step keeps therefore holds of every session that can ever be seen
(`follow_induction`), and an invariant never has to look into an operation again.
-/
import Mathlib.Logic.Relation
import Mathlib.Data.List.Forall2
import Tablature.Compile
import Tablature.Session.Event

namespace Tablature

open Relation (ReflTransGen)

/-! ## Marks -/

namespace Modifier

/-- Marks that go to any note of any view. -/
def isPlain : Modifier → Bool
  | vibrato _ | articulation _ _ | caption _ | stroke _ => true
  | _ => false

/-- Marks that name a finger or a string for one key. -/
def isFingerMark : Modifier → Bool
  | fingering _ _ | stringNumber _ _ => true
  | _ => false

end Modifier

/-- The marks that are written on tablature, bends apart: plain ones at the first position. -/
def TabAllows (_ : Tickable) (index : Nat) (m : Modifier) : Prop := index = 0 ∧ m.isPlain

/-- The marks that are written on a staff after the note: plain ones at the first key, and finger
marks at a key that the note has. -/
def StaffAllows (t : Tickable) (index : Nat) (m : Modifier) : Prop :=
  (index = 0 ∧ m.isPlain) ∨ (index < t.keyCount ∧ m.isFingerMark)

/-- An object after some marks, each of them allowed when it was written. -/
inductive Marks (allows : Tickable → Nat → Modifier → Prop) (t : Tickable) : Tickable → Prop
  | refl : Marks allows t t
  | add {u : Tickable} {index : Nat} {m : Modifier} :
      Marks allows t u → allows u index m → Marks allows t (u.mark index m)

/-! ## Steps of a stave -/

/-- One change of the active stave. A change that ends a measure or a voice needs that no bend is
open, which is what `idle` stands for. -/
inductive StaveStep (idle : Prop) : Stave → Stave → Prop
  | texts (s : Stave) (voices : List (List TextNote)) :
      StaveStep idle s { s with textVoices := voices }
  | bar (s : Stave) (type : BarType) (h : idle) :
      StaveStep idle s (s.push (.bar type) (.bar type))
  | rest (s : Stave) (session : Session) (key : Pitch) (h : idle) :
      StaveStep idle s (s.push (session.tabRest key) (session.restNote key))
  | note (s : Stave) (session : Session) (entries : List ResolvedEntry) (h : entries ≠ []) :
      StaveStep idle s
        (s.push (.tab (session.tabNote entries)) (.staff (session.staffNote entries)))
  | markTab (s : Stave) {notes : List Tickable}
      (h : List.Forall₂ (Marks TabAllows) s.tabNotes notes) :
      StaveStep idle s { s with tabNotes := notes }
  | markStaff (s : Stave) {notes : List Tickable}
      (h : List.Forall₂ (Marks StaffAllows) s.staffNotes notes) :
      StaveStep idle s { s with staffNotes := notes }
  | scale (s : Stave) (count : Nat) (factor : Ticks) (h : count ≤ Session.tupletRoom s)
      (hfactor : 0 < factor) :
      StaveStep idle s
        { s with
          tabNotes := Session.scaleLast count factor s.tabNotes
          staffNotes := Session.scaleLast count factor s.staffNotes }
  | closeChain (s : Stave) (chain : BendChain) (through : Bool) :
      StaveStep idle s { s with tabNotes := chain.close through s.tabNotes }
  | closeVoice (s : Stave) (h : idle) : StaveStep idle s s.closeVoice
  | finish (s : Stave) (h : idle) : StaveStep idle s s.finish

/-! ## Steps of a session -/

/-- A change that touches no stave, no link and no open bend. -/
structure Quiet (s t : Session) : Prop where
  setup : t.setup = s.setup
  earlier : t.score.earlier = s.score.earlier
  active : t.score.active = s.score.active
  tabLinks : t.score.tabLinks = s.score.tabLinks
  staffLinks : t.score.staffLinks = s.score.staffLinks
  bend : t.bend = s.bend

/-- How a link on tablature comes from a span. -/
inductive TabLink.Draws (link : Link) : TabLink → Prop
  | slide : Draws link (.slide link)
  | tie (label : String) : Draws link (.tie link label)

/-- One change of a session. -/
inductive Step : Session → Session → Prop
  | quiet {s t : Session} (h : Quiet s t) : Step s t
  | stave {s : Session} {a b : Stave} (ha : s.score.active = some a)
      (h : StaveStep (s.bend = none) a b) :
      Step s { s with score := { s.score with active := some b } }
  | openStave (s : Session) (tab : Option TabView) (staff : Option StaffView)
      (beamGroups : List BeamGroup) (h : s.bend = none) :
      Step s { s with score := s.score.addStave (.blank tab staff beamGroups) }
  | closeBends (s : Session) (through : Bool) : Step s (s.closeBends through)
  | openBends (s : Session) {indices : List Nat} {span : Span}
      (hspan : Span.ofNotes? s.tabNotes indices = some span) (hne : span.isEmpty = false) :
      Step s (s.openBends span.previous span.previousIndices span.currentIndices)
  | linkTab {s : Session} {a : Stave} {indices : List Nat} {span : Span} {link : TabLink}
      (ha : s.score.active = some a) (hspan : Span.ofNotes? a.tabNotes indices = some span)
      (hne : span.isEmpty = false) (hlink : TabLink.Draws (s.tabLinkOf a span) link) :
      Step s (s.addTabLink link)
  | linkStaff {s : Session} {a : Stave} {indices : List Nat} {span : Span}
      (ha : s.score.active = some a) (hspan : Span.ofNotes? a.tabNotes indices = some span)
      (hne : span.isEmpty = false) (hstaff : a.staff.isSome) :
      Step s (s.addStaffLink (.tie (s.staffLinkOf a span)))
  | bracketTab {s : Session} {a : Stave} (ha : s.score.active = some a) (tuplets count : Nat)
      (h : count ≤ Session.tupletRoom a) :
      Step s (s.addTabLink (.tuplet (s.tabTuplet a tuplets count)))
  | bracketStaff {s : Session} {a : Stave} (ha : s.score.active = some a) (tuplets count : Nat)
      (h : count ≤ Session.tupletRoom a) (hstaff : a.staff.isSome) :
      Step s (s.addStaffLink (.tuplet (s.staffTuplet a tuplets count)))
  | finish (s : Session) (h : s.bend = none) :
      Step s { s with score := s.score.onEvery Stave.finish }
  | reset (s : Session) : Step s s.reset

/-- A sequence of steps. -/
def Steps (s t : Session) : Prop := ReflTransGen Step s t

namespace Steps

theorem refl (s : Session) : Steps s s := ReflTransGen.refl

theorem trans {s t u : Session} (h : Steps s t) (h' : Steps t u) : Steps s u :=
  ReflTransGen.trans h h'

theorem step {s t : Session} (h : Step s t) : Steps s t := ReflTransGen.single h

theorem quiet {s t : Session} (h : Quiet s t) : Steps s t := step (.quiet h)

/-- What every step keeps is kept by a sequence of steps. -/
theorem keeps {P : Session → Prop} (each : ∀ {s t}, Step s t → P s → P t) {s t : Session}
    (h : Steps s t) (hs : P s) : P t := by
  induction h with
  | refl => exact hs
  | tail _ hstep ih => exact each hstep ih

end Steps

/-! ## The active stave -/

namespace Session

variable {s : Session}

theorem onActive_eq {a : Stave} (ha : s.score.active = some a) (f : Stave → Stave) :
    s.onActive f = { s with score := { s.score with active := some (f a) } } := by
  simp [onActive, Score.onActive, ha]

theorem onActive_eq_self (ha : s.score.active = none) (f : Stave → Stave) : s.onActive f = s := by
  obtain ⟨setup, score, _⟩ := s
  cases score
  cases ha
  rfl

theorem onTabNotes_eq {a : Stave} (ha : s.score.active = some a)
    (f : List Tickable → List Tickable) :
    s.onTabNotes f =
      { s with score := { s.score with active := some { a with tabNotes := f a.tabNotes } } } :=
  onActive_eq ha _

theorem tabNotes_eq {a : Stave} (ha : s.score.active = some a) : s.tabNotes = a.tabNotes := by
  simp [tabNotes, ha]

theorem staffNotes_eq {a : Stave} (ha : s.score.active = some a) : s.staffNotes = a.staffNotes := by
  simp [staffNotes, ha]

@[simp] theorem bend_closeBends (through : Bool) : (s.closeBends through).bend = none := by
  unfold closeBends
  split
  · assumption
  · rfl

/-- A bend that is opened is remembered by the session; the score does not know of it. -/
theorem score_openBends (earlier : Nat) (firstIndices lastIndices : List Nat) :
    (s.openBends earlier firstIndices lastIndices).score = s.score := by
  unfold openBends
  dsimp only
  split <;> rfl

end Session

end Tablature
