/-
# Tablature.Score.Basic — scores and the links between their notes.

A score is a list of staves, of which the last one is active: notes are added to it. Links join
notes by their addresses, a stave, a voice and a slot, so that they stay valid while the score
grows.
-/
import Tablature.Score.Stave

namespace Tablature

/-- The address of a note. -/
structure NoteRef where
  stave : Nat
  voice : Nat
  index : Nat
  deriving DecidableEq, Repr

/-- Two notes connected at some of their positions. -/
structure Link where
  first : NoteRef
  last : NoteRef
  firstIndices : List Nat
  lastIndices : List Nat
  deriving DecidableEq, Repr

/-- A bracket over neighbouring notes. -/
structure Tuplet where
  notes : List NoteRef
  count : Nat
  occupied : Nat
  deriving DecidableEq, Repr

/-- A link drawn on tablature. The label of a tie is `H`, `P` or a blank. -/
inductive TabLink
  | slide (link : Link)
  | tie (link : Link) (label : String)
  | tuplet (tuplet : Tuplet)
  deriving DecidableEq, Repr

/-- A link drawn on a staff. -/
inductive StaffLink
  | tie (link : Link)
  | tuplet (tuplet : Tuplet)
  deriving DecidableEq, Repr

/-- A score. -/
structure Score where
  settings : Settings
  /-- The staves before the active one. -/
  earlier : List Stave
  /-- The stave that notes are added to. -/
  active : Option Stave
  tabLinks : List TabLink
  staffLinks : List StaffLink
  /-- The height that the staves take so far. -/
  height : Float

namespace Score

/-- A score without staves. -/
def empty (settings : Settings) : Score :=
  { settings, earlier := [], active := none, tabLinks := [], staffLinks := [], height := 0.0 }

/-- All staves in order. -/
def staves (s : Score) : List Stave := s.earlier ++ s.active.toList

/-- The object on tablature at an address. -/
def tabNote? (s : Score) (address : NoteRef) : Option Tickable :=
  ((s.staves[address.stave]?).bind (·.tabVoice? address.voice)).bind (·[address.index]?)

/-- The object on a staff at an address. -/
def staffNote? (s : Score) (address : NoteRef) : Option Tickable :=
  ((s.staves[address.stave]?).bind (·.staffVoice? address.voice)).bind (·[address.index]?)

/-- The score with its active stave changed. -/
def onActive (s : Score) (f : Stave → Stave) : Score := { s with active := s.active.map f }

/-- The score with a new active stave. -/
def addStave (s : Score) (stave : Stave) : Score :=
  { s with earlier := s.staves, active := some stave }

/-- The score with every stave changed. -/
def onEvery (s : Score) (f : Stave → Stave) : Score :=
  { s with earlier := s.earlier.map f, active := s.active.map f }

theorem staves_onEvery (s : Score) (f : Stave → Stave) : (s.onEvery f).staves = s.staves.map f := by
  cases h : s.active <;> simp [staves, onEvery, h]

end Score

end Tablature
