/-
# Tablature.Session.Bend — bends over several notes.

Consecutive bends form one chain. It is anchored at the note before the first bend, and each bend
adds a transition to the phrase of its position. When the chain is closed, the anchor receives the
phrases and the notes after it that the chain spans are hidden.
-/
import Tablature.Session.Basic

namespace Tablature

namespace BendChain

/-- The phrases with one more transition at a position. -/
def insertStep (index : Nat) (step : BendStep) :
    List (Nat × List BendStep) → List (Nat × List BendStep)
  | [] => [(index, [step])]
  | (other, steps) :: rest =>
      if index < other then (index, [step]) :: (other, steps) :: rest
      else if index = other then (other, steps ++ [step]) :: rest
      else (other, steps) :: insertStep index step rest

/-- The chain with one more transition at a position. -/
def addStep (chain : BendChain) (step : Nat × BendStep) : BendChain :=
  { chain with phrases := insertStep step.1 step.2 chain.phrases }

/-- The fret number at a position of a note, if there is one. -/
def fretAt? (note : TabNote) (index : Nat) : Option Nat :=
  (note.positions[index]?).bind fun position => position.fret.number?

/-- The transition between a position of one note and a position of another, if both have frets. -/
def transition? (first last : TabNote) (source target : Nat) : Option BendStep :=
  match fretAt? first source, fretAt? last target with
  | some start, some stop => some (.between start stop)
  | _, _ => none

/-- The transitions from one note to another at paired positions, each with the position of the
anchor that it belongs to. -/
def transitions (first last : TabNote) : List Nat → List Nat → List Nat → List (Nat × BendStep)
  | anchor :: anchors, source :: sources, target :: targets =>
      match transition? first last source target with
      | some step => (anchor, step) :: transitions first last anchors sources targets
      | none => transitions first last anchors sources targets
  | _, _, _ => []

/-- The marks that the anchor receives. -/
def markAnchor (phrases : List (Nat × List BendStep)) (anchor : Tickable) : Tickable :=
  phrases.foldl (fun anchor phrase => anchor.mark phrase.1 (.bend phrase.2)) anchor

/-- Hides the objects from `start` to `stop`, both included. -/
def hideRange (start stop : Nat) (notes : List Tickable) : List Tickable :=
  notes.mapIdx fun i t => if start ≤ i && i ≤ stop then t.hide else t

/-- The voice on tablature after a chain is closed. With `through`, the last object is hidden too,
otherwise the chain ends before it. -/
def close (chain : BendChain) (through : Bool) (notes : List Tickable) : List Tickable :=
  let stop := notes.length + (if through then 1 else 0) - 2
  hideRange (chain.anchor + 1) stop (notes.modify chain.anchor (markAnchor chain.phrases))

end BendChain

namespace Session

/-- Closes an open chain. -/
def closeBends (s : Session) (through : Bool) : Session :=
  match s.bend with
  | none => s
  | some chain => ({ s with bend := none }).onTabNotes (chain.close through)

/-- The chain to extend: the open one, unless it has no transition yet, or a new one. -/
def openChain (s : Session) (anchor : Nat) (indices : List Nat) : BendChain :=
  match s.bend with
  | some chain => if chain.phrases.isEmpty then ⟨anchor, indices, []⟩ else chain
  | none => ⟨anchor, indices, []⟩

/-- Extends the chain by the bend from an earlier note to the last one, or opens one there. -/
def openBends (s : Session) (earlier : Nat) (firstIndices lastIndices : List Nat) : Session :=
  let chain := s.openChain earlier firstIndices
  match s.tabNotes[earlier]?, s.tabNotes.getLast? with
  | some (.tab first), some (.tab last) =>
      let steps := BendChain.transitions first last chain.indices firstIndices lastIndices
      { s with bend := some (steps.foldl BendChain.addStep chain) }
  | _, _ => { s with bend := some chain }

end Session

end Tablature
