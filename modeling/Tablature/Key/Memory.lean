/-
# Tablature.Key.Memory — which spelling is in force.

Within a measure an accidental stays in force. The memory knows, for every letter, the name in
force, and for every pitch class the name it was last given; it also keeps the names that the key
itself gives. Selecting a note spells it against this state: a note in force needs no mark, a
pitch class with a name takes that name, a pitch class of the key returns to the key's name, and
anything else is new. The last two change the state and ask for a mark.
-/
import Tablature.Key.Signature
import Tablature.Outcome

namespace Tablature

/-- A table with one entry changed. -/
def replaceAt {α β : Type} [DecidableEq α] (table : α → β) (place : α) (entry : β) : α → β :=
  fun a => if a = place then entry else table a

@[simp] theorem replaceAt_same {α β : Type} [DecidableEq α] (table : α → β) (place : α)
    (entry : β) : replaceAt table place entry place = entry := by
  simp [replaceAt]

theorem replaceAt_of_ne {α β : Type} [DecidableEq α] (table : α → β) {place a : α} (h : a ≠ place)
    (entry : β) : replaceAt table place entry a = table a := by
  simp [replaceAt, h]

/-- How one note is spelled. -/
structure Selection where
  note : NoteName
  accidental : Option Accidental
  /-- The spelling differs from the one in force, so that a mark is needed. -/
  change : Bool
  deriving DecidableEq, Repr

/-- The spelling in force in a measure. -/
structure SpellingMemory where
  key : String
  /-- The name in force for each letter. -/
  byLetter : Letter → NoteName
  /-- The name in force for each pitch class. -/
  byClass : PitchClass → Option NoteName
  /-- The name that the key gives to each pitch class. -/
  ofKey : PitchClass → Option NoteName

namespace SpellingMemory

/-- The names of a scale by letter. -/
def lettersOf (names : List NoteName) : Letter → NoteName :=
  names.foldl (fun table name => replaceAt table name.letter name) NoteName.natural

/-- The names of a scale by pitch class. -/
def classesOf (names : List NoteName) : PitchClass → Option NoteName :=
  names.foldl (fun table name => replaceAt table name.pitchClass (some name)) fun _ => none

/-- The memory at the start of a measure in a scale. -/
def ofScale (key : String) (names : List NoteName) : SpellingMemory :=
  ⟨key, lettersOf names, classesOf names, classesOf names⟩

/-- C major: every letter natural. -/
def cMajor : SpellingMemory := ofScale "C" (Letter.all.map NoteName.natural)

/-- The memory at the start of a measure in a key. -/
def forKey (key : String) : Except Cause SpellingMemory :=
  match KeySignature.read key with
  | .error cause => .error cause
  | .ok signature =>
      match signature.spelledTones with
      | .error cause => .error cause
      | .ok names => .ok (ofScale key names)

/-- Forgets every alteration. A key that cannot be read leaves the tables as they are. -/
def reset (m : SpellingMemory) : Outcome Cause SpellingMemory :=
  Outcome.needing (forKey m.key) m Outcome.done

/-- Changes the key and forgets every alteration. -/
def setKey (m : SpellingMemory) (key : String) : Outcome Cause SpellingMemory :=
  reset { m with key := key }

/-- The memory after a letter has taken a name: the class of its former name loses its name, the
class of the new one gains it. -/
def assign (m : SpellingMemory) (letter : Letter) (name : NoteName) (place : PitchClass) :
    SpellingMemory :=
  { m with
    byLetter := replaceAt m.byLetter letter name
    byClass :=
      replaceAt (replaceAt m.byClass (m.byLetter letter).pitchClass none) place (some name) }

/-- Spells a note against the names in force. -/
def select (m : SpellingMemory) (n : NoteName) : SpellingMemory × Selection :=
  let note := n.normalized
  if m.byLetter note.letter = note then (m, ⟨note, note.accidental, false⟩)
  else match m.byClass note.pitchClass with
    | some known => (m, ⟨known, known.accidental, false⟩)
    | none =>
        let name := (m.ofKey note.pitchClass).getD note
        (m.assign note.letter name note.pitchClass, ⟨name, name.accidental, true⟩)

/-- A selected name is shown with its own accidental. -/
theorem accidental_select (m : SpellingMemory) (n : NoteName) :
    (m.select n).2.accidental = (m.select n).2.note.accidental := by
  unfold SpellingMemory.select
  dsimp only
  split
  · rfl
  · split <;> rfl

end SpellingMemory

end Tablature
