/-
# Tablature.Session.Resolve — from entries to pitches.

An entry is a fret on a string or an explicit pitch letter. A fret gives a pitch through the
tuning, which is spelled against the measure's memory; a letter keeps its own spelling and only
teaches the memory. What is sounded is shifted by octaves; what is engraved is not.
-/
import Tablature.Session.Basic

namespace Tablature

/-- An accidental to draw at a key. A courtesy mark does not alter the pitch. -/
structure AccidentalMark where
  accidental : Accidental
  cautionary : Bool
  deriving DecidableEq, Repr

/-- A resolved position: how it is engraved, what it sounds, its accidental mark and its fret,
muted for a letter without one. -/
structure Binding where
  key : Pitch
  playNote : Pitch
  mark : Option AccidentalMark
  fret : Fret
  deriving DecidableEq, Repr

/-- The mark that a selection asks for. -/
def Selection.mark (s : Selection) : AccidentalStrategy → Option AccidentalMark
  | .standard => if s.change then some ⟨s.accidental.getD .natural, false⟩ else none
  | .cautionary =>
      if s.change then some ⟨s.accidental.getD .natural, false⟩
      else s.accidental.map fun a => ⟨a, true⟩

/-- What does not change while a chord is resolved. -/
structure Resolver where
  tuning : Tuning
  strategy : AccidentalStrategy
  octaveShift : Int
  deriving DecidableEq, Repr

/-- The memory after an attempt, and its result. -/
abbrev Attempt (α : Type) := SpellingMemory × Except Cause α

namespace Resolver

/-- An octave with the shift in force. -/
def shifted (r : Resolver) (octave : Int) : Except Cause Int :=
  if fits32 (octave + r.octaveShift) then .ok (octave + r.octaveShift)
  else .error (.octaveOutOfRange octave r.octaveShift)

/-- The octave of a pitch that is spelled with another letter: octaves begin between B and C. -/
def respelledOctave (octave : Int) (original spelled : Letter) : Int :=
  if original = .c ∧ spelled = .b then octave - 1
  else if original = .b ∧ spelled = .c then octave + 1
  else octave

/-- Resolves a fret on a string. -/
def fret (r : Resolver) (m : SpellingMemory) (fret string : Nat) : Attempt Binding :=
  match r.tuning.pitchAt fret string with
  | .error cause => (m, .error cause)
  | .ok pitch =>
      let (m, selected) := m.select pitch.name
      (m, (r.shifted pitch.octave).map fun octave =>
        { key :=
            ⟨selected.note, respelledOctave pitch.octave pitch.name.letter selected.note.letter⟩
          playNote := ⟨pitch.name, octave⟩
          mark := selected.mark r.strategy
          fret := .number fret })

/-- The accidental of a pitch letter; an empty one is none. -/
def letterAccidental (p : LetterPitch) : Except Cause (Option Accidental) :=
  match p.accidental with
  | none => .ok none
  | some "" => .ok none
  | some symbol => (Accidental.read symbol).map some

/-- The name that a pitch letter stands for. -/
def letterName (p : LetterPitch) : Except Cause NoteName :=
  match (p.key.toList.head?).bind Letter.ofChar? with
  | none => .error (.badLetter p.key)
  | some letter => (letterAccidental p).map fun accidental => ⟨letter, accidental⟩

/-- Resolves a pitch letter in an octave. -/
def letter (r : Resolver) (m : SpellingMemory) (p : LetterPitch) (octave : Int) (fret : Fret) :
    Attempt Binding :=
  match letterName p with
  | .error cause => (m, .error cause)
  | .ok name =>
      ((m.select name).1, (r.shifted octave).map fun shifted =>
        { key := ⟨name.normalized, octave⟩
          playNote := ⟨name.normalized, shifted⟩
          mark := name.accidental.map fun a => ⟨a, p.accidentalType == some "c"⟩
          fret := fret })

/-- The octave of an entry with a pitch letter: its own, or else its string. -/
def letterOctave (entry : NoteEntry) (p : LetterPitch) : Except Cause Int :=
  match entry.octave, entry.string with
  | some octave, _ => .ok octave
  | none, some string => if fits32 string then .ok string else .error (.badOctave string)
  | none, none => .error (.missingOctave p.key)

/-- Resolves an entry. -/
def entry (r : Resolver) (m : SpellingMemory) (e : NoteEntry) : Attempt Binding :=
  match e.letterPitch with
  | some p =>
      match letterOctave e p with
      | .error cause => (m, .error cause)
      | .ok octave => r.letter m p octave (e.fret.getD .muted)
  | none =>
      match e.fret, e.string with
      | some (.number fret), some string => r.fret m fret string
      | some .muted, some _ => (m, .error .mutedWithoutPitch)
      | some _, none => (m, .error .missingString)
      | none, _ => (m, .error .missingNote)

end Resolver

namespace Session

/-- What the session's entries are resolved against. -/
def resolver (s : Session) : Resolver :=
  { tuning := s.tuning, strategy := s.settings.accidentals, octaveShift := s.octaveShift }

/-- Resolves a fret on a string in the session. -/
def resolveFret (s : Session) (fret string : Nat) : Session × Except Cause Binding :=
  let (memory, result) := s.resolver.fret s.memory fret string
  ({ s with memory := memory }, result)

end Session

end Tablature
