/-
# Tablature.Fault — what can go wrong, and where.

A `Cause` is one way in which directives can be wrong; its kind and its wording are functions of
it, so that rules are stated about causes and texts are written in one place. A cause is found
deep inside a directive, where no position is known; `Located` adds the position on the way out,
and the innermost position that is known stays.
-/
import Tablature.Text.Numeral

namespace Tablature

/-! ## Positions -/

/-- A position in the text that the directives came from. -/
structure Location where
  line : Nat
  column : Nat
  deriving DecidableEq, Repr

/-- Something found, with the position it was found at if one is known. -/
structure Located (α : Type) where
  value : α
  location : Option Location
  deriving DecidableEq, Repr

namespace Located

variable {α : Type}

/-- Found at no known position. -/
def nowhere (value : α) : Located α := ⟨value, none⟩

/-- Gives a position unless one is known already. -/
def placedAt (x : Located α) (line column : Nat) : Located α :=
  match x.location with
  | some _ => x
  | none => { x with location := some ⟨line, column⟩ }

/-- Gives the position of a record, which counts only if the record has a line; a missing column is
zero. -/
def within (x : Located α) (line column : Option Nat) : Located α :=
  match line with
  | some line => x.placedAt line (column.getD 0)
  | none => x

@[simp] theorem placedAt_of_some {x : Located α} {here : Location} (h : x.location = some here)
    (line column : Nat) : x.placedAt line column = x := by
  simp [placedAt, h]

@[simp] theorem within_none (x : Located α) (column : Option Nat) : x.within none column = x := rfl

@[simp] theorem value_within (x : Located α) (line column : Option Nat) :
    (x.within line column).value = x.value := by
  obtain ⟨value, _ | here⟩ := x <;> cases line <;> rfl

end Located

/-! ## Causes -/

/-- The class of a fault. -/
inductive FaultKind
  /-- An option that is unknown or has a value it cannot have. -/
  | config
  /-- An unknown directive or command, or an element out of place. -/
  | structural
  /-- A position that cannot be turned into a pitch. -/
  | resolution
  /-- Numbers of things that do not fit together. -/
  | arity
  /-- A duration, an annotation or a setting that is written wrongly. -/
  | malformed
  /-- A directive list that is no directive list at all. -/
  | input
  deriving DecidableEq, Repr

/-- The name of a class of faults. -/
def FaultKind.name : FaultKind → String
  | .config => "Config"
  | .structural => "Structural"
  | .resolution => "Resolution"
  | .arity => "Arity"
  | .malformed => "Syntax"
  | .input => "Input"

/-- The classes, for reading a name back. -/
def FaultKind.all : List FaultKind :=
  [.config, .structural, .resolution, .arity, .malformed, .input]

/-- The class with a given name. -/
def FaultKind.ofName? (name : String) : Option FaultKind :=
  FaultKind.all.find? (·.name == name)

/-- A class of faults together with a wording. -/
structure Report where
  kind : FaultKind
  message : String
  deriving DecidableEq, Repr

/-- One way in which directives can be wrong. -/
inductive Cause
  -- options
  | unknownOption (key : String)
  | badOptionValue (key value : String)
  | unknownInstrument (name : String)
  | visibilityNotTruth (key : String)
  | nothingVisible
  | unknownKeySignature (text : String)
  | unknownClef
  | unknownVoicePlacement
  | badTimeSignature (text : String)
  | badTuning (text : String)
  | badStringCount (text : String)
  | badKey (text : String)
  -- directives and commands out of place
  | unknownKeyword (word : String)
  | unknownCommand (word : String)
  | badParameters (command : String)
  | noStave
  | noTextVoice
  -- pitches
  | badAccidental (text : String)
  | badNoteName (text : String)
  | badPitch (text : String)
  | badPitchOctave (text : String)
  | unrelatedNotes (letter : Char) (value : Int)
  | badFret (text : String)
  | fretOutOfRange (fret : Nat)
  | stringOutOfRange (strings string : Nat)
  | badRestPosition (position : Int)
  | badOctave (string : Nat)
  | octaveOutOfRange (octave shift : Int)
  | missingOctave (note : String)
  | mutedWithoutPitch
  | missingString
  | missingNote
  | badLetter (text : String)
  -- numbers of things
  | badTuplet (tuplet : Nat)
  | tooFewNotesForTuplet
  | tooManyAnnotations
  | noSuchKeyForFinger (token : String)
  -- written forms
  | badDuration (text : String)
  | badFontSize (text : String)
  | badStroke (text : String)
  | badFingering (text : String)
  | badTextSetting (text : String)
  | badOctaveShift (text : String)
  -- the directive list
  | undecodable
  deriving DecidableEq, Repr

namespace Cause

open Text.Numeral

/-- The class of a cause. -/
def kind : Cause → FaultKind
  | unknownOption _ | badOptionValue _ _ | unknownInstrument _ | visibilityNotTruth _
  | nothingVisible | unknownKeySignature _ | unknownClef | unknownVoicePlacement
  | badTimeSignature _ | badTuning _ | badStringCount _ | badKey _ => .config
  | unknownKeyword _ | unknownCommand _ | badParameters _ | noStave | noTextVoice => .structural
  | badAccidental _ | badNoteName _ | badPitch _ | badPitchOctave _ | unrelatedNotes _ _
  | badFret _ | fretOutOfRange _ | stringOutOfRange _ _ | badRestPosition _ | badOctave _
  | octaveOutOfRange _ _ | missingOctave _ | mutedWithoutPitch | missingString | missingNote
  | badLetter _ => .resolution
  | badTuplet _ | tooFewNotesForTuplet | tooManyAnnotations | noSuchKeyForFinger _ => .arity
  | badDuration _ | badFontSize _ | badStroke _ | badFingering _ | badTextSetting _
  | badOctaveShift _ => .malformed
  | undecodable => .input

/-- The wording of a cause. -/
def message : Cause → String
  | unknownOption key => "Invalid option '" ++ key ++ "'"
  | badOptionValue key value => "Invalid value for option '" ++ key ++ "': " ++ value
  | unknownInstrument name => "Invalid instrument: " ++ name
  | visibilityNotTruth key => "'" ++ key ++ "' must be 'true' or 'false'"
  | nothingVisible => "Both 'notation' and 'tablature' can't be invisible"
  | unknownKeySignature text => "Invalid key signature '" ++ text ++ "'"
  | unknownClef => "'clef' must be one of treble, bass, tenor, alto, percussion, none"
  | unknownVoicePlacement => "'voice' must be one of top, bottom, new"
  | badTimeSignature text => "Invalid time signature: '" ++ text ++ "'"
  | badTuning text => "Invalid tuning: '" ++ text ++ "'"
  | badStringCount text => "Invalid number of strings: " ++ text
  | badKey text => "Invalid key: '" ++ text ++ "'"
  | unknownKeyword word => "Invalid keyword '" ++ word ++ "'"
  | unknownCommand word => "Invalid command '" ++ word ++ "'"
  | badParameters command => "Invalid parameters for '" ++ command ++ "'"
  | noStave => "No stave declared before notes"
  | noTextVoice => "Can't add text note without text voice"
  | badAccidental text => "Invalid accidental: '" ++ text ++ "'"
  | badNoteName text => "Invalid note name: '" ++ text ++ "'"
  | badPitch text => "Invalid pitch: '" ++ text ++ "'"
  | badPitchOctave text => "Invalid octave in pitch: '" ++ text ++ "'"
  | unrelatedNotes letter value =>
      "Notes not related: " ++ String.singleton letter ++ ", " ++ intText value
  | badFret text => "Invalid fret number: '" ++ text ++ "'"
  | fretOutOfRange fret => "Invalid fret number: " ++ natText fret
  | stringOutOfRange strings string =>
      "String number must be between 1 and " ++ natText strings ++ ": " ++ natText string
  | badRestPosition position => "Invalid rest position: " ++ intText position
  | badOctave string => "Invalid octave: " ++ natText string
  | octaveOutOfRange octave shift =>
      "Invalid octave: " ++ intText octave ++ " shifted by " ++ intText shift
  | missingOctave note => "No octave for note '" ++ note ++ "'"
  | mutedWithoutPitch => "Muted strings need an explicit pitch"
  | missingString => "No string specified"
  | missingNote => "No note specified"
  | badLetter text => "Invalid note: '" ++ text ++ "'"
  | badTuplet tuplet => "Invalid tuplet: " ++ natText tuplet
  | tooFewNotesForTuplet => "Not enough notes for tuplet"
  | tooManyAnnotations => "More annotations than note elements"
  | noSuchKeyForFinger token => "Bad note number in fingering: " ++ token
  | badDuration text => "Invalid duration: '" ++ text ++ "'"
  | badFontSize text => "Invalid font size: '" ++ text ++ "'"
  | badStroke text => "Invalid stroke type: " ++ text
  | badFingering text => "Bad fingering: " ++ text
  | badTextSetting text => "Invalid text setting: '" ++ text ++ "'"
  | badOctaveShift text => "Invalid octave shift: '" ++ text ++ "'"
  | undecodable => "The directive list could not be decoded"

/-- Class and wording of a cause. -/
def report (c : Cause) : Report := ⟨c.kind, c.message⟩

end Cause

/-- A cause with its position, what every failing operation on directives gives. -/
abbrev Fault := Located Cause

namespace Located

/-- The line shown for a report: class, wording, and the position if one is known. -/
def display (x : Located Report) : String :=
  let place := match x.location with
    | some here =>
        " at line " ++ Text.Numeral.natText here.line ++ " column "
          ++ Text.Numeral.natText here.column
    | none => ""
  x.value.kind.name ++ " error: " ++ x.value.message ++ place

/-- The report of a fault. -/
def report (x : Fault) : Located Report := ⟨x.value.report, x.location⟩

end Located

end Tablature
