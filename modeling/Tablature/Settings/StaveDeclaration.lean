/-
# Tablature.Settings.StaveDeclaration — the options of a stave or a voice.

A declaration starts from the defaults of its kind; each option changes one field. At the end at
least one of the two views must be visible; a declaration that hides both is reported at the last
option on visibility.
-/
import Tablature.Directive.Basic
import Tablature.Key.Signature
import Tablature.Meter

namespace Tablature

/-- A clef. -/
inductive Clef
  | treble
  | bass
  | tenor
  | alto
  | percussion
  deriving DecidableEq, Repr

namespace Clef

/-- The clefs. -/
def all : List Clef := [treble, bass, tenor, alto, percussion]

/-- The name of a clef. -/
def name : Clef → String
  | treble => "treble"
  | bass => "bass"
  | tenor => "tenor"
  | alto => "alto"
  | percussion => "percussion"

end Clef

/-- Where a voice is placed. -/
inductive VoicePlacement
  | top
  | bottom
  | new
  deriving DecidableEq, Repr

/-- The name of a placement. -/
def VoicePlacement.name : VoicePlacement → String
  | top => "top"
  | bottom => "bottom"
  | new => "new"

/-- What declares a stave; it decides which views are visible by default. -/
inductive StaveKind
  /-- A stave of notes only. -/
  | staff
  /-- A stave of tablature only. -/
  | tablature
  /-- A voice before any stave: both views. -/
  | implicit
  deriving DecidableEq, Repr

/-- A stave or voice as it is declared. No clef means that none is drawn. -/
structure StaveDeclaration where
  staff : Bool
  tablature : Bool
  tuning : Tuning
  clef : Option Clef
  key : String
  time : Option TimeSignature
  strings : Nat
  placement : Option VoicePlacement
  deriving DecidableEq, Repr

/-- One option of a declaration with its value read. -/
inductive StaveOption
  | staff (visible : Bool)
  | tablature (visible : Bool)
  | tuning (value : Tuning)
  | clef (value : Option Clef)
  | key (value : String)
  | time (value : TimeSignature)
  | strings (value : Nat)
  | placement (value : VoicePlacement)
  deriving DecidableEq, Repr

namespace StaveOption

/-- Reads whether a view is visible. -/
def readVisibility (key value : String) (option : Bool → StaveOption) : Except Cause StaveOption :=
  if value = "true" then .ok (option true)
  else if value = "false" then .ok (option false)
  else .error (.visibilityNotTruth key)

/-- Reads a key that a stave may declare. -/
def readKey (value : String) : Except Cause StaveOption :=
  if isKnownKey value then .ok (.key value) else .error (.unknownKeySignature value)

/-- Reads a clef, or `none`. -/
def readClef (value : String) : Except Cause StaveOption :=
  if value = "none" then .ok (.clef none)
  else match Clef.all.find? (·.name == value) with
    | some c => .ok (.clef (some c))
    | none => .error .unknownClef

/-- Reads where a voice is placed. -/
def readPlacement (value : String) : Except Cause StaveOption :=
  if value = "top" then .ok (.placement .top)
  else if value = "bottom" then .ok (.placement .bottom)
  else if value = "new" then .ok (.placement .new)
  else .error .unknownVoicePlacement

/-- Reads the number of strings, four to eight. -/
def readStrings (value : String) : Except Cause StaveOption :=
  match Text.Numeral.readNat32 (Text.trim value.toList) with
  | none => .error (.badStringCount value)
  | some n =>
      if 4 ≤ n ∧ n ≤ 8 then .ok (.strings n)
      else .error (.badStringCount (Text.Numeral.natText n))

/-- Reads an option of a declaration. -/
def read (key value : String) : Except Cause StaveOption :=
  match key with
  | "notation" => readVisibility key value .staff
  | "tablature" => readVisibility key value .tablature
  | "key" => readKey value
  | "clef" => readClef value
  | "voice" => readPlacement value
  | "time" => (TimeSignature.read value).map .time
  | "tuning" => (Tuning.read value).map .tuning
  | "strings" => readStrings value
  | _ => .error (.unknownOption key)

/-- Does the option decide which views are visible? -/
def isVisibility : StaveOption → Bool
  | staff _ | tablature _ => true
  | _ => false

end StaveOption

namespace StaveDeclaration

/-- The defaults of a kind of declaration. -/
def defaults (kind : StaveKind) : StaveDeclaration :=
  { staff := kind != .tablature
    tablature := kind != .staff
    tuning := .standard
    clef := some .treble
    key := "C"
    time := none
    strings := 6
    placement := none }

/-- The declaration with one option changed. -/
def assign (d : StaveDeclaration) : StaveOption → StaveDeclaration
  | .staff visible => { d with staff := visible }
  | .tablature visible => { d with tablature := visible }
  | .tuning value => { d with tuning := value }
  | .clef value => { d with clef := value }
  | .key value => { d with key := value }
  | .time value => { d with time := some value }
  | .strings value => { d with strings := value }
  | .placement value => { d with placement := some value }

/-- Is at least one view visible? -/
def isVisible (d : StaveDeclaration) : Bool := d.staff || d.tablature

/-- The options of a list read one after the other, with the entries they came from. -/
def readOptions : List OptionEntry → Except Fault (List (OptionEntry × StaveOption))
  | [] => .ok []
  | entry :: entries =>
      match StaveOption.read entry.key entry.value with
      | .error cause => .error ((Located.nowhere cause).within entry.line entry.column)
      | .ok option => (readOptions entries).map ((entry, option) :: ·)

/-- A fault about visibility, at the last option that decides it. -/
def invisible (options : List (OptionEntry × StaveOption)) : Fault :=
  let fault := Located.nowhere .nothingVisible
  match options.reverse.find? (·.2.isVisibility) with
  | some (entry, _) => fault.within entry.line entry.column
  | none => fault

/-- The declaration of a kind with a list of options. -/
def ofOptions (kind : StaveKind) (entries : List OptionEntry) : Except Fault StaveDeclaration :=
  match readOptions entries with
  | .error fault => .error fault
  | .ok options =>
      let declaration := (options.map (·.2)).foldl assign (defaults kind)
      if declaration.isVisible then .ok declaration else .error (invisible options)

end StaveDeclaration

end Tablature
