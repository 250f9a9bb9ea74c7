/-
# Tablature.Score.Stave — staves and their voices.

A stave has a tablature view, a staff view or both. Each view has finished voices and one voice in
progress. What happens on a stave is written on tablature in every case, also when there is no
tablature view, because links between notes are resolved there; it is written on the staff only
when the stave has one.
-/
import Tablature.Score.Tickable

namespace Tablature

/-- The distance of the lines of tablature. -/
def tabLineSpacing : Float := 13.0

/-- The distance of the lines of a staff. -/
def staffLineSpacing : Float := 10.0

/-- Place and decoration of a tablature view. -/
structure TabView where
  x : Float
  y : Float
  width : Float
  lines : Nat
  /-- Is the word TAB drawn at the start? -/
  glyph : Bool
  /-- Where notes start when there is no staff above to align with. -/
  noteStart : Option Float
  endBar : Option BarType

/-- The height of a tablature view: its lines and four more. -/
def TabView.height (v : TabView) : Float := (Float.ofNat v.lines + 4.0) * tabLineSpacing

/-- Place and decoration of a staff view. -/
structure StaffView where
  x : Float
  y : Float
  width : Float
  clef : Option Clef
  key : String
  time : Option TimeSignature
  endBar : Option BarType

/-- The height of a staff view: its five lines and four more. -/
def StaffView.height (_ : StaffView) : Float := (5.0 + 4.0) * staffLineSpacing

/-- A stave. -/
structure Stave where
  tab : Option TabView
  staff : Option StaffView
  /-- The finished voices on tablature. -/
  tabVoices : List (List Tickable)
  /-- The finished voices on the staff. -/
  staffVoices : List (List Tickable)
  /-- The voice in progress on tablature, written also without a tablature view. -/
  tabNotes : List Tickable
  /-- The voice in progress on the staff, written only if there is a staff. -/
  staffNotes : List Tickable
  textVoices : List (List TextNote)
  beamGroups : List BeamGroup

namespace Stave

/-- A stave without any voice. -/
def blank (tab : Option TabView) (staff : Option StaffView) (beamGroups : List BeamGroup) : Stave :=
  { tab
    staff
    tabVoices := []
    staffVoices := []
    tabNotes := []
    staffNotes := []
    textVoices := []
    beamGroups }

/-- A voice on tablature by its number; the voice in progress follows the finished ones. -/
def tabVoice? (s : Stave) (voice : Nat) : Option (List Tickable) :=
  (s.tabVoices ++ [s.tabNotes])[voice]?

/-- A voice on the staff by its number. -/
def staffVoice? (s : Stave) (voice : Nat) : Option (List Tickable) :=
  (s.staffVoices ++ [s.staffNotes])[voice]?

/-! ## Changes -/

/-- The stave with one more object on each view that is written. -/
def push (s : Stave) (onTab onStaff : Tickable) : Stave :=
  { s with
    tabNotes := s.tabNotes ++ [onTab]
    staffNotes := if s.staff.isSome then s.staffNotes ++ [onStaff] else s.staffNotes }

/-- The finished voices with the voice in progress after them. An empty voice is dropped. -/
def withVoice (finished : List (List Tickable)) (notes : List Tickable) : List (List Tickable) :=
  if notes.isEmpty then finished else finished ++ [notes]

/-- The stave with its voices in progress finished. -/
def closeVoice (s : Stave) : Stave :=
  { s with
    tabVoices := withVoice s.tabVoices s.tabNotes
    staffVoices := withVoice s.staffVoices s.staffNotes
    tabNotes := []
    staffNotes := [] }

/-- A bar at the end of the voice on tablature becomes the end bar of the tablature view. -/
def finishTab (s : Stave) : Stave :=
  match endBar? s.tabNotes with
  | some type =>
      { s with
        tabNotes := s.tabNotes.dropLast
        tab := s.tab.map fun v => { v with endBar := some type } }
  | none => s

/-- A bar at the end of the voice on the staff becomes the end bar of the staff view. -/
def finishStaff (s : Stave) : Stave :=
  match endBar? s.staffNotes with
  | some type =>
      { s with
        staffNotes := s.staffNotes.dropLast
        staff := s.staff.map fun v => { v with endBar := some type } }
  | none => s

/-- The stave made ready for drawing: bars at the end of the voices in progress become end bars,
and the voices are finished. -/
def finish (s : Stave) : Stave := s.finishTab.finishStaff.closeVoice

end Stave

end Tablature
