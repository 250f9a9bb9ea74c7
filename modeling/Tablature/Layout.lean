/-
# Tablature.Layout — what a layout engine is handed.

The session does not place anything itself. It hands an engine the size of the surface, then every
stave with its voices, then the score with its links, as a list of calls.
-/
import Tablature.Score.Basic

namespace Tablature

/-- How the notes of a stave are beamed. -/
structure BeamPolicy where
  beamRests : Bool
  showStemlets : Bool
  middleOnly : Bool
  groups : List BeamGroup
  /-- Are stems, and so beams, drawn on tablature too? -/
  tabStems : Bool
  tabStemDirection : StemDirection
  deriving DecidableEq, Repr

/-- The policy that settings give to a stave. -/
def BeamPolicy.of (settings : Settings) (groups : List BeamGroup) : BeamPolicy :=
  { beamRests := settings.beamRests
    showStemlets := settings.beamStemlets
    middleOnly := settings.beamMiddleOnly
    groups
    tabStems := settings.tabStems
    tabStemDirection := settings.tabStemDirection }

/-- A stave with its voices, ready for drawing. -/
structure StaveGroup where
  index : Nat
  tab : Option (TabView × List (List Tickable))
  staff : Option (StaffView × List (List Tickable))
  textVoices : List (List TextNote)
  beam : BeamPolicy

/-- The finished voices of a stave with the views that it has. -/
def StaveGroup.of (settings : Settings) (index : Nat) (stave : Stave) : StaveGroup :=
  { index
    tab := stave.tab.map fun view => (view, stave.tabVoices)
    staff := stave.staff.map fun view => (view, stave.staffVoices)
    textVoices := stave.textVoices
    beam := .of settings stave.beamGroups }

/-- One call to a layout engine. -/
inductive LayoutCall
  /-- The size of the surface, before any stave. -/
  | prepare (width height scale : Float)
  /-- A stave to format and draw. -/
  | stave (group : StaveGroup)
  /-- The links of the score, after every stave. -/
  | links (tab : List TabLink) (staff : List StaffLink)

end Tablature
