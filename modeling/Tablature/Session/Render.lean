/-
# Tablature.Session.Render — handing a score on.

Rendering finishes every stave and hands the score to a layout engine. Playback takes the voices
as they are, finished or not: those of the staff where there is one, those of the tablature
otherwise.
-/
import Tablature.Layout
import Tablature.Session.Bend

namespace Tablature

/-- The voices of a stave that are played; empty ones are left out. -/
def Stave.playedVoices (s : Stave) : List (List Tickable) :=
  let voices :=
    if s.staff.isSome then s.staffVoices ++ [s.staffNotes] else s.tabVoices ++ [s.tabNotes]
  voices.filter (! ·.isEmpty)

/-- The voices of a score that are played, stave by stave. -/
def Score.playedVoices (s : Score) : List (List (List Tickable)) := s.staves.map Stave.playedVoices

namespace Session

/-- The session with every stave finished. -/
def finishStaves (s : Session) : Session :=
  { s.closeBends true with
    score := (s.closeBends true).score.onEvery Stave.finish
    rendered := true }

/-- The size of the surface. -/
def surface (s : Session) : LayoutCall :=
  let scale := s.settings.scale
  .prepare (s.settings.width * scale) ((s.cursor + s.setup.bottomSpacing) * scale) scale

/-- The calls for a session whose staves are finished. -/
def layoutCalls (s : Session) : List LayoutCall :=
  s.surface ::
    (s.score.staves.mapIdx fun index stave => .stave (.of s.settings index stave)) ++
      [.links s.score.tabLinks s.score.staffLinks]

/-- Finishes every stave; gives the session after that and the calls to a layout engine. -/
def render (s : Session) : Session × List LayoutCall :=
  let finished := s.finishStaves
  (finished, finished.layoutCalls)

end Session

end Tablature
