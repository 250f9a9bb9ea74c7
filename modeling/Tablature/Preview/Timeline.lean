/-
# Tablature.Preview.Timeline — where notes stand along a stave.

An object stands at the share of the stave's width that the time before it has in the longest
voice of the stave, text voices included. The share is exact, whatever its numbers are; only the last
step is in doubles.
-/
import Tablature.Layout
import Tablature.Schedule

namespace Tablature.Preview

/-- The larger of two doubles; an undefined one does not count. -/
def larger (a b : Float) : Float :=
  if a.isNaN then b else if b.isNaN then a else if a < b then b else a

/-- The smaller of two doubles; an undefined one does not count. -/
def smaller (a b : Float) : Float :=
  if a.isNaN then b else if b.isNaN then a else if b < a then b else a

/-- How far in notes start when the stave does not say. -/
def defaultNoteStart : Float := 60.0

/-- The room at the right end of a stave. -/
def rightPadding : Float := 20.0

/-- The time of a stave and the room for it. -/
structure Timeline where
  left : Float
  width : Float
  total : Ticks

namespace Timeline

/-- The left edge, the width and the start of the notes of a stave. -/
def extent (g : StaveGroup) : Float × Float × Float :=
  match g.staff, g.tab with
  | some (view, _), _ => (view.x, view.width, defaultNoteStart)
  | none, some (view, _) => (view.x, view.width, view.noteStart.getD defaultNoteStart)
  | none, none => (0.0, 0.0, 0.0)

/-- All voices of a stave, texts included. -/
def voices (g : StaveGroup) : List (List Tickable) :=
  (g.staff.map (·.2)).getD [] ++ (g.tab.map (·.2)).getD [] ++
    g.textVoices.map (·.map Tickable.text)

/-- The time of the longest voice of a stave. -/
def totalOf (g : StaveGroup) : Ticks := Timetable.longest (voices g)

/-- The timeline of a stave. -/
def of (g : StaveGroup) : Timeline :=
  let (x, width, start) := extent g
  { left := x + start
    width := larger (width - start - rightPadding) 0.0
    total := totalOf g }

/-- The exact share of the total, if there is any time at all. Like all ticks it is a fraction of any
size, where an engine would divide ratios of two words of 64 bits. -/
def share? (total elapsed : Ticks) : Option Rat :=
  if total = 0 then none else some (elapsed / total)

/-- Where a moment stands. -/
def xAt (t : Timeline) (elapsed : Ticks) : Float :=
  match share? t.total elapsed with
  | none => t.left
  | some share => t.left + ratioToFloat share * t.width

/-- The objects of a voice with their numbers and the time before each. -/
def moments (elapsed : Ticks) (index : Nat) : List Tickable → List (Nat × Ticks × Tickable)
  | [] => []
  | t :: voice =>
      (index, elapsed, t) ::
        moments (if t.ignoresTicks then elapsed else elapsed + t.ticks) (index + 1) voice

/-- The objects of a voice with their numbers and the places of their left edges. -/
def place (t : Timeline) (voice : List Tickable) : List (Nat × Float × Tickable) :=
  (moments 0 0 voice).map fun (index, elapsed, object) => (index, t.xAt elapsed, object)

end Timeline

end Tablature.Preview
