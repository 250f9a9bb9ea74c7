/-
# Tablature.Session.Articulate — articulations, decorations and tuplets.

An articulation connects positions of the last note with the nearest visible note before it, on
the strings that both have. It is resolved on tablature, also when the stave shows none. Slides and
ties are links of the score, bends extend a chain, a vibrato is a mark of the last note alone. A
tuplet covers the last objects of the voice in progress on each view.
-/
import Tablature.Session.Bend

namespace Tablature

/-- The place of the last member of a list that satisfies `p`. -/
def lastIndex? {α : Type} (p : α → Bool) : List α → Option Nat
  | [] => none
  | a :: rest =>
      match lastIndex? p rest with
      | some i => some (i + 1)
      | none => if p a then some 0 else none

/-- The places of all members of a list that satisfy `p`, counted from `start`. -/
def indicesWhere {α : Type} (p : α → Bool) : List α → (start : Nat) → List Nat
  | [], _ => []
  | a :: rest, start =>
      if p a then start :: indicesWhere p rest (start + 1) else indicesWhere p rest (start + 1)

/-- The positions of two notes that an articulation connects. -/
structure Span where
  previous : Nat
  previousIndices : List Nat
  currentIndices : List Nat
  deriving DecidableEq, Repr

namespace Span

/-- The nearest visible note before the last object of a voice. -/
def previousLive? (notes : List Tickable) : Option Nat :=
  lastIndex? Tickable.isLiveTab notes.dropLast

/-- The strings at the given places, positions being counted from `start`. -/
def taggedStrings (indices : List Nat) : List TabPosition → (start : Nat) → List Nat
  | [], _ => []
  | position :: positions, start =>
      if indices.contains start then
        position.string :: taggedStrings indices positions (start + 1)
      else taggedStrings indices positions (start + 1)

/-- The positions of two notes on the strings that are tagged on the second and present on the
first. -/
def between (previous : Nat) (first last : TabNote) (indices : List Nat) : Span :=
  let tagged := taggedStrings indices last.positions 0
  let shared := (first.positions.map (·.string)).filter tagged.contains
  let onShared (position : TabPosition) : Bool := shared.contains position.string
  { previous
    previousIndices := indicesWhere onShared first.positions 0
    currentIndices := indicesWhere onShared last.positions 0 }

/-- The span from the nearest visible note to the last object, if that is a note too. -/
def ofNotes? (notes : List Tickable) (indices : List Nat) : Option Span :=
  match previousLive? notes with
  | none => none
  | some previous =>
      match notes[previous]?, notes.getLast? with
      | some (.tab first), some (.tab last) => some (between previous first last indices)
      | _, _ => none

/-- Does the span connect nothing? -/
def isEmpty (s : Span) : Bool := s.previousIndices.isEmpty && s.currentIndices.isEmpty

end Span

namespace Session

/-! ## Articulations -/

/-- The score with one more link on tablature. -/
def addTabLink (s : Session) (link : TabLink) : Session :=
  { s with score := { s.score with tabLinks := s.score.tabLinks ++ [link] } }

/-- The score with one more link on a staff. -/
def addStaffLink (s : Session) (link : StaffLink) : Session :=
  { s with score := { s.score with staffLinks := s.score.staffLinks ++ [link] } }

/-- The link of a span on tablature, ending at the last object there. -/
def tabLinkOf (s : Session) (stave : Stave) (span : Span) : Link :=
  { first := s.tabAddress stave span.previous
    last := s.tabAddress stave (stave.tabNotes.length - 1)
    firstIndices := span.previousIndices
    lastIndices := span.currentIndices }

/-- The link of a span on the staff, ending at the last object there. It starts at the place that
the note has on tablature. -/
def staffLinkOf (s : Session) (stave : Stave) (span : Span) : Link :=
  { first := s.staffAddress stave span.previous
    last := s.staffAddress stave (stave.staffNotes.length - 1)
    firstIndices := span.previousIndices
    lastIndices := span.currentIndices }

/-- What an articulation does on tablature. -/
def articulateTab (s : Session) (stave : Stave) (tag : Articulation) (span : Span) : Session :=
  let link := s.tabLinkOf stave span
  match tag with
  | .slide => s.addTabLink (.slide link)
  | .hammerOn => s.addTabLink (.tie link "H")
  | .pullOff => s.addTabLink (.tie link "P")
  | .tap | .tapTie => s.addTabLink (.tie link " ")
  | .bend => s.openBends span.previous span.previousIndices span.currentIndices
  | .vibrato | .harshVibrato => s

/-- The letter drawn above a tapped note. -/
def tapCaption (s : Session) : Modifier := .caption ⟨"T", s.captionFont, .top⟩

/-- What an articulation links: nothing without an earlier note or a shared string; otherwise each
view that the stave has. -/
def linkSpan (s : Session) (stave : Stave) (tag : Articulation) (span : Option Span) : Session :=
  match span with
  | none => s
  | some span =>
      if span.isEmpty then s
      else
        let s := if stave.tab.isSome then s.articulateTab stave tag span else s
        if stave.staff.isSome then s.addStaffLink (.tie (s.staffLinkOf stave span)) else s

/-- Applies an articulation at the given places of the last note. -/
def articulate (s : Session) (stave : Stave) (tag : Articulation) (indices : List Nat) : Session :=
  let span := Span.ofNotes? stave.tabNotes indices
  match tag with
  | .vibrato => s.markLastTab 0 (.vibrato false)
  | .harshVibrato => s.markLastTab 0 (.vibrato true)
  | .tap => (if stave.tab.isSome then s.markLastTab 0 s.tapCaption else s).linkSpan stave tag span
  | _ => s.linkSpan stave tag span

/-- Applies one articulation at every place that has it. -/
def articulateTagged (tags : List (Option Articulation)) (s : Session) (tag : Articulation) :
    Session :=
  let indices := indicesWhere (· == some tag) tags 0
  match indices, s.score.active with
  | _ :: _, some stave => s.articulate stave tag indices
  | _, _ => s

/-- Applies the articulations of the last note, in their fixed order. Without a bend among them an
open chain is closed. -/
def applyTags (s : Session) (tags : List (Option Articulation)) : Session :=
  if s.tabNotes.isEmpty || tags.all Option.isNone then s.closeBends false
  else
    let s := Articulation.all.foldl (articulateTagged tags) s
    if tags.contains (some .bend) then s else s.closeBends false

/-- Applies articulations to the last note. -/
def addArticulations (s : Session) (tags : List (Option Articulation)) : Outcome Cause Session :=
  s.withStave fun _ => .done (s.applyTags tags)

/-! ## Decorations -/

/-- The mark of a stroke. -/
def strokeMark (code : String) : Modifier := .articulation code .below

/-- Decorates the last note: a vibrato is drawn on tablature, a stroke on both views. -/
def decorate (s : Session) : Decorator → Session
  | .vibrato => s.markLastTab 0 (.vibrato false)
  | .harshVibrato => s.markLastTab 0 (.vibrato true)
  | .upStroke => (s.markLastTab 0 (strokeMark "a|")).markLastStaff 0 (strokeMark "a|")
  | .downStroke => (s.markLastTab 0 (strokeMark "am")).markLastStaff 0 (strokeMark "am")

/-- Decorates the last note. -/
def addDecorator (s : Session) (decorator : Decorator) : Outcome Cause Session :=
  s.withStave fun _ => .done (s.decorate decorator)

/-! ## Tuplets -/

/-- Tuplets fit their notes into the time of two. -/
def tupletOccupies : Nat := 2

/-- A voice with the time of its last `count` objects multiplied. -/
def scaleLast (count : Nat) (factor : Ticks) (notes : List Tickable) : List Tickable :=
  notes.take (notes.length - count) ++
    (notes.drop (notes.length - count)).map (Tickable.scaleTicks factor)

/-- The bracket over `count` objects from `start` on, at addresses of one view. -/
def tupletOf (address : Nat → NoteRef) (start tuplets count : Nat) : Tuplet :=
  { notes := (List.range count).map fun i => address (start + i)
    count := tuplets
    occupied := tupletOccupies }

/-- The bracket over the last `count` objects on tablature. -/
def tabTuplet (s : Session) (stave : Stave) (tuplets count : Nat) : Tuplet :=
  tupletOf (s.tabAddress stave) (stave.tabNotes.length - count) tuplets count

/-- The bracket over the last `count` objects on the staff. -/
def staffTuplet (s : Session) (stave : Stave) (tuplets count : Nat) : Tuplet :=
  tupletOf (s.staffAddress stave) (stave.staffNotes.length - count) tuplets count

/-- Makes the last `count` objects of each view a tuplet. A staff always shows the bracket,
tablature only with stems. -/
def bracket (s : Session) (stave : Stave) (tuplets count : Nat) : Session :=
  let factor : Ticks := (tupletOccupies : Ticks) / (tuplets : Ticks)
  let scaled := (s.onTabNotes (scaleLast count factor)).onStaffNotes (scaleLast count factor)
  let linked :=
    if stave.staff.isSome then scaled.addStaffLink (.tuplet (s.staffTuplet stave tuplets count))
    else scaled
  if s.settings.tabStems then linked.addTabLink (.tuplet (s.tabTuplet stave tuplets count))
  else linked

/-- How many objects a tuplet can cover: those on the staff if there is one, else those on
tablature. -/
def tupletRoom (stave : Stave) : Nat :=
  if stave.staff.isSome then stave.staffNotes.length else stave.tabNotes.length

/-- Makes the last notes a tuplet: as many notes as it counts, unless a number is given. -/
def makeTuplets (s : Session) (tuplets : Nat) (notes : Option Nat) : Outcome Cause Session :=
  let count := notes.getD tuplets
  if tuplets = 0 || count = 0 then .stopped s (.badTuplet tuplets)
  else s.withStave fun stave =>
    if tupletRoom stave < count then .stopped s .tooFewNotesForTuplet
    else .done (s.bracket stave tuplets count)

end Session

end Tablature
