/-
# Tablature.Proofs.Placements — the preview draws every link.

The preview notes where it has drawn every note, by view and address, and draws a link between the
places of its ends; an end without a place would go unseen. `notePlacement?` says where a note of a
score stands, from the score alone, and the places that are noted down are these and no others
(`placement?_render`). The ends of a link are notes of finished voices with all the positions or
keys that the link names, so that nothing of a link is left out (`links_drawn`). Links are drawn after
the staves, so all of this is about drawings that get finished.
-/
import Tablature.Proofs.Finishing
import Tablature.Proofs.Links
import Tablature.Proofs.Operations
import Tablature.Proofs.Rendering
import Tablature.Proofs.Timing

namespace Tablature.Preview

/-! ## Where notes stand -/

/-- The heights of a note on tablature, if the object is one. -/
def tabYs? (first : Float) : Tickable → Option (List Float)
  | .tab note => some (tabHeights note first)
  | _ => none

/-- The heights of a note or rest on a staff, if the object is one and they can be counted. -/
def staffYs? (top : Float) (clef : Option Clef) : Tickable → Option (List Float)
  | .staff note => (staffHeights note top clef).result?
  | _ => none

/-- The place of an object in some voices: as far along as the time before it in its voice. -/
def placeIn? (timeline : Timeline) (ys? : Tickable → Option (List Float))
    (voices : List (List Tickable)) (voice index : Nat) : Option Placement :=
  (voices[voice]?).bind fun notes =>
    (notes[index]?).bind fun note =>
      (ys? note).map fun ys =>
        ⟨timeline.xAt (voiceTicks (notes.take index)) + headWidth, ys⟩

theorem placeIn?_eq_some {timeline : Timeline} {ys? : Tickable → Option (List Float)}
    {voices : List (List Tickable)} {voice index : Nat} {notes : List Tickable} {note : Tickable}
    {ys : List Float} (hnotes : voices[voice]? = some notes) (hnote : notes[index]? = some note)
    (hys : ys? note = some ys) :
    placeIn? timeline ys? voices voice index =
      some ⟨timeline.xAt (voiceTicks (notes.take index)) + headWidth, ys⟩ := by
  rw [placeIn?, hnotes, Option.bind_some, hnote, Option.bind_some, hys, Option.map_some]

/-- The place of an object on a view of a stave. -/
def groupPlacement? (g : StaveGroup) : View → Nat → Nat → Option Placement
  | .tab, voice, index => g.tab.bind fun (view, voices) =>
      placeIn? (.of g) (tabYs? (view.y + tabTopOffset)) voices voice index
  | .staff, voice, index => g.staff.bind fun (view, voices) =>
      placeIn? (.of g) (staffYs? (view.y + staffTopOffset) view.clef) voices voice index

section Views

variable {settings : Settings} {stave : Stave} {i : Nat}

theorem groupPlacement?_tab {view : TabView} (h : stave.tab = some view) (voice index : Nat) :
    groupPlacement? (.of settings i stave) .tab voice index =
      placeIn? (.of (.of settings i stave)) (tabYs? (view.y + tabTopOffset)) stave.tabVoices voice
        index := by
  have hview : (StaveGroup.of settings i stave).tab = some (view, stave.tabVoices) := by
    show stave.tab.map _ = _
    rw [h]
    rfl
  rw [groupPlacement?, hview]
  rfl

theorem groupPlacement?_staff {view : StaffView} (h : stave.staff = some view)
    (voice index : Nat) :
    groupPlacement? (.of settings i stave) .staff voice index =
      placeIn? (.of (.of settings i stave)) (staffYs? (view.y + staffTopOffset) view.clef)
        stave.staffVoices voice index := by
  have hview : (StaveGroup.of settings i stave).staff = some (view, stave.staffVoices) := by
    show stave.staff.map _ = _
    rw [h]
    rfl
  rw [groupPlacement?, hview]
  rfl

end Views

/-- **Where a note of a score stands**, on one of the views: along its stave by its time, at the
heights of its strings or keys. -/
def notePlacement? (score : Score) (view : View) (r : NoteRef) : Option Placement :=
  (score.staves[r.stave]?).bind fun stave =>
    groupPlacement? (.of score.settings r.stave stave) view r.voice r.index

/-! ## Places that are noted down -/

namespace Timeline

/-- After the first object its time has passed. An object that takes no time adds none. -/
theorem moments_cons (elapsed : Ticks) (index : Nat) (t : Tickable) (voice : List Tickable) :
    moments elapsed index (t :: voice) =
      (index, elapsed, t) :: moments (elapsed + t.ticks) (index + 1) voice := by
  rw [moments]
  split
  · rename_i hticks
    rw [Tickable.ticks_of_ignoresTicks hticks, Rat.add_zero]
  · rfl

/-- An object comes after the time of those before it. -/
theorem getElem?_moments (elapsed : Ticks) (index : Nat) (voice : List Tickable) (k : Nat) :
    (moments elapsed index voice)[k]? =
      (voice[k]?).map fun t => (index + k, elapsed + voiceTicks (voice.take k), t) := by
  induction voice generalizing elapsed index k with
  | nil => rfl
  | cons t voice ih =>
      rw [moments_cons]
      cases k with
      | zero =>
          show some (index, elapsed, t) = some (index, elapsed + 0, t)
          rw [Rat.add_zero]
      | succ k =>
          rw [List.getElem?_cons_succ, ih, List.getElem?_cons_succ, List.take_succ_cons,
            voiceTicks_cons, Rat.add_assoc, Nat.add_assoc, Nat.add_comm 1 k]

theorem getElem?_place (t : Timeline) (voice : List Tickable) (k : Nat) :
    (t.place voice)[k]? =
      (voice[k]?).map fun note => (k, t.xAt (voiceTicks (voice.take k)), note) := by
  rw [place, List.getElem?_map, getElem?_moments, Option.map_map]
  congr 1
  funext note
  show (0 + k, t.xAt (0 + _), note) = _
  rw [Nat.zero_add, Rat.zero_add]

end Timeline

theorem Picture.mem_placements_join {pictures : List Picture}
    {entry : (View × NoteRef) × Placement} :
    entry ∈ (Picture.join pictures).placements ↔ ∃ p ∈ pictures, entry ∈ p.placements := by
  induction pictures with
  | nil => simp [join, blank]
  | cons p pictures ih =>
      show entry ∈ p.placements ++ (join pictures).placements ↔ _
      rw [List.mem_append, ih]
      simp

namespace Sketch

variable {pictures : List (Sketch Picture)} {p : Picture} {x : Sketch Picture}
  {entry : (View × NoteRef) × Placement}

theorem mem_placements_join (h : join pictures = .finished p) :
    entry ∈ p.placements ↔ ∃ part, .finished part ∈ pictures ∧ entry ∈ part.placements := by
  obtain ⟨parts, rfl, rfl⟩ := join_eq_finished_iff.1 h
  simp [Picture.mem_placements_join]

/-- In a finished row every part is finished, and its places are noted down. -/
theorem exists_part_of_join (h : join pictures = .finished p) (hx : x ∈ pictures) :
    ∃ part, x = .finished part ∧ ∀ entry ∈ part.placements, entry ∈ p.placements := by
  obtain ⟨part, rfl⟩ := finishes_join_iff.1 ⟨p, h⟩ x hx
  exact ⟨part, rfl, fun _ hentry => (mem_placements_join h).2 ⟨part, hx, hentry⟩⟩

end Sketch

/-- What is noted down of an object: its place, if it is a note of the view. -/
def NotesDown (object : Nat → Nat → Float → Tickable → Sketch Picture) (view : View) (stave : Nat)
    (ys? : Tickable → Option (List Float)) : Prop :=
  ∀ (voice index : Nat) (left : Float) (note : Tickable),
    (object voice index left note).Holds fun picture => picture.placements =
      ((ys? note).map fun ys => ((view, ⟨stave, voice, index⟩), ⟨left + headWidth, ys⟩)).toList

theorem notesDown_tabObject (first last : Float) (beam : BeamPolicy) (stave : Nat) :
    NotesDown (tabObject first last beam stave) .tab stave (tabYs? first) := by
  intro voice index left note picture h
  cases note <;> cases h <;> rfl

theorem notesDown_staffObject (view : StaffView) (top : Float) (stave : Nat) :
    NotesDown (staffObject view top stave) .staff stave (staffYs? top view.clef) := by
  intro voice index left note picture h
  cases note with
  | staff note =>
      obtain ⟨ys, hys, h⟩ := Sketch.bind_eq_finished_iff.1 h
      obtain ⟨elements, -, ⟨⟩⟩ := Sketch.bind_eq_finished_iff.1 h
      rw [staffYs?, Sketch.result?_eq_some_iff.2 hys]
      rfl
  | _ => cases h; rfl

/-- Of the voices of a view the places of its notes are noted down. -/
theorem mem_placements_voicePictures {timeline : Timeline}
    {object : Nat → Nat → Float → Tickable → Sketch Picture} {view : View} {stave : Nat}
    {ys? : Tickable → Option (List Float)} (h : NotesDown object view stave ys?)
    {voices : List (List Tickable)} {picture : Picture}
    (hpicture : voicePictures timeline object voices = .finished picture)
    {v : View} {r : NoteRef} {p : Placement} :
    ((v, r), p) ∈ picture.placements ↔
      v = view ∧ r.stave = stave ∧
        placeIn? timeline ys? voices r.voice r.index = some p := by
  constructor
  · intro hentry
    obtain ⟨_, hvoice, hentry⟩ := (Sketch.mem_placements_join hpicture).1 hentry
    obtain ⟨i, hi, hvoice⟩ := List.mem_mapIdx.1 hvoice
    obtain ⟨_, hobject, hentry⟩ := (Sketch.mem_placements_join hvoice).1 hentry
    obtain ⟨_, hplace, hobject⟩ := List.mem_map.1 hobject
    obtain ⟨k, hk⟩ := List.mem_iff_getElem?.1 hplace
    rw [Timeline.getElem?_place] at hk
    obtain ⟨note, hnote, rfl⟩ := Option.map_eq_some_iff.1 hk
    rw [h _ _ _ _ _ hobject] at hentry
    obtain ⟨ys, hys, heq⟩ := Option.map_eq_some_iff.1 (Option.mem_toList.1 hentry)
    cases heq
    exact ⟨rfl, rfl, placeIn?_eq_some (List.getElem?_eq_getElem hi) hnote hys⟩
  · rintro ⟨rfl, rfl, hplace⟩
    obtain ⟨notes, hnotes, hplace⟩ := Option.bind_eq_some_iff.1 hplace
    obtain ⟨note, hnote, hplace⟩ := Option.bind_eq_some_iff.1 hplace
    obtain ⟨ys, hys, rfl⟩ := Option.map_eq_some_iff.1 hplace
    obtain ⟨hi, rfl⟩ := List.getElem?_eq_some_iff.1 hnotes
    have hmem : (r.index, timeline.xAt (voiceTicks (voices[r.voice].take r.index)), note) ∈
        timeline.place voices[r.voice] := by
      apply List.mem_of_getElem? (i := r.index)
      rw [Timeline.getElem?_place, hnote]
      rfl
    obtain ⟨_, hvoice, hnoted⟩ :=
      Sketch.exists_part_of_join hpicture (List.mem_mapIdx.2 ⟨r.voice, hi, rfl⟩)
    obtain ⟨_, hobject, hnoted'⟩ :=
      Sketch.exists_part_of_join hvoice (List.mem_map.2 ⟨_, hmem, rfl⟩)
    apply hnoted
    apply hnoted'
    rw [h _ _ _ _ _ hobject, hys]
    exact List.mem_singleton.2 rfl

/-- Of a view the places are those of its voices, for its lines and bars have none. -/
theorem placements_framed {before after : List Element} {voices : Sketch Picture} {p : Picture}
    (h : Sketch.join
      [.finished (.ofElements before), voices, .finished (.ofElements after)] = .finished p) :
    ∃ q, voices = .finished q ∧ p.placements = q.placements := by
  obtain ⟨q, rfl, -⟩ := Sketch.exists_part_of_join h (List.mem_cons_of_mem _ List.mem_cons_self)
  cases h
  exact ⟨q, rfl, List.append_nil _⟩

section Stave

variable {timeline : Timeline} {stave : Nat} {voices : List (List Tickable)} {picture : Picture}
  {v : View} {r : NoteRef} {p : Placement}

theorem mem_placements_tabPicture {beam : BeamPolicy} {view : TabView}
    (h : tabPicture timeline stave beam view voices = .finished picture) :
    ((v, r), p) ∈ picture.placements ↔
      v = .tab ∧ r.stave = stave ∧
        placeIn? timeline (tabYs? (view.y + tabTopOffset)) voices r.voice r.index = some p := by
  obtain ⟨q, hvoices, hplacements⟩ := placements_framed h
  rw [hplacements]
  exact mem_placements_voicePictures (notesDown_tabObject _ _ beam stave) hvoices

theorem mem_placements_staffPicture {view : StaffView}
    (h : staffPicture timeline stave view voices = .finished picture) :
    ((v, r), p) ∈ picture.placements ↔
      v = .staff ∧ r.stave = stave ∧
        placeIn? timeline (staffYs? (view.y + staffTopOffset) view.clef) voices r.voice r.index =
          some p := by
  obtain ⟨q, hvoices, hplacements⟩ := placements_framed h
  rw [hplacements]
  exact mem_placements_voicePictures (notesDown_staffObject view _ stave) hvoices

/-- Of a stave the places of its notes are noted down, view by view. -/
theorem mem_placements_stavePicture {g : StaveGroup} (h : stavePicture g = .finished picture) :
    ((v, r), p) ∈ picture.placements ↔
      r.stave = g.index ∧ groupPlacement? g v r.voice r.index = some p := by
  constructor
  · intro hentry
    obtain ⟨part, hpart, hentry⟩ := (Sketch.mem_placements_join h).1 hentry
    simp only [List.mem_cons, List.not_mem_nil, or_false] at hpart
    rcases hpart with hstaff | htab | htexts
    · split at hstaff
      · rename_i view voices hview
        obtain ⟨rfl, hr, hplace⟩ := (mem_placements_staffPicture hstaff.symm).1 hentry
        exact ⟨hr, (congrArg (Option.bind · _) hview).trans hplace⟩
      · cases hstaff
        cases hentry
    · split at htab
      · rename_i view voices hview
        obtain ⟨rfl, hr, hplace⟩ := (mem_placements_tabPicture htab.symm).1 hentry
        exact ⟨hr, (congrArg (Option.bind · _) hview).trans hplace⟩
      · cases htab
        cases hentry
    · cases htexts
      cases hentry
  · rintro ⟨hr, hplace⟩
    cases v with
    | tab =>
        obtain ⟨⟨view, voices⟩, hview, hplace⟩ := Option.bind_eq_some_iff.1 hplace
        obtain ⟨part, hpart, hnoted⟩ := Sketch.exists_part_of_join h
          (List.mem_cons_of_mem _ List.mem_cons_self)
        rw [hview] at hpart
        exact hnoted _ ((mem_placements_tabPicture hpart).2 ⟨rfl, hr, hplace⟩)
    | staff =>
        obtain ⟨⟨view, voices⟩, hview, hplace⟩ := Option.bind_eq_some_iff.1 hplace
        obtain ⟨part, hpart, hnoted⟩ := Sketch.exists_part_of_join h List.mem_cons_self
        rw [hview] at hpart
        exact hnoted _ ((mem_placements_staffPicture hpart).2 ⟨rfl, hr, hplace⟩)

end Stave

/-! ## The drawing -/

namespace Drawing

variable {s : Session} {drawing : Drawing}

/-- A finished drawing is that of the finished staves, with the links after them. -/
theorem exists_staves_of_finished (h : ofCalls s.layoutCalls = .finished drawing) :
    ∃ surface staves, stavesPicture s.score = .finished staves ∧
      drawing = ⟨some surface, staves.append (linksPicture s.score staves.placements)⟩ := by
  obtain ⟨surface, -, hdrawing⟩ := ofCalls_layoutCalls s
  obtain ⟨staves, hstaves, rfl⟩ := Sketch.map_eq_finished_iff.1 (hdrawing.symm.trans h)
  exact ⟨surface, staves, hstaves, rfl⟩

/-- In the document the links come after the staves. -/
theorem document_eq_of_finished (h : ofCalls s.layoutCalls = .finished drawing) :
    ∃ (surface : Surface) (staves : List Element), drawing.document =
      surface.document (staves ++ (linksPicture s.score drawing.picture.placements).elements) := by
  obtain ⟨surface, staves, -, rfl⟩ := exists_staves_of_finished h
  have hplacements : (staves.append (linksPicture s.score staves.placements)).placements =
      staves.placements := List.append_nil _
  refine ⟨surface, staves.elements, ?_⟩
  rw [hplacements]
  rfl

/-- **The places that are noted down are those of the notes**, and no others. -/
theorem mem_placements_iff (h : ofCalls s.layoutCalls = .finished drawing) {view : View}
    {r : NoteRef} {p : Placement} :
    ((view, r), p) ∈ drawing.picture.placements ↔ notePlacement? s.score view r = some p := by
  obtain ⟨surface, staves, hstaves, rfl⟩ := exists_staves_of_finished h
  have hplacements : (staves.append (linksPicture s.score staves.placements)).placements =
      staves.placements := List.append_nil _
  rw [hplacements]
  constructor
  · intro hentry
    obtain ⟨_, hstave, hentry⟩ := (Sketch.mem_placements_join hstaves).1 hentry
    obtain ⟨i, hi, hstave⟩ := List.mem_mapIdx.1 hstave
    obtain ⟨hindex, hplace⟩ := (mem_placements_stavePicture hstave).1 hentry
    have hr : r.stave = i := hindex
    rw [notePlacement?, hr, List.getElem?_eq_getElem hi]
    exact hplace
  · intro hplace
    obtain ⟨stave, hstave, hplace⟩ := Option.bind_eq_some_iff.1 hplace
    obtain ⟨hi, rfl⟩ := List.getElem?_eq_some_iff.1 hstave
    obtain ⟨_, hpart, hnoted⟩ :=
      Sketch.exists_part_of_join hstaves (List.mem_mapIdx.2 ⟨r.stave, hi, rfl⟩)
    exact hnoted _ ((mem_placements_stavePicture hpart).2 ⟨rfl, hplace⟩)

end Drawing

theorem placement?_eq_of_mem_iff {placements : Placements} {view : View} {r : NoteRef}
    {place : Option Placement}
    (h : ∀ p, ((view, r), p) ∈ placements ↔ place = some p) :
    placement? placements view r = place := by
  unfold placement?
  cases hfind : placements.find? fun p => p.1 = (view, r) with
  | none =>
      cases hplace : place with
      | none => rfl
      | some p =>
          have hother := List.find?_eq_none.1 hfind _ ((h p).2 hplace)
          simp at hother
  | some entry =>
      obtain ⟨key, p⟩ := entry
      have hkey : key = (view, r) := by simpa using List.find?_some hfind
      subst hkey
      exact ((h p).1 (List.mem_of_find?_eq_some hfind)).symm

/-- A link finds its ends where the notes stand. -/
theorem placement?_render {s : Session} {drawing : Drawing}
    (h : Drawing.ofCalls s.render.2 = .finished drawing) (view : View) (r : NoteRef) :
    placement? drawing.picture.placements view r = notePlacement? s.render.1.score view r :=
  placement?_eq_of_mem_iff fun _ => Drawing.mem_placements_iff h

/-! ## Notes of finished voices -/

/-- What stands in a voice stands in a finished one if nothing is in progress. -/
theorem getElem?_of_finished {voices : List (List Tickable)} {voice index : Nat} {t : Tickable}
    (h : ((voices ++ [[]])[voice]?).bind (·[index]?) = some t) :
    ∃ notes, voices[voice]? = some notes ∧ notes[index]? = some t := by
  obtain ⟨notes, hvoice, ht⟩ := Option.bind_eq_some_iff.1 h
  rw [List.getElem?_append] at hvoice
  split at hvoice
  · exact ⟨notes, hvoice, ht⟩
  · have hempty : notes = [] := List.mem_singleton.1 (List.mem_of_getElem? hvoice)
    rw [hempty] at ht
    cases ht

section Finished

variable {score : Score} {r : NoteRef}

/-- A note on tablature has a place if its stave has a tablature view. -/
theorem exists_tabPlacement (hdone : ∀ stave ∈ score.staves, stave.tabNotes = [])
    {note : TabNote} (hnote : score.tabNote? r = some (.tab note))
    (hview : ∀ stave, score.staves[r.stave]? = some stave → stave.tab.isSome) :
    ∃ p, notePlacement? score .tab r = some p ∧ p.ys.length = note.positions.length := by
  rw [Score.tabNote?, Option.bind_assoc] at hnote
  obtain ⟨stave, hstave, hnote⟩ := Option.bind_eq_some_iff.1 hnote
  rw [Stave.tabVoice?, hdone stave (List.mem_of_getElem? hstave)] at hnote
  obtain ⟨notes, hnotes, hnote⟩ := getElem?_of_finished hnote
  obtain ⟨view, htab⟩ := Option.isSome_iff_exists.1 (hview stave hstave)
  have hplace : notePlacement? score .tab r =
      placeIn? (.of (.of score.settings r.stave stave)) (tabYs? (view.y + tabTopOffset))
        stave.tabVoices r.voice r.index := by
    rw [notePlacement?, hstave, Option.bind_some, groupPlacement?_tab htab]
  exact ⟨_, hplace.trans (placeIn?_eq_some hnotes hnote rfl), List.length_map _⟩

/-- A note on a staff has a place, if the staff gets finished; its stave has the view. -/
theorem exists_staffPlacement (aligned : ∀ stave ∈ score.staves, stave.Aligned)
    (hdone : ∀ stave ∈ score.staves, stave.staffNotes = [])
    {bound : Nat} (hends : score.EndsWithin bound)
    {note : StaffNote} (hnote : score.staffNote? r = some (.staff note))
    (hsounds : note.rest = false) :
    ∃ p, notePlacement? score .staff r = some p ∧ p.ys.length = note.keys.length := by
  rw [Score.staffNote?, Option.bind_assoc] at hnote
  obtain ⟨stave, hstave, hnote⟩ := Option.bind_eq_some_iff.1 hnote
  have hmem := List.mem_of_getElem? hstave
  rw [Stave.staffVoice?, hdone stave hmem] at hnote
  obtain ⟨notes, hnotes, hnote⟩ := getElem?_of_finished hnote
  cases hstaff : stave.staff with
  | none =>
      rw [((aligned stave hmem).unwritten hstaff).1] at hnotes
      cases hnotes
  | some view =>
      have hplace : notePlacement? score .staff r =
          placeIn? (.of (.of score.settings r.stave stave))
            (staffYs? (view.y + staffTopOffset) view.clef) stave.staffVoices r.voice r.index := by
        rw [notePlacement?, hstave, Option.bind_some, groupPlacement?_staff hstaff]
      have hkeys := (hends stave hmem view hstaff _ (List.mem_of_getElem? hnotes) _
        (List.mem_of_getElem? hnote)).resolve_left (by rw [hsounds]; exact Bool.false_ne_true)
      have hheights : staffHeights note (view.y + staffTopOffset) view.clef = .finished _ :=
        (staffHeights_eq_finished_iff hsounds).2 ⟨fun key hkey => (hkeys key hkey).1, rfl⟩
      exact ⟨_, hplace.trans (placeIn?_eq_some hnotes hnote
        (Sketch.result?_eq_some_iff.2 hheights)), List.length_map _⟩

end Finished

/-! ## Links -/

/-- The point of a position or key of a placed note. -/
def Placement.point? (p : Placement) (i : Nat) : Option Point := (p.ys[i]?).map (⟨p.x, ·⟩)

/-- **A link as it is drawn.** Both ends have been drawn where their notes stand, and as long as
both have a position or key to join, there is a pair of points for it. -/
structure Drawn (score : Score) (placements : Placements) (view : View) (link : Link) : Prop where
  placed : ∃ first last, placement? placements view link.first = some first ∧
    placement? placements view link.last = some last ∧
    notePlacement? score view link.first = some first ∧
    notePlacement? score view link.last = some last ∧
    List.Forall₂
      (fun ends points => first.point? ends.1 = some points.1 ∧ last.point? ends.2 = some points.2)
      (link.firstIndices.zip link.lastIndices) (linkPoints placements view link)
  count : (linkPoints placements view link).length =
    min link.firstIndices.length link.lastIndices.length

/-- Indices in range have their points. -/
theorem forall₂_pointPairs {first last : Placement} {firstIndices lastIndices : List Nat}
    (hfirst : ∀ i ∈ firstIndices, i < first.ys.length)
    (hlast : ∀ i ∈ lastIndices, i < last.ys.length) :
    List.Forall₂
      (fun ends points => first.point? ends.1 = some points.1 ∧ last.point? ends.2 = some points.2)
      (firstIndices.zip lastIndices) (pointPairs first last firstIndices lastIndices) := by
  induction firstIndices generalizing lastIndices with
  | nil => exact .nil
  | cons a firstIndices ih =>
      cases lastIndices with
      | nil => exact .nil
      | cons b lastIndices =>
          obtain ⟨ha, hfirst⟩ := List.forall_mem_cons.1 hfirst
          obtain ⟨hb, hlast⟩ := List.forall_mem_cons.1 hlast
          have hya := List.getElem?_eq_getElem ha
          have hyb := List.getElem?_eq_getElem hb
          have hpairs : pointPairs first last (a :: firstIndices) (b :: lastIndices) =
              (⟨first.x, first.ys[a]⟩, ⟨last.x, last.ys[b]⟩) ::
                pointPairs first last firstIndices lastIndices := by
            rw [pointPairs, List.zip_cons_cons, List.filterMap_cons]
            dsimp only
            rw [hya, hyb]
            rfl
          rw [hpairs, List.zip_cons_cons]
          refine .cons ⟨?_, ?_⟩ (ih hfirst hlast)
          · rw [Placement.point?, hya]
            rfl
          · rw [Placement.point?, hyb]
            rfl

/-- A link is drawn if its ends have places with all the indices that it names. -/
theorem drawn_of_placed {s : Session} {drawing : Drawing}
    (h : Drawing.ofCalls s.render.2 = .finished drawing) {view : View} {link : Link}
    {first last : Placement}
    (hfirst : notePlacement? s.render.1.score view link.first = some first)
    (hlast : notePlacement? s.render.1.score view link.last = some last)
    (hfirsts : ∀ i ∈ link.firstIndices, i < first.ys.length)
    (hlasts : ∀ i ∈ link.lastIndices, i < last.ys.length) :
    Drawn s.render.1.score drawing.picture.placements view link := by
  have hfound := (placement?_render h view link.first).trans hfirst
  have hfound' := (placement?_render h view link.last).trans hlast
  have hpoints : linkPoints drawing.picture.placements view link =
      pointPairs first last link.firstIndices link.lastIndices := by
    rw [linkPoints, hfound, hfound']
  have hpairs := forall₂_pointPairs hfirsts hlasts
  refine ⟨⟨first, last, hfound, hfound', hfirst, hlast, ?_⟩, ?_⟩
  · rw [hpoints]
    exact hpairs
  · rw [hpoints, ← hpairs.length_eq, List.length_zip]

/-! ## Rendered scores -/

section Rendered

variable {s : Session} {drawing : Drawing} {link : Link}

theorem notes_of_mem_staves_render {stave : Stave} (h : stave ∈ s.render.1.score.staves) :
    stave.tabNotes = [] ∧ stave.staffNotes = [] := by
  change stave ∈ ((s.closeBends true).score.onEvery Stave.finish).staves at h
  rw [Score.staves_onEvery] at h
  obtain ⟨a, -, rfl⟩ := List.mem_map.1 h
  exact a.notes_finish

theorem drawn_of_joins (hfinished : Drawing.ofCalls s.render.2 = .finished drawing)
    (h : Joins s.render.1.score link)
    (hview : ∀ stave, s.render.1.score.staves[link.first.stave]? = some stave → stave.tab.isSome) :
    Drawn s.render.1.score drawing.picture.placements .tab link := by
  have hdone : ∀ stave ∈ s.render.1.score.staves, stave.tabNotes = [] :=
    fun _ hmem => (notes_of_mem_staves_render hmem).1
  obtain ⟨first, last, hfirst, hlast, _, hpicks, hpicks'⟩ := h.notes
  obtain ⟨p, hp, hlength⟩ := exists_tabPlacement hdone hfirst hview
  obtain ⟨q, hq, hlength'⟩ := exists_tabPlacement hdone hlast (h.stave ▸ hview)
  exact drawn_of_placed hfinished hp hq (fun i hi => hlength ▸ hpicks.inRange i hi)
    fun i hi => hlength' ▸ hpicks'.inRange i hi

theorem drawn_of_joinsStaff (hfinished : Drawing.ofCalls s.render.2 = .finished drawing)
    (aligned : s.render.1.Aligned) (h : JoinsStaff s.render.1.score link) :
    Drawn s.render.1.score drawing.picture.placements .staff link := by
  have hdone : ∀ stave ∈ s.render.1.score.staves, stave.staffNotes = [] :=
    fun _ hmem => (notes_of_mem_staves_render hmem).2
  obtain ⟨first, hfirst, hsounds, hkeys⟩ := h.firstKeys
  obtain ⟨last, hlast, hsounds', hkeys'⟩ := h.lastKeys
  obtain ⟨bound, hends⟩ := (Drawing.finishes_iff s.finishStaves).1 ⟨drawing, hfinished⟩
  obtain ⟨p, hp, hlength⟩ := exists_staffPlacement aligned hdone hends hfirst hsounds
  obtain ⟨q, hq, hlength'⟩ := exists_staffPlacement aligned hdone hends hlast hsounds'
  exact drawn_of_placed hfinished hp hq (fun i hi => hlength ▸ hkeys i hi)
    fun i hi => hlength' ▸ hkeys' i hi

end Rendered

/-- **The preview draws every link.** The drawing of a score that compiles gets finished exactly if
the keys on its staves can be counted and their ledger lines end. In every finished one each slide and
each tie on tablature whose stave has a tablature view is drawn, and so is each tie on a staff: nothing
of a link is skipped. They come after the staves in the picture. -/
theorem links_drawn {setup : PageSetup} {directives : List Directive} {s : Session}
    (h : compileDirectives setup directives = .ok s) :
    let score := s.render.1.score
    ((Drawing.ofCalls s.render.2).Finishes ↔ ∃ bound, score.EndsWithin bound) ∧
      ∀ drawing, Drawing.ofCalls s.render.2 = .finished drawing →
        let placements := drawing.picture.placements
        (∀ l ∈ score.tabLinks, ∀ link, l.link? = some link →
            (∀ stave, score.staves[link.first.stave]? = some stave → stave.tab.isSome) →
              Drawn score placements .tab link) ∧
          (∀ l ∈ score.staffLinks, ∀ link, l.link? = some link →
            Drawn score placements .staff link) ∧
          ∃ (surface : Surface) (staves : List Element), drawing.document = surface.document
            (staves ++ (score.tabLinks.flatMap (tabLinkElements placements) ++
              score.staffLinks.flatMap (staffLinkElements placements))) := by
  have hcompiled : s.Linked := by
    rw [← (compileDirectives_eq_ok h).2]
    exact compile_induction .start .step setup directives
  have hrendered := Session.moves_render.steps.keeps Session.Linked.step hcompiled
  refine ⟨Drawing.finishes_iff s.finishStaves, fun drawing hfinished => ⟨?_, ?_, ?_⟩⟩
  · intro l hl link hlink hview
    exact drawn_of_joins hfinished (hrendered.linked.tab l hl link hlink) hview
  · intro l hl link hlink
    exact drawn_of_joinsStaff hfinished hrendered.aligned
      (hrendered.linked.staff l hl link hlink)
  · exact Drawing.document_eq_of_finished hfinished

/-- Three notes on both views, joined by a slide and a hammer-on. -/
def slideThenHammer : List Directive :=
  let note (fret : Nat) (articulation : Option Articulation) : NoteElement :=
    { time := none, dot := false, command := none, barName := none, parameters := none
      chord := none, articulation, decorator := none, fret := some (.number fret)
      string := some 2, letterPitch := none, octave := none, line := none, column := none }
  [{ keyword := "tabstave", options := [⟨"notation", "true", none, none⟩], settings := []
     notes := [note 3 none, note 5 (some .slide), note 7 (some .hammerOn)]
     text := [], line := none, column := none }]

/-- Both links have one pair of points on each view of the finished drawing. -/
theorem links_drawn_slideThenHammer :
    let slide : Link := ⟨⟨0, 0, 0⟩, ⟨0, 0, 1⟩, [0], [0]⟩
    let hammer : Link := ⟨⟨0, 0, 1⟩, ⟨0, 0, 2⟩, [0], [0]⟩
    ∃ s drawing, compileDirectives .standard slideThenHammer = .ok s ∧
      s.render.1.score.tabLinks = [.slide slide, .tie hammer "H"] ∧
      s.render.1.score.staffLinks = [.tie slide, .tie hammer] ∧
      Drawing.ofCalls s.render.2 = .finished drawing ∧
      let placements := drawing.picture.placements
      (linkPoints placements .tab slide).length = 1 ∧
        (linkPoints placements .tab hammer).length = 1 ∧
        (linkPoints placements .staff slide).length = 1 ∧
        (linkPoints placements .staff hammer).length = 1 := by
  intro slide hammer
  have compiles : compileDirectives .standard slideThenHammer = .ok _ := rfl
  obtain ⟨hfinishes, hdrawn⟩ := links_drawn compiles
  -- No key is off the lines of its staff.
  obtain ⟨drawing, hfinished⟩ := hfinishes.2 ⟨0, by decide +kernel⟩
  obtain ⟨tab, staff, -⟩ := hdrawn drawing hfinished
  have hhammer : TabLink.tie hammer "H" ∈ [.slide slide, .tie hammer "H"] := by simp
  have hhammer' : StaffLink.tie hammer ∈ [.tie slide, .tie hammer] := by simp
  have shown {stave found : Stave} (htab : stave.tab.isSome) (h : some stave = some found) :
      found.tab.isSome := Option.some.inj h ▸ htab
  refine ⟨_, drawing, compiles, rfl, rfl, hfinished, ?_, ?_, ?_, ?_⟩
  · exact (tab _ List.mem_cons_self slide rfl fun _ h => shown rfl h).count
  · exact (tab _ hhammer hammer rfl fun _ h => shown rfl h).count
  · exact (staff _ List.mem_cons_self slide rfl).count
  · exact (staff _ hhammer' hammer rfl).count

end Tablature.Preview
