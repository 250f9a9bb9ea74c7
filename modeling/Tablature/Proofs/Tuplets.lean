/-
# Tablature.Proofs.Tuplets — which notes a tuplet covers.

A tuplet is asked for over so many notes, but what is counted are objects: the last ones of the
voice in progress, bars among them. `Session.TupletCovers` says what it would be to cover notes: the
last notes and rests are scaled and bracketed on both views, bars are passed over, the bracket shows
notes and rests for good, and with fewer notes nothing happens but an error. This is what a tuplet
does exactly if no bar is among the objects that it counts, or if there are not even so many objects
(`tupletCovers_iff`); apart from a tuplet of two in the time of two that no view shows, which leaves
no trace wherever it lies.
-/
import Mathlib.Data.List.Perm.Subperm
import Tablature.Proofs.Anchors
import Tablature.Proofs.Facing
import Tablature.Proofs.Lasting
import Tablature.Proofs.Links

namespace Tablature

/-! ## Notes and rests of a voice -/

namespace Tickable

/-- Is the object a note or a rest? -/
def isPlayed : Tickable → Bool
  | tab _ | staff _ | spacer _ _ => true
  | bar _ | text _ => false

variable {t u : Tickable}

theorem bar?_of_isPlayed (h : t.isPlayed) : t.bar? = none := by
  cases t with
  | bar type => cases h
  | _ => rfl

theorem Later.isPlayed_eq (h : Later t u) : u.isPlayed = t.isPlayed := by
  cases h <;> rfl

theorem isPlayed_eq_of_faces (h : Faces t u) : u.isPlayed = t.isPlayed := by
  cases h <;> rfl

theorem ignoresTicks_of_isPlayed (h : t.isPlayed) : t.ignoresTicks = false := by
  cases t with
  | bar type => cases h
  | text n => cases h
  | _ => rfl

theorem ticks_scaleTicks (h : t.isPlayed) (factor : Ticks) :
    (t.scaleTicks factor).ticks = t.ticks * factor := by
  cases t with
  | bar type => cases h
  | text n => cases h
  | _ => exact (Rat.mul_assoc _ _ _).symm

/-- A note or a rest shows by what it is scaled. -/
theorem eq_one_of_scaleTicks (hplayed : t.isPlayed) (hlasts : t.Lasts) {factor : Ticks}
    (h : t.scaleTicks factor = t) : factor = 1 := by
  have hticks : t.ticks * factor = t.ticks := by rw [← ticks_scaleTicks hplayed, h]
  have hne : t.ticks ≠ 0 := (Rat.ne_of_lt (hlasts (ignoresTicks_of_isPlayed hplayed))).symm
  grind

theorem scaleTicks_one (t : Tickable) : t.scaleTicks 1 = t := by
  cases t <;> simp [scaleTicks]

end Tickable

/-- The places of the notes and rests of a voice. -/
def notePlaces (voice : List Tickable) : List Nat := indicesWhere Tickable.isPlayed voice 0

/-- The places of the last notes and rests of a voice. -/
def lastNotePlaces (count : Nat) (voice : List Tickable) : List Nat :=
  (notePlaces voice).drop ((notePlaces voice).length - count)

/-- The places of the last objects of a voice, whatever they are. -/
def lastPlaces (count : Nat) (voice : List Tickable) : List Nat :=
  List.range' (voice.length - count) count

/-- The last objects of a voice, whatever they are. -/
def lastObjects (count : Nat) (voice : List Tickable) : List Tickable :=
  voice.drop (voice.length - count)

/-- A voice with the time of the objects at some places multiplied. -/
def scaleAt (places : List Nat) (factor : Ticks) (voice : List Tickable) : List Tickable :=
  voice.mapIdx fun i t => if i ∈ places then t.scaleTicks factor else t

section Places

variable {voice : List Tickable} {count : Nat}

theorem mem_notePlaces {i : Nat} :
    i ∈ notePlaces voice ↔ ∃ t, voice[i]? = some t ∧ t.isPlayed := by
  rw [notePlaces, mem_indicesWhere]
  constructor
  · rintro ⟨j, t, rfl, ht, hplayed⟩
    exact ⟨t, by rwa [Nat.zero_add], hplayed⟩
  · rintro ⟨t, ht, hplayed⟩
    exact ⟨i, t, (Nat.zero_add i).symm, ht, hplayed⟩

theorem mem_of_mem_lastNotePlaces {i : Nat} (h : i ∈ lastNotePlaces count voice) :
    ∃ t, voice[i]? = some t ∧ t.isPlayed :=
  mem_notePlaces.1 (List.mem_of_mem_drop h)

theorem length_lastNotePlaces (h : count ≤ (notePlaces voice).length) :
    (lastNotePlaces count voice).length = count := by
  rw [lastNotePlaces, List.length_drop]
  omega

theorem nodup_lastNotePlaces : (lastNotePlaces count voice).Nodup :=
  ((pairwise_indicesWhere _ voice 0).imp Nat.ne_of_lt).drop

theorem length_notePlaces_le (voice : List Tickable) :
    (notePlaces voice).length ≤ voice.length := by
  have hsub : notePlaces voice ⊆ List.range voice.length := by
    intro i hi
    obtain ⟨t, ht, -⟩ := mem_notePlaces.1 hi
    exact List.mem_range.2 (List.getElem?_eq_some_iff.1 ht).1
  have hnodup : (notePlaces voice).Nodup := (pairwise_indicesWhere _ voice 0).imp Nat.ne_of_lt
  simpa using (hnodup.subperm hsub).length_le

theorem indicesWhere_append {α : Type} (p : α → Bool) (xs ys : List α) (start : Nat) :
    indicesWhere p (xs ++ ys) start =
      indicesWhere p xs start ++ indicesWhere p ys (start + xs.length) := by
  induction xs generalizing start with
  | nil => rfl
  | cons x xs ih =>
      rw [List.cons_append, indicesWhere, indicesWhere, ih, List.length_cons,
        Nat.add_assoc, Nat.add_comm 1]
      split <;> rfl

theorem indicesWhere_of_all {α : Type} {p : α → Bool} {xs : List α} (h : ∀ x ∈ xs, p x)
    (start : Nat) : indicesWhere p xs start = List.range' start xs.length := by
  induction xs generalizing start with
  | nil => rfl
  | cons x xs ih =>
      rw [indicesWhere, if_pos (h x List.mem_cons_self),
        ih fun y hy => h y (List.mem_cons_of_mem x hy)]
      rfl

/-- Without a bar among them the last objects are the last notes. -/
theorem lastNotePlaces_of_played (hle : count ≤ voice.length)
    (h : ∀ t ∈ lastObjects count voice, t.isPlayed) :
    count ≤ (notePlaces voice).length ∧
      lastNotePlaces count voice = lastPlaces count voice := by
  have hsplit : notePlaces voice =
      notePlaces (voice.take (voice.length - count)) ++ lastPlaces count voice := by
    have happend := indicesWhere_append Tickable.isPlayed (voice.take (voice.length - count))
      (lastObjects count voice) 0
    rw [lastObjects, List.take_append_drop, ← lastObjects, indicesWhere_of_all h, lastObjects,
      List.length_take, List.length_drop] at happend
    rw [notePlaces, happend, notePlaces, lastPlaces]
    congr 2 <;> omega
  have hlength : (notePlaces voice).length =
      (notePlaces (voice.take (voice.length - count))).length + count := by
    rw [hsplit, List.length_append, lastPlaces, List.length_range']
  refine ⟨by omega, ?_⟩
  rw [lastNotePlaces, hlength, Nat.add_sub_cancel]
  exact (congrArg _ hsplit).trans (List.drop_left)

/-- With a bar among them a note is missing, and one before them takes its place. -/
theorem exists_earlier_note (hle : count ≤ (notePlaces voice).length)
    (h : ¬ ∀ t ∈ lastObjects count voice, t.isPlayed) :
    ∃ i ∈ lastNotePlaces count voice, i ∉ lastPlaces count voice := by
  simp only [not_forall] at h
  obtain ⟨t, ht, hbar⟩ := h
  obtain ⟨k, hk⟩ := List.mem_iff_getElem?.1 ht
  rw [lastObjects, List.getElem?_drop] at hk
  have hk' := (List.getElem?_eq_some_iff.1 hk).1
  have hmem : voice.length - count + k ∈ lastPlaces count voice := by
    rw [lastPlaces, List.mem_range'_1]
    omega
  have hnodup : (lastPlaces count voice).Nodup := List.nodup_range'
  by_contra! hnone
  -- All places would be among the last ones but for that of the bar, and these are too few.
  have hsub : lastNotePlaces count voice ⊆
      (lastPlaces count voice).erase (voice.length - count + k) := by
    intro i hi
    obtain ⟨u, hu, hplayed⟩ := mem_of_mem_lastNotePlaces hi
    rw [hnodup.mem_erase_iff]
    refine ⟨?_, hnone i hi⟩
    rintro rfl
    cases hk.symm.trans hu
    exact hbar hplayed
  have hcount := (nodup_lastNotePlaces.subperm hsub).length_le
  rw [length_lastNotePlaces hle, List.length_erase_of_mem hmem, lastPlaces,
    List.length_range'] at hcount
  omega

theorem scaleAt_lastPlaces (hle : count ≤ voice.length) (factor : Ticks) :
    scaleAt (lastPlaces count voice) factor voice = Session.scaleLast count factor voice := by
  refine List.ext_getElem? fun i => ?_
  rw [scaleAt, List.getElem?_mapIdx, Session.scaleLast, List.getElem?_append, List.getElem?_map,
    List.getElem?_drop, List.getElem?_take, List.length_take, Nat.min_eq_left (Nat.sub_le _ _)]
  by_cases hi : i < voice.length - count
  · rw [if_pos hi, if_pos hi]
    cases voice[i]? with
    | none => rfl
    | some t =>
        rw [Option.map_some, if_neg (by rw [lastPlaces, List.mem_range'_1]; omega)]
  · rw [if_neg hi, Nat.add_sub_cancel' (Nat.le_of_not_lt hi)]
    cases h : voice[i]? with
    | none => rfl
    | some t =>
        have hlt := (List.getElem?_eq_some_iff.1 h).1
        rw [Option.map_some, Option.map_some,
          if_pos (by rw [lastPlaces, List.mem_range'_1]; omega)]

theorem scaleAt_one (places : List Nat) (voice : List Tickable) :
    scaleAt places 1 voice = voice := by
  refine List.ext_getElem? fun i => ?_
  rw [scaleAt, List.getElem?_mapIdx]
  cases voice[i]? with
  | none => rfl
  | some t => rw [Option.map_some, Tickable.scaleTicks_one, ite_self]

/-- Scaled by one, it cannot be told which places are scaled; otherwise notes tell it. -/
theorem eq_one_of_scaleAt_eq (hlasts : VoiceLasts voice) {places places' : List Nat} {i : Nat}
    (hi : i ∈ places) (hi' : i ∉ places') {t : Tickable} (ht : voice[i]? = some t)
    (hplayed : t.isPlayed) {factor : Ticks}
    (h : scaleAt places factor voice = scaleAt places' factor voice) : factor = 1 := by
  have hat := congrArg (·[i]?) h
  simp only [scaleAt, List.getElem?_mapIdx, ht, Option.map_some, if_pos hi, if_neg hi'] at hat
  exact Tickable.eq_one_of_scaleTicks hplayed (hlasts t (List.mem_of_getElem? ht))
    (Option.some.inj hat)

end Places

/-! ## Tuplets -/

namespace Session

/-- The bracket of a tuplet over some places of a voice. -/
def bracketOver (address : Nat → NoteRef) (places : List Nat) (tuplets : Nat) : Tuplet :=
  { notes := places.map address
    count := tuplets
    occupied := tupletOccupies }

/-- How much longer the notes of a tuplet last. -/
def tupletFactor (tuplets : Nat) : Ticks := (tupletOccupies : Ticks) / (tuplets : Ticks)

theorem tupletFactor_eq_one {tuplets : Nat} (h : 0 < tuplets) :
    tupletFactor tuplets = 1 ↔ tuplets = tupletOccupies := by
  have hne : (tuplets : Ticks) ≠ 0 := (Rat.ne_of_lt (Rat.natCast_pos.2 h)).symm
  have hcast : (tupletOccupies : Ticks) = tuplets ↔ tupletOccupies = tuplets := Rat.natCast_inj
  rw [tupletFactor, eq_comm (a := tuplets), ← hcast]
  constructor
  · intro hone
    rw [← Rat.div_mul_cancel (a := (tupletOccupies : Ticks)) hne, hone, Rat.one_mul]
  · intro heq
    rw [heq, Rat.div_def, Rat.mul_inv_cancel _ hne]

/-- A tuplet over some places of the voice in progress: on both views the objects there are scaled
and no others, and every bracket that is drawn is over these places. -/
structure Brackets (s : Session) (a : Stave) (tuplets : Nat) (places : List Nat) (t : Session) :
    Prop where
  active : t.score.active = some { a with
    tabNotes := scaleAt places (tupletFactor tuplets) a.tabNotes
    staffNotes := scaleAt places (tupletFactor tuplets) a.staffNotes }
  tabLinks : t.score.tabLinks = s.score.tabLinks ++
    if s.settings.tabStems then [.tuplet (bracketOver (s.tabAddress a) places tuplets)] else []
  staffLinks : t.score.staffLinks = s.score.staffLinks ++
    if a.staff.isSome then [.tuplet (bracketOver (s.staffAddress a) places tuplets)] else []

/-- A tuplet over notes: whatever is written afterwards or drawn, there is a note or a rest at each
of its places. -/
structure Covers (s : Session) (a : Stave) (tuplets : Nat) (places : List Nat) (t : Session) : Prop
    extends s.Brackets a tuplets places t where
  onTab : ∀ i ∈ places, ∀ later : List Event, .reset ∉ later →
    ∃ x, (t.follow later).score.tabNote? (s.tabAddress a i) = some x ∧ x.isPlayed
  onStaff : a.staff.isSome → ∀ i ∈ places, ∀ later : List Event, .reset ∉ later →
    ∃ x, (t.follow later).score.staffNote? (s.staffAddress a i) = some x ∧ x.isPlayed

/-- **What it is for a tuplet to cover notes.** With enough notes and rests in the voice in
progress it is over the last ones, and without it is refused and nothing is changed. -/
def TupletCovers (s : Session) (a : Stave) (tuplets count : Nat) : Prop :=
  let made := s.makeTuplets tuplets (some count)
  if count ≤ (notePlaces a.tabNotes).length then
    made.fault = none ∧ s.Covers a tuplets (lastNotePlaces count a.tabNotes) made.state
  else ∃ cause, made = .stopped s cause ∧ cause.kind = .arity

/-- A tuplet that takes its usual time and is drawn on no view. -/
def LeavesNoTrace (s : Session) (a : Stave) (tuplets : Nat) : Prop :=
  tuplets = tupletOccupies ∧ a.staff = none ∧ s.settings.tabStems = false

section Bracket

variable {s t : Session} {a : Stave} {tuplets count : Nat} {places places' : List Nat}

theorem active_bracket (ha : s.score.active = some a) :
    (s.bracket a tuplets count).score.active = some { a with
      tabNotes := scaleLast count (tupletFactor tuplets) a.tabNotes
      staffNotes := scaleLast count (tupletFactor tuplets) a.staffNotes } := by
  unfold bracket
  dsimp only
  split <;> split <;>
    simp [addTabLink, addStaffLink, onStaffNotes, onTabNotes, onActive, Score.onActive, ha,
      tupletFactor]

theorem tabLinks_bracket :
    (s.bracket a tuplets count).score.tabLinks = s.score.tabLinks ++
      if s.settings.tabStems then [.tuplet (s.tabTuplet a tuplets count)] else [] := by
  unfold bracket
  dsimp only
  split <;> split <;>
    simp [addTabLink, addStaffLink, onStaffNotes, onTabNotes, onActive, Score.onActive]

theorem staffLinks_bracket :
    (s.bracket a tuplets count).score.staffLinks = s.score.staffLinks ++
      if a.staff.isSome then [.tuplet (s.staffTuplet a tuplets count)] else [] := by
  unfold bracket
  dsimp only
  split <;> split <;>
    simp [addTabLink, addStaffLink, onStaffNotes, onTabNotes, onActive, Score.onActive]

theorem tupletOf_eq (address : Nat → NoteRef) (start : Nat) :
    tupletOf address start tuplets count =
      bracketOver address (List.range' start count) tuplets := by
  rw [tupletOf, bracketOver, List.range'_eq_map_range, List.map_map]
  rfl

theorem tupletRoom_of_aligned (h : a.Aligned) : tupletRoom a = a.tabNotes.length := by
  unfold tupletRoom
  split
  · exact (h.notes ‹_›).length_eq.symm
  · rfl

/-- A tuplet counts the objects of the voice in progress. -/
theorem makeTuplets_eq (ha : s.score.active = some a) (h : a.Aligned) (htuplets : 0 < tuplets)
    (hcount : 0 < count) :
    s.makeTuplets tuplets (some count) =
      if a.tabNotes.length < count then .stopped s .tooFewNotesForTuplet
      else .done (s.bracket a tuplets count) := by
  have hgiven : ¬ (decide (tuplets = 0) || decide (count = 0)) = true := by simp; omega
  rw [makeTuplets]
  dsimp only [Option.getD_some]
  rw [if_neg hgiven, withStave, ha]
  dsimp only
  rw [tupletRoom_of_aligned h]

/-- Where there is a note or a rest, there will always be one after the tuplet. -/
theorem played_later (resolve : Score → Option Tickable)
    (keep : ∀ {u v : Score} {x}, u.Continues v → resolve u = some x → x.bar? = none →
      ∃ y, resolve v = some y ∧ x.Later y)
    {later : List Event} (hlater : .reset ∉ later) {x : Tickable} (hx : resolve s.score = some x)
    (hplayed : x.isPlayed) :
    ∃ y, resolve ((s.makeTuplets tuplets (some count)).state.follow later).score = some y ∧
      y.isPlayed := by
  have hmoves : Moves s ((s.makeTuplets tuplets (some count)).state.follow later) :=
    (moves_makeTuplets tuplets (some count)).trans (moves_follow hlater _)
  refine hmoves.keeps (P := fun u => ∃ y, resolve u.score = some y ∧ y.isPlayed) ?_
    ⟨x, hx, hplayed⟩
  rintro u v hmove ⟨y, hy, hyplayed⟩
  obtain ⟨z, hz, hlater⟩ := keep hmove.continues hy (Tickable.bar?_of_isPlayed hyplayed)
  exact ⟨z, hz, hlater.isPlayed_eq.trans hyplayed⟩

/-- A bracket tells which places it is over. -/
theorem places_of_bracketOver_eq {address : Nat → NoteRef} (hindex : ∀ i, (address i).index = i)
    {places places' : List Nat}
    (h : bracketOver address places tuplets = bracketOver address places' tuplets) :
    places = places' := by
  have hback (places : List Nat) : (places.map address).map NoteRef.index = places := by
    simp [Function.comp_def, hindex]
  rw [← hback places, ← hback places']
  exact congrArg (fun bracket : Tuplet => bracket.notes.map NoteRef.index) h

namespace Brackets

theorem of_leavesNoTrace (h : s.Brackets a tuplets places t) (htrace : s.LeavesNoTrace a tuplets)
    (places' : List Nat) : s.Brackets a tuplets places' t := by
  obtain ⟨rfl, hstaff, hstems⟩ := htrace
  have hfactor : tupletFactor tupletOccupies = 1 := (tupletFactor_eq_one (by decide)).2 rfl
  obtain ⟨hactive, htab, honstaff⟩ := h
  refine ⟨?_, ?_, ?_⟩
  · rw [hactive, hfactor]
    simp only [scaleAt_one]
  · rw [htab, hstems]
    rfl
  · rw [honstaff, hstaff]
    rfl

/-- If a tuplet can be said to be over two lists of places, one with a note that the other misses,
then it leaves no trace. -/
theorem leavesNoTrace (h : s.Brackets a tuplets places t) (h' : s.Brackets a tuplets places' t)
    (hlasts : VoiceLasts a.tabNotes) (htuplets : 0 < tuplets) {i : Nat} (hi : i ∈ places)
    (hi' : i ∉ places') {x : Tickable} (hx : a.tabNotes[i]? = some x) (hplayed : x.isPlayed) :
    s.LeavesNoTrace a tuplets := by
  have hne : places ≠ places' := by
    rintro rfl
    exact hi' hi
  refine ⟨?_, ?_, ?_⟩
  · have hnotes := congrArg (·.map Stave.tabNotes) (h.active.symm.trans h'.active)
    exact (tupletFactor_eq_one htuplets).1
      (eq_one_of_scaleAt_eq hlasts hi hi' hx hplayed (Option.some.inj hnotes))
  · by_contra hstaff
    have hsome : a.staff.isSome := Option.isSome_iff_ne_none.2 hstaff
    have hlinks := List.append_cancel_left (h.staffLinks.symm.trans h'.staffLinks)
    rw [if_pos hsome, if_pos hsome] at hlinks
    simp only [List.cons.injEq, StaffLink.tuplet.injEq, and_true] at hlinks
    exact hne (places_of_bracketOver_eq (fun _ => rfl) hlinks)
  · by_contra hstems
    have htrue : s.settings.tabStems = true := by simpa using hstems
    have hlinks := List.append_cancel_left (h.tabLinks.symm.trans h'.tabLinks)
    rw [if_pos htrue, if_pos htrue] at hlinks
    simp only [List.cons.injEq, TabLink.tuplet.injEq, and_true] at hlinks
    exact hne (places_of_bracketOver_eq (fun _ => rfl) hlinks)

end Brackets

/-- A tuplet is over the last objects. -/
theorem brackets_bracket (ha : s.score.active = some a) (h : a.Aligned)
    (hle : count ≤ a.tabNotes.length) :
    s.Brackets a tuplets (lastPlaces count a.tabNotes) (s.bracket a tuplets count) := by
  have hplaces (hstaff : a.staff.isSome) :
      lastPlaces count a.staffNotes = lastPlaces count a.tabNotes := by
    rw [lastPlaces, lastPlaces, (h.notes hstaff).length_eq]
  refine ⟨?_, ?_, ?_⟩
  · have hstaff : scaleLast count (tupletFactor tuplets) a.staffNotes =
        scaleAt (lastPlaces count a.tabNotes) (tupletFactor tuplets) a.staffNotes := by
      cases hview : a.staff with
      | none =>
          rw [(h.unwritten hview).2]
          simp [scaleLast, scaleAt]
      | some view =>
          have hsome : a.staff.isSome := by rw [hview]; rfl
          rw [← hplaces hsome, scaleAt_lastPlaces ((h.notes hsome).length_eq ▸ hle)]
    rw [active_bracket ha, scaleAt_lastPlaces hle, hstaff]
  · rw [tabLinks_bracket, tabTuplet, tupletOf_eq]
    rfl
  · rw [staffLinks_bracket, staffTuplet, tupletOf_eq]
    split
    · rw [← hplaces ‹_›]
      rfl
    · rfl

/-- The places of notes and rests stay so in every score that continues this one. -/
theorem Brackets.covers (h : s.Brackets a tuplets places (s.makeTuplets tuplets (some count)).state)
    (ha : s.score.active = some a) (haligned : a.Aligned)
    (hplayed : ∀ i ∈ places, ∃ x, a.tabNotes[i]? = some x ∧ x.isPlayed) :
    s.Covers a tuplets places (s.makeTuplets tuplets (some count)).state where
  toBrackets := h
  onTab := fun i hi later hlater => by
    obtain ⟨x, hx, hxplayed⟩ := hplayed i hi
    exact played_later (fun u => u.tabNote? (s.tabAddress a i)) (fun hkeep => hkeep.tabNote?)
      hlater ((tabNote?_tabAddress ha i).trans hx) hxplayed
  onStaff := fun hstaff i hi later hlater => by
    obtain ⟨x, hx, hxplayed⟩ := hplayed i hi
    obtain ⟨y, hy, hfaces⟩ := forall₂_getElem? (haligned.notes hstaff) hx
    exact played_later (fun u => u.staffNote? (s.staffAddress a i)) (fun hkeep => hkeep.staffNote?)
      hlater ((staffNote?_staffAddress ha i).trans hy)
      ((Tickable.isPlayed_eq_of_faces hfaces).trans hxplayed)

/-- With fewer objects, hence fewer notes, a tuplet is refused. -/
theorem tupletCovers_of_lt (hlt : a.tabNotes.length < count)
    (hmade : s.makeTuplets tuplets (some count) = .stopped s .tooFewNotesForTuplet) :
    s.TupletCovers a tuplets count := by
  have hnotes := length_notePlaces_le a.tabNotes
  rw [TupletCovers, if_neg (by omega)]
  exact ⟨_, hmade, rfl⟩

/-- With objects enough, but not notes, the tuplet is made all the same. -/
theorem not_tupletCovers_of_few (hfew : (notePlaces a.tabNotes).length < count)
    (hmade : s.makeTuplets tuplets (some count) = .done (s.bracket a tuplets count)) :
    ¬ s.TupletCovers a tuplets count := by
  rw [TupletCovers, if_neg (by omega)]
  rintro ⟨cause, hstopped, -⟩
  rw [hmade] at hstopped
  cases congrArg Outcome.fault hstopped

/-- With notes enough, the last objects have to be notes, unless it cannot be told which are
covered. -/
theorem tupletCovers_iff_of_enough (ha : s.score.active = some a) (haligned : a.Aligned)
    (hlasts : VoiceLasts a.tabNotes) (htuplets : 0 < tuplets) (hle : count ≤ a.tabNotes.length)
    (henough : count ≤ (notePlaces a.tabNotes).length)
    (hmade : s.makeTuplets tuplets (some count) = .done (s.bracket a tuplets count)) :
    s.TupletCovers a tuplets count ↔
      (∀ x ∈ lastObjects count a.tabNotes, x.isPlayed) ∨ s.LeavesNoTrace a tuplets := by
  have hbrackets : s.Brackets a tuplets (lastPlaces count a.tabNotes)
      (s.makeTuplets tuplets (some count)).state := by
    rw [hmade]
    exact brackets_bracket ha haligned hle
  rw [TupletCovers, if_pos henough, and_iff_right (by rw [hmade]; rfl)]
  constructor
  · intro hcovers
    by_contra! hnot
    obtain ⟨i, hi, hi'⟩ := exists_earlier_note henough (by simpa using hnot.1)
    obtain ⟨x, hx, hplayed⟩ := mem_of_mem_lastNotePlaces hi
    exact hnot.2 (hcovers.toBrackets.leavesNoTrace hbrackets hlasts htuplets hi hi' hx hplayed)
  · rintro (hplayed | htrace)
    · have hplaces := (lastNotePlaces_of_played hle hplayed).2
      rw [hplaces]
      exact hbrackets.covers ha haligned fun i hi => mem_of_mem_lastNotePlaces (hplaces ▸ hi)
    · exact (hbrackets.of_leavesNoTrace htrace _).covers ha haligned fun i =>
        mem_of_mem_lastNotePlaces

end Bracket

/-- **When tuplets cover notes.** With a stave open, after whatever events, a tuplet covers the last
notes and rests, and is refused when there are too few, exactly if there are not even so many
objects, or if no bar is among the last ones, or if there are notes enough and the tuplet leaves no
trace. -/
theorem tupletCovers_iff (setup : PageSetup) (events : List Event) {a : Stave}
    (ha : (Session.follow events (.start setup)).score.active = some a) {tuplets count : Nat}
    (htuplets : 0 < tuplets) (hcount : 0 < count) :
    (Session.follow events (.start setup)).TupletCovers a tuplets count ↔
      a.tabNotes.length < count ∨ (∀ x ∈ lastObjects count a.tabNotes, x.isPlayed) ∨
        ((Session.follow events (.start setup)).LeavesNoTrace a tuplets ∧
          count ≤ (notePlaces a.tabNotes).length) := by
  have hmem : a ∈ (Session.follow events (.start setup)).score.staves := by
    simp [Score.staves, ha]
  have haligned : a.Aligned :=
    follow_induction (P := Session.Aligned) .start .step setup events a hmem
  have hlasts : VoiceLasts a.tabNotes :=
    (follow_induction (P := Session.Lasts) .start .step setup events a hmem).tabNotes
  have hmade := makeTuplets_eq ha haligned htuplets hcount
  rcases Nat.lt_or_ge a.tabNotes.length count with hlt | hle
  · rw [if_pos hlt] at hmade
    exact iff_of_true (tupletCovers_of_lt hlt hmade) (.inl hlt)
  · rw [if_neg (by omega)] at hmade
    rw [or_iff_right (by omega)]
    rcases Nat.lt_or_ge (notePlaces a.tabNotes).length count with hfew | henough
    · refine iff_of_false (not_tupletCovers_of_few hfew hmade) ?_
      rintro (hplayed | ⟨-, henough⟩)
      · have henough := (lastNotePlaces_of_played hle hplayed).1
        omega
      · omega
    · rw [and_iff_left henough]
      exact tupletCovers_iff_of_enough ha haligned hlasts htuplets hle henough hmade

/-- Three in the time of two, over two notes behind a bar. -/
theorem tupletCovers_twoNotes :
    let s := (start .standard).follow
      (.stave (.defaults .implicit) :: .bar .single :: [.rest 0, .rest 0])
    ∃ a, s.score.active = some a ∧ notePlaces a.tabNotes = [1, 2] ∧ 0 < 3 ∧ 0 < 2 ∧
      s.TupletCovers a 3 2 := by
  intro s
  refine ⟨_, rfl, by decide, by decide, by decide, ?_⟩
  exact (tupletCovers_iff .standard _ rfl (by decide) (by decide)).2 (.inr (.inl (by decide)))

/-- A tuplet over two notes is made where there is one note and a bar, and the bar is the second
place of it. -/
theorem not_tupletCovers_bar :
    let s := (start .standard).follow (onFirstString [(.number 5, false)] ++ [.bar .single])
    ∃ a, s.score.active = some a ∧ (notePlaces a.tabNotes).length = 1 ∧
      s.makeTuplets 3 (some 2) = .done (s.bracket a 3 2) ∧
      (s.tabTuplet a 3 2).notes = [⟨0, 0, 0⟩, ⟨0, 0, 1⟩] ∧
      s.score.tabNote? ⟨0, 0, 1⟩ = some (.bar .single) ∧ ¬ s.TupletCovers a 3 2 := by
  intro s
  refine ⟨_, rfl, by decide, rfl, rfl, rfl, ?_⟩
  rw [TupletCovers, if_neg (by decide)]
  rintro ⟨cause, hstopped, -⟩
  cases congrArg Outcome.fault hstopped

end Session

end Tablature
