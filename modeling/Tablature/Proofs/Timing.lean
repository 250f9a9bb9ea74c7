/-
# Tablature.Proofs.Timing — when every object of a score is played.

An object that takes time starts when those before it in its voice have ended. All voices of a stave
start together, and a stave starts when the longest voices of the staves before it have ended.
`Timetable.onsets` lists these starts in the order of staves, voices and slots. Building a timetable
inserts them one after the other (`events_build`), and an ordered list of groups after some
insertions holds exactly what was inserted, in this order (`Collects`). Where whatever takes time
takes some, the staves fill stretches of time that do not meet, so no group holds two of them
(`tells_build`).
-/
import Mathlib.Data.List.Induction
import Tablature.Proofs.Sound

namespace Tablature

/-! ## Starts -/

/-- An object starts: the number of its stave, the tick, and what it sounds. -/
structure Onset where
  stave : Nat
  tick : Ticks
  note : ScheduledNote

/-- The objects of a voice that take time. -/
def timed (voice : List Tickable) : List Tickable := voice.filter (! ·.ignoresTicks)

namespace Timetable

/-- The starts in a voice: each object that takes time starts when those before it have ended. -/
def voiceOnsets (stave : Nat) (start : Ticks) (voice : List Tickable) : List Onset :=
  (timed voice).mapIdx fun i t => ⟨stave, start + voiceTicks ((timed voice).take i), .of t⟩

/-- The tick at which a stave starts: the longest voices of those before it have ended. -/
def staveStart (staves : List (List (List Tickable))) (i : Nat) : Ticks :=
  .sum ((staves.take i).map longest)

/-- All starts, in the order of staves, voices and slots. -/
def onsets (staves : List (List (List Tickable))) : List Onset :=
  (staves.mapIdx fun i voices => voices.flatMap (voiceOnsets i (staveStart staves i))).flatten

/-- What a timetable says of the played voices of some staves. -/
structure Tells (staves : List (List (List Tickable))) (t : Timetable) : Prop where
  rising : (t.events.map TickGroup.tick).Pairwise (· < ·)
  /-- A group holds all that starts at its tick, and nothing else, in order. -/
  exactly : ∀ g ∈ t.events,
    g.notes = ((onsets staves).filter (·.tick = g.tick)).map Onset.note
  /-- Whatever starts has a group. -/
  complete : ∀ o ∈ onsets staves, ∃ g ∈ t.events, g.tick = o.tick
  /-- Every group holds something. -/
  sounding : ∀ g ∈ t.events, g.notes ≠ []
  total : t.total = .sum (staves.map longest)
  before : ∀ g ∈ t.events, g.tick < t.total
  /-- What is in a group starts on one stave. -/
  together : ∀ g ∈ t.events, ∃ i, ∀ o ∈ onsets staves, o.tick = g.tick → o.stave = i

/-! ## Groups after some insertions -/

/-- The notes at a tick. -/
def notesAt (tick : Ticks) (groups : List TickGroup) : List ScheduledNote :=
  (groups.filter (·.tick = tick)).flatMap TickGroup.notes

/-- The groups with one more start. -/
def collect (groups : List TickGroup) (o : Onset) : List TickGroup :=
  TickGroup.insert o.tick o.note groups

/-- Groups, ticks rising, that hold what starts at their ticks. -/
structure Collects (os : List Onset) (groups : List TickGroup) : Prop where
  rising : (groups.map TickGroup.tick).Pairwise (· < ·)
  ticks : ∀ tick, tick ∈ groups.map TickGroup.tick ↔ tick ∈ os.map Onset.tick
  notes : ∀ tick, notesAt tick groups = (os.filter (·.tick = tick)).map Onset.note

variable {tick : Ticks} {note : ScheduledNote} {groups : List TickGroup}

theorem mem_ticks_insert {x : Ticks} :
    x ∈ (TickGroup.insert tick note groups).map TickGroup.tick ↔
      x = tick ∨ x ∈ groups.map TickGroup.tick := by
  induction groups with
  | nil => simp [TickGroup.insert]
  | cons g groups ih =>
      rw [TickGroup.insert]
      split
      · simp
      · split
        · rename_i heq
          simp [heq]
        · rw [List.map_cons, List.mem_cons, ih, List.map_cons, List.mem_cons]
          exact or_left_comm

theorem rising_insert (h : (groups.map TickGroup.tick).Pairwise (· < ·)) :
    ((TickGroup.insert tick note groups).map TickGroup.tick).Pairwise (· < ·) := by
  induction groups with
  | nil => simp [TickGroup.insert]
  | cons g groups ih =>
      obtain ⟨hfirst, hrest⟩ := List.pairwise_cons.1 h
      rw [TickGroup.insert]
      split
      · rename_i hlt
        refine List.pairwise_cons.2 ⟨fun x hx => ?_, h⟩
        rcases List.mem_cons.1 hx with rfl | hx
        · exact hlt
        · exact Std.lt_trans hlt (hfirst x hx)
      · rename_i hnot
        split
        · rename_i heq
          exact List.pairwise_cons.2 ⟨fun x hx => heq ▸ hfirst x hx, hrest⟩
        · rename_i hne
          refine List.pairwise_cons.2 ⟨fun x hx => ?_, ih hrest⟩
          rcases mem_ticks_insert.1 hx with rfl | hx
          · exact Rat.lt_of_le_of_ne (Rat.not_lt.1 hnot) (Ne.symm hne)
          · exact hfirst x hx

/-- Before the first group nothing is played. -/
theorem notesAt_of_lt (h : ∀ x ∈ groups.map TickGroup.tick, tick < x) :
    notesAt tick groups = [] := by
  have hnone : groups.filter (·.tick = tick) = [] := by
    refine List.filter_eq_nil_iff.2 fun g hg => ?_
    have hlt := h g.tick (List.mem_map_of_mem hg)
    simpa using Rat.ne_of_gt hlt
  rw [notesAt, hnone, List.flatMap_nil]

theorem notesAt_nil : notesAt tick [] = [] := rfl

theorem notesAt_cons (g : TickGroup) :
    notesAt tick (g :: groups) =
      (if g.tick = tick then g.notes else []) ++ notesAt tick groups := by
  rw [notesAt, List.filter_cons]
  split <;> simp_all [notesAt]

theorem notesAt_insert (h : (groups.map TickGroup.tick).Pairwise (· < ·)) (x : Ticks) :
    notesAt x (TickGroup.insert tick note groups) =
      notesAt x groups ++ if tick = x then [note] else [] := by
  induction groups with
  | nil => simp [TickGroup.insert, notesAt_cons, notesAt_nil]
  | cons g groups ih =>
      obtain ⟨hfirst, hrest⟩ := List.pairwise_cons.1 h
      rw [TickGroup.insert]
      split
      · rename_i hlt
        rw [notesAt_cons]
        by_cases hx : tick = x
        · -- Every group is later, so the new note is alone.
          subst hx
          have hlater : ∀ y ∈ (g :: groups).map TickGroup.tick, tick < y := by
            intro y hy
            rcases List.mem_cons.1 hy with rfl | hy
            · exact hlt
            · exact Std.lt_trans hlt (hfirst y hy)
          simp [notesAt_of_lt hlater]
        · simp [hx]
      · split
        · rename_i heq
          rw [notesAt_cons, notesAt_cons, heq]
          by_cases hx : g.tick = x
          · -- The group is the only one at its tick.
            have hlater : notesAt x groups = [] := notesAt_of_lt (hx ▸ hfirst)
            simp [hx, hlater]
          · simp [hx]
        · rw [notesAt_cons, notesAt_cons, ih hrest, List.append_assoc]

/-- With ticks rising, a group holds all notes at its tick. -/
theorem notesAt_of_mem (h : (groups.map TickGroup.tick).Pairwise (· < ·)) {g : TickGroup}
    (hg : g ∈ groups) : notesAt g.tick groups = g.notes := by
  induction groups with
  | nil => cases hg
  | cons first groups ih =>
      obtain ⟨hfirst, hrest⟩ := List.pairwise_cons.1 h
      rw [notesAt_cons]
      rcases List.mem_cons.1 hg with rfl | hg
      · rw [if_pos rfl, notesAt_of_lt hfirst, List.append_nil]
      · have hlt := hfirst g.tick (List.mem_map_of_mem hg)
        rw [if_neg (Rat.ne_of_lt hlt), ih hrest hg, List.nil_append]

namespace Collects

variable {os : List Onset}

theorem nil : Collects [] [] := ⟨.nil, fun _ => Iff.rfl, fun _ => rfl⟩

/-- One more start. -/
theorem snoc (h : Collects os groups) (o : Onset) : Collects (os ++ [o]) (collect groups o) where
  rising := rising_insert h.rising
  ticks := fun x => by
    rw [collect, mem_ticks_insert, h.ticks, List.map_append, List.mem_append, List.map_singleton,
      List.mem_singleton]
    exact or_comm
  notes := fun x => by
    rw [collect, notesAt_insert h.rising, h.notes, List.filter_append, List.map_append]
    congr 1
    by_cases hx : o.tick = x <;> simp [hx]

/-- Any number of starts, one after the other. -/
theorem foldl (os : List Onset) : Collects os (os.foldl collect []) := by
  induction os using List.reverseRecOn with
  | nil => exact .nil
  | append_singleton os o ih =>
      rw [List.foldl_append]
      exact ih.snoc o

theorem eq_of_mem (h : Collects os groups) {g : TickGroup} (hg : g ∈ groups) :
    g.notes = (os.filter (·.tick = g.tick)).map Onset.note := by
  rw [← h.notes, notesAt_of_mem h.rising hg]

theorem exists_onset (h : Collects os groups) {g : TickGroup} (hg : g ∈ groups) :
    ∃ o ∈ os, o.tick = g.tick :=
  List.mem_map.1 ((h.ticks g.tick).1 (List.mem_map_of_mem hg))

end Collects

/-! ## The starts of a score -/

theorem voiceOnsets_of_ignoresTicks {t : Tickable} (h : t.ignoresTicks) (stave : Nat)
    (start : Ticks) (voice : List Tickable) :
    voiceOnsets stave start (t :: voice) = voiceOnsets stave start voice := by
  simp [voiceOnsets, timed, h]

theorem voiceOnsets_cons {t : Tickable} (h : t.ignoresTicks = false) (stave : Nat)
    (start : Ticks) (voice : List Tickable) :
    voiceOnsets stave start (t :: voice) =
      ⟨stave, start, .of t⟩ :: voiceOnsets stave (start + t.ticks) voice := by
  have htimed : timed (t :: voice) = t :: timed voice := by simp [timed, h]
  have hstart : start + voiceTicks ((t :: timed voice).take 0) = start := Rat.add_zero start
  rw [voiceOnsets, htimed, List.mapIdx_cons, hstart]
  simp [voiceOnsets, voiceTicks, Rat.add_assoc]

/-- A voice is played by inserting its starts. -/
theorem addVoice_eq_foldl (stave : Nat) (now : Ticks) (groups : List TickGroup)
    (voice : List Tickable) :
    addVoice now groups voice = (voiceOnsets stave now voice).foldl collect groups := by
  induction voice generalizing now groups with
  | nil => rfl
  | cons t voice ih =>
      rw [addVoice]
      split
      · rw [voiceOnsets_of_ignoresTicks ‹_›, ih]
      · rename_i htakes
        rw [Bool.not_eq_true] at htakes
        rw [voiceOnsets_cons htakes, List.foldl_cons, ih]
        rfl

theorem events_addStave (t : Timetable) (stave : Nat) (voices : List (List Tickable)) :
    (t.addStave voices).events =
      (voices.flatMap (voiceOnsets stave t.total)).foldl collect t.events := by
  rw [addStave, List.foldl_flatMap]
  simp only [← addVoice_eq_foldl]

theorem staveStart_append (staves : List (List (List Tickable))) (voices : List (List Tickable))
    {i : Nat} (h : i ≤ staves.length) :
    staveStart (staves ++ [voices]) i = staveStart staves i := by
  rw [staveStart, staveStart, List.take_append_of_le_length h]

theorem onsets_append (staves : List (List (List Tickable))) (voices : List (List Tickable)) :
    onsets (staves ++ [voices]) =
      onsets staves ++
        voices.flatMap (voiceOnsets staves.length (.sum (staves.map longest))) := by
  -- A stave starts when those before it have ended, whatever comes after it.
  have hsame : staves.mapIdx (fun i voices' =>
        voices'.flatMap (voiceOnsets i (staveStart (staves ++ [voices]) i))) =
      staves.mapIdx fun i voices' => voices'.flatMap (voiceOnsets i (staveStart staves i)) := by
    refine List.ext_getElem? fun i => ?_
    rw [List.getElem?_mapIdx, List.getElem?_mapIdx]
    cases hi : staves[i]? with
    | none => rfl
    | some voices' =>
        have hle : i ≤ staves.length := Nat.le_of_lt (List.getElem?_eq_some_iff.1 hi).1
        rw [Option.map_some, Option.map_some, staveStart_append staves voices hle]
  have hlast : staveStart (staves ++ [voices]) staves.length = .sum (staves.map longest) := by
    rw [staveStart_append staves voices (Nat.le_refl _), staveStart, List.take_length]
  rw [onsets, List.mapIdx_concat, hsame, hlast, List.flatten_append, List.flatten_singleton]
  rfl

theorem build_append (staves : List (List (List Tickable))) (voices : List (List Tickable)) :
    build (staves ++ [voices]) = (build staves).addStave voices := by
  rw [build, List.foldl_append]
  rfl

theorem total_build (staves : List (List (List Tickable))) :
    (build staves).total = .sum (staves.map longest) := by
  induction staves using List.reverseRecOn with
  | nil => rfl
  | append_singleton staves voices ih =>
      rw [build_append, addStave, ih, List.map_append, Ticks.sum_append, List.map_singleton,
        Ticks.sum_singleton]

/-- **A timetable is built by inserting what starts**, one object after the other. -/
theorem events_build (staves : List (List (List Tickable))) :
    (build staves).events = (onsets staves).foldl collect [] := by
  induction staves using List.reverseRecOn with
  | nil => rfl
  | append_singleton staves voices ih =>
      rw [build_append, events_addStave _ staves.length, total_build, ih, onsets_append,
        List.foldl_append]

/-! ## Stretches of time -/

end Timetable

/-- An object that takes time takes some. -/
def Tickable.Lasts (t : Tickable) : Prop := t.ignoresTicks = false → 0 < t.ticks

namespace Tickable.Lasts

variable {t : Tickable}

theorem ticks_nonneg (h : t.Lasts) : 0 ≤ t.ticks := by
  cases htakes : t.ignoresTicks with
  | true => exact Std.le_of_eq (ticks_of_ignoresTicks htakes).symm
  | false => exact Rat.le_of_lt (h htakes)

end Tickable.Lasts

theorem voiceTicks_cons (t : Tickable) (voice : List Tickable) :
    voiceTicks (t :: voice) = t.ticks + voiceTicks voice := by
  rw [voiceTicks, List.map_cons, Ticks.sum_cons, voiceTicks]

theorem voiceTicks_nonneg {voice : List Tickable} (h : ∀ t ∈ voice, t.Lasts) :
    0 ≤ voiceTicks voice := by
  induction voice with
  | nil => exact Rat.le_refl
  | cons t voice ih =>
      obtain ⟨hfirst, hrest⟩ := List.forall_mem_cons.1 h
      rw [voiceTicks_cons]
      exact Rat.add_nonneg hfirst.ticks_nonneg (ih hrest)

namespace Timetable

/-- What starts in a voice starts after the voice has begun and before it has ended. -/
theorem mem_voiceOnsets {stave : Nat} {start : Ticks} {voice : List Tickable} {o : Onset}
    (h : ∀ t ∈ voice, t.Lasts) (ho : o ∈ voiceOnsets stave start voice) :
    o.stave = stave ∧ start ≤ o.tick ∧ o.tick < start + voiceTicks voice := by
  induction voice generalizing start with
  | nil => cases ho
  | cons t voice ih =>
      obtain ⟨hfirst, hrest⟩ := List.forall_mem_cons.1 h
      rw [voiceTicks_cons]
      cases htakes : t.ignoresTicks with
      | true =>
          rw [voiceOnsets_of_ignoresTicks htakes] at ho
          rw [Tickable.ticks_of_ignoresTicks htakes, Rat.zero_add]
          exact ih hrest ho
      | false =>
          have hpos : 0 < t.ticks := hfirst htakes
          have hnonneg : 0 ≤ voiceTicks voice := voiceTicks_nonneg hrest
          rw [voiceOnsets_cons htakes] at ho
          rcases List.mem_cons.1 ho with rfl | ho
          · refine ⟨rfl, Rat.le_refl, ?_⟩
            show start < start + (t.ticks + voiceTicks voice)
            grind
          · obtain ⟨hstave, hle, hlt⟩ := ih hrest ho
            exact ⟨hstave, by grind, by grind⟩

theorem longest_spec (voices : List (List Tickable)) :
    0 ≤ longest voices ∧ ∀ voice ∈ voices, voiceTicks voice ≤ longest voices := by
  have hfold (start : Ticks) :
      start ≤ voices.foldl (fun longest voice => longest.longer (voiceTicks voice)) start ∧
        ∀ voice ∈ voices, voiceTicks voice ≤
          voices.foldl (fun longest voice => longest.longer (voiceTicks voice)) start := by
    induction voices generalizing start with
    | nil => exact ⟨Rat.le_refl, fun _ hmem => nomatch hmem⟩
    | cons first voices ih =>
        obtain ⟨hstart, hvoices⟩ := ih (start.longer (voiceTicks first))
        refine ⟨Rat.le_trans (Ticks.le_longer_left _ _) hstart, fun voice hmem => ?_⟩
        rcases List.mem_cons.1 hmem with rfl | hmem
        · exact Rat.le_trans (Ticks.le_longer_right _ _) hstart
        · exact hvoices voice hmem
  exact hfold 0

variable {staves : List (List (List Tickable))}

theorem staveStart_succ {i : Nat} {voices : List (List Tickable)} (h : staves[i]? = some voices) :
    staveStart staves (i + 1) = staveStart staves i + longest voices := by
  rw [staveStart, List.take_add_one, h, Option.toList_some, List.map_append, Ticks.sum_append,
    List.map_singleton, Ticks.sum_singleton, staveStart]

theorem staveStart_le {i j : Nat} (h : i ≤ j) : staveStart staves i ≤ staveStart staves j := by
  induction h with
  | refl => exact Rat.le_refl
  | @step j _ ih =>
      cases hj : staves[j]? with
      | some voices =>
          have hnonneg : 0 ≤ longest voices := (longest_spec voices).1
          rw [staveStart_succ hj]
          grind
      | none =>
          rwa [staveStart, staveStart, List.take_add_one, hj, Option.toList_none, List.append_nil]

/-- What starts on a stave starts before the next stave does. -/
theorem mem_onsets {o : Onset} (h : ∀ voices ∈ staves, ∀ voice ∈ voices, ∀ t ∈ voice, t.Lasts)
    (ho : o ∈ onsets staves) :
    o.stave < staves.length ∧ staveStart staves o.stave ≤ o.tick ∧
      o.tick < staveStart staves (o.stave + 1) := by
  obtain ⟨_, hmem, ho⟩ := List.mem_flatten.1 ho
  obtain ⟨i, hi, rfl⟩ := List.mem_mapIdx.1 hmem
  obtain ⟨voice, hvoice, ho⟩ := List.mem_flatMap.1 ho
  obtain ⟨rfl, hle, hlt⟩ := mem_voiceOnsets (h _ (List.getElem_mem hi) voice hvoice) ho
  refine ⟨hi, hle, Std.lt_of_lt_of_le hlt ?_⟩
  rw [staveStart_succ (List.getElem?_eq_getElem hi)]
  exact Rat.add_le_add_left.2 ((longest_spec _).2 voice hvoice)

/-- Staves do not meet: what starts at one tick starts on one stave. -/
theorem stave_eq_of_tick_eq {o o' : Onset}
    (h : ∀ voices ∈ staves, ∀ voice ∈ voices, ∀ t ∈ voice, t.Lasts)
    (ho : o ∈ onsets staves) (ho' : o' ∈ onsets staves) (htick : o.tick = o'.tick) :
    o.stave = o'.stave := by
  -- An earlier stave has ended when a later one starts.
  have apart {o o' : Onset} (ho : o ∈ onsets staves) (ho' : o' ∈ onsets staves)
      (hlt : o.stave < o'.stave) : o.tick < o'.tick :=
    Std.lt_of_lt_of_le (mem_onsets h ho).2.2
      (Rat.le_trans (staveStart_le hlt) (mem_onsets h ho').2.1)
  rcases Nat.lt_trichotomy o.stave o'.stave with hlt | heq | hlt
  · exact absurd htick (Rat.ne_of_lt (apart ho ho' hlt))
  · exact heq
  · exact absurd htick (Rat.ne_of_gt (apart ho' ho hlt))

/-- **The timetable of any voices** in which whatever takes time takes some. -/
theorem tells_build (h : ∀ voices ∈ staves, ∀ voice ∈ voices, ∀ t ∈ voice, t.Lasts) :
    (build staves).Tells staves := by
  have hall : Collects (onsets staves) (build staves).events := by
    rw [events_build]
    exact .foldl _
  refine ⟨hall.rising, fun g hg => hall.eq_of_mem hg, fun o ho => ?_, fun g hg => ?_,
    total_build staves, fun g hg => ?_, fun g hg => ?_⟩
  · exact List.mem_map.1 ((hall.ticks o.tick).2 (List.mem_map_of_mem ho))
  · obtain ⟨o, ho, htick⟩ := hall.exists_onset hg
    rw [hall.eq_of_mem hg]
    exact List.ne_nil_of_mem (List.mem_map_of_mem (List.mem_filter.2 ⟨ho, by simpa using htick⟩))
  · obtain ⟨o, ho, htick⟩ := hall.exists_onset hg
    obtain ⟨hlt, _, hend⟩ := mem_onsets h ho
    rw [total_build, ← htick]
    have hall : staveStart staves staves.length = .sum (staves.map longest) := by
      rw [staveStart, List.take_length]
    exact hall ▸ Std.lt_of_lt_of_le hend (staveStart_le (Nat.succ_le_of_lt hlt))
  · obtain ⟨o, ho, htick⟩ := hall.exists_onset hg
    exact ⟨o.stave, fun o' ho' htick' => stave_eq_of_tick_eq h ho' ho (htick'.trans htick.symm)⟩

end Timetable

end Tablature
