/-
# Tablature.Proofs.TickRange — times as fractions of machine words.

Times are exact here, fractions in lowest terms of any size. Held in two signed words of 64 bits a
time has to fit (`Ticks.Fits`), and not every score does: two notes under tuplets of unrelated
numbers take a time whose denominator is the product of both (`exists_compile_not_ticksFit`). What
keeps a score in range is its *grid*, the least number of parts of a tick in which all multipliers
are whole. All times of the score lie on it and none is longer than the score, so if neither the
grid nor the length of the score in its parts leaves the range, nothing does
(`Session.ticksFit_of_grid`). The number of notes that a tuplet counts keeps a score in range by
itself only if it is two or less (`safeTuplets_iff`): tuplets of more notes can be nested.
-/
import Mathlib.Algebra.GCDMonoid.Multiset
import Mathlib.Algebra.GCDMonoid.Nat
import Mathlib.Algebra.Order.Field.Basic
import Mathlib.Data.Rat.Lemmas
import Mathlib.Tactic.Linarith
import Tablature.Proofs.Multipliers

namespace Tablature

/-! ## Fractions of machine words -/

namespace Ticks

/-- Numerator and denominator fit in signed words of 64 bits. -/
def Fits (t : Ticks) : Prop := -2 ^ 63 ≤ t.num ∧ t.num < 2 ^ 63 ∧ t.den < 2 ^ 63

instance (t : Ticks) : Decidable (Fits t) := inferInstanceAs (Decidable (_ ∧ _ ∧ _))

/-- A time is a whole number of parts of a tick, so many to the tick. -/
def OnGrid (grid : Nat) (t : Ticks) : Prop := t.den ∣ grid

namespace OnGrid

variable {grid : Nat} {t u : Ticks}

theorem of_whole (h : t.den = 1) : OnGrid grid t := by
  unfold OnGrid
  rw [h]
  exact one_dvd grid

theorem zero : OnGrid grid 0 := of_whole rfl

theorem add (ht : OnGrid grid t) (hu : OnGrid grid u) : OnGrid grid (t + u) :=
  (Rat.add_den_dvd_lcm t u).trans (Nat.lcm_dvd ht hu)

theorem sum {times : List Ticks} (h : ∀ t ∈ times, OnGrid grid t) :
    OnGrid grid (Ticks.sum times) := by
  induction times with
  | nil => exact zero
  | cons t times ih =>
      obtain ⟨hfirst, hrest⟩ := List.forall_mem_cons.1 h
      exact hfirst.add (ih hrest)

/-- A whole number of times. -/
theorem mul_whole (ht : OnGrid grid t) (hu : u.den = 1) : OnGrid grid (u * t) := by
  have hden := Rat.mul_den_dvd u t
  rw [hu, one_mul] at hden
  exact hden.trans ht

/-- **What lies on a small grid fits**, if it is not too long for it. -/
theorem fits (ht : OnGrid grid t) (hpos : 0 < grid) (hgrid : grid < 2 ^ 63) (hnonneg : 0 ≤ t)
    (hlt : (grid : Ticks) * t < 2 ^ 63) : Fits t := by
  have hden : t.den ≤ grid := Nat.le_of_dvd hpos ht
  have hnum : (t.num : Ticks) ≤ grid * t := by
    calc (t.num : Ticks) = t.den * t := by rw [mul_comm, Rat.mul_den_eq_num]
      _ ≤ grid * t := mul_le_mul_of_nonneg_right (by exact_mod_cast hden) hnonneg
  have hsmall : (t.num : Ticks) < (2 ^ 63 : Int) := by
    push_cast
    exact lt_of_le_of_lt hnum hlt
  have hnum' : 0 ≤ t.num := Rat.num_nonneg.2 hnonneg
  exact ⟨by omega, by exact_mod_cast hsmall, by omega⟩

end OnGrid

end Ticks

/-- Durations are whole numbers of ticks. -/
theorem Duration.ticks_whole (d : Duration) : d.ticks.den = 1 ∧ 1 ≤ d.ticks := by
  obtain ⟨value, dotted, slash⟩ := d
  cases value <;> cases dotted <;> cases slash <;> decide +kernel

/-! ## Objects -/

namespace Tickable

/-- By what the time of the object is multiplied. A bar takes no time. -/
def multiplier? : Tickable → Option Ticks
  | tab n => some n.multiplier
  | staff n => some n.multiplier
  | bar _ => none
  | spacer _ multiplier => some multiplier
  | text n => some n.multiplier

/-- What is known of an object that lies on a grid: its time is not negative, and its multiplier is
a whole number of parts and no longer than its time, or else the number one. -/
structure Measured (grid : Nat) (t : Tickable) : Prop where
  nonneg : 0 ≤ t.ticks
  onGrid : t.ticks.OnGrid grid
  multiplier : ∀ m ∈ t.multiplier?, m = 1 ∨ (0 ≤ m ∧ m ≤ t.ticks ∧ m.OnGrid grid)

variable {grid : Nat} {t : Tickable}

/-- A note or a rest. -/
theorem measured_of_product {d : Duration} {m : Ticks} (hticks : t.ticks = d.ticks * m)
    (hmultiplier : t.multiplier? = some m) (hpos : 0 < m) (hgrid : m.OnGrid grid) :
    t.Measured grid := by
  obtain ⟨hwhole, hlong⟩ := d.ticks_whole
  have hle : m ≤ d.ticks * m := le_mul_of_one_le_left hpos.le hlong
  refine ⟨?_, ?_, ?_⟩
  · rw [hticks]
    exact hpos.le.trans hle
  · rw [hticks]
    exact hgrid.mul_whole hwhole
  · rintro m' hm'
    cases hmultiplier.symm.trans hm'
    exact .inr ⟨hpos.le, hticks ▸ hle, hgrid⟩

theorem Multiplied.measured (ht : t.Multiplied (0 < ·))
    (hgrid : ∀ m ∈ t.multiplier?, m.OnGrid grid) : t.Measured grid := by
  cases t with
  | tab n => exact measured_of_product rfl rfl ht (hgrid _ rfl)
  | staff n => exact measured_of_product rfl rfl ht (hgrid _ rfl)
  | bar type => exact ⟨le_refl _, .zero, fun _ hm => nomatch hm⟩
  | spacer duration multiplier => exact measured_of_product rfl rfl ht (hgrid _ rfl)
  | text n => exact ht.elim

/-- A text that is not multiplied. -/
theorem measured_text {n : TextNote} (h : n.multiplier = 1) : (text n).Measured grid := by
  obtain ⟨hwhole, hlong⟩ := n.duration.ticks_whole
  have hticks : (text n).ticks = if n.ignoresTicks then 0 else n.duration.ticks := by
    show (if n.ignoresTicks then 0 else n.duration.ticks * n.multiplier) = _
    rw [h, mul_one]
  refine ⟨?_, ?_, ?_⟩
  · rw [hticks]
    split
    · exact le_refl _
    · exact zero_le_one.trans hlong
  · rw [hticks]
    split
    · exact .zero
    · exact .of_whole hwhole
  · rintro m hm
    cases hm
    exact .inl h

end Tickable

/-! ## Voices -/

section Voices

variable {grid : Nat} {voice : List Tickable}

theorem voiceTicks_append (earlier later : List Tickable) :
    voiceTicks (earlier ++ later) = voiceTicks earlier + voiceTicks later := by
  rw [voiceTicks, List.map_append, Ticks.sum_append, voiceTicks, voiceTicks]

theorem voiceTicks_nonneg_of_measured (h : ∀ t ∈ voice, t.Measured grid) :
    0 ≤ voiceTicks voice := by
  induction voice with
  | nil => exact le_refl _
  | cons t voice ih =>
      obtain ⟨hfirst, hrest⟩ := List.forall_mem_cons.1 h
      rw [voiceTicks_cons]
      exact add_nonneg hfirst.nonneg (ih hrest)

theorem onGrid_voiceTicks (h : ∀ t ∈ voice, t.Measured grid) : (voiceTicks voice).OnGrid grid :=
  .sum (List.forall_mem_map.2 fun t ht => (h t ht).onGrid)

/-- The start of a voice lasts no longer than the voice. -/
theorem voiceTicks_take_le (h : ∀ t ∈ voice, t.Measured grid) (k : Nat) :
    voiceTicks (voice.take k) ≤ voiceTicks voice := by
  have hrest : 0 ≤ voiceTicks (voice.drop k) :=
    voiceTicks_nonneg_of_measured fun t ht => h t (List.mem_of_mem_drop ht)
  conv_rhs => rw [← List.take_append_drop k voice, voiceTicks_append]
  linarith

theorem ticks_le_voiceTicks (h : ∀ t ∈ voice, t.Measured grid) {t : Tickable} (ht : t ∈ voice) :
    t.ticks ≤ voiceTicks voice := by
  obtain ⟨before, after, rfl⟩ := List.append_of_mem ht
  have hbefore : 0 ≤ voiceTicks before :=
    voiceTicks_nonneg_of_measured fun u hu => h u (List.mem_append_left _ hu)
  have hafter : 0 ≤ voiceTicks after := voiceTicks_nonneg_of_measured fun u hu =>
    h u (List.mem_append_right _ (List.mem_cons_of_mem t hu))
  rw [voiceTicks_append, voiceTicks_cons]
  linarith

end Voices

/-! ## Timetables -/

namespace Timetable

variable {grid : Nat} {staves : List (List (List Tickable))}

theorem onGrid_longest {voices : List (List Tickable)}
    (h : ∀ voice ∈ voices, ∀ t ∈ voice, t.Measured grid) : (longest voices).OnGrid grid := by
  have hfold (start : Ticks) (hstart : start.OnGrid grid) :
      (voices.foldl (fun longest voice => longest.longer (voiceTicks voice)) start).OnGrid
        grid := by
    induction voices generalizing start with
    | nil => exact hstart
    | cons first voices ih =>
        obtain ⟨hfirst, hrest⟩ := List.forall_mem_cons.1 h
        refine ih hrest _ ?_
        dsimp only [Ticks.longer]
        split
        · exact onGrid_voiceTicks hfirst
        · exact hstart
  exact hfold 0 .zero

theorem staveStart_nonneg (i : Nat) : 0 ≤ staveStart staves i := staveStart_le (Nat.zero_le i)

section Measured

variable (h : ∀ voices ∈ staves, ∀ voice ∈ voices, ∀ t ∈ voice, t.Measured grid)
include h

theorem onGrid_staveStart (i : Nat) : (staveStart staves i).OnGrid grid :=
  .sum <| List.forall_mem_map.2 fun voices hvoices =>
    onGrid_longest (h voices (List.mem_of_mem_take hvoices))

/-- Groups of the timetable are where something starts. -/
theorem onGrid_group {g : TickGroup} (hg : g ∈ (build staves).events) :
    0 ≤ g.tick ∧ g.tick.OnGrid grid := by
  rw [events_build] at hg
  obtain ⟨o, ho, htick⟩ := (Collects.foldl (onsets staves)).exists_onset hg
  rw [← htick]
  obtain ⟨_, hmem, ho⟩ := List.mem_flatten.1 ho
  obtain ⟨i, hi, rfl⟩ := List.mem_mapIdx.1 hmem
  obtain ⟨voice, hvoice, ho⟩ := List.mem_flatMap.1 ho
  obtain ⟨j, hj, rfl⟩ := List.mem_mapIdx.1 ho
  have hbefore : ∀ t ∈ (timed voice).take j, t.Measured grid := fun t ht =>
    h _ (List.getElem_mem hi) voice hvoice t (List.mem_of_mem_filter (List.mem_of_mem_take ht))
  exact ⟨add_nonneg (staveStart_nonneg i) (voiceTicks_nonneg_of_measured hbefore),
    (onGrid_staveStart h i).add (onGrid_voiceTicks hbefore)⟩

end Measured

/-- The score ends where a stave after the last one would start. -/
theorem total_eq_staveStart {i : Nat} (h : staves.length ≤ i) :
    (build staves).total = staveStart staves i := by
  rw [total_build, staveStart, List.take_of_length_le h]

theorem staveStart_le_total (i : Nat) : staveStart staves i ≤ (build staves).total := by
  rw [total_eq_staveStart (le_max_right i staves.length)]
  exact staveStart_le (le_max_left _ _)

theorem longest_le_total {voices : List (List Tickable)} (h : voices ∈ staves) :
    longest voices ≤ (build staves).total := by
  obtain ⟨i, hi⟩ := List.mem_iff_getElem?.1 h
  have hstart : staveStart staves (i + 1) ≤ (build staves).total := staveStart_le_total (i + 1)
  have hnonneg : 0 ≤ staveStart staves i := staveStart_nonneg i
  rw [staveStart_succ hi] at hstart
  linarith

end Timetable

/-! ## Scores -/

/-- The text voices of a stave. -/
def Stave.texts (a : Stave) : List (List Tickable) := a.textVoices.map (·.map .text)

/-- All voices of a stave: those of both views, finished or in progress, and its texts. -/
def Stave.voices (a : Stave) : List (List Tickable) :=
  a.tabVoices ++ [a.tabNotes] ++ (a.staffVoices ++ [a.staffNotes]) ++ a.texts

/-- All voices of a score. -/
def Score.voices (s : Score) : List (List Tickable) := s.staves.flatMap Stave.voices

/-- The least number of parts of a tick in which all multipliers of a score are whole. -/
def Score.grid (s : Score) : Nat :=
  Multiset.lcm ((s.voices.flatten.filterMap Tickable.multiplier?).map Rat.den)

/-- How long a session plays, or its longest text voice if this takes more time. -/
def Session.span (s : Session) : Ticks :=
  s.schedule.timetable.total.longer (Timetable.longest (s.score.staves.flatMap Stave.texts))

/-- All ticks of a session fit: those of single objects, the sums of the objects of each voice, and
the starts of its staves, the groups and the whole of its schedule. The milliseconds that the schedule
gives beside them are doubles and no part of this. -/
structure Session.TicksFit (s : Session) : Prop where
  multipliers : ∀ voice ∈ s.score.voices, ∀ t ∈ voice, ∀ m ∈ t.multiplier?, m.Fits
  ticks : ∀ voice ∈ s.score.voices, ∀ t ∈ voice, t.ticks.Fits
  sums : ∀ voice ∈ s.score.voices, ∀ k, (voiceTicks (voice.take k)).Fits
  starts : ∀ i, (Timetable.staveStart s.score.playedVoices i).Fits
  groups : ∀ g ∈ s.schedule.timetable.events, g.tick.Fits
  total : s.schedule.timetable.total.Fits

/-! ### On its grid -/

namespace Score

variable {s : Score}

theorem mem_voices {voice : List Tickable} : voice ∈ s.voices ↔ ∃ a ∈ s.staves, voice ∈ a.voices :=
  List.mem_flatMap

theorem grid_pos (s : Score) : 0 < s.grid := by
  refine Nat.pos_of_ne_zero fun hzero => ?_
  rw [grid, Multiset.lcm_eq_zero_iff, Multiset.mem_coe, List.mem_map] at hzero
  obtain ⟨m, -, hden⟩ := hzero
  exact m.den_nz hden

theorem onGrid_multiplier {voice : List Tickable} (hvoice : voice ∈ s.voices) {t : Tickable}
    (ht : t ∈ voice) {m : Ticks} (hm : m ∈ t.multiplier?) : m.OnGrid s.grid := by
  refine Multiset.dvd_lcm (Multiset.mem_coe.2 (List.mem_map_of_mem ?_))
  exact List.mem_filterMap.2 ⟨t, List.mem_flatten.2 ⟨voice, hvoice, ht⟩, hm⟩

end Score

theorem Session.Multiplied.object {M : Ticks → Prop} {s : Session} (hs : s.Multiplied M)
    {voice : List Tickable} (hvoice : voice ∈ s.score.voices) {t : Tickable} (ht : t ∈ voice) :
    t.Multiplied M ∨ ∃ n, t = .text n ∧ n.multiplier = 1 := by
  obtain ⟨a, ha, hmem⟩ := Score.mem_voices.1 hvoice
  obtain ⟨hobjects, htexts⟩ := hs a ha
  simp only [Stave.voices, List.mem_append, List.mem_singleton] at hmem
  rcases hmem with ((hmem | rfl) | hmem | rfl) | hmem
  · exact .inl (hobjects.tabVoices voice hmem t ht)
  · exact .inl (hobjects.tabNotes t ht)
  · exact .inl (hobjects.staffVoices voice hmem t ht)
  · exact .inl (hobjects.staffNotes t ht)
  · obtain ⟨texts, htext, rfl⟩ := List.mem_map.1 hmem
    obtain ⟨n, hn, rfl⟩ := List.mem_map.1 ht
    exact .inr ⟨n, rfl, htexts texts htext n hn⟩

/-- Every object of a session whose multipliers are positive is measured on its grid. -/
theorem Session.Multiplied.measured {s : Session} (hs : s.Multiplied (0 < ·)) :
    ∀ voice ∈ s.score.voices, ∀ t ∈ voice, t.Measured s.score.grid := by
  intro voice hvoice t ht
  rcases hs.object hvoice ht with hnote | ⟨n, rfl, hone⟩
  · exact hnote.measured fun _ hm => Score.onGrid_multiplier hvoice ht hm
  · exact Tickable.measured_text hone

/-! ### Within its span -/

/-- The voices of both views last no longer than those that are played. -/
theorem Stave.Aligned.voiceTicks_le {a : Stave} (h : a.Aligned) {voice : List Tickable}
    (hmem : voice ∈ a.tabVoices ++ [a.tabNotes] ∨ voice ∈ a.staffVoices ++ [a.staffNotes]) :
    voiceTicks voice ≤ Timetable.longest a.playedVoices := by
  obtain ⟨hnonneg, hle⟩ := Timetable.longest_spec a.playedVoices
  have played {voice : List Tickable}
      (hvoice : voice ∈ if a.staff.isSome then a.staffVoices ++ [a.staffNotes]
        else a.tabVoices ++ [a.tabNotes]) :
      voiceTicks voice ≤ Timetable.longest a.playedVoices := by
    cases voice with
    | nil => exact hnonneg
    | cons t voice => exact hle _ (List.mem_filter.2 ⟨hvoice, rfl⟩)
  cases hstaff : a.staff with
  | none =>
      rw [hstaff] at played
      rcases hmem with hmem | hmem
      · exact played hmem
      · obtain ⟨hvoices, hnotes⟩ := h.unwritten hstaff
        rw [hvoices, hnotes] at hmem
        rw [List.mem_singleton.1 hmem]
        exact hnonneg
  | some view =>
      rw [hstaff] at played
      have hsome : a.staff.isSome := by rw [hstaff]; rfl
      rcases hmem with hmem | hmem
      · -- What faces the voice is played, and sounds the same.
        have hfaces := List.rel_append (h.voices hsome) (.cons (h.notes hsome) .nil)
        obtain ⟨i, hi⟩ := List.mem_iff_getElem?.1 hmem
        obtain ⟨facing, hfacing, hface⟩ := forall₂_getElem? hfaces hi
        rw [Timetable.voiceTicks_eq, ← hface.heardVoice_eq, ← Timetable.voiceTicks_eq]
        exact played (List.mem_of_getElem? hfacing)
      · exact played hmem

theorem Session.voiceTicks_le_span {s : Session} (hs : s.Aligned) {voice : List Tickable}
    (hvoice : voice ∈ s.score.voices) : voiceTicks voice ≤ s.span := by
  obtain ⟨a, ha, hmem⟩ := Score.mem_voices.1 hvoice
  have played (h : voiceTicks voice ≤ Timetable.longest a.playedVoices) :
      voiceTicks voice ≤ s.span :=
    h.trans ((Timetable.longest_le_total (List.mem_map_of_mem ha)).trans (Ticks.le_longer_left _ _))
  rw [Stave.voices, List.append_assoc, List.mem_append] at hmem
  rcases hmem with hmem | hmem
  · exact played ((hs a ha).voiceTicks_le (.inl hmem))
  · rcases List.mem_append.1 hmem with hmem | hmem
    · exact played ((hs a ha).voiceTicks_le (.inr hmem))
    · refine le_trans ?_ (Ticks.le_longer_right _ _)
      exact (Timetable.longest_spec _).2 voice (List.mem_flatMap.2 ⟨a, ha, hmem⟩)

/-- What is played are voices of the score. -/
theorem Score.mem_voices_of_played {s : Score} {voices : List (List Tickable)}
    (hvoices : voices ∈ s.playedVoices) {voice : List Tickable} (hvoice : voice ∈ voices) :
    voice ∈ s.voices := by
  obtain ⟨a, ha, rfl⟩ := List.mem_map.1 hvoices
  refine mem_voices.2 ⟨a, ha, List.mem_append_left _ (List.mem_append.2 ?_)⟩
  have hmem := List.mem_of_mem_filter hvoice
  split at hmem
  · exact .inr hmem
  · exact .inl hmem

/-- **On a small grid all times fit.** If the two views are aligned, and everything that takes time
is multiplied by a positive number, then neither the times of single objects nor their sums nor
anything in the schedule leaves the range that the grid and the span of the session keep. -/
theorem Session.ticksFit_of_grid {s : Session} (haligned : s.Aligned) (hlasts : s.Lasts)
    (hpositive : s.Multiplied (0 < ·)) (hgrid : s.score.grid < 2 ^ 63)
    (hspan : (s.score.grid : Ticks) * s.span < 2 ^ 63) : s.TicksFit := by
  have hmeasured := hpositive.measured
  have hpos : (0 : Ticks) < s.score.grid := Nat.cast_pos.2 s.score.grid_pos
  have fits {t : Ticks} (ht : t.OnGrid s.score.grid) (hnonneg : 0 ≤ t) (hle : t ≤ s.span) :
      t.Fits :=
    ht.fits s.score.grid_pos hgrid hnonneg
      (lt_of_le_of_lt (mul_le_mul_of_nonneg_left hle hpos.le) hspan)
  have hplayed : ∀ voices ∈ s.score.playedVoices, ∀ voice ∈ voices, ∀ t ∈ voice,
      t.Measured s.score.grid :=
    fun voices hvoices voice hvoice => hmeasured voice (Score.mem_voices_of_played hvoices hvoice)
  have htotal : s.schedule.timetable.total ≤ s.span := Ticks.le_longer_left _ _
  have object {voice : List Tickable} (hvoice : voice ∈ s.score.voices) {t : Tickable}
      (ht : t ∈ voice) : t.ticks ≤ s.span :=
    (ticks_le_voiceTicks (hmeasured voice hvoice) ht).trans (s.voiceTicks_le_span haligned hvoice)
  have hstart (i : Nat) : (Timetable.staveStart s.score.playedVoices i).Fits :=
    fits (Timetable.onGrid_staveStart hplayed i) (Timetable.staveStart_nonneg i)
      ((Timetable.staveStart_le_total i).trans htotal)
  refine ⟨fun voice hvoice t ht m hm => ?_, fun voice hvoice t ht => ?_,
    fun voice hvoice k => ?_, hstart, fun g hg => ?_, ?_⟩
  · rcases (hmeasured voice hvoice t ht).multiplier m hm with rfl | ⟨hnonneg, hle, hm⟩
    · decide
    · exact fits hm hnonneg (hle.trans (object hvoice ht))
  · obtain ⟨hnonneg, hticks, -⟩ := hmeasured voice hvoice t ht
    exact fits hticks hnonneg (object hvoice ht)
  · have hbefore : ∀ t ∈ voice.take k, t.Measured s.score.grid :=
      fun t ht => hmeasured voice hvoice t (List.mem_of_mem_take ht)
    exact fits (onGrid_voiceTicks hbefore) (voiceTicks_nonneg_of_measured hbefore)
      ((voiceTicks_take_le (hmeasured voice hvoice) k).trans (s.voiceTicks_le_span haligned hvoice))
  · obtain ⟨hnonneg, htick⟩ := Timetable.onGrid_group hplayed hg
    exact fits htick hnonneg ((hlasts.tells.before g hg).le.trans htotal)
  · exact Timetable.total_eq_staveStart (le_refl _) ▸ hstart s.score.playedVoices.length

/-- What compilation gives has what the grid needs. -/
theorem compileDirectives_timed {setup : PageSetup} {ds : List Directive} {s : Session}
    (h : compileDirectives setup ds = .ok s) :
    s.Aligned ∧ s.Lasts ∧ s.Multiplied (0 < ·) := by
  have hpositive : s.Multiplied (0 < ·) :=
    (compileDirectives_multiplied h).mono fun _ hm => hm.pos
  obtain ⟨_, rfl⟩ := compileDirectives_eq_ok h
  exact ⟨compile_induction (P := Session.Aligned) .start .step setup ds,
    compile_induction (P := Session.Lasts) .start .step setup ds, hpositive⟩

/-- **Compiled scores on a small grid.** Of every list of directives that compiles, all multipliers,
all times of objects, all sums of the objects of a voice and all ticks of the schedule fit, if the
parts of a tick that the multipliers need, and the score in such parts, do. -/
theorem ticksFit_of_compile {setup : PageSetup} {ds : List Directive} {s : Session}
    (h : compileDirectives setup ds = .ok s) (hgrid : s.score.grid < 2 ^ 63)
    (hspan : (s.score.grid : Ticks) * s.span < 2 ^ 63) : s.TicksFit := by
  obtain ⟨haligned, hlasts, hpositive⟩ := compileDirectives_timed h
  exact Session.ticksFit_of_grid haligned hlasts hpositive hgrid hspan

/-- Thirds of ticks are enough for a triplet. -/
theorem ticksFit_tripletAgainstNote :
    ∃ s, compileDirectives .standard tripletAgainstNote = .ok s ∧ s.score.grid = 3 ∧
      s.span = 12288 ∧ s.TicksFit := by
  have compiles : compileDirectives .standard tripletAgainstNote = .ok _ := rfl
  refine ⟨_, compiles, ?_, ?_, ticksFit_of_compile compiles ?_ ?_⟩
  · decide +kernel
  · decide +kernel
  · decide +kernel
  · decide +kernel

/-- A tuplet of so many notes over the last one. -/
def tupletOverLast (count : Nat) : NoteElement :=
  { NoteElement.idle with command := some "tuplet", parameters := some (.tuplet count (some 1)) }

/-- One stave of tablature. -/
def onTablature (notes : List NoteElement) : List Directive :=
  [{ keyword := "tabstave", options := [], settings := [], notes, text := [], line := none
     column := none }]

/-- Two notes, each under a tuplet of its own number. -/
def unrelatedTuplets (first second : Nat) : List Directive :=
  let note : NoteElement := { NoteElement.idle with fret := some (.number 3), string := some 2 }
  onTablature [note, tupletOverLast first, note, tupletOverLast second]

/-- Two numbers without a common divisor need a denominator as large as their product: the time of
each note fits, and the time of both together does not. -/
theorem exists_compile_not_ticksFit :
    ∃ s, compileDirectives .standard (unrelatedTuplets 4294967295 4294967293) = .ok s ∧
      (∀ voice ∈ s.score.voices, ∀ t ∈ voice, t.ticks.Fits) ∧
      s.schedule.timetable.total.den = 4294967295 * 4294967293 ∧ ¬ s.TicksFit := by
  have compiles :
      compileDirectives .standard (unrelatedTuplets 4294967295 4294967293) = .ok _ := rfl
  refine ⟨_, compiles, ?_, ?_, fun hfits => absurd hfits.total ?_⟩
  · decide +kernel
  · decide +kernel
  · decide +kernel

/-! ## Safe tuplets -/

/-- Tuplets of the allowed numbers leave all times in range, as long as no voice is too long. -/
def SafeTuplets (allowed : Nat → Prop) : Prop :=
  ∀ setup ds s, compileDirectives setup ds = .ok s →
    (∀ count ∈ Directive.tupletCounts ds, allowed count) → s.span < 2 ^ 63 → s.TicksFit

/-! ### Tuplets of up to two notes -/

theorem Session.onGrid_tupletFactor {count : Nat} (hpos : 0 < count) (h : count ≤ 2) :
    (tupletFactor count).OnGrid 1 := by
  obtain rfl | rfl : count = 1 ∨ count = 2 := by omega
  · exact .of_whole (by decide +kernel)
  · exact .of_whole (by decide +kernel)

/-- Products of whole factors are whole. -/
theorem TupletProduct.onGrid {counts : List Nat} (hcounts : ∀ count ∈ counts, count ≤ 2) {m : Ticks}
    (h : TupletProduct counts m) : m.OnGrid 1 := by
  obtain ⟨chosen, hchosen, hpos, rfl⟩ := h
  refine List.prod_induction (Ticks.OnGrid 1) (fun t u ht hu => ?_) (.of_whole rfl) ?_
  · exact hu.mul_whole (Nat.dvd_one.1 ht)
  · exact List.forall_mem_map.2 fun count hcount => Session.onGrid_tupletFactor
      (hpos count hcount) (hcounts count (hchosen.subset hcount))

theorem Session.Multiplied.grid_eq_one {s : Session} (hs : s.Multiplied (Ticks.OnGrid 1)) :
    s.score.grid = 1 := by
  refine Nat.dvd_one.1 (Multiset.lcm_dvd.2 fun den hden => ?_)
  obtain ⟨m, hm, rfl⟩ := List.mem_map.1 (Multiset.mem_coe.1 hden)
  obtain ⟨t, ht, hmultiplier⟩ := List.mem_filterMap.1 hm
  obtain ⟨voice, hvoice, ht⟩ := List.mem_flatten.1 ht
  rcases hs.object hvoice ht with hnote | ⟨n, rfl, hone⟩
  · cases t with
    | bar type => cases hmultiplier
    | text n => exact hnote.elim
    | _ =>
        cases hmultiplier
        exact hnote
  · cases hmultiplier
    rw [hone]
    exact one_dvd 1

/-! ### Tuplets of more notes -/

/-- A stave of tablature with a rest on it. -/
def Stave.lone (tab : Option TabView) (beamGroups : List BeamGroup) (m : Ticks) : Stave :=
  { Stave.blank tab none beamGroups with tabNotes := [.spacer .quarter m] }

namespace Session

theorem tupletFactor_lt_one {count : Nat} (h : 2 < count) : tupletFactor count < 1 := by
  rw [tupletFactor, div_lt_one (Nat.cast_pos.2 (by omega))]
  exact_mod_cast h

/-- The factor of a tuplet of more than two notes is no whole number. -/
theorem two_le_den_tupletFactor {count : Nat} (h : 2 < count) : 2 ≤ (tupletFactor count).den := by
  have hpos : 0 < (tupletFactor count).num := Rat.num_pos.2 (tupletFactor_pos (by omega))
  have hlt : (tupletFactor count).num < (tupletFactor count).den :=
    Rat.num_lt_denom_iff.2 (tupletFactor_lt_one h)
  omega

/-- A session of one stave of tablature with a rest on it. -/
def Lone (m : Ticks) (s : Session) : Prop :=
  s.score.earlier = [] ∧ ∃ tab beamGroups, s.score.active = some (Stave.lone tab beamGroups m)

namespace Lone

variable {m : Ticks} {s : Session} {count : Nat}

theorem makeTuplets (h : s.Lone m) (hcount : 0 < count) :
    (s.makeTuplets count (some 1)).fault = none ∧
      (s.makeTuplets count (some 1)).state.Lone (m * tupletFactor count) := by
  obtain ⟨hearlier, tab, beamGroups, hactive⟩ := h
  have hroom : ¬ (Stave.lone tab beamGroups m).tabNotes.length < 1 := Nat.lt_irrefl 1
  rw [makeTuplets_eq hactive ⟨fun _ => ⟨rfl, rfl⟩, nofun, nofun⟩ hcount Nat.one_pos, if_neg hroom]
  refine ⟨rfl, ?_, tab, beamGroups, ?_⟩
  · unfold bracket
    dsimp only
    split <;> split <;> exact hearlier
  · exact active_bracket hactive

/-- Tuplets of tuplets multiply the rest again and again. -/
theorem nested (h : s.Lone m) (hcount : 0 < count) (depth : Nat) :
    ∃ t, s.playScript (List.replicate depth (.ok (.tuplet count (some 1)))) = .done t ∧
      t.Lone (m * tupletFactor count ^ depth) := by
  induction depth generalizing s m with
  | zero => exact ⟨s, rfl, by rwa [pow_zero, mul_one]⟩
  | succ depth ih =>
      obtain ⟨hfault, hlone⟩ := h.makeTuplets hcount
      obtain ⟨t, ht, htlone⟩ := ih hlone
      refine ⟨t, ?_, ?_⟩
      · rw [List.replicate_succ, playScript_cons]
        exact (Outcome.andThen_of_none hfault).trans ht
      · rwa [pow_succ', ← mul_assoc]

theorem span (h : s.Lone m) (hm : 0 < m) : s.span = Duration.quarter.ticks * m := by
  obtain ⟨hearlier, tab, beamGroups, hactive⟩ := h
  have hstaves : s.score.staves = [Stave.lone tab beamGroups m] := by
    rw [Score.staves, hearlier, hactive]
    rfl
  have hpos : 0 < Duration.quarter.ticks * m := mul_pos (Duration.ticks_pos _) hm
  have hlongest : Timetable.longest [[.spacer .quarter m]] = Duration.quarter.ticks * m := by
    show Ticks.longer 0 (Duration.quarter.ticks * m + 0) = _
    rw [add_zero, Ticks.longer, if_pos hpos.le]
  have htotal : s.schedule.timetable.total = Duration.quarter.ticks * m := by
    show (Timetable.build s.score.playedVoices).total = _
    rw [Timetable.total_build, Score.playedVoices, hstaves, ← hlongest]
    exact Ticks.sum_singleton _
  rw [Session.span, htotal, hstaves]
  exact if_neg (not_le.2 hpos)

theorem not_ticksFit (h : s.Lone m) (hm : ¬ m.Fits) : ¬ s.TicksFit := by
  obtain ⟨hearlier, tab, beamGroups, hactive⟩ := h
  intro hfits
  have hvoice : [.spacer .quarter m] ∈ s.score.voices := by
    refine Score.mem_voices.2 ⟨_, Score.mem_staves.2 (.inr hactive), ?_⟩
    exact List.mem_append_left _ (List.mem_append_left _ (List.mem_singleton.2 rfl))
  exact hm (hfits.multipliers _ hvoice _ (List.mem_singleton.2 rfl) m rfl)

end Lone

end Session

/-- A rest under one tuplet of so many notes after the other. -/
def nestedTuplets (count depth : Nat) : List Directive :=
  let rest : NoteElement :=
    { NoteElement.idle with command := some "rest", parameters := some (.rest 0) }
  onTablature (rest :: List.replicate depth (tupletOverLast count))

theorem script_nestedTuplets (count depth : Nat) :
    (nestedTuplets count depth).flatMap Directive.script =
      .ok (.stave (.defaults .tablature)) :: .ok (.rest 0) ::
        List.replicate depth (.ok (.tuplet count (some 1))) := by
  have htuplets : (List.replicate depth (tupletOverLast count)).flatMap NoteElement.script =
      List.replicate depth (.ok (.tuplet count (some 1))) := by
    rw [List.flatMap_replicate]
    exact List.flatten_replicate_singleton
  rw [← htuplets, nestedTuplets, onTablature, List.flatMap_singleton]
  show _ :: _ :: (_ ++ []) = _
  rw [List.append_nil]
  rfl

theorem tupletCounts_nestedTuplets (count depth : Nat) :
    Directive.tupletCounts (nestedTuplets count depth) = List.replicate depth count := by
  let tuplet : Event := .tuplet count (some 1)
  have hevents : Script.events (List.replicate depth (.ok tuplet)) = List.replicate depth tuplet :=
    List.filterMap_replicate_of_some rfl
  rw [Directive.tupletCounts, script_nestedTuplets]
  show tupletCounts (Script.events (List.replicate depth (.ok tuplet))) = _
  rw [hevents]
  exact List.filterMap_replicate_of_some rfl

/-- Nesting tuplets of more than two notes leads out of range, however short the score is. -/
theorem exists_nestedTuplets_not_ticksFit {count : Nat} (h : 2 < count) :
    ∃ s, compileDirectives .standard (nestedTuplets count 63) = .ok s ∧ s.span < 2 ^ 63 ∧
      ¬ s.TicksFit := by
  have hlone : (((Session.start .standard).handle (.stave (.defaults .tablature))).state.handle
      (.rest 0)).state.Lone 1 := ⟨rfl, _, _, rfl⟩
  have hcount : 0 < count := by omega
  have hpos := Session.tupletFactor_pos hcount
  obtain ⟨s, hplayed, hs⟩ := hlone.nested hcount 63
  rw [one_mul] at hs
  refine ⟨s, ?_, ?_, hs.not_ticksFit fun hfits => ?_⟩
  · rw [compileDirectives_eq_ok_iff, script_nestedTuplets, Session.playScript_cons,
      Outcome.andThen_of_none rfl, Session.playScript_cons, Outcome.andThen_of_none rfl]
    exact hplayed
  · have hle : Session.tupletFactor count ^ 63 ≤ 1 :=
      pow_le_one₀ hpos.le (Session.tupletFactor_lt_one h).le
    have hquarter : Duration.quarter.ticks = 4096 := by decide +kernel
    rw [hs.span (pow_pos hpos 63), hquarter]
    linarith
  · have hden := hfits.2.2
    rw [Rat.den_pow] at hden
    exact absurd (Nat.pow_le_pow_left (Session.two_le_den_tupletFactor h) 63) (Nat.not_le.2 hden)

/-- **Which tuplets are safe.** Exactly those of up to two notes keep the times of every score in
range that is not too long. -/
theorem safeTuplets_iff {allowed : Nat → Prop} :
    SafeTuplets allowed ↔ ∀ count, allowed count → count ≤ 2 := by
  constructor
  · intro hsafe count hallowed
    by_contra! hcount
    obtain ⟨s, hcompiles, hspan, hnot⟩ := exists_nestedTuplets_not_ticksFit hcount
    refine hnot (hsafe .standard _ s hcompiles (fun other hother => ?_) hspan)
    rw [tupletCounts_nestedTuplets] at hother
    rwa [List.eq_of_mem_replicate hother]
  · intro hallowed setup ds s hcompiles hcounts hspan
    have hgrid : s.score.grid = 1 := Session.Multiplied.grid_eq_one <|
      (compileDirectives_multiplied hcompiles).mono fun _ hm =>
        hm.onGrid fun count hcount => hallowed count (hcounts count hcount)
    obtain ⟨haligned, hlasts, hpositive⟩ := compileDirectives_timed hcompiles
    refine Session.ticksFit_of_grid haligned hlasts hpositive ?_ ?_
    · rw [hgrid]
      decide
    · rwa [hgrid, Nat.cast_one, one_mul]

end Tablature
