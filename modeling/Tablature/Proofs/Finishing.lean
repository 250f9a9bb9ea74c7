/-
# Tablature.Proofs.Finishing — which drawings get finished.

Ledger lines are a loop: it ends exactly if the lines pass the key, and then it has drawn one line
for each that was needed (`LedgerRow.lines_eq_some_iff`). Lines in doubles do not pass every key,
since far out a line is followed by itself (`LedgerRow.lines_eq_none_of_stuck`). Nothing else in a
drawing can go on for ever, and of the numbers of 32 bits only the count of steps to a key can leave
its range. So a drawing of a score gets finished exactly if all counts are within their range and all
ledger lines within some bound (`Drawing.finishes_iff`), and without notes on a staff it gets finished
in any case. The time along a stave is exact here as everywhere; whether it fits in words of 64 bits
is a question of its own (`Session.TicksFit`).
-/
import Mathlib.Data.List.Basic
import Mathlib.Data.Nat.Find
import Mathlib.Logic.Function.Iterate
import Tablature.Interface
import Tablature.Proofs.Voices

namespace Tablature.Preview

/-! ## Ledger lines -/

namespace LedgerRow

variable {row : LedgerRow} {x y : Float} {lines : List Element}

/-- **The loop of ledger lines** ends exactly if some line is not needed any more, and draws the lines
before the first such one. -/
theorem lines_eq_some_iff :
    row.lines x y = some lines ↔
      ∃ n, (∀ k < n, row.needed (row.next^[k] y) = true) ∧ row.needed (row.next^[n] y) = false ∧
        lines = (List.iterate row.next y n).map (ledger x) := by
  constructor
  · intro h
    refine LedgerRow.lines.partial_correctness row x
      (fun y lines => ∃ n, (∀ k < n, row.needed (row.next^[k] y) = true) ∧
        row.needed (row.next^[n] y) = false ∧
        lines = (List.iterate row.next y n).map (ledger x)) ?_ y lines h
    intro loop ih y lines h
    split at h
    · rename_i hneeded
      obtain ⟨further, hfurther, hlines⟩ := Option.bind_eq_some_iff.1 h
      obtain ⟨n, hbefore, hpassed, rfl⟩ := ih _ _ hfurther
      refine ⟨n + 1, ?_, hpassed, ?_⟩
      · intro k hk
        cases k with
        | zero => exact hneeded
        | succ k => exact hbefore k (Nat.lt_of_succ_lt_succ hk)
      · cases hlines
        rfl
    · rename_i hpassed
      cases h
      exact ⟨0, nofun, Bool.eq_false_iff.2 hpassed, rfl⟩
  · rintro ⟨n, hbefore, hpassed, rfl⟩
    induction n generalizing y with
    | zero =>
        have hnot : ¬ row.needed y = true := Bool.eq_false_iff.1 hpassed
        rw [LedgerRow.lines, if_neg hnot]
        rfl
    | succ n ih =>
        have hneeded : row.needed y = true := hbefore 0 (Nat.succ_pos n)
        have hfurther : row.lines x (row.next y) = _ :=
          ih (fun k hk => hbefore (k + 1) (Nat.succ_lt_succ hk)) hpassed
        rw [LedgerRow.lines, if_pos hneeded, hfurther]
        rfl

/-- From `y` on the row passes its key after no more than `bound` lines. -/
def PassesWithin (bound : Nat) (row : LedgerRow) (y : Float) : Prop :=
  ∃ k ≤ bound, row.needed (row.next^[k] y) = false

instance (bound : Nat) : Decidable (row.PassesWithin bound y) :=
  inferInstanceAs (Decidable (∃ k, k ≤ bound ∧ row.needed (row.next^[k] y) = false))

theorem PassesWithin.mono {m n : Nat} (h : m ≤ n) (hpasses : row.PassesWithin m y) :
    row.PassesWithin n y := by
  obtain ⟨k, hk, hpassed⟩ := hpasses
  exact ⟨k, Nat.le_trans hk h, hpassed⟩

theorem exists_lines_iff :
    (∃ lines, row.lines x y = some lines) ↔ ∃ bound, row.PassesWithin bound y := by
  simp only [lines_eq_some_iff]
  constructor
  · rintro ⟨_, n, -, hpassed, -⟩
    exact ⟨n, n, Nat.le_refl n, hpassed⟩
  · rintro ⟨_, k, -, hk⟩
    -- The first line that is not needed ends the loop.
    have hexists : ∃ k, row.needed (row.next^[k] y) = false := ⟨k, hk⟩
    refine ⟨_, Nat.find hexists, fun k hk => ?_, Nat.find_spec hexists, rfl⟩
    exact Bool.of_not_eq_false (Nat.find_min hexists hk)

/-- A line that is needed and followed by itself is followed by no end. -/
theorem lines_eq_none_of_stuck (hneeded : row.needed y = true) (hstuck : row.next y = y) :
    row.lines x y = none := by
  cases h : row.lines x y with
  | none => rfl
  | some lines =>
      obtain ⟨n, -, hpassed, -⟩ := lines_eq_some_iff.1 h
      rw [Function.iterate_fixed hstuck, hneeded] at hpassed
      cases hpassed

/-- Where ten is nothing, the first line above a staff is needed for ever by a key on it. -/
example : (rowAbove 1e300).lines 0.0 (1e300 - staffLineSpacing) = none :=
  lines_eq_none_of_stuck (by decide +kernel) (by decide +kernel)

end LedgerRow

/-! ## Bounds -/

/-- If a longer bound is as good as a shorter one, finitely many things have one bound together. -/
theorem exists_forall_mem_iff {α : Type} {P : Nat → α → Prop}
    (mono : ∀ {m n a}, m ≤ n → P m a → P n a) {xs : List α} :
    (∃ n, ∀ a ∈ xs, P n a) ↔ ∀ a ∈ xs, ∃ n, P n a := by
  constructor
  · rintro ⟨n, hn⟩ a ha
    exact ⟨n, hn a ha⟩
  · intro h
    induction xs with
    | nil => exact ⟨0, nofun⟩
    | cons a xs ih =>
        obtain ⟨m, hm⟩ := h a List.mem_cons_self
        obtain ⟨n, hn⟩ := ih fun a ha => h a (List.mem_cons_of_mem _ ha)
        refine ⟨max m n, fun b hb => ?_⟩
        rcases List.mem_cons.1 hb with rfl | hb
        · exact mono (Nat.le_max_left m n) hm
        · exact mono (Nat.le_max_right m n) (hn b hb)

/-- What holds of every value by its argument holds of a list's values by its members. -/
theorem forall_mem_mapIdx_iff {α β : Type} {f : Nat → α → β} {P : β → Prop} {Q : α → Prop}
    (h : ∀ i a, P (f i a) ↔ Q a) {xs : List α} : (∀ b ∈ xs.mapIdx f, P b) ↔ ∀ a ∈ xs, Q a := by
  constructor
  · intro hall a ha
    obtain ⟨i, hi, rfl⟩ := List.getElem_of_mem ha
    exact (h i _).1 (hall _ (List.mem_mapIdx.2 ⟨i, hi, rfl⟩))
  · intro hall b hb
    obtain ⟨i, hi, rfl⟩ := List.mem_mapIdx.1 hb
    exact (h i _).2 (hall _ (List.getElem_mem hi))

/-! ## Notes -/

section Notes

variable {note : StaffNote} {key : Pitch} {clef : Option Clef} {x top y : Float} {ys : List Float}

/-- The head of a key at the height `y` has no more than `bound` ledger lines above the staff, and no
more below it. -/
def HeadEnds (bound : Nat) (top y : Float) : Prop :=
  (rowAbove y).PassesWithin bound (top - staffLineSpacing) ∧
    (rowBelow y).PassesWithin bound (bottomOf top + staffLineSpacing)

instance (bound : Nat) : Decidable (HeadEnds bound top y) := inferInstanceAs (Decidable (_ ∧ _))

theorem HeadEnds.mono {m n : Nat} (h : m ≤ n) (hends : HeadEnds m top y) : HeadEnds n top y :=
  ⟨hends.1.mono h, hends.2.mono h⟩

theorem finishes_ledgerLines_iff :
    (ledgerLines x top y).Finishes ↔ ∃ bound, HeadEnds bound top y := by
  simp only [ledgerLines, Sketch.finishes_bind_iff, Sketch.ofLoop_eq_finished_iff]
  constructor
  · rintro ⟨above, habove, below, hbelow, -⟩
    obtain ⟨m, hm⟩ := LedgerRow.exists_lines_iff.1 ⟨above, habove⟩
    obtain ⟨n, hn⟩ := LedgerRow.exists_lines_iff.1 ⟨below, hbelow⟩
    exact ⟨max m n, hm.mono (Nat.le_max_left m n), hn.mono (Nat.le_max_right m n)⟩
  · rintro ⟨bound, habove, hbelow⟩
    obtain ⟨above, habove⟩ := LedgerRow.exists_lines_iff.2 ⟨bound, habove⟩
    obtain ⟨below, hbelow⟩ := LedgerRow.exists_lines_iff.2 ⟨bound, hbelow⟩
    exact ⟨above, habove, below, hbelow, above ++ below, rfl⟩

/-- A key whose steps fit 32 bits, and whose head has no more than `bound` ledger lines on a side. -/
def KeyEnds (bound : Nat) (top : Float) (clef : Option Clef) (key : Pitch) : Prop :=
  fits32 (stepsAbove key clef) = true ∧ HeadEnds bound top (heightAt top (stepsAbove key clef))

instance (bound : Nat) : DecidablePred (KeyEnds bound top clef) :=
  fun _ => inferInstanceAs (Decidable (_ ∧ _))

theorem KeyEnds.mono {m n : Nat} (h : m ≤ n) (hends : KeyEnds m top clef key) :
    KeyEnds n top clef key :=
  ⟨hends.1, hends.2.mono h⟩

theorem keyY_eq_finished_iff : keyY key top clef = .finished y ↔
    fits32 (stepsAbove key clef) = true ∧ heightAt top (stepsAbove key clef) = y := by
  rw [keyY, Sketch.map_eq_finished_iff]
  unfold countSteps
  split
  · rename_i hfits
    exact ⟨fun ⟨_, hsteps, hy⟩ => by cases hsteps; exact ⟨hfits, hy⟩, fun h => ⟨_, rfl, h.2⟩⟩
  · rename_i hnot
    exact ⟨fun ⟨_, hsteps, _⟩ => (nomatch hsteps), fun h => absurd h.1 hnot⟩

theorem staffHeights_eq_finished_iff (h : note.rest = false) :
    staffHeights note top clef = .finished ys ↔
      (∀ key ∈ note.keys, fits32 (stepsAbove key clef) = true) ∧
        note.keys.map (fun key => heightAt top (stepsAbove key clef)) = ys := by
  rw [staffHeights, h, if_neg (by simp), Sketch.all_eq_finished_iff]
  generalize note.keys = keys
  induction keys generalizing ys with
  | nil =>
      refine ⟨fun h => ⟨nofun, ?_⟩, fun h => ?_⟩
      · exact (List.map_eq_nil_iff.1 h.symm).symm
      · rw [← h.2]
        rfl
  | cons key keys ih =>
      cases ys with
      | nil => exact ⟨nofun, fun h => (nomatch h.2)⟩
      | cons y ys =>
          simp only [List.map_cons, List.cons.injEq, keyY_eq_finished_iff, ih,
            List.forall_mem_cons]
          exact and_and_and_comm

theorem finishes_staffNoteElements_iff (h : note.rest = false) :
    (staffNoteElements note x top ys).Finishes ↔ ∀ y ∈ ys, ∃ bound, HeadEnds bound top y := by
  rw [staffNoteElements, h, if_neg (by simp), Sketch.finishes_bind_iff]
  have hheads : (∃ heads, Sketch.all (ys.map (staffHead note x top)) = .finished heads) ↔
      ∀ y ∈ ys, ∃ bound, HeadEnds bound top y := by
    refine Sketch.finishes_all_iff.trans (List.forall_mem_map.trans ?_)
    simp only [staffHead, Sketch.finishes_map_iff, finishes_ledgerLines_iff]
  rw [← hheads]
  exact exists_congr fun heads => and_iff_left ⟨_, rfl⟩

/-- What stands in a voice on a staff gets finished: a note with all of its keys. -/
def ObjectEnds (bound : Nat) (top : Float) (clef : Option Clef) : Tickable → Prop
  | .staff note => note.rest = true ∨ ∀ key ∈ note.keys, KeyEnds bound top clef key
  | _ => True

instance (bound : Nat) : DecidablePred (ObjectEnds bound top clef)
  | .staff note =>
      inferInstanceAs (Decidable (note.rest = true ∨ ∀ key ∈ note.keys, KeyEnds bound top clef key))
  | .tab _ | .bar _ | .spacer _ _ | .text _ => inferInstanceAs (Decidable True)

theorem ObjectEnds.mono {m n : Nat} {t : Tickable} (h : m ≤ n) (hends : ObjectEnds m top clef t) :
    ObjectEnds n top clef t := by
  cases t with
  | staff note => exact hends.imp_right fun hkeys key hkey => (hkeys key hkey).mono h
  | _ => trivial

/-- A note on a staff is finished with the heights of its keys and its elements. -/
theorem finishes_staffObject_staff_iff {view : StaffView} {stave voice index : Nat} {left : Float} :
    (staffObject view top stave voice index left (.staff note)).Finishes ↔
      ∃ ys, staffHeights note top view.clef = .finished ys ∧
        (staffNoteElements note (left + headWidth) top ys).Finishes := by
  rw [staffObject, Sketch.finishes_bind_iff]
  exact exists_congr fun ys => and_congr_right fun _ => Sketch.finishes_map_iff

theorem exists_objectEnds_staff_iff (h : note.rest = false) :
    (∃ bound, ObjectEnds bound top clef (.staff note)) ↔
      ∀ key ∈ note.keys, ∃ bound, KeyEnds bound top clef key := by
  simp only [ObjectEnds, h, Bool.false_eq_true, false_or]
  exact exists_forall_mem_iff (P := fun bound => KeyEnds bound top clef) KeyEnds.mono

/-- **Which notes on a staff get finished.** -/
theorem finishes_staffObject_iff {view : StaffView} {stave voice index : Nat} {left : Float}
    {t : Tickable} : (staffObject view top stave voice index left t).Finishes ↔
      ∃ bound, ObjectEnds bound top view.clef t := by
  cases t with
  | staff note =>
      rw [finishes_staffObject_staff_iff]
      cases hrest : note.rest with
      | true =>
          refine iff_of_true ⟨[middleOf top], ?_, ?_⟩ ⟨0, .inl hrest⟩
          · rw [staffHeights, if_pos hrest]
            rfl
          · rw [staffNoteElements, if_pos hrest]
            exact ⟨_, rfl⟩
      | false =>
          rw [exists_objectEnds_staff_iff hrest]
          simp only [staffHeights_eq_finished_iff hrest, finishes_staffNoteElements_iff hrest]
          constructor
          · rintro ⟨_, ⟨hfits, rfl⟩, hheads⟩ key hkey
            obtain ⟨bound, hbound⟩ := hheads _ (List.mem_map_of_mem hkey)
            exact ⟨bound, hfits key hkey, hbound⟩
          · intro hends
            refine ⟨_, ⟨fun key hkey => ?_, rfl⟩, List.forall_mem_map.2 fun key hkey => ?_⟩
            · obtain ⟨_, hfits, -⟩ := hends key hkey
              exact hfits
            · obtain ⟨bound, -, hbound⟩ := hends key hkey
              exact ⟨bound, hbound⟩
  | _ => exact iff_of_true ⟨_, rfl⟩ ⟨0, trivial⟩

theorem finishes_tabObject {first last : Float} {beam : BeamPolicy} {stave voice index : Nat}
    {left : Float} {t : Tickable} :
    (tabObject first last beam stave voice index left t).Finishes := by
  cases t <;> exact ⟨_, rfl⟩

end Notes

/-! ## Pictures -/

namespace Timeline

theorem map_moments (elapsed : Ticks) (index : Nat) (voice : List Tickable) :
    (moments elapsed index voice).map (·.2.2) = voice := by
  induction voice generalizing elapsed index with
  | nil => rfl
  | cons t voice ih =>
      rw [moments, List.map_cons, ih]

/-- The objects of a voice keep their order in the places. -/
theorem map_place (t : Timeline) (voice : List Tickable) :
    (t.place voice).map (·.2.2) = voice := by
  rw [place, List.map_map]
  exact map_moments 0 0 voice

end Timeline

namespace Picture

@[simp] theorem append_blank (p : Picture) : p.append blank = p := by
  simp [append, blank]

theorem append_assoc (p q r : Picture) : (p.append q).append r = p.append (q.append r) := by
  simp [append]

end Picture

namespace Sketch

variable {pictures : List (Sketch Picture)}

theorem join_cons (x : Sketch Picture) :
    join (x :: pictures) = x >>= fun p => p.append <$> join pictures := by
  cases x with
  | finished p => cases hall : all pictures <;> simp only [join, all, hall] <;> rfl
  | overflow => rfl
  | endless => rfl

theorem join_eq_finished_iff {p : Picture} :
    join pictures = finished p ↔ ∃ parts, pictures = parts.map finished ∧ .join parts = p := by
  rw [join, map_eq_finished_iff]
  exact exists_congr fun parts => and_congr_left fun _ => all_eq_finished_iff

theorem finishes_join_iff : (join pictures).Finishes ↔ ∀ x ∈ pictures, x.Finishes :=
  finishes_map_iff.trans finishes_all_iff

end Sketch

/-- The voices of a view get finished if each of their objects does. -/
theorem finishes_voicePictures_iff {timeline : Timeline}
    {object : Nat → Nat → Float → Tickable → Sketch Picture} {P : Tickable → Prop}
    (h : ∀ voice index left t, (object voice index left t).Finishes ↔ P t)
    {voices : List (List Tickable)} :
    (voicePictures timeline object voices).Finishes ↔ ∀ voice ∈ voices, ∀ t ∈ voice, P t := by
  have hvoice (i : Nat) (voice : List Tickable) :
      (Sketch.join ((timeline.place voice).map fun entry =>
        object i entry.1 entry.2.1 entry.2.2)).Finishes ↔ ∀ t ∈ voice, P t := by
    rw [Sketch.finishes_join_iff, List.forall_mem_map]
    conv_rhs => rw [← timeline.map_place voice, List.forall_mem_map]
    exact forall₂_congr fun entry _ => h i _ _ _
  rw [voicePictures, Sketch.finishes_join_iff]
  exact forall_mem_mapIdx_iff hvoice

theorem finishes_staffPicture_iff {timeline : Timeline} {stave : Nat} {view : StaffView}
    {voices : List (List Tickable)} : (staffPicture timeline stave view voices).Finishes ↔
      ∀ voice ∈ voices, ∀ t ∈ voice,
        ∃ bound, ObjectEnds bound (view.y + staffTopOffset) view.clef t := by
  rw [staffPicture, Sketch.finishes_join_iff]
  simpa using finishes_voicePictures_iff
    (P := fun t => ∃ bound, ObjectEnds bound (view.y + staffTopOffset) view.clef t)
    fun _ _ _ _ => finishes_staffObject_iff

theorem finishes_tabPicture {timeline : Timeline} {stave : Nat} {beam : BeamPolicy}
    {view : TabView} {voices : List (List Tickable)} :
    (tabPicture timeline stave beam view voices).Finishes := by
  have hvoices (first last : Float) :
      (voicePictures timeline (tabObject first last beam stave) voices).Finishes :=
    (finishes_voicePictures_iff (P := fun _ => True)
      fun _ _ _ _ => iff_of_true finishes_tabObject trivial).2 fun _ _ _ _ => trivial
  rw [tabPicture, Sketch.finishes_join_iff]
  simpa using hvoices _ _

end Tablature.Preview

namespace Tablature

open Preview

/-- What stands on the staff of a stave gets finished, with no more than `bound` ledger lines above a
key and no more below it. -/
def Stave.EndsWithin (bound : Nat) (stave : Stave) : Prop :=
  ∀ view ∈ stave.staff, ∀ voice ∈ stave.staffVoices, ∀ t ∈ voice,
    ObjectEnds bound (view.y + staffTopOffset) view.clef t

instance (bound : Nat) : DecidablePred (Stave.EndsWithin bound) :=
  fun stave => inferInstanceAs (Decidable (∀ view ∈ stave.staff, _))

/-- Every stave of a score gets finished. -/
def Score.EndsWithin (bound : Nat) (score : Score) : Prop :=
  ∀ stave ∈ score.staves, stave.EndsWithin bound

instance (bound : Nat) : DecidablePred (Score.EndsWithin bound) :=
  fun score => inferInstanceAs (Decidable (∀ stave ∈ score.staves, _))

theorem Stave.EndsWithin.mono {m n : Nat} {stave : Stave} (h : m ≤ n)
    (hends : stave.EndsWithin m) : stave.EndsWithin n :=
  fun view hview voice hvoice t ht => (hends view hview voice hvoice t ht).mono h

theorem Stave.exists_endsWithin_iff {stave : Stave} :
    (∃ bound, stave.EndsWithin bound) ↔ ∀ view ∈ stave.staff, ∀ voice ∈ stave.staffVoices,
      ∀ t ∈ voice, ∃ bound, ObjectEnds bound (view.y + staffTopOffset) view.clef t := by
  unfold Stave.EndsWithin
  cases stave.staff with
  | none => simp
  | some view =>
      simp only [Option.mem_some_iff, forall_eq']
      let ends (bound : Nat) := ObjectEnds bound (view.y + staffTopOffset) view.clef
      rw [exists_forall_mem_iff (P := fun bound voice => ∀ t ∈ voice, ends bound t)
        fun h hends t ht => (hends t ht).mono h]
      exact forall₂_congr fun voice _ => exists_forall_mem_iff (P := ends) ObjectEnds.mono

end Tablature

namespace Tablature.Preview

theorem finishes_stavePicture_iff {settings : Settings} {i : Nat} {stave : Stave} :
    (stavePicture (.of settings i stave)).Finishes ↔ ∃ bound, stave.EndsWithin bound := by
  rw [Stave.exists_endsWithin_iff, stavePicture, Sketch.finishes_join_iff]
  cases hstaff : stave.staff <;> cases htab : stave.tab <;>
    simp [StaveGroup.of, hstaff, htab, finishes_staffPicture_iff, finishes_tabPicture]

/-! ## The drawing -/

namespace Drawing

/-- The pictures of the staves of a score, one after the other. -/
def stavesPicture (score : Score) : Sketch Picture :=
  .join (score.staves.mapIdx fun i stave => stavePicture (.of score.settings i stave))

/-- The picture of the links of a score between the places that its notes were given. -/
def linksPicture (score : Score) (placements : Placements) : Picture :=
  .ofElements (score.tabLinks.flatMap (tabLinkElements placements) ++
    score.staffLinks.flatMap (staffLinkElements placements))

theorem perform_staves (surface : Surface) (p : Picture) (groups : List StaveGroup) :
    (groups.map LayoutCall.stave).foldlM perform ⟨some surface, p⟩ =
      (fun q => ⟨some surface, p.append q⟩) <$> Sketch.join (groups.map stavePicture) := by
  induction groups generalizing p with
  | nil => exact congrArg (fun q => Sketch.finished (Drawing.mk _ q)) p.append_blank.symm
  | cons g groups ih =>
      have hperform : perform ⟨some surface, p⟩ (.stave g) =
          (fun q => ⟨some surface, p.append q⟩) <$> stavePicture g := rfl
      rw [List.map_cons, List.foldlM_cons, hperform, bind_map_left, List.map_cons,
        Sketch.join_cons, map_bind]
      refine bind_congr fun q => ?_
      rw [ih, Functor.map_map]
      simp only [Picture.append_assoc]

/-- A score is drawn stave by stave, and its links after them where the staves have put their
notes. -/
theorem ofCalls_layoutCalls (s : Session) : ∃ surface : Surface,
    s.surface = .prepare surface.width surface.height surface.scale ∧
      ofCalls s.layoutCalls =
        (fun p => ⟨some surface, p.append (linksPicture s.score p.placements)⟩) <$>
          stavesPicture s.score := by
  let groups := s.score.staves.mapIdx (StaveGroup.of s.score.settings)
  have hcalls : (s.score.staves.mapIdx fun i stave =>
      LayoutCall.stave (.of s.settings i stave)) = groups.map LayoutCall.stave :=
    (map_mapIdx LayoutCall.stave s.score.staves).symm
  have hpicture : stavesPicture s.score = Sketch.join (groups.map stavePicture) := by
    rw [map_mapIdx, stavesPicture]
  refine ⟨⟨_, _, _⟩, rfl, ?_⟩
  rw [ofCalls, Session.layoutCalls, hcalls, hpicture, List.foldlM_append, List.foldlM_cons]
  show (groups.map LayoutCall.stave).foldlM perform ⟨some _, .blank⟩ >>= _ = _
  rw [perform_staves, bind_map_left]
  rfl

/-- **Which drawings get finished.** -/
theorem finishes_iff (s : Session) :
    (ofCalls s.layoutCalls).Finishes ↔ ∃ bound, s.score.EndsWithin bound := by
  obtain ⟨surface, -, hdrawing⟩ := ofCalls_layoutCalls s
  rw [hdrawing, Sketch.finishes_map_iff, stavesPicture, Sketch.finishes_join_iff]
  unfold Score.EndsWithin
  rw [exists_forall_mem_iff (P := Stave.EndsWithin) Stave.EndsWithin.mono]
  exact forall_mem_mapIdx_iff (Q := fun stave : Stave => ∃ bound, stave.EndsWithin bound)
    fun _ _ => finishes_stavePicture_iff

end Drawing

end Tablature.Preview

namespace Tablature

open Preview

/-- The drawing of a session's score gets finished exactly if its notes do. -/
theorem Session.finishes_draw_iff (s : Session) :
    s.draw.Finishes ↔ ∃ bound, s.render.1.score.EndsWithin bound :=
  Sketch.finishes_map_iff.trans (Drawing.finishes_iff s.finishStaves)

theorem renderToDocument_ok {json : String} {width : Option Float} {s : Session}
    (h : compileWith (.withWidth width) json = .ok s) :
    renderToDocument json width = Except.ok <$> s.draw := by
  rw [renderToDocument, h]

theorem renderToDocument_error {json : String} {width : Option Float} {fault : Fault}
    (h : compileWith (.withWidth width) json = .error fault) :
    renderToDocument json width = .finished (.error fault) := by
  rw [renderToDocument, h]
  rfl

/-- A directive list gets drawn exactly if its score does, in case it has one. -/
theorem finishes_renderToDocument_iff {json : String} {width : Option Float} :
    (renderToDocument json width).Finishes ↔
      ∀ s, compileWith (.withWidth width) json = .ok s →
        ∃ bound, s.render.1.score.EndsWithin bound := by
  cases hcompiled : compileWith (.withWidth width) json with
  | error fault =>
      rw [renderToDocument_error hcompiled]
      exact iff_of_true (Sketch.finishes_finished _) fun _ hs => (nomatch hs)
  | ok s =>
      rw [renderToDocument_ok hcompiled, Sketch.finishes_map_iff, s.finishes_draw_iff]
      exact ⟨fun h _ hs => Except.ok.inj hs ▸ h, fun h => h s rfl⟩

/-- A drawing of tablature alone gets finished. -/
theorem Score.endsWithin_zero {score : Score} (h : ∀ stave ∈ score.staves, stave.staff = none) :
    score.EndsWithin 0 := by
  intro stave hstave view hview
  rw [h stave hstave] at hview
  cases hview

end Tablature
