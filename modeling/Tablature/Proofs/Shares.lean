/-
# Tablature.Proofs.Shares — nothing stands outside its stave.

Along a stave an object stands at the share of the stave's time that has passed before it. What has
passed is a running sum along one voice; the time of the stave is that of its longest voice, of
either view or of the texts. Both count the same objects, so the sum never overtakes the total
(`mem_moments`), and objects that face each other on the two views have waited equally long
(`shares_eq_of_face`). In the staves that a session hands over whatever takes time takes some, and
that keeps every share between nothing and the whole (`places_within_staves`).
-/
import Mathlib.Algebra.Order.Field.Basic
import Mathlib.Tactic.Linarith
import Tablature.Proofs.Lasting
import Tablature.Proofs.Multipliers
import Tablature.Proofs.Placements

namespace Tablature

open Preview

/-- A text that is not multiplied lasts. -/
theorem Tickable.lasts_text {n : TextNote} (h : n.multiplier = 1) : (text n).Lasts := by
  intro htakes
  have hticks : (text n).ticks = n.duration.ticks * n.multiplier :=
    if_neg (ne_true_of_eq_false htakes)
  rw [hticks, h, mul_one]
  exact n.duration.ticks_pos

/-- Objects that face each other last equally long. -/
theorem Faces.ticks_eq {a b : Tickable} (h : Faces a b) : a.ticks = b.ticks := by
  cases h with
  | note _ _ _ duration multiplier _ => simp [Tickable.ticks, duration, multiplier]
  | bar type => rfl
  | space _ hduration hmultiplier => simp [Tickable.ticks, hduration, hmultiplier]
  | rest _ _ duration multiplier => simp [Tickable.ticks, duration, multiplier]

/-! ## What has passed before an object -/

namespace Preview.Timeline

section Voice

variable {start total : Ticks} {index : Nat} {voice : List Tickable}

/-- Before an object of a voice no less has passed than at the start of the voice, and what has
passed leaves room for the object. -/
theorem mem_moments (h : VoiceLasts voice) {i : Nat} {elapsed : Ticks} {t : Tickable}
    (hm : (i, elapsed, t) ∈ moments start index voice) :
    t ∈ voice ∧ start ≤ elapsed ∧ elapsed + t.ticks ≤ start + voiceTicks voice := by
  induction voice generalizing start index with
  | nil => cases hm
  | cons u voice ih =>
      obtain ⟨hfirst, hrest⟩ := List.forall_mem_cons.1 h
      have hnonneg : 0 ≤ u.ticks := hfirst.ticks_nonneg
      have hrest' : 0 ≤ voiceTicks voice := voiceTicks_nonneg hrest
      rw [moments_cons] at hm
      rw [voiceTicks_cons]
      rcases List.mem_cons.1 hm with heq | hm
      · cases heq
        exact ⟨List.mem_cons_self, le_refl _, by linarith⟩
      · obtain ⟨hmem, hstart, hend⟩ := ih hrest hm
        exact ⟨List.mem_cons_of_mem u hmem, by linarith, by linarith⟩

/-- Along a voice more and more has passed. -/
theorem pairwise_moments (h : VoiceLasts voice) :
    (moments start index voice).Pairwise fun earlier later => earlier.2.1 ≤ later.2.1 := by
  induction voice generalizing start index with
  | nil => exact .nil
  | cons t voice ih =>
      obtain ⟨hfirst, hrest⟩ := List.forall_mem_cons.1 h
      rw [moments_cons]
      refine .cons (fun m hm => ?_) (ih hrest)
      obtain ⟨-, hstart, -⟩ := mem_moments hrest hm
      have hnonneg : 0 ≤ t.ticks := hfirst.ticks_nonneg
      show start ≤ m.2.1
      linarith

end Voice

/-! ## Shares -/

/-- The shares of a total at which the objects of a voice stand, without any time none. -/
def shares (total : Ticks) (voice : List Tickable) : List (Option Rat) :=
  (moments 0 0 voice).map fun m => share? total m.2.1

/-- Where a share of the time stands; without any time everything stands at the left. -/
def atShare (t : Timeline) : Option Rat → Float
  | none => t.left
  | some share => t.left + ratioToFloat share * t.width

/-- Objects that face each other have waited equally long, whatever the total is. -/
theorem shares_eq_of_face {voice facing : List Tickable} (h : VoicesFace voice facing)
    (total : Ticks) : shares total voice = shares total facing := by
  have hmoments (start : Ticks) (index : Nat) :
      (moments start index voice).map (fun m => share? total m.2.1) =
        (moments start index facing).map fun m => share? total m.2.1 := by
    induction h generalizing start index with
    | nil => rfl
    | @cons t u voice facing hface _ ih =>
        rw [moments_cons, moments_cons, List.map_cons, List.map_cons, hface.ticks_eq, ih]
  exact hmoments 0 0

/-- **The places of a voice on its stave.** -/
structure Within (t : Timeline) (voice : List Tickable) : Prop where
  /-- Objects are drawn where their shares stand. -/
  drawn : (t.place voice).map (·.2.1) = (shares t.total voice).map t.atShare
  /-- Without any time nothing has passed before any object, and nothing is divided. -/
  still : t.total = 0 → ∀ i elapsed object, (i, elapsed, object) ∈ moments 0 0 voice →
    elapsed = 0 ∧ share? t.total elapsed = none
  /-- Otherwise every object has its share, from nothing to the whole. -/
  inside : t.total ≠ 0 → ∀ i elapsed object, (i, elapsed, object) ∈ moments 0 0 voice →
    ∃ share, share? t.total elapsed = some share ∧ 0 ≤ share ∧ share ≤ 1
  /-- What takes time starts before the whole has passed. -/
  before : ∀ i elapsed object, (i, elapsed, object) ∈ moments 0 0 voice →
    object.ignoresTicks = false → ∃ share, share? t.total elapsed = some share ∧ share < 1
  rising : (shares t.total voice).Pairwise fun earlier later =>
    ∀ p ∈ earlier, ∀ q ∈ later, p ≤ q

/-- A voice that is no longer than its stave stays within it. -/
theorem within_of_le {t : Timeline} {voice : List Tickable} (hlasts : VoiceLasts voice)
    (hle : voiceTicks voice ≤ t.total) : t.Within voice := by
  have hnonneg : 0 ≤ t.total := (voiceTicks_nonneg hlasts).trans hle
  -- The time before an object leaves room for it in the whole: all bounds come from this.
  have room {i : Nat} {elapsed : Ticks} {object : Tickable}
      (hm : (i, elapsed, object) ∈ moments 0 0 voice) :
      object.Lasts ∧ 0 ≤ elapsed ∧ elapsed + object.ticks ≤ t.total := by
    obtain ⟨hmem, hstart, hend⟩ := mem_moments hlasts hm
    exact ⟨hlasts object hmem, hstart, by linarith⟩
  have divided (htotal : t.total ≠ 0) (elapsed : Ticks) :
      share? t.total elapsed = some (elapsed / t.total) := if_neg htotal
  refine ⟨?_, ?_, ?_, ?_, ?_⟩
  · rw [place, shares, List.map_map, List.map_map]
    refine List.map_congr_left fun m _ => ?_
    show t.xAt m.2.1 = t.atShare (share? t.total m.2.1)
    unfold xAt
    cases share? t.total m.2.1 <;> rfl
  · intro htotal i elapsed object hm
    obtain ⟨hobject, hstart, hend⟩ := room hm
    have htime : 0 ≤ object.ticks := hobject.ticks_nonneg
    exact ⟨by linarith, if_pos htotal⟩
  · intro htotal i elapsed object hm
    obtain ⟨hobject, hstart, hend⟩ := room hm
    have htime : 0 ≤ object.ticks := hobject.ticks_nonneg
    have hpos : 0 < t.total := lt_of_le_of_ne hnonneg (Ne.symm htotal)
    refine ⟨_, divided htotal elapsed, div_nonneg hstart hpos.le, ?_⟩
    exact (div_le_one hpos).2 (by linarith)
  · intro i elapsed object hm htakes
    obtain ⟨hobject, hstart, hend⟩ := room hm
    have htime : 0 < object.ticks := hobject htakes
    have hpos : 0 < t.total := by linarith
    exact ⟨_, divided hpos.ne' elapsed, (div_lt_one hpos).2 (by linarith)⟩
  · rw [shares, List.pairwise_map]
    refine (pairwise_moments hlasts).imp fun {m m'} hle p hp q hq => ?_
    have htotal : t.total ≠ 0 := by
      intro htotal
      have hnone : share? t.total m.2.1 = none := if_pos htotal
      rw [hnone] at hp
      cases hp
    rw [divided htotal, Option.mem_some_iff] at hp hq
    rw [← hp, ← hq]
    exact div_le_div_of_nonneg_right hle hnonneg

end Preview.Timeline

/-! ## The staves of a session -/

namespace Session

/-- The staves among the calls are those of the score, with their settings. -/
theorem mem_layoutCalls {s : Session} {g : StaveGroup} (h : .stave g ∈ s.layoutCalls) :
    ∃ index, ∃ stave ∈ s.score.staves, g = .of s.settings index stave := by
  rw [layoutCalls, List.cons_append] at h
  rcases List.mem_cons.1 h with hsurface | h
  · cases hsurface
  rcases List.mem_append.1 h with hstave | hlinks
  · obtain ⟨index, hindex, heq⟩ := List.mem_mapIdx.1 hstave
    cases heq
    exact ⟨index, _, List.getElem_mem hindex, rfl⟩
  · cases List.mem_singleton.1 hlinks

open Preview.Timeline

variable {settings : Settings} {index : Nat} {stave : Stave}

/-- Every voice of a stave is made of objects that last, texts included. -/
theorem voiceLasts_of_mem_voices {M : Ticks → Prop} (hlasts : stave.Lasts)
    (hmultiplied : stave.Multiplied M) :
    ∀ voice ∈ voices (.of settings index stave), VoiceLasts voice := by
  intro voice hvoice
  rw [voices, List.mem_append, List.mem_append] at hvoice
  rcases hvoice with (hstaff | htab) | htext
  · cases hview : stave.staff with
    | none => simp [StaveGroup.of, hview] at hstaff
    | some view =>
        simp only [StaveGroup.of, hview, Option.map_some, Option.getD_some] at hstaff
        exact hlasts.staffVoices voice hstaff
  · cases hview : stave.tab with
    | none => simp [StaveGroup.of, hview] at htab
    | some view =>
        simp only [StaveGroup.of, hview, Option.map_some, Option.getD_some] at htab
        exact hlasts.tabVoices voice htab
  · obtain ⟨notes, hnotes, rfl⟩ := List.mem_map.1 htext
    refine List.forall_mem_map.2 fun n hn => ?_
    exact Tickable.lasts_text (hmultiplied.texts notes hnotes n hn)

/-- What faces each other on the two views of a stave has equal shares. -/
theorem shares_eq_of_aligned (haligned : stave.Aligned) (total : Ticks) :
    ∀ onTab ∈ (StaveGroup.of settings index stave).tab,
      ∀ onStaff ∈ (StaveGroup.of settings index stave).staff, List.Forall₂
        (fun voice facing => shares total voice = shares total facing) onTab.2 onStaff.2 := by
  intro onTab htab onStaff hstaff
  obtain ⟨tabView, -, rfl⟩ := Option.map_eq_some_iff.1 htab
  obtain ⟨staffView, hview, rfl⟩ := Option.map_eq_some_iff.1 hstaff
  have hfaces := haligned.voices (Option.isSome_iff_exists.2 ⟨staffView, hview⟩)
  exact hfaces.imp fun _ _ hface => shares_eq_of_face hface total

/-- **Nothing is placed outside its stave.** Of every stave that a session hands over, whatever has
happened to the session before, every voice of the two views and of the texts stays within the
stave, and the objects of a voice on tablature have the shares of the objects that face them on the
staff. -/
theorem places_within_staves (setup : PageSetup) (events : List Event) {g : StaveGroup}
    (h : .stave g ∈ ((follow events (.start setup)).render).2) :
    (∀ voice ∈ voices g, (Timeline.of g).Within voice) ∧
      ∀ onTab ∈ g.tab, ∀ onStaff ∈ g.staff, List.Forall₂
        (fun voice facing =>
          shares (Timeline.of g).total voice = shares (Timeline.of g).total facing)
        onTab.2 onStaff.2 := by
  have hrendered : (follow events (.start setup)).finishStaves =
      follow (events ++ [.render]) (.start setup) := by
    rw [follow_append]
    rfl
  obtain ⟨index, stave, hstave, rfl⟩ := mem_layoutCalls h
  rw [hrendered] at hstave
  have hlasts : stave.Lasts :=
    follow_induction (P := Session.Lasts) .start .step setup (events ++ [.render]) stave hstave
  have hmultiplied := follow_multiplied setup (events ++ [.render]) stave hstave
  have haligned := follow_aligned setup (events ++ [.render]) stave hstave
  refine ⟨fun voice hvoice => ?_, shares_eq_of_aligned haligned _⟩
  refine within_of_le (voiceLasts_of_mem_voices hlasts hmultiplied voice hvoice) ?_
  exact (Timetable.longest_spec _).2 voice hvoice

/-- A stave with both views on which a triplet is written before a bar, over a text. -/
def tripletOverText : List Event :=
  let note : Event := .note
    { time := none, dot := false, fret := some (.number 3), string := some 2, letterPitch := none
      octave := none, articulation := none, decorator := none }
  [.stave (StaveDeclaration.defaults .implicit), note, note, note, .tuplet 3 none, .bar .single,
    .textVoice, .text "la" ⟨0, .center, true, false⟩]

/-- The notes of the triplet stand at the thirds of the stave, on both views. -/
theorem places_within_staves_tripletOverText :
    ∃ g, .stave g ∈ ((follow tripletOverText (.start .standard)).render).2 ∧
      (voices g).map (shares (Timeline.of g).total) =
        [[some 0, some (1 / 3), some (2 / 3)], [some 0, some (1 / 3), some (2 / 3)], [some 0]] ∧
      (∀ voice ∈ voices g, (Timeline.of g).Within voice) ∧
      ∀ onTab ∈ g.tab, ∀ onStaff ∈ g.staff, List.Forall₂
        (fun voice facing =>
          shares (Timeline.of g).total voice = shares (Timeline.of g).total facing)
        onTab.2 onStaff.2 := by
  have handed : ∃ g, ((follow tripletOverText (.start .standard)).render).2[1]? =
      some (.stave g) := ⟨_, rfl⟩
  obtain ⟨g, hg⟩ := handed
  have hmem := List.mem_of_getElem? hg
  refine ⟨g, hmem, ?_, places_within_staves .standard tripletOverText hmem⟩
  cases hg
  decide +kernel

end Session

end Tablature
