/-
# Tablature.Proofs.Rendering — rendering is a flush and nothing more.

Rendering ends an open bend, takes the bar off the end of every voice in progress and finishes the
voices. A finished stave is finished once and for all, so that a second rendering finds nothing to
do and draws the same. Nobody hears of it either: the timetable depends only on what sounds of the
voices (`Timetable.build_eq_of_sounding`), and a bar at the end, an empty voice and a bend do not
sound.
-/
import Tablature.Proofs.Sound

namespace Tablature

/-! ## Finishing twice -/

namespace Stave

/-- Nothing is in progress on a finished stave. -/
theorem notes_finish (a : Stave) : a.finish.tabNotes = [] ∧ a.finish.staffNotes = [] := ⟨rfl, rfl⟩

theorem finish_eq_self {a : Stave} (htab : a.tabNotes = []) (hstaff : a.staffNotes = []) :
    a.finish = a := by
  have hfinishTab : a.finishTab = a := by rw [finishTab, htab]; rfl
  have hfinishStaff : a.finishStaff = a := by rw [finishStaff, hstaff]; rfl
  rw [finish, hfinishTab, hfinishStaff]
  obtain ⟨tab, staff, tabVoices, staffVoices, tabNotes, staffNotes, textVoices, beamGroups⟩ := a
  cases htab
  cases hstaff
  rfl

/-- A stave is finished once and for all. -/
@[simp] theorem finish_finish (a : Stave) : a.finish.finish = a.finish := by
  obtain ⟨htab, hstaff⟩ := a.notes_finish
  exact finish_eq_self htab hstaff

end Stave

@[simp] theorem Score.onEvery_finish (s : Score) :
    (s.onEvery Stave.finish).onEvery Stave.finish = s.onEvery Stave.finish := by
  have htwice : Stave.finish ∘ Stave.finish = Stave.finish := funext Stave.finish_finish
  simp only [onEvery, List.map_map, Option.map_map, htwice]

namespace Session

variable {s : Session}

theorem closeBends_eq_self (h : s.bend = none) (through : Bool) : s.closeBends through = s := by
  rw [closeBends, h]

theorem bend_finishStaves : s.finishStaves.bend = none := bend_closeBends true

/-- Finished staves stay as they are, and nothing else changes either. -/
@[simp] theorem finishStaves_finishStaves : s.finishStaves.finishStaves = s.finishStaves := by
  have hclosed : s.finishStaves.closeBends true = s.finishStaves :=
    closeBends_eq_self bend_finishStaves true
  have hscore : s.finishStaves.score.onEvery Stave.finish = s.finishStaves.score :=
    Score.onEvery_finish _
  show ({ s.finishStaves.closeBends true with
    score := (s.finishStaves.closeBends true).score.onEvery Stave.finish
    rendered := true } : Session) = _
  rw [hclosed, hscore]
  rfl

end Session

/-! ## What sounds of some voices -/

namespace Timetable

/-- The voices of which something is heard, without what is not heard of them. -/
def sounding (voices : List HeardVoice) : List HeardVoice :=
  (voices.map (·.filter Option.isSome)).filter (! ·.isEmpty)

theorem sounding_append (voices voices' : List HeardVoice) :
    sounding (voices ++ voices') = sounding voices ++ sounding voices' := by
  rw [sounding, List.map_append, List.filter_append]
  rfl

theorem sounding_cons (voice : HeardVoice) (voices : List HeardVoice) :
    sounding (voice :: voices) = sounding [voice] ++ sounding voices :=
  sounding_append [voice] voices

/-- An empty voice does not sound. -/
@[simp] theorem sounding_empty : sounding [[]] = [] := rfl

theorem addHeard_filter (now : Ticks) (groups : List TickGroup) (voice : HeardVoice) :
    addHeard now groups (voice.filter Option.isSome) = addHeard now groups voice := by
  induction voice generalizing now groups with
  | nil => rfl
  | cons heard voice ih =>
      cases heard with
      | none => exact ih now groups
      | some note => exact ih (now + note.ticks) (TickGroup.insert now note groups)

theorem heardTicks_filter (voice : HeardVoice) :
    heardTicks (voice.filter Option.isSome) = heardTicks voice := by
  induction voice with
  | nil => rfl
  | cons heard voice ih =>
      cases heard with
      | none => exact ih.trans (Rat.zero_add (heardTicks voice)).symm
      | some note => exact congrArg (note.ticks + ·) ih

/-- What adds up voices by their sounds, and is not changed by an empty one, adds up what sounds of
them. Whether it is changed may depend on what there is so far. -/
theorem foldl_sounding {β : Type} {f : β → HeardVoice → β} {P : β → Prop}
    (same : ∀ b voice, f b (voice.filter Option.isSome) = f b voice)
    (skip : ∀ b, P b → f b [] = b) (keep : ∀ b voice, P b → P (f b voice))
    (voices : List HeardVoice) {b : β} (hb : P b) :
    (sounding voices).foldl f b = voices.foldl f b := by
  induction voices generalizing b with
  | nil => rfl
  | cons voice voices ih =>
      rw [sounding_cons, List.foldl_append, List.foldl_cons, ← ih (keep b voice hb), ← same b voice]
      cases hsounds : voice.filter Option.isSome with
      | nil =>
          have hsilent : sounding [voice] = [] := by simp [sounding, hsounds]
          rw [hsilent, skip b hb]
          rfl
      | cons heard rest =>
          have hheard : sounding [voice] = [heard :: rest] := by simp [sounding, hsounds]
          rw [hheard]
          rfl

/-- A stave adds to a timetable what sounds of its voices. -/
theorem addHeardStave_sounding (t : Timetable) (voices : List HeardVoice) :
    t.addHeardStave (sounding voices) = t.addHeardStave voices := by
  let longer (longest : Ticks) (voice : HeardVoice) : Ticks := longest.longer (heardTicks voice)
  have hevents : (sounding voices).foldl (addHeard t.total) t.events =
      voices.foldl (addHeard t.total) t.events :=
    foldl_sounding (P := fun _ => True) (addHeard_filter t.total) (fun _ _ => rfl)
      (fun _ _ _ => trivial) voices trivial
  -- A voice without any time is never the longest, as no time is less than none.
  have htotal : (sounding voices).foldl longer 0 = voices.foldl longer 0 := by
    refine foldl_sounding (P := fun longest : Ticks => 0 ≤ longest) ?_ ?_ ?_ voices Rat.le_refl
    · intro longest voice
      show longest.longer (heardTicks (voice.filter Option.isSome)) = _
      rw [heardTicks_filter]
    · intro longest hnonneg
      show (if longest ≤ 0 then 0 else longest) = longest
      split
      · exact Rat.le_antisymm hnonneg ‹_›
      · rfl
    · intro longest voice hnonneg
      exact Rat.le_trans hnonneg (Ticks.le_longer_left _ _)
  rw [addHeardStave, addHeardStave, hevents]
  exact congrArg (fun longest => Timetable.mk _ (t.total + longest)) htotal

/-- **The timetable depends only on what sounds** of the voices of each stave. -/
theorem build_eq_of_sounding {staves staves' : List (List (List Tickable))}
    (h : staves'.map (fun voices => sounding (voices.map heardVoice)) =
      staves.map fun voices => sounding (voices.map heardVoice)) :
    build staves' = build staves := by
  have hsounding (staves : List (List (List Tickable))) : build staves =
      (staves.map fun voices => sounding (voices.map heardVoice)).foldl addHeardStave empty := by
    rw [build_eq, List.foldl_map, List.foldl_map]
    simp only [addHeardStave_sounding]
  rw [hsounding, hsounding, h]

end Timetable

/-! ## Rendering is not heard -/

open Timetable (sounding sounding_append sounding_cons)

/-- What sounds of finished voices and the voice in progress after them. -/
def soundsOf (finished : List (List Tickable)) (notes : List Tickable) : List HeardVoice :=
  sounding ((finished ++ [notes]).map heardVoice)

theorem soundsOf_eq (finished : List (List Tickable)) (notes : List Tickable) :
    soundsOf finished notes =
      sounding (finished.map heardVoice) ++ sounding [heardVoice notes] := by
  rw [soundsOf, List.map_append, sounding_append]
  rfl

/-- Finishing a voice does not change what sounds, also where the voice is empty and dropped. -/
theorem soundsOf_withVoice (finished : List (List Tickable)) (notes : List Tickable) :
    soundsOf (Stave.withVoice finished notes) [] = soundsOf finished notes := by
  unfold Stave.withVoice
  split
  · rename_i hempty
    rw [List.isEmpty_iff.1 hempty]
  · rw [soundsOf_eq, soundsOf, heardVoice, List.map_nil, Timetable.sounding_empty, List.append_nil]

/-- A bar at the end of a voice does not sound. -/
theorem soundsOf_dropBar (finished : List (List Tickable)) {notes : List Tickable}
    {type : BarType} (h : endBar? notes = some type) :
    soundsOf finished notes.dropLast = soundsOf finished notes := by
  obtain ⟨last, hlast, hbar⟩ := Option.bind_eq_some_iff.1 h
  obtain ⟨rest, rfl⟩ := List.getLast?_eq_some_iff.1 hlast
  have hsilent : last.heard = none := by
    cases last with
    | bar _ => rfl
    | _ => cases hbar
  have hfilter : (heardVoice (rest ++ [last])).filter Option.isSome =
      (heardVoice rest).filter Option.isSome := by
    rw [heardVoice, List.map_append, List.filter_append, List.map_singleton, hsilent]
    exact List.append_nil _
  rw [soundsOf_eq, soundsOf_eq, List.dropLast_concat, sounding, sounding, sounding,
    List.map_singleton, List.map_singleton, hfilter]

namespace Stave

/-- What sounds of a stave. -/
def sounds (a : Stave) : List HeardVoice :=
  if a.staff.isSome then soundsOf a.staffVoices a.staffNotes else soundsOf a.tabVoices a.tabNotes

theorem sounding_playedVoices (a : Stave) :
    sounding (a.playedVoices.map heardVoice) = a.sounds := by
  -- The voices that are not played are empty, and those do not sound.
  have hplayed (voices : List (List Tickable)) :
      sounding ((voices.filter (! ·.isEmpty)).map heardVoice) =
        sounding (voices.map heardVoice) := by
    induction voices with
    | nil => rfl
    | cons voice voices ih =>
        cases voice with
        | nil => exact ih
        | cons t voice =>
            rw [List.filter_cons_of_pos rfl, List.map_cons, List.map_cons, sounding_cons, ih,
              ← sounding_cons]
  rw [playedVoices, hplayed, sounds]
  split <;> rfl

theorem sounds_finishTab (a : Stave) : a.finishTab.sounds = a.sounds := by
  unfold finishTab
  split
  · rename_i hend
    show (if a.staff.isSome then _ else soundsOf a.tabVoices a.tabNotes.dropLast) = a.sounds
    rw [soundsOf_dropBar a.tabVoices hend]
    rfl
  · rfl

theorem sounds_finishStaff (a : Stave) : a.finishStaff.sounds = a.sounds := by
  unfold finishStaff
  split
  · rename_i hend
    unfold sounds
    rw [Option.isSome_map, soundsOf_dropBar a.staffVoices hend]
  · rfl

theorem sounds_closeVoice (a : Stave) : a.closeVoice.sounds = a.sounds := by
  show (if a.staff.isSome then soundsOf (withVoice a.staffVoices a.staffNotes) []
    else soundsOf (withVoice a.tabVoices a.tabNotes) []) = a.sounds
  rw [soundsOf_withVoice, soundsOf_withVoice]
  rfl

/-- Finishing a stave does not change what sounds of it. -/
theorem sounds_finish (a : Stave) : a.finish.sounds = a.sounds := by
  rw [finish, sounds_closeVoice, sounds_finishStaff, sounds_finishTab]

/-- Marking a stave does not change what sounds of it. -/
theorem Marked.sounds_eq {a b : Stave} (h : a.Marked b) : b.sounds = a.sounds := by
  have htab : heardVoice b.tabNotes = heardVoice a.tabNotes :=
    map_eq_of_forall₂ h.tabNotes fun _ _ => Tickable.Dressed.heard_eq
  have hstaff : heardVoice b.staffNotes = heardVoice a.staffNotes :=
    map_eq_of_forall₂ h.staffNotes fun _ _ hmarks => (Tickable.Dressed.of_marks hmarks).heard_eq
  have hvoices : b.staff = a.staff ∧ b.tabVoices = a.tabVoices ∧
      b.staffVoices = a.staffVoices := by
    rw [h.frame]
    exact ⟨rfl, rfl, rfl⟩
  obtain ⟨hview, htabVoices, hstaffVoices⟩ := hvoices
  simp only [sounds, soundsOf_eq, hview, htab, hstaff, htabVoices, hstaffVoices]

end Stave

namespace Session

variable {s t : Session}

/-- Sessions with the same tempo and instrument have one schedule if the same sounds of every
stave. -/
theorem schedule_eq_of_sounds (htempo : t.settings.tempo = s.settings.tempo)
    (hinstrument : t.settings.instrument = s.settings.instrument)
    (h : t.score.staves.map Stave.sounds = s.score.staves.map Stave.sounds) :
    t.schedule = s.schedule := by
  have hplayed (score : Score) :
      score.playedVoices.map (fun voices => sounding (voices.map heardVoice)) =
        score.staves.map Stave.sounds := by
    rw [Score.playedVoices, List.map_map]
    exact List.map_congr_left fun a _ => a.sounding_playedVoices
  have htimetable : Timetable.build t.score.playedVoices = Timetable.build s.score.playedVoices :=
    Timetable.build_eq_of_sounding (by rw [hplayed, hplayed, h])
  rw [schedule, schedule, Schedule.build, Schedule.build, htempo, hinstrument, htimetable]

theorem Marked.map_sounds_eq (h : s.Marked t) :
    t.score.staves.map Stave.sounds = s.score.staves.map Stave.sounds := by
  have hactive := h.active
  rw [Score.staves, Score.staves, h.earlier, List.map_append, List.map_append]
  generalize s.score.active = a at hactive ⊢
  generalize t.score.active = b at hactive ⊢
  cases hactive with
  | none => rfl
  | some hab =>
      show _ ++ [_] = _ ++ [_]
      rw [hab.sounds_eq]

/-- Rendering is not heard. -/
theorem schedule_render (s : Session) : s.render.1.schedule = s.schedule := by
  obtain ⟨side, hside⟩ := (s.marked_closeBends true).settings
  have hsettings : s.render.1.settings = { s.settings with annotationSide := side } := hside
  have hstaves : s.render.1.score.staves = (s.closeBends true).score.staves.map Stave.finish :=
    Score.staves_onEvery _ _
  have hfinished : Stave.sounds ∘ Stave.finish = Stave.sounds := funext Stave.sounds_finish
  refine schedule_eq_of_sounds (by rw [hsettings]) (by rw [hsettings]) ?_
  rw [hstaves, List.map_map, hfinished]
  exact (s.marked_closeBends true).map_sounds_eq

/-- **Rendering is a flush and nothing more.** Whatever has happened to a session, rendering it a
second time gives a layout engine the same calls and leaves the score as the first time left it, and
the schedule is the same before the first time, after it and after the second. -/
theorem render_render (s : Session) :
    s.render.1.render.2 = s.render.2 ∧ s.render.1.render.1.score = s.render.1.score ∧
      s.render.1.schedule = s.schedule ∧ s.render.1.render.1.schedule = s.schedule := by
  have htwice : s.render.1.render = s.render := by
    show (s.finishStaves.finishStaves, s.finishStaves.finishStaves.layoutCalls) = _
    rw [finishStaves_finishStaves]
    rfl
  have honce : s.render.1.schedule = s.schedule := schedule_render s
  rw [htwice]
  exact ⟨rfl, rfl, honce, honce⟩

end Session

end Tablature
