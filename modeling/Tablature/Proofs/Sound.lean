/-
# Tablature.Proofs.Sound — what is heard of a session.

`Session.sound` keeps of a session what is heard of it so far and what the sound of later notes
depends on: tuning, duration, octave shift, tempo, instrument, and for every stave the sequence of
sounds and silences of each voice. It is read off tablature alone. Where the views are aligned the
staff sounds the same, so the schedule of a session is a function of its sound
(`Session.schedule_eq`). Marking a session (`Tablature.Proofs.Marking`) is not heard.
-/
import Tablature.Interface
import Tablature.Proofs.Facing
import Tablature.Proofs.Marking

namespace Tablature

/-! ## What is heard -/

/-- What is heard of an object; of what takes no time nothing is. -/
def Tickable.heard (t : Tickable) : Option ScheduledNote :=
  if t.ignoresTicks then none else some (.of t)

/-- A voice as it is heard. -/
abbrev HeardVoice := List (Option ScheduledNote)

/-- A voice as it is heard. -/
def heardVoice (voice : List Tickable) : HeardVoice := voice.map Tickable.heard

/-- A stave as it is heard: its finished voices and the voice in progress. -/
structure StaveSound where
  voices : List HeardVoice
  notes : HeardVoice

/-- What is heard of a session, and what later sounds depend on. -/
structure Sound where
  tuning : Tuning
  duration : Duration
  octaveShift : Int
  tempo : Nat
  instrument : Instrument
  earlier : List StaveSound
  active : Option StaveSound

/-- A stave as it is heard, read off tablature. -/
def Stave.sound (s : Stave) : StaveSound := ⟨s.tabVoices.map heardVoice, heardVoice s.tabNotes⟩

/-- What is heard of a session, and what later sounds depend on. -/
def Session.sound (s : Session) : Sound :=
  { tuning := s.tuning
    duration := s.duration
    octaveShift := s.octaveShift
    tempo := s.settings.tempo
    instrument := s.settings.instrument
    earlier := s.score.earlier.map Stave.sound
    active := s.score.active.map Stave.sound }

/-- All staves as they are heard. -/
def Sound.staves (s : Sound) : List StaveSound := s.earlier ++ s.active.toList

/-- The sound with the active stave changed. -/
def Sound.onActive (s : Sound) (f : StaveSound → StaveSound) : Sound :=
  { s with active := s.active.map f }

/-- The sound with one more object in the voice in progress. -/
def StaveSound.push (s : StaveSound) (heard : Option ScheduledNote) : StaveSound :=
  { s with notes := s.notes ++ [heard] }

/-- The sound with the voice in progress finished. -/
def StaveSound.closeVoice (s : StaveSound) : StaveSound :=
  ⟨if s.notes.isEmpty then s.voices else s.voices ++ [s.notes], []⟩

/-- The voices that are played. -/
def StaveSound.played (s : StaveSound) : List HeardVoice :=
  (s.voices ++ [s.notes]).filter (! ·.isEmpty)

namespace Tickable

@[simp] theorem heard_mark (t : Tickable) (index : Nat) (m : Modifier) :
    (t.mark index m).heard = t.heard := by
  cases t <;> rfl

@[simp] theorem heard_hide (t : Tickable) : t.hide.heard = t.heard := by
  cases t <;> rfl

/-- A note whose time is multiplied sounds the same for another time. -/
theorem heard_scaleTicks (t : Tickable) (factor : Ticks) :
    (t.scaleTicks factor).heard = t.heard.map fun n => { n with ticks := n.ticks * factor } := by
  -- Of all that is heard of an object only its time is different.
  have ofTicks (t u : Tickable) (hignores : u.ignoresTicks = t.ignoresTicks)
      (hplay : u.playNotes = t.playNotes) (hrest : u.isRest = t.isRest)
      (hticks : u.ticks = t.ticks * factor) :
      u.heard = t.heard.map fun n => { n with ticks := n.ticks * factor } := by
    rw [heard, heard, hignores]
    split
    · rfl
    · simp only [ScheduledNote.of, hplay, hrest, hticks, Option.map_some]
  cases t with
  | tab n => exact ofTicks _ _ rfl rfl rfl (Rat.mul_assoc _ _ _).symm
  | staff n => exact ofTicks _ _ rfl rfl rfl (Rat.mul_assoc _ _ _).symm
  | bar type => rfl
  | spacer duration multiplier => exact ofTicks _ _ rfl rfl rfl (Rat.mul_assoc _ _ _).symm
  | text n =>
      refine ofTicks _ _ rfl rfl rfl ?_
      show (if n.ignoresTicks then 0 else n.duration.ticks * (n.multiplier * factor)) =
        (if n.ignoresTicks then 0 else n.duration.ticks * n.multiplier) * factor
      split
      · exact (Rat.zero_mul factor).symm
      · exact (Rat.mul_assoc _ _ _).symm

/-- What takes no time adds none. -/
theorem ticks_of_ignoresTicks {t : Tickable} (h : t.ignoresTicks) : t.ticks = 0 := by
  cases t with
  | bar type => rfl
  | text n => exact if_pos h
  | tab n => cases h
  | staff n => cases h
  | spacer duration multiplier => cases h

end Tickable

/-- Objects that face each other sound alike. -/
theorem Faces.heard_eq {a b : Tickable} (h : Faces a b) : a.heard = b.heard := by
  cases h with
  | note nonempty sounds keys duration multiplier playNotes =>
      simp [Tickable.heard, Tickable.ignoresTicks, ScheduledNote.of, Tickable.playNotes,
        Tickable.ticks, Tickable.isRest, sounds, duration, multiplier, playNotes]
  | bar type => rfl
  | space rests hduration hmultiplier =>
      simp [Tickable.heard, Tickable.ignoresTicks, ScheduledNote.of, Tickable.playNotes,
        Tickable.ticks, Tickable.isRest, rests, hduration, hmultiplier]
  | rest rests rests' duration multiplier =>
      simp [Tickable.heard, Tickable.ignoresTicks, ScheduledNote.of, Tickable.playNotes,
        Tickable.ticks, Tickable.isRest, rests, rests', duration, multiplier]

theorem VoicesFace.heardVoice_eq {xs ys : List Tickable} (h : VoicesFace xs ys) :
    heardVoice ys = heardVoice xs :=
  map_eq_of_forall₂ h fun _ _ hab => hab.heard_eq.symm

theorem heardVoices_eq {xss yss : List (List Tickable)} (h : List.Forall₂ VoicesFace xss yss) :
    yss.map heardVoice = xss.map heardVoice :=
  map_eq_of_forall₂ h fun _ _ hvoice => hvoice.heardVoice_eq

theorem Tickable.Dressed.heard_eq {t u : Tickable} (h : Dressed t u) : u.heard = t.heard := by
  induction h with
  | refl => rfl
  | mark index m _ ih => rw [heard_mark, ih]
  | hide _ ih => rw [heard_hide, ih]

theorem Stave.Marked.sound_eq {a b : Stave} (h : a.Marked b) : b.sound = a.sound := by
  have hvoices : b.tabVoices = a.tabVoices := by rw [h.frame]
  have hnotes : heardVoice b.tabNotes = heardVoice a.tabNotes :=
    map_eq_of_forall₂ h.tabNotes fun _ _ => Tickable.Dressed.heard_eq
  rw [Stave.sound, Stave.sound, hvoices, hnotes]

/-! ## The schedule of a sound -/

namespace Timetable

/-- The groups with the notes of a voice that is at the tick `now`, from what is heard. -/
def addHeard (now : Ticks) (groups : List TickGroup) : HeardVoice → List TickGroup
  | [] => groups
  | none :: voice => addHeard now groups voice
  | some note :: voice => addHeard (now + note.ticks) (TickGroup.insert now note groups) voice

/-- How long a voice lasts, from what is heard. -/
def heardTicks (voice : HeardVoice) : Ticks :=
  .sum (voice.map fun heard => (heard.map ScheduledNote.ticks).getD 0)

/-- The timetable with one more stave at its end, from what is heard. -/
def addHeardStave (t : Timetable) (voices : List HeardVoice) : Timetable :=
  { events := voices.foldl (addHeard t.total) t.events
    total := t.total + voices.foldl (fun longest voice => longest.longer (heardTicks voice)) 0 }

theorem addVoice_eq (now : Ticks) (groups : List TickGroup) (voice : List Tickable) :
    addVoice now groups voice = addHeard now groups (heardVoice voice) := by
  induction voice generalizing now groups with
  | nil => rfl
  | cons t voice ih =>
      rw [heardVoice, List.map_cons, Tickable.heard, addVoice]
      split
      · exact ih now groups
      · exact ih _ _

theorem voiceTicks_eq (voice : List Tickable) :
    voiceTicks voice = heardTicks (heardVoice voice) := by
  induction voice with
  | nil => rfl
  | cons t voice ih =>
      have hticks : t.ticks = (t.heard.map ScheduledNote.ticks).getD 0 := by
        unfold Tickable.heard
        split
        · exact Tickable.ticks_of_ignoresTicks ‹_›
        · rfl
      rw [heardVoice, List.map_cons, heardTicks, List.map_cons, Ticks.sum_cons, ← hticks]
      rw [voiceTicks, List.map_cons, Ticks.sum_cons]
      exact congrArg (t.ticks + ·) ih

theorem longest_eq (voices : List (List Tickable)) :
    longest voices =
      (voices.map heardVoice).foldl (fun longest voice => longest.longer (heardTicks voice)) 0 := by
  rw [longest, List.foldl_map]
  simp only [voiceTicks_eq]

theorem addStave_eq (t : Timetable) (voices : List (List Tickable)) :
    t.addStave voices = t.addHeardStave (voices.map heardVoice) := by
  have hvoice : addVoice t.total = fun groups voice => addHeard t.total groups (heardVoice voice) :=
    funext fun groups => funext fun voice => addVoice_eq t.total groups voice
  have hevents : voices.foldl (addVoice t.total) t.events =
      (voices.map heardVoice).foldl (addHeard t.total) t.events := by
    rw [hvoice, List.foldl_map]
  rw [addStave, addHeardStave, longest_eq, hevents]

theorem build_eq (staves : List (List (List Tickable))) :
    build staves = (staves.map (·.map heardVoice)).foldl addHeardStave empty := by
  have hstave : addStave = fun t voices => addHeardStave t (voices.map heardVoice) :=
    funext fun t => funext fun voices => addStave_eq t voices
  rw [build, hstave, List.foldl_map]

end Timetable

/-- The schedule of what is heard. -/
def Sound.schedule (s : Sound) : Schedule :=
  { tempo := s.tempo
    instrument := s.instrument
    timetable := (s.staves.map StaveSound.played).foldl Timetable.addHeardStave .empty }

/-- Aligned staves play what is heard on tablature. -/
theorem Stave.Aligned.playedVoices_eq {a : Stave} (h : a.Aligned) :
    a.playedVoices.map heardVoice = a.sound.played := by
  have hfilter (voices : List (List Tickable)) :
      (voices.filter (! ·.isEmpty)).map heardVoice =
        (voices.map heardVoice).filter (! ·.isEmpty) := by
    rw [List.filter_map]
    congr 1
    refine List.filter_congr fun voice _ => ?_
    cases voice <;> rfl
  rw [Stave.playedVoices, hfilter, StaveSound.played, Stave.sound]
  -- With a staff its voices are played, which face those of tablature.
  split
  · rename_i hstaff
    rw [List.map_append, heardVoices_eq (h.voices hstaff), List.map_singleton,
      (h.notes hstaff).heardVoice_eq]
  · rw [List.map_append, List.map_singleton]

/-- **The schedule is a function of the sound**, whichever views are shown. -/
theorem Session.schedule_eq {s : Session} (h : s.Aligned) : s.schedule = s.sound.schedule := by
  have hstaves : s.score.playedVoices.map (·.map heardVoice) =
      s.sound.staves.map StaveSound.played := by
    have hsound : s.sound.staves = s.score.staves.map Stave.sound := by
      cases hactive : s.score.active <;> simp [Sound.staves, Session.sound, Score.staves, hactive]
    rw [hsound, Score.playedVoices, List.map_map, List.map_map]
    exact List.map_congr_left fun a ha => (h a ha).playedVoices_eq
  rw [Session.schedule, Schedule.build, Timetable.build_eq, hstaves]
  rfl

/-! ## Operations that are not heard -/

namespace Session

variable {s : Session}

theorem sound_onActive {f : Stave → Stave} {g : StaveSound → StaveSound}
    (h : ∀ a : Stave, (f a).sound = g a.sound) : (s.onActive f).sound = s.sound.onActive g := by
  cases ha : s.score.active with
  | none => simp [sound, onActive, Score.onActive, Sound.onActive, settings, ha]
  | some a => simp [sound, onActive, Score.onActive, Sound.onActive, settings, ha, h a]

theorem sound_onActive_eq_self {f : Stave → Stave} (h : ∀ a : Stave, (f a).sound = a.sound) :
    (s.onActive f).sound = s.sound := by
  rw [sound_onActive (g := id) h]
  cases ha : s.score.active <;> simp [sound, Sound.onActive, ha]

/-- Marking is not heard: a note that a bend hides still sounds. -/
theorem Marked.sound_eq {t : Session} (h : s.Marked t) : t.sound = s.sound := by
  have hactive : t.score.active.map Stave.sound = s.score.active.map Stave.sound := by
    have hrel := h.active
    generalize s.score.active = a at hrel ⊢
    generalize t.score.active = b at hrel ⊢
    cases hrel with
    | none => rfl
    | @some a b hab => exact congrArg some hab.sound_eq
  obtain ⟨side, hside⟩ := h.settings
  simp only [sound, h.tuning, h.duration, h.octaveShift, h.earlier, hactive, hside]

@[simp] theorem sound_closeBends (through : Bool) : (s.closeBends through).sound = s.sound :=
  (marked_closeBends through).sound_eq

theorem sound_addTextVoice : s.addTextVoice.state.sound = s.sound := by
  unfold addTextVoice withStave
  split
  · exact sound_onActive_eq_self fun _ => rfl
  · rfl

theorem sound_addTextNote (text : String) (style : TextStyle) :
    (s.addTextNote text style).state.sound = s.sound := by
  unfold addTextNote withStave
  split
  · dsimp only
    split
    · rfl
    · exact sound_onActive_eq_self fun _ => rfl
  · rfl

theorem sound_setTextFont (spec : String) : (s.setTextFont spec).state.sound = s.sound := by
  refine Outcome.needing_related (R := fun s t : Session => t.sound = s.sound) (fun _ => rfl)
    fun font _ => ?_
  cases font <;> rfl

end Session

end Tablature
