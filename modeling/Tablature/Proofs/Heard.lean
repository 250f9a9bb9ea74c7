/-
# Tablature.Proofs.Heard — what the operations of a session do to its sound.

Every operation that goes through changes the sound of a session in a way that depends on the sound
alone: bars and rests, tuplets, new staves and voices, durations and options, and chords. For chords
this needs that the pitches of their entries do not depend on the spelling in force, which decides
only how they are engraved (`tones_resolveAll`).
-/
import Tablature.Proofs.Sound

namespace Tablature

/-! ## Changes of a sound -/

/-- The sound with one setting changed. -/
def Sound.assign (s : Sound) : Setting → Sound
  | .tempo value => { s with tempo := value }
  | .instrument value => { s with instrument := value }
  | _ => s

/-- The sound with one option of the score set. -/
def Sound.set (s : Sound) (entry : String × String) : Sound :=
  match Setting.read entry.1 entry.2 with
  | .ok setting => s.assign setting
  | .error _ => s

/-- The sound after a stave is opened. -/
def Sound.openStave (s : Sound) (tuning : Tuning) : Sound :=
  { s with tuning := tuning, earlier := s.staves, active := some ⟨[], []⟩ }

/-- The sound of a voice with the time of its last `count` objects multiplied. -/
def StaveSound.scale (s : StaveSound) (count : Nat) (factor : Ticks) : StaveSound :=
  { s with
    notes := s.notes.take (s.notes.length - count) ++
      (s.notes.drop (s.notes.length - count)).map
        (Option.map fun n => { n with ticks := n.ticks * factor }) }

/-- What is heard of an entry of a chord: its pitch, and the duration that it states. -/
def ResolvedEntry.tone (e : ResolvedEntry) : Pitch × Option Duration := (e.playNote, e.duration)

/-- The sound with one slot of a chord written. -/
def Sound.emit (s : Sound) (tones : List (Pitch × Option Duration)) : Sound :=
  let duration := ((tones.getLast?).bind (·.2)).getD s.duration
  s.onActive (·.push (some ⟨tones.filterMap (·.1.midiKey?), duration.ticks * 1, false⟩))

namespace Session

variable {s : Session}

theorem withStave_of_none {next : Stave → Outcome Cause Session}
    (h : (s.withStave next).fault = none) :
    ∃ a, s.score.active = some a ∧ s.withStave next = next a := by
  unfold withStave at h ⊢
  split at h
  · exact ⟨_, ‹_›, rfl⟩
  · cases h

theorem sound_setDuration {time : String} {dot : Bool} (h : (s.setDuration time dot).fault = none) :
    ∃ duration, Duration.read time dot = .ok duration ∧
      (s.setDuration time dot).state.sound = { s.sound with duration := duration } := by
  unfold setDuration at h ⊢
  cases hread : Duration.read time dot with
  | error cause => rw [hread] at h; cases h
  | ok duration => exact ⟨duration, rfl, rfl⟩

theorem sound_runCommand {line : String} (h : (s.runCommand line).fault = none) :
    ∃ shift,
      Text.Numeral.readInt32 (Text.firstWord (Text.afterFirstWord line.toList)) = some shift ∧
      (s.runCommand line).state.sound = { s.sound with octaveShift := shift } := by
  simp only [runCommand] at h ⊢
  split at h
  · split at h
    · rename_i shift hshift
      rw [if_pos ‹_›, hshift]
      exact ⟨shift, rfl, rfl⟩
    · cases h
  · cases h

theorem sound_setOption {entry : String × String} (h : (setOption entry s).fault = none) :
    (setOption entry s).state.sound = s.sound.set entry := by
  unfold setOption Settings.set at h ⊢
  unfold Sound.set
  cases hread : Setting.read entry.1 entry.2 with
  | error cause => rw [hread] at h; cases h
  | ok setting => cases setting <;> rfl

theorem sound_setOptions {entries : List (String × String)}
    (h : (s.setOptions entries).fault = none) :
    (s.setOptions entries).state.sound = entries.foldl Sound.set s.sound := by
  have each (entries : List (String × String)) (t : Session)
      (ht : (Outcome.forEach setOption entries t).fault = none) :
      (Outcome.forEach setOption entries t).state.sound = entries.foldl Sound.set t.sound := by
    induction entries generalizing t with
    | nil => rfl
    | cons entry entries ih =>
        rw [Outcome.forEach_cons] at ht ⊢
        obtain ⟨hfirst, hrest⟩ := Outcome.fault_andThen_eq_none ht
        rw [Outcome.andThen_of_none hfirst, ih _ hrest, List.foldl_cons, sound_setOption hfirst]
  obtain ⟨hset, _⟩ := Outcome.fault_andThen_eq_none h
  rw [setOptions, Outcome.andThen_of_none hset]
  exact each entries s hset

theorem sound_addStave (d : StaveDeclaration) :
    (s.addStave d).state.sound = s.sound.openStave d.tuning := by
  have placed (t : Session) : (t.placeStave d).sound = t.sound.openStave d.tuning := by
    have hstaves : t.sound.staves = t.score.staves.map Stave.sound := by
      cases ha : t.score.active <;> simp [Sound.staves, sound, Score.staves, ha]
    unfold Sound.openStave
    rw [hstaves]
    unfold placeStave
    cases d.staff <;> cases d.tablature <;> rfl
  show ((s.closeBends true).placeStave d).sound = _
  rw [placed, sound_closeBends]

theorem sound_closeVoice (a : Stave) : a.closeVoice.sound = a.sound.closeVoice := by
  have hempty : (heardVoice a.tabNotes).isEmpty = a.tabNotes.isEmpty := by
    cases a.tabNotes <;> rfl
  simp only [Stave.sound, Stave.closeVoice, StaveSound.closeVoice, Stave.withVoice, hempty]
  split
  · rfl
  · simp [heardVoice]

theorem sound_push (a : Stave) (onTab onStaff : Tickable) :
    (a.push onTab onStaff).sound = a.sound.push onTab.heard := by
  simp [Stave.sound, Stave.push, StaveSound.push, heardVoice]

theorem sound_addBar {type : BarType} (h : (s.addBar type).fault = none) :
    (s.addBar type).state.sound = s.sound.onActive (·.push none) := by
  obtain ⟨hreset, hbar⟩ := Outcome.fault_andThen_eq_none h
  obtain ⟨a, _, heq⟩ := withStave_of_none hbar
  rw [addBar, Outcome.andThen_of_none hreset, heq]
  refine (sound_onActive (g := (·.push none)) fun a => sound_push a _ _).trans ?_
  exact congrArg (Sound.onActive · (·.push none)) (sound_closeBends true)

/-- A rest is silence, however tablature shows it. -/
theorem heard_tabRest (key : Pitch) :
    (s.tabRest key).heard = some ⟨[], s.duration.ticks * 1, true⟩ := by
  unfold tabRest
  split <;> rfl

theorem sound_addRest {position : Int} (h : (s.addRest position).fault = none) :
    (s.addRest position).state.sound =
      s.sound.onActive (·.push (some ⟨[], s.sound.duration.ticks * 1, true⟩)) := by
  simp only [addRest] at h ⊢
  cases hkey : (s.closeBends true).restKey position with
  | error cause =>
      rw [hkey] at h
      cases h
  | ok key =>
      rw [hkey] at h
      obtain ⟨a, _, heq⟩ := withStave_of_none h
      have hsound := sound_closeBends (s := s) true
      have hduration : (s.closeBends true).duration = s.sound.duration :=
        congrArg Sound.duration hsound
      rw [Outcome.needing, heq]
      refine (sound_onActive fun a => (sound_push a _ _).trans ?_).trans
        (congrArg (Sound.onActive · _) hsound)
      rw [heard_tabRest, hduration]

theorem heardVoice_scaleLast (count : Nat) (factor : Ticks) (notes : List Tickable) :
    heardVoice (scaleLast count factor notes) =
      (heardVoice notes).take ((heardVoice notes).length - count) ++
        ((heardVoice notes).drop ((heardVoice notes).length - count)).map
          (Option.map fun n => { n with ticks := n.ticks * factor }) := by
  have hscale (voice : List Tickable) :
      (voice.map (Tickable.scaleTicks factor)).map Tickable.heard =
        (voice.map Tickable.heard).map
          (Option.map fun n => { n with ticks := n.ticks * factor }) := by
    rw [List.map_map, List.map_map]
    exact List.map_congr_left fun t _ => t.heard_scaleTicks factor
  rw [scaleLast, heardVoice, List.map_append, hscale]
  simp only [heardVoice, List.map_take, List.map_drop, List.length_map]

theorem sound_bracket (a : Stave) (tuplets count : Nat) :
    (s.bracket a tuplets count).sound =
      s.sound.onActive (·.scale count ((tupletOccupies : Ticks) / (tuplets : Ticks))) := by
  let factor : Ticks := (tupletOccupies : Ticks) / (tuplets : Ticks)
  let onTab := s.onTabNotes (scaleLast count factor)
  have scaled : onTab.sound = s.sound.onActive (·.scale count factor) :=
    sound_onActive fun b => congrArg (StaveSound.mk _) (heardVoice_scaleLast count _ b.tabNotes)
  have onStaff : (onTab.onStaffNotes (scaleLast count factor)).sound = onTab.sound :=
    sound_onActive_eq_self fun _ => rfl
  simp only [bracket]
  split <;> split <;> exact onStaff.trans scaled

theorem sound_makeTuplets {tuplets : Nat} {notes : Option Nat}
    (h : (s.makeTuplets tuplets notes).fault = none) :
    (s.makeTuplets tuplets notes).state.sound =
      s.sound.onActive
        (·.scale (notes.getD tuplets) ((tupletOccupies : Ticks) / (tuplets : Ticks))) := by
  simp only [makeTuplets] at h ⊢
  split at h
  · cases h
  · rw [if_neg ‹_›]
    obtain ⟨a, _, heq⟩ := withStave_of_none h
    rw [heq] at h ⊢
    split at h
    · cases h
    · rw [if_neg ‹_›]
      exact sound_bracket a _ _

/-! ## Chords -/

theorem heard_tabNote (entries : List ResolvedEntry) :
    (Tickable.tab (s.tabNote entries)).heard =
      some ⟨(entries.map ResolvedEntry.tone).filterMap (·.1.midiKey?),
        ((((entries.map ResolvedEntry.tone).getLast?).bind (·.2)).getD s.duration).ticks * 1,
        false⟩ := by
  have hduration : s.slotDuration entries =
      (((entries.map ResolvedEntry.tone).getLast?).bind (·.2)).getD s.duration := by
    rw [slotDuration, List.getLast?_map]
    cases entries.getLast? <;> rfl
  rw [← hduration]
  simp only [Tickable.heard, Tickable.ignoresTicks, ScheduledNote.of, Tickable.playNotes, tabNote,
    List.filterMap_map]
  rfl

theorem sound_emit (entries : List ResolvedEntry) :
    (s.emit entries).sound = s.sound.emit (entries.map ResolvedEntry.tone) := by
  have hpush : (s.onActive
      (·.push (.tab (s.tabNote entries)) (.staff (s.staffNote entries)))).sound =
      s.sound.emit (entries.map ResolvedEntry.tone) :=
    sound_onActive fun a => (sound_push a _ _).trans (congrArg (StaveSound.push _)
      (heard_tabNote entries))
  exact ((marked_applyTags _).trans (marked_decorateWith _)).sound_eq.trans hpush

theorem sound_foldl_emit (slots : List (List ResolvedEntry)) :
    (slots.foldl emit s).sound =
      (slots.map (·.map ResolvedEntry.tone)).foldl Sound.emit s.sound := by
  induction slots generalizing s with
  | nil => rfl
  | cons slot slots ih => rw [List.foldl_cons, ih, sound_emit, List.map_cons, List.foldl_cons]

/-- The tones of the slots of a chord depend on the tones of its entries alone. -/
theorem tones_slots (places : List Nat) {entries entries' : List ResolvedEntry}
    (h : entries.map ResolvedEntry.tone = entries'.map ResolvedEntry.tone) :
    (Chord.slots places entries).map (·.map ResolvedEntry.tone) =
      (Chord.slots places entries').map (·.map ResolvedEntry.tone) := by
  have hplace (entries : List ResolvedEntry) (place : Nat) :
      (Chord.entriesAt place (places.zip entries)).map ResolvedEntry.tone =
        ((places.zip (entries.map ResolvedEntry.tone)).filter (·.1 == place)).map (·.2) := by
    rw [Chord.entriesAt, List.map_map, List.zip_map_right, List.filter_map, List.map_map]
    rfl
  simp only [Chord.slots, List.map_map]
  refine List.map_congr_left fun place _ => ?_
  simp only [Function.comp_apply, hplace, h]

theorem sound_writeChord (chord : List NoteEntry) (entries : List ResolvedEntry)
    (articulation : Option Articulation) (decorator : Option Decorator) :
    (s.writeChord chord entries articulation decorator).sound =
      ((Chord.slots (Chord.placesOf chord) entries).map (·.map ResolvedEntry.tone)).foldl
        Sound.emit s.sound := by
  rw [← sound_foldl_emit]
  exact ((marked_applyChordTag _ _).trans (marked_decorateWith _)).sound_eq

end Session

/-! ### Pitches do not depend on the spelling -/

section Resolve

variable {r r' : Resolver}

theorem playNote_fret (htuning : r.tuning = r'.tuning) (hshift : r.octaveShift = r'.octaveShift)
    (m m' : SpellingMemory) (fret string : Nat) :
    (r.fret m fret string).2.map Binding.playNote =
      (r'.fret m' fret string).2.map Binding.playNote := by
  have hshifted (octave : Int) : r.shifted octave = r'.shifted octave := by
    rw [Resolver.shifted, Resolver.shifted, hshift]
  rw [Resolver.fret, Resolver.fret, htuning]
  cases r'.tuning.pitchAt fret string with
  | error cause => rfl
  | ok pitch =>
      dsimp only
      rw [hshifted]
      cases r'.shifted pitch.octave <;> rfl

theorem playNote_letter (hshift : r.octaveShift = r'.octaveShift) (m m' : SpellingMemory)
    (p : LetterPitch) (octave : Int) (fret : Fret) :
    (r.letter m p octave fret).2.map Binding.playNote =
      (r'.letter m' p octave fret).2.map Binding.playNote := by
  have hshifted : r.shifted octave = r'.shifted octave := by
    rw [Resolver.shifted, Resolver.shifted, hshift]
  rw [Resolver.letter, Resolver.letter]
  cases Resolver.letterName p with
  | error cause => rfl
  | ok name =>
      dsimp only
      rw [hshifted]

theorem playNote_entry (htuning : r.tuning = r'.tuning) (hshift : r.octaveShift = r'.octaveShift)
    (m m' : SpellingMemory) (e : NoteEntry) :
    (r.entry m e).2.map Binding.playNote = (r'.entry m' e).2.map Binding.playNote := by
  unfold Resolver.entry
  split
  · split
    · rfl
    · exact playNote_letter hshift m m' _ _ _
  · split
    · exact playNote_fret htuning hshift m m' _ _
    all_goals rfl

theorem tone_resolve (htuning : r.tuning = r'.tuning) (hshift : r.octaveShift = r'.octaveShift)
    (m m' : SpellingMemory) (e : NoteEntry) :
    (ResolvedEntry.resolve r m e).2.map ResolvedEntry.tone =
      (ResolvedEntry.resolve r' m' e).2.map ResolvedEntry.tone := by
  have hentry := playNote_entry htuning hshift m m' e
  unfold ResolvedEntry.resolve
  generalize r.entry m e = x at hentry ⊢
  generalize r'.entry m' e = y at hentry ⊢
  obtain ⟨_, x⟩ := x
  obtain ⟨_, y⟩ := y
  cases x with
  | error cause =>
      cases y with
      | error cause' => exact congrArg (Except.map _) (by cases hentry; rfl)
      | ok b => cases hentry
  | ok b =>
      cases y with
      | error cause' => cases hentry
      | ok b' =>
          have hplay : b.playNote = b'.playNote := by injection hentry
          dsimp only
          cases ResolvedEntry.readDuration e with
          | error cause => rfl
          | ok duration =>
              show Except.ok (b.playNote, duration) = Except.ok (b'.playNote, duration)
              rw [hplay]

/-- What a chord sounds depends on tuning and octave shift, and not on the spelling in force. -/
theorem tones_resolveAll (htuning : r.tuning = r'.tuning) (hshift : r.octaveShift = r'.octaveShift)
    {chord : List NoteEntry} {m m' n n' : SpellingMemory} {entries entries' : List ResolvedEntry}
    (h : ResolvedEntry.resolveAll r m chord = (n, .ok entries))
    (h' : ResolvedEntry.resolveAll r' m' chord = (n', .ok entries')) :
    entries.map ResolvedEntry.tone = entries'.map ResolvedEntry.tone := by
  induction chord generalizing m m' n n' entries entries' with
  | nil =>
      cases h
      cases h'
      rfl
  | cons e chord ih =>
      have hfirst := tone_resolve htuning hshift m m' e
      rw [ResolvedEntry.resolveAll] at h h'
      split at h
      · cases h
      · rename_i hr
        split at h' 
        · cases h'
        · rename_i hr'
          rw [hr, hr'] at hfirst
          split at h
          · cases h
          · rename_i hrest
            split at h'
            · cases h'
            · rename_i hrest'
              cases h
              cases h'
              have htone := Except.ok.inj hfirst
              rw [List.map_cons, List.map_cons, htone, ih hrest hrest']

theorem Session.sound_addChord {s : Session} {chord : List NoteEntry}
    {articulation : Option Articulation} {decorator : Option Decorator} (hne : chord.isEmpty = false)
    (h : (s.addChord chord articulation decorator).fault = none) :
    ∃ memory entries,
      ResolvedEntry.resolveAll s.resolver s.memory chord = (memory, .ok entries) ∧
      (s.addChord chord articulation decorator).state.sound =
        ((Chord.slots (Chord.placesOf chord) entries).map (·.map ResolvedEntry.tone)).foldl
          Sound.emit s.sound := by
  simp only [Session.addChord, hne, Bool.false_eq_true, if_false] at h ⊢
  obtain ⟨_, _, heq⟩ := Session.withStave_of_none h
  rw [heq] at h ⊢
  split at h
  · cases h
  · rename_i memory entries hresolved
    rw [hresolved]
    exact ⟨memory, entries, rfl, Session.sound_writeChord _ _ _ _⟩

end Resolve

end Tablature
