/-
# Tablature.Proofs.Sounding — what is heard of a fret.

A fret sounds at the height of its open string, plus the fret, plus twelve for every octave of the
shift, whatever the spelling of the measure makes of its name (`Resolver.soundsFret`). It cannot be
resolved exactly if there is no such string or one of the numbers on the way does not fit 32 bits.
A note that is written is scheduled with the MIDI keys of its pitches, and stays so whatever happens
to it later (`Session.exists_scheduled`). `fret_sounds` puts both together: between the other keys
of its note the schedule has the key that the fret should have, if MIDI has it.
-/
import Tablature.Proofs.ChordNotes
import Tablature.Proofs.Lasting
import Tablature.Proofs.Respelling

namespace Tablature

/-! ## The pitch of a fret -/

/-- The entry is a fret on a string, and no pitch letter. -/
structure NoteEntry.IsFret (e : NoteEntry) (fret string : Nat) : Prop where
  letter : e.letterPitch = none
  fret : e.fret = some (.number fret)
  string : e.string = some string

/-- The MIDI key of a height with an octave shift, if there is such a key. -/
def soundedKey? (height shift : Int) : Option Nat :=
  let key := height + 12 * (shift + 1)
  if 0 ≤ key ∧ key ≤ 127 then some key.toNat else none

namespace Resolver

/-- A fret, the height that it has on its string and the octave it is shifted to are integers of 32
bits. -/
def Reaches (r : Resolver) (fret : Nat) (height : Int) : Prop :=
  fits32 fret ∧ fits32 height ∧ fits32 (height / 12 + r.octaveShift)

instance (r : Resolver) (fret : Nat) (height : Int) : Decidable (r.Reaches fret height) :=
  inferInstanceAs (Decidable (_ ∧ _ ∧ _))

/-- The pitch that sounds at a height: its canonical name, in the octave that it is shifted to. -/
def soundAt (r : Resolver) (height : Int) : Pitch :=
  ⟨.canonical (.ofInt height), height / 12 + r.octaveShift⟩

theorem height_soundAt (r : Resolver) (height : Int) :
    (r.soundAt height).height = height + 12 * r.octaveShift := by
  have hunshifted := Tuning.height_pitchAtHeight height
  rw [Tuning.pitchAtHeight, Int.fdiv_eq_ediv_of_nonneg height (by decide)] at hunshifted
  simp only [Pitch.height, soundAt] at hunshifted ⊢
  omega

theorem midiKey?_soundAt (r : Resolver) (height : Int) :
    (r.soundAt height).midiKey? = soundedKey? height r.octaveShift := by
  have hheight := r.height_soundAt height
  have hkey : 12 * ((r.soundAt height).octave + 1) + (r.soundAt height).name.rawValue =
      height + 12 * (r.octaveShift + 1) := by
    unfold Pitch.height at hheight
    omega
  simp only [Pitch.midiKey?, soundedKey?, hkey]

end Resolver

namespace Tuning

/-- A string that is there. -/
theorem openString_of_le {t : Tuning} {string : Nat} (hpos : 1 ≤ string)
    (hle : string ≤ t.strings.length) :
    ∃ base, t.strings[string - 1]? = some base ∧ t.openString string = .ok base := by
  obtain ⟨place, rfl⟩ : ∃ place, string = place + 1 := ⟨string - 1, by omega⟩
  have hplace : t.strings[place]? = some t.strings[place] := List.getElem?_eq_getElem (by omega)
  exact ⟨t.strings[place], hplace, by simp only [openString, hplace]⟩

/-- A string that is not there. -/
theorem openString_of_not {t : Tuning} {string : Nat}
    (h : ¬ (1 ≤ string ∧ string ≤ t.strings.length)) :
    t.openString string = .error (.stringOutOfRange t.strings.length string) := by
  cases string with
  | zero => rfl
  | succ place =>
      have hplace : t.strings[place]? = none := List.getElem?_eq_none (by omega)
      simp only [openString, hplace]

end Tuning

namespace Resolver

variable {r : Resolver} {m : SpellingMemory} {e : NoteEntry} {fret string : Nat}

/-- A fret cannot be resolved: there is no such string, or a number does not fit. -/
def FretFails (r : Resolver) (fret string : Nat) : Prop :=
  ¬ (1 ≤ string ∧ string ≤ r.tuning.strings.length) ∨
    ∃ base, r.tuning.strings[string - 1]? = some base ∧ ¬ r.Reaches fret (base + fret)

/-- **Resolving a fret.** It fails for one of the reasons there are, or it has the pitch of its
height. -/
theorem fret_cases (r : Resolver) (m : SpellingMemory) (fret string : Nat) :
    (r.FretFails fret string ∧
      ∃ cause, (r.fret m fret string).2 = .error cause ∧ cause.kind = .resolution) ∨
    (∃ base, 1 ≤ string ∧ r.tuning.strings[string - 1]? = some base ∧
      r.Reaches fret (base + fret) ∧
      ∃ b, (r.fret m fret string).2 = .ok b ∧ b.playNote = r.soundAt (base + fret)) := by
  by_cases hstring : 1 ≤ string ∧ string ≤ r.tuning.strings.length
  · obtain ⟨base, hbase, hopen⟩ := Tuning.openString_of_le hstring.1 hstring.2
    have hoctave : Int.fdiv (base + fret) 12 = (base + fret) / 12 :=
      Int.fdiv_eq_ediv_of_nonneg _ (by decide)
    by_cases hfits : (fits32 fret && fits32 (base + fret)) = true
    · by_cases hshifted : fits32 ((base + fret) / 12 + r.octaveShift) = true
      · right
        refine ⟨base, hstring.1, hbase, ?_, ?_⟩
        · rw [Bool.and_eq_true] at hfits
          exact ⟨hfits.1, hfits.2, hshifted⟩
        · simp only [Resolver.fret, Tuning.pitchAt, hopen, hfits, if_true, Tuning.pitchAtHeight,
            shifted, hoctave, hshifted]
          exact ⟨_, rfl, rfl⟩
      · left
        refine ⟨.inr ⟨base, hbase, fun hreach => hshifted hreach.2.2⟩, ?_⟩
        simp only [Resolver.fret, Tuning.pitchAt, hopen, hfits, if_true, Tuning.pitchAtHeight,
          shifted, hoctave, hshifted]
        exact ⟨_, rfl, rfl⟩
    · left
      refine ⟨.inr ⟨base, hbase, fun hreach => hfits ?_⟩, ?_⟩
      · rw [Bool.and_eq_true]
        exact ⟨hreach.1, hreach.2.1⟩
      · simp only [Resolver.fret, Tuning.pitchAt, hopen, hfits]
        exact ⟨_, rfl, rfl⟩
  · left
    refine ⟨.inl hstring, ?_⟩
    simp only [Resolver.fret, Tuning.pitchAt, Tuning.openString_of_not hstring]
    exact ⟨_, rfl, rfl⟩

theorem entry_of_isFret (he : e.IsFret fret string) : r.entry m e = r.fret m fret string := by
  unfold entry
  rw [he.letter, he.fret, he.string]

/-- What is said of a fret on a string: when it cannot be resolved, and what it sounds if it can. -/
structure SoundsFret (r : Resolver) (m : SpellingMemory) (e : NoteEntry) (fret string : Nat) :
    Prop where
  fails : (∃ cause, (ResolvedEntry.resolve r m e).2 = .error cause ∧ cause.kind = .resolution) ↔
    r.FretFails fret string
  /-- Otherwise its pitch is at the height of string, fret and shift, in its canonical name. -/
  sounds : ∀ base, 1 ≤ string → r.tuning.strings[string - 1]? = some base →
    r.Reaches fret (base + fret) →
    ∃ b, (r.entry m e).2 = .ok b ∧ b.playNote.height = base + fret + 12 * r.octaveShift ∧
      b.playNote.name = .canonical (.ofInt (base + fret)) ∧
      b.playNote.midiKey? = soundedKey? (base + fret) r.octaveShift

theorem not_fretFails {base : Int} (hpos : 1 ≤ string)
    (hbase : r.tuning.strings[string - 1]? = some base) (hreach : r.Reaches fret (base + fret)) :
    ¬ r.FretFails fret string := by
  have hlt := (List.getElem?_eq_some_iff.1 hbase).1
  rintro (hstring | ⟨other, hother, hnot⟩)
  · exact hstring ⟨hpos, by omega⟩
  · rw [hbase] at hother
    cases hother
    exact hnot hreach

/-- An entry fails as its pitch or as its duration does. -/
theorem resolve_eq (r : Resolver) (m : SpellingMemory) (e : NoteEntry) :
    (ResolvedEntry.resolve r m e).2 =
      (r.entry m e).2.bind fun b =>
        (ResolvedEntry.readDuration e).map (ResolvedEntry.ofBinding e b) := by
  unfold ResolvedEntry.resolve
  rcases r.entry m e with ⟨m', cause | b⟩ <;> rfl

theorem kind_of_readDuration {cause : Cause}
    (h : ResolvedEntry.readDuration e = .error cause) : cause.kind = .malformed := by
  unfold ResolvedEntry.readDuration Duration.read at h
  split at h
  · split at h
    · cases h
    · cases h
      rfl
  · cases h

/-- **What is heard of a fret** is its open string, the fret and the shift, whatever has been
spelled before. -/
theorem soundsFret (r : Resolver) (m : SpellingMemory) (he : e.IsFret fret string) :
    r.SoundsFret m e fret string := by
  have hentry := entry_of_isFret (r := r) (m := m) he
  rcases r.fret_cases m fret string with
    ⟨hfails, cause, hcause, hkind⟩ | ⟨base, hpos, hbase, hreach, b, hb, hsound⟩
  · refine ⟨iff_of_true ⟨cause, ?_, hkind⟩ hfails, fun base hpos hbase hreach => ?_⟩
    · rw [resolve_eq, hentry, hcause]
      rfl
    · exact absurd hfails (not_fretFails hpos hbase hreach)
  · refine ⟨iff_of_false ?_ (not_fretFails hpos hbase hreach), fun other _ hother _ => ?_⟩
    · rintro ⟨cause, hcause, hkind⟩
      rw [resolve_eq, hentry, hb] at hcause
      cases hduration : ResolvedEntry.readDuration e with
      | error cause' =>
          rw [hduration] at hcause
          cases hcause
          exact absurd (hkind.symm.trans (kind_of_readDuration hduration)) (by decide)
      | ok duration =>
          rw [hduration] at hcause
          cases hcause
    · rw [hbase] at hother
      cases hother
      refine ⟨b, by rw [hentry, hb], ?_⟩
      rw [hsound]
      exact ⟨r.height_soundAt _, rfl, r.midiKey?_soundAt _⟩

end Resolver

/-! ## The schedule -/

namespace Timetable

variable {staves : List (List (List Tickable))}

/-- What is heard of an object starts at some tick. -/
theorem exists_onset {voices : List (List Tickable)} {voice : List Tickable} {t : Tickable}
    {note : ScheduledNote} (hvoices : voices ∈ staves) (hvoice : voice ∈ voices) (ht : t ∈ voice)
    (hheard : t.heard = some note) : ∃ o ∈ onsets staves, o.note = note := by
  unfold Tickable.heard at hheard
  split at hheard
  · cases hheard
  · rename_i htakes
    obtain ⟨i, hi, rfl⟩ := List.mem_iff_getElem.1 hvoices
    have htimed : t ∈ timed voice := List.mem_filter.2 ⟨ht, by simpa using htakes⟩
    obtain ⟨j, hj, rfl⟩ := List.mem_iff_getElem.1 htimed
    let o : Onset :=
      ⟨i, staveStart staves i + voiceTicks ((timed voice).take j), .of (timed voice)[j]⟩
    have ho : o ∈ voiceOnsets i (staveStart staves i) voice :=
      List.mem_mapIdx.2 ⟨j, hj, rfl⟩
    refine ⟨o, List.mem_flatten.2 ⟨_, List.mem_mapIdx.2 ⟨i, hi, rfl⟩, ?_⟩, Option.some.inj hheard⟩
    exact List.mem_flatMap.2 ⟨voice, hvoice, ho⟩

/-- Whatever starts is in a group. -/
theorem Tells.exists_group {t : Timetable} (h : t.Tells staves) {o : Onset}
    (ho : o ∈ onsets staves) : ∃ g ∈ t.events, o.note ∈ g.notes := by
  obtain ⟨g, hg, htick⟩ := h.complete o ho
  refine ⟨g, hg, ?_⟩
  rw [h.exactly g hg]
  exact List.mem_map_of_mem (List.mem_filter.2 ⟨ho, by simpa using htick.symm⟩)

end Timetable

/-- What is heard on tablature is heard in the voices that are played. -/
theorem Stave.Aligned.exists_played {a : Stave} (h : a.Aligned) {voice : Nat}
    {notes : List Tickable} (hvoice : a.tabVoice? voice = some notes) {t : Tickable}
    (ht : t ∈ notes) {note : ScheduledNote} (hheard : t.heard = some note) :
    ∃ played ∈ a.playedVoices, ∃ u ∈ played, u.heard = some note := by
  have hmem : heardVoice notes ∈ a.sound.played := by
    refine List.mem_filter.2 ⟨?_, ?_⟩
    · have hnotes := List.mem_of_getElem? hvoice
      have hmap := List.mem_map_of_mem (f := heardVoice) hnotes
      rwa [List.map_append] at hmap
    · cases notes with
      | nil => cases ht
      | cons _ _ => rfl
  rw [← h.playedVoices_eq] at hmem
  obtain ⟨played, hplayed, hsame⟩ := List.mem_map.1 hmem
  have hnote : some note ∈ heardVoice played := by
    rw [hsame, ← hheard]
    exact List.mem_map_of_mem ht
  obtain ⟨u, hu, hunote⟩ := List.mem_map.1 hnote
  exact ⟨played, hplayed, u, hu, hunote⟩

namespace Session

/-- **A note is scheduled with the MIDI keys of its pitches.** -/
theorem exists_scheduled {s : Session} (haligned : s.Aligned) (hlasts : s.Lasts) {r : NoteRef}
    {n : TabNote} (hn : s.score.tabNote? r = some (.tab n)) :
    ∃ g ∈ s.schedule.timetable.events, ∃ note ∈ g.notes,
      note.midiKeys = n.playNotes.filterMap Pitch.midiKey? ∧ note.rest = false := by
  obtain ⟨notes, hnotes, ht⟩ := Option.bind_eq_some_iff.1 hn
  obtain ⟨a, ha, hvoice⟩ := Option.bind_eq_some_iff.1 hnotes
  have hmem : a ∈ s.score.staves := List.mem_of_getElem? ha
  have hsounds : (Tickable.tab n).heard = some (.of (.tab n)) := rfl
  obtain ⟨played, hplayed, u, hu, hheard⟩ :=
    (haligned a hmem).exists_played hvoice (List.mem_of_getElem? ht) hsounds
  obtain ⟨o, ho, honote⟩ :=
    Timetable.exists_onset (List.mem_map_of_mem hmem) hplayed hu hheard
  obtain ⟨g, hg, hnote⟩ := hlasts.tells.exists_group ho
  exact ⟨g, hg, _, honote ▸ hnote, rfl, rfl⟩

/-- A note keeps its pitches whatever happens later, short of a reset. -/
theorem exists_tabNote?_follow {s : Session} {r : NoteRef} {n : TabNote}
    (hn : s.score.tabNote? r = some (.tab n)) {later : List Event} (hlater : .reset ∉ later) :
    ∃ n', (s.follow later).score.tabNote? r = some (.tab n') ∧ n'.playNotes = n.playNotes := by
  refine (moves_follow hlater s).keeps (P := fun t => ∃ n', t.score.tabNote? r = some (.tab n') ∧
    n'.playNotes = n.playNotes) ?_ ⟨n, hn, rfl⟩
  rintro t u hmove ⟨n', hn', hsame⟩
  obtain ⟨y, hy, hstays⟩ := hmove.continues.tabNote? hn' rfl
  cases hstays with
  | tab n' ghost hidden multiplier added => exact ⟨_, hy, hsame⟩

/-- The note that a column of a chord becomes. -/
theorem exists_tabNote?_addChord {s : Session} {chord : List NoteEntry} {m : SpellingMemory}
    {entries : List ResolvedEntry} (hopen : s.score.active.isSome)
    (h : ResolvedEntry.resolveAll s.resolver s.memory chord = (m, .ok entries))
    (articulation : Option Articulation) (decorator : Option Decorator) {column : Chord.Column}
    (hcolumn : column ∈ Chord.columns (Chord.runs (chord.zip entries))) :
    ∃ r n, (s.addChord chord articulation decorator).state.score.tabNote? r = some (.tab n) ∧
      n.playNotes = column.map (·.2.playNote) := by
  obtain ⟨a, ha⟩ := Option.isSome_iff_exists.1 hopen
  obtain ⟨-, -, b, hb, hgains⟩ := exists_gainsColumns_addChord ha h articulation decorator
  obtain ⟨kept, written, hnotes, -, hwritten⟩ := hgains.onTab
  obtain ⟨j, hj⟩ := List.mem_iff_getElem?.1 hcolumn
  obtain ⟨t, ht, n, rfl, hholds, -⟩ := forall₂_getElem? hwritten hj
  refine ⟨_, n, (tabNote?_tabAddress hb (kept.length + j)).trans ?_, hholds.playNotes⟩
  rw [hnotes, List.getElem?_append_right (Nat.le_add_right _ _), Nat.add_sub_cancel_left, ht]

end Session

/-- The MIDI keys that the entries of a column sound. -/
def Chord.Column.midiKeys (column : Chord.Column) : List Nat :=
  column.filterMap (·.2.playNote.midiKey?)

/-- **The columns of a chord are scheduled**, from when the chord is written until the end. -/
theorem Session.exists_scheduled_column {setup : PageSetup} {earlier later : List Event}
    {event : Event} {chord : List NoteEntry} {m : SpellingMemory} {entries : List ResolvedEntry}
    {column : Chord.Column} {s : Session} (hs : s = Session.follow earlier (.start setup))
    (hchord : event.chord? = some chord) (hopen : s.score.active.isSome)
    (hresolved : ResolvedEntry.resolveAll s.resolver s.memory chord = (m, .ok entries))
    (hlater : .reset ∉ later)
    (hcolumn : column ∈ Chord.columns (Chord.runs (chord.zip entries))) :
    ∃ g ∈ (Session.follow later (s.handle event).state).schedule.timetable.events,
      ∃ note ∈ g.notes, note.midiKeys = column.midiKeys ∧ note.rest = false := by
  obtain ⟨articulation, decorator, hhandle⟩ := s.handle_of_chord? hchord
  obtain ⟨r, n, hn, hplay⟩ :=
    exists_tabNote?_addChord hopen hresolved articulation decorator hcolumn
  rw [← hhandle] at hn
  obtain ⟨n', hn', hsame⟩ := exists_tabNote?_follow hn hlater
  have hsteps : Steps s (Session.follow later (s.handle event).state) :=
    (steps_handle s event).trans (steps_follow later _)
  have haligned : (Session.follow later (s.handle event).state).Aligned :=
    hsteps.keeps (P := Session.Aligned) .step
      (hs ▸ follow_induction (P := Session.Aligned) .start .step setup earlier)
  have hlasts : (Session.follow later (s.handle event).state).Lasts :=
    hsteps.keeps (P := Session.Lasts) .step
      (hs ▸ follow_induction (P := Session.Lasts) .start .step setup earlier)
  have hkeys : n'.playNotes.filterMap Pitch.midiKey? = column.midiKeys := by
    rw [hsame, hplay, List.filterMap_map]
    rfl
  rw [← hkeys]
  exact exists_scheduled haligned hlasts hn'

/-- What a fret that has been resolved sounds. -/
theorem ResolvedEntry.playNote_of_isFret {r : Resolver} {m m' : SpellingMemory} {e : NoteEntry}
    {fret string : Nat} (he : e.IsFret fret string) {entry : ResolvedEntry}
    (h : resolve r m e = (m', .ok entry)) :
    ∃ base, r.tuning.strings[string - 1]? = some base ∧
      entry.playNote = r.soundAt (base + fret) := by
  have hresolve := Resolver.resolve_eq r m e
  rw [h, Resolver.entry_of_isFret he] at hresolve
  rcases r.fret_cases m fret string with ⟨-, cause, hcause, -⟩ | ⟨base, -, hbase, -, b, hb, hsound⟩
  · rw [hcause] at hresolve
    cases hresolve
  · rw [hb] at hresolve
    refine ⟨base, hbase, ?_⟩
    rw [← hsound]
    cases hduration : readDuration e with
    | error cause =>
        rw [hduration] at hresolve
        cases hresolve
    | ok duration =>
        rw [hduration] at hresolve
        cases hresolve
        rfl

/-- **What is heard is open string, fret and octave shift.** Whatever the tuning, the shift and the
spelling of the measure, a fret on a string fails or sounds as `Resolver.SoundsFret` says. When it
is an entry of a chord or a note that is written, the schedule has from then on a note that sounds,
between the other entries of its column, the MIDI key of its height, or no key if MIDI has none. -/
theorem fret_sounds (fret string : Nat) :
    (∀ (r : Resolver) (m : SpellingMemory) (e : NoteEntry), e.IsFret fret string →
      r.SoundsFret m e fret string) ∧
    ∀ (setup : PageSetup) (earlier later : List Event) (event : Event) (chord : List NoteEntry)
      (m : SpellingMemory) (entries : List ResolvedEntry) (before after : Chord.Column)
      (e : NoteEntry) (entry : ResolvedEntry),
      let s := Session.follow earlier (.start setup)
      event.chord? = some chord → s.score.active.isSome →
      ResolvedEntry.resolveAll s.resolver s.memory chord = (m, .ok entries) → .reset ∉ later →
      before ++ (e, entry) :: after ∈ Chord.columns (Chord.runs (chord.zip entries)) →
      e.IsFret fret string →
      ∃ base, s.tuning.strings[string - 1]? = some base ∧
        ∃ g ∈ (Session.follow later (s.handle event).state).schedule.timetable.events,
          ∃ note ∈ g.notes, note.rest = false ∧
            note.midiKeys = before.midiKeys ++
              (soundedKey? (base + fret) s.octaveShift).toList ++ after.midiKeys := by
  refine ⟨fun r m e he => r.soundsFret m he, ?_⟩
  intro setup earlier later event chord m entries before after e entry s hchord hopen hresolved
    hlater hcolumn he
  -- The entry is one of the chord, so it has been resolved by itself.
  have hmem : (e, entry) ∈ chord.zip entries := by
    have hcolumns := Chord.sublist_of_mem_columns hcolumn
    rw [Chord.flatten_runs] at hcolumns
    exact hcolumns.mem (List.mem_append_right _ List.mem_cons_self)
  obtain ⟨_, _, hresolve⟩ :=
    List.forall₂_zip (ResolvedEntry.forall₂_of_resolveAll hresolved) hmem
  obtain ⟨base, hbase, hsound⟩ := ResolvedEntry.playNote_of_isFret he hresolve
  obtain ⟨g, hg, note, hnote, hkeys, hrest⟩ :=
    Session.exists_scheduled_column rfl hchord hopen hresolved hlater hcolumn
  refine ⟨base, hbase, g, hg, note, hnote, hrest, ?_⟩
  have hkey : entry.playNote.midiKey? = soundedKey? (base + fret) s.octaveShift := by
    rw [hsound, Resolver.midiKey?_soundAt]
    rfl
  rw [hkeys, Chord.Column.midiKeys, List.filterMap_append, List.filterMap_cons, hkey,
    List.append_assoc]
  cases soundedKey? (base + fret) s.octaveShift <;> rfl

/-- The third fret of the first string an octave lower, and a string that is not there. -/
theorem fret_sounds_octaveLower :
    let s := Session.follow [.stave (.defaults .implicit), .command "octave-shift -1"]
      (.start .standard)
    s.octaveShift = -1 ∧
      (∃ cause, (ResolvedEntry.resolve s.resolver s.memory (Session.fretOn 3 9)).2 =
        .error cause ∧ cause.kind = .resolution) ∧
      ∃ g ∈ (Session.follow [.bar .single]
          (s.handle (.note (Session.fretOn 3 1))).state).schedule.timetable.events,
        ∃ note ∈ g.notes, note.rest = false ∧ note.midiKeys = [67] := by
  intro s
  have hresolved : ResolvedEntry.resolveAll s.resolver s.memory [Session.fretOn 3 1] =
      (_, .ok [_]) := rfl
  refine ⟨rfl, ?_, ?_⟩
  · exact ((fret_sounds 3 9).1 s.resolver s.memory (Session.fretOn 3 9) ⟨rfl, rfl, rfl⟩).fails.2
      (.inl (by decide))
  · obtain ⟨base, hbase, hscheduled⟩ := (fret_sounds 3 1).2 .standard _ [.bar .single]
      (.note (Session.fretOn 3 1)) _ _ _ [] [] _ _ rfl rfl hresolved (by simp)
      List.mem_cons_self ⟨rfl, rfl, rfl⟩
    cases hbase
    exact hscheduled

end Tablature
