/-
# Tablature.Proofs.Played — runs of chords and notes, and what they say.

From a new stave on, a run of chords and notes engraves its keys as `engrave` says
(`Session.Plays.exists_engraves`), and on enough strings every choice of pitch classes can be played
(`Session.exists_plays`). So the staff says what was played, whatever is played in a run, exactly if
the run is safe (`readsRight_iff_isSafe`).
-/
import Tablature.Proofs.Accidentals

namespace Tablature

/-! ## Runs -/

/-- The entries of an event that writes a chord or a note. -/
def Event.chord? : Event → Option (List NoteEntry)
  | .chord entries _ _ => some entries
  | .note entry => some [entry]
  | _ => none

theorem Session.handle_of_chord? (s : Session) {event : Event} {entries : List NoteEntry}
    (h : event.chord? = some entries) :
    ∃ articulation decorator, s.handle event = s.addChord entries articulation decorator := by
  cases event <;> cases h
  · exact ⟨_, _, rfl⟩
  · exact ⟨none, none, rfl⟩

/-- Chords and notes that lead from one session to another. They are made of frets on the strings of
a run, and carried out or refused as the run says. -/
inductive Session.Plays : List Call → Session → Session → Prop
  | nil (s : Session) : Plays [] s s
  | call {s t : Session} {event : Event} {entries : List NoteEntry} {strings : List Nat}
      {run : List Call} (hchord : event.chord? = some entries)
      (hfrets : List.Forall₂ NoteEntry.IsFretOn entries strings)
      (hrest : Plays run (s.handle event).state t) :
      Plays (Call.ofFault strings (s.handle event).fault :: run) s t

namespace Session

variable {r : Resolver} {key : String} {chords : List (List Nat × List PitchClass)} {s t : Session}

/-- A call engraves what it may, whether it is carried out or refused. -/
theorem Engraves.exists_handle (h : s.Engraves r key chords) (hstandard : r.strategy = .standard)
    {event : Event} {entries : List NoteEntry} (hchord : event.chord? = some entries)
    {strings : List Nat} (hfrets : List.Forall₂ NoteEntry.IsFretOn entries strings) :
    ∃ chord, (Call.ofFault strings (s.handle event).fault).Yields chord ∧
      (s.handle event).state.Engraves r key (chords ++ [chord]) := by
  obtain ⟨articulation, decorator, hhandle⟩ := s.handle_of_chord? hchord
  rw [hhandle]
  -- A chord without entries is not written at all, so it is no case of the general one.
  by_cases hne : entries = []
  · subst hne
    cases hfrets
    exact ⟨([], []), ⟨rfl, rfl⟩, h.teach []⟩
  · rw [addChord_eq h.staffKey hne, h.resolver]
    obtain ⟨classes, hmemory, hentries⟩ := resolveAll_spells hstandard hfrets s.memory
    generalize ResolvedEntry.resolveAll r s.memory entries = attempt at hmemory hentries
    obtain ⟨memory, result⟩ := attempt
    obtain rfl : memory = (s.memory.spell classes).1 := hmemory
    cases result with
    | error cause => exact ⟨([], classes), rfl, h.teach classes⟩
    | ok resolved =>
        obtain ⟨hwritten, hpositions, hclasses⟩ := hentries resolved rfl
        have hsame : resolved.map (·.position.pitchClass? r.tuning) = classes.map some := by
          have hpair := congrArg (List.map (TabPosition.pitchClass? r.tuning)) hpositions
          rw [List.map_map, List.map_map] at hpair
          exact hpair.trans hclasses
        have hlength : strings.length = classes.length := by
          have hcount := congrArg List.length hclasses
          rw [List.length_map, List.length_map] at hcount
          exact hfrets.length_eq.symm.trans hcount
        exact ⟨(strings, classes), ⟨rfl, hlength⟩,
          h.write (Chord.placesOf_eq_placesOn hfrets) hwritten hsame articulation decorator⟩

/-- **A run engraves what its calls may engrave.** -/
theorem Plays.exists_engraves {run : List Call} (hplays : Plays run s t)
    (h : s.Engraves r key chords) (hstandard : r.strategy = .standard) :
    ∃ played, List.Forall₂ Call.Yields run played ∧ t.Engraves r key (chords ++ played) := by
  induction hplays generalizing chords with
  | nil s => exact ⟨[], .nil, by rwa [List.append_nil]⟩
  | call hchord hfrets _ ih =>
      obtain ⟨chord, hyields, hnext⟩ := h.exists_handle hstandard hchord hfrets
      obtain ⟨played, hrest, hlast⟩ := ih hnext
      rw [List.append_assoc] at hlast
      exact ⟨chord :: played, .cons hyields hrest, hlast⟩

/-! ## Every choice of classes can be played -/

/-- A fret whose number is that of a pitch class. -/
def fretEntry (string : Nat) (v : PitchClass) : NoteEntry :=
  { time := none
    dot := false
    fret := some (.number v.val)
    string := some string
    letterPitch := none
    octave := none
    articulation := none
    decorator := none }

/-- So many strings, all tuned to C. -/
def openC (count : Nat) : Resolver :=
  { tuning := ⟨List.replicate count 60⟩, strategy := .standard, octaveShift := 0 }

theorem isFretOn_fretEntry (string : Nat) (v : PitchClass) :
    (fretEntry string v).IsFretOn string := ⟨rfl, rfl, rfl⟩

theorem openString_openC {count string : Nat} (h : 0 < string) (hle : string ≤ count) :
    (openC count).tuning.openString string = .ok 60 := by
  obtain ⟨place, rfl⟩ : ∃ place, string = place + 1 := ⟨string - 1, by omega⟩
  have hplace : (List.replicate count (60 : Int))[place]? = some 60 := by
    rw [List.getElem?_replicate, if_pos (by omega)]
  simp only [Tuning.openString, openC, hplace]

/-- On strings tuned to C a fret is spelled as the class that its number is. -/
theorem exists_resolve_fretEntry {count string : Nat} (h : 0 < string) (hle : string ≤ count)
    (m : SpellingMemory) (v : PitchClass) :
    ∃ entry, ResolvedEntry.resolve (openC count) m (fretEntry string v) =
        ((m.spell [v]).1, .ok entry) ∧
      [entry.written] = (m.spell [v]).2 ∧
      entry.position.pitchClass? (openC count).tuning = some v := by
  have hopen := openString_openC h hle
  have hheight : (fits32 v.val && fits32 (60 + v.val)) = true ∧
      Tuning.pitchAtHeight (60 + v.val) = ⟨.canonical v, 5⟩ := by
    revert v
    decide
  have hclass : PitchClass.ofInt (60 + v.val) = v := by
    revert v
    decide
  have hpitch : (openC count).tuning.pitchAt v.val string = .ok ⟨.canonical v, 5⟩ := by
    simp only [Tuning.pitchAt, hopen, hheight.1, hheight.2, if_true]
  let binding : Binding :=
    { key := ⟨(m.select (.canonical v)).2.note, Resolver.respelledOctave 5
        (NoteName.canonical v).letter (m.select (.canonical v)).2.note.letter⟩
      playNote := ⟨.canonical v, 5⟩
      mark := (m.select (.canonical v)).2.mark .standard
      fret := .number v.val }
  refine ⟨.ofBinding (fretEntry string v) binding none, ?_, rfl, ?_⟩
  · simp only [ResolvedEntry.resolve, Resolver.entry, fretEntry, Resolver.fret, hpitch]
    rfl
  · show TabPosition.pitchClass? (openC count).tuning ⟨.number v.val, string⟩ = some v
    simp only [TabPosition.pitchClass?, hopen, hclass]

/-- Entries for some frets, each a string and the class on it. -/
def fretEntries (frets : List (Nat × PitchClass)) : List NoteEntry :=
  frets.map fun fret => fretEntry fret.1 fret.2

theorem isFretOn_fretEntries (frets : List (Nat × PitchClass)) :
    List.Forall₂ NoteEntry.IsFretOn (fretEntries frets) (frets.map (·.1)) := by
  induction frets with
  | nil => exact .nil
  | cons fret frets ih => exact .cons (isFretOn_fretEntry fret.1 fret.2) ih

theorem exists_resolveAll_fretEntries {count : Nat} {frets : List (Nat × PitchClass)}
    (h : ∀ fret ∈ frets, 0 < fret.1 ∧ fret.1 ≤ count) (m : SpellingMemory) :
    ∃ entries, ResolvedEntry.resolveAll (openC count) m (fretEntries frets) =
        ((m.spell (frets.map (·.2))).1, .ok entries) ∧
      entries.map ResolvedEntry.written = (m.spell (frets.map (·.2))).2 ∧
      entries.map (·.position.pitchClass? (openC count).tuning) =
        (frets.map (·.2)).map some := by
  induction frets generalizing m with
  | nil => exact ⟨[], rfl, rfl, rfl⟩
  | cons fret frets ih =>
      obtain ⟨string, v⟩ := fret
      obtain ⟨⟨hpos, hle⟩, hfrets⟩ := List.forall_mem_cons.1 h
      obtain ⟨entry, hresolve, hwritten, hclass⟩ := exists_resolve_fretEntry hpos hle m v
      obtain ⟨entries, hresolve', hwritten', hclasses⟩ := ih hfrets (m.spell [v]).1
      refine ⟨entry :: entries, ?_, ?_, ?_⟩
      · show ResolvedEntry.resolveAll (openC count) m (fretEntry string v :: fretEntries frets) = _
        rw [ResolvedEntry.resolveAll, hresolve]
        dsimp only
        rw [hresolve']
        rfl
      · rw [List.map_cons, hwritten']
        exact congrArg (· ++ _) hwritten
      · rw [List.map_cons, hclass, hclasses]
        rfl

/-- An entry that cannot be resolved refuses the chord; what was spelled before it stays. -/
theorem resolveAll_concat_error {r : Resolver} {m n : SpellingMemory} {chord : List NoteEntry}
    {entries : List ResolvedEntry} {e : NoteEntry} {cause : Cause}
    (h : ResolvedEntry.resolveAll r m chord = (n, .ok entries))
    (he : ResolvedEntry.resolve r n e = (n, .error cause)) :
    ResolvedEntry.resolveAll r m (chord ++ [e]) = (n, .error cause) := by
  induction chord generalizing m entries with
  | nil =>
      cases h
      rw [List.nil_append, ResolvedEntry.resolveAll, he]
  | cons first chord ih =>
      rw [ResolvedEntry.resolveAll] at h
      rw [List.cons_append, ResolvedEntry.resolveAll]
      split at h
      · cases h
      · split at h
        · cases h
        · rename_i hrest
          cases h
          rw [ih hrest]

theorem Engraves.exists_carried {count : Nat} (h : s.Engraves (openC count) key chords)
    {strings : List Nat} {classes : List PitchClass} (hlen : strings.length = classes.length)
    (hstrings : ∀ string ∈ strings, 0 < string ∧ string ≤ count) :
    ∃ event entries, event.chord? = some entries ∧
      List.Forall₂ NoteEntry.IsFretOn entries strings ∧ (s.handle event).fault = none ∧
      (s.handle event).state.Engraves (openC count) key (chords ++ [(strings, classes)]) := by
  let frets := strings.zip classes
  have hfst : frets.map (·.1) = strings := List.map_fst_zip (Nat.le_of_eq hlen)
  have hsnd : frets.map (·.2) = classes := List.map_snd_zip (Nat.le_of_eq hlen.symm)
  have hfrets := isFretOn_fretEntries frets
  rw [hfst] at hfrets
  have hbound : ∀ fret ∈ frets, 0 < fret.1 ∧ fret.1 ≤ count := fun fret hmem =>
    hstrings fret.1 (hfst ▸ List.mem_map_of_mem hmem)
  refine ⟨.chord (fretEntries frets) none none, fretEntries frets, rfl, hfrets, ?_⟩
  by_cases hne : strings = []
  · subst hne
    obtain rfl : classes = [] := List.length_eq_zero_iff.1 hlen.symm
    exact ⟨rfl, h.teach []⟩
  · obtain ⟨entries, hresolve, hwritten, hclasses⟩ :=
      exists_resolveAll_fretEntries hbound s.memory
    rw [hsnd] at hresolve hwritten hclasses
    have hentries : fretEntries frets ≠ [] := fun hnil => by
      rw [hnil] at hfrets
      cases hfrets
      exact hne rfl
    show (s.addChord _ none none).fault = none ∧ (s.addChord _ none none).state.Engraves _ _ _
    rw [addChord_eq h.staffKey hentries, h.resolver, hresolve]
    exact ⟨rfl, h.write (Chord.placesOf_eq_placesOn hfrets) hwritten hclasses none none⟩

theorem Engraves.exists_refused {count : Nat} (h : s.Engraves (openC count) key chords)
    (hcount : 0 < count) (classes : List PitchClass) :
    ∃ event entries strings, event.chord? = some entries ∧
      List.Forall₂ NoteEntry.IsFretOn entries strings ∧
      (∃ cause, (s.handle event).fault = some cause) ∧
      (s.handle event).state.Engraves (openC count) key (chords ++ [([], classes)]) := by
  let frets := classes.map fun v => ((1, v) : Nat × PitchClass)
  have hsnd : frets.map (·.2) = classes := by
    rw [List.map_map]
    exact List.map_id _
  have hbound : ∀ fret ∈ frets, 0 < fret.1 ∧ fret.1 ≤ count := fun fret hmem => by
    obtain ⟨v, _, rfl⟩ := List.mem_map.1 hmem
    exact ⟨Nat.one_pos, hcount⟩
  -- There is no string 0, so the last entry refuses the chord.
  let chord := fretEntries frets ++ [fretEntry 0 0]
  have hfrets : List.Forall₂ NoteEntry.IsFretOn chord (frets.map (·.1) ++ [0]) :=
    List.rel_append (isFretOn_fretEntries frets) (.cons (isFretOn_fretEntry 0 0) .nil)
  obtain ⟨entries, hresolve, _, _⟩ := exists_resolveAll_fretEntries hbound s.memory
  rw [hsnd] at hresolve
  have hrefused := resolveAll_concat_error (e := fretEntry 0 0) hresolve rfl
  refine ⟨.chord chord none none, chord, _, rfl, hfrets, ?_⟩
  show (∃ cause, (s.addChord _ none none).fault = some cause) ∧
    (s.addChord _ none none).state.Engraves _ _ _
  rw [addChord_eq h.staffKey (List.concat_ne_nil _ _), h.resolver, hrefused]
  exact ⟨⟨_, rfl⟩, h.teach classes⟩

/-- On enough strings any classes can be played in a run. -/
theorem exists_plays {count : Nat} (hcount : 0 < count) {run : List Call}
    {played : List (List Nat × List PitchClass)} (hyields : List.Forall₂ Call.Yields run played)
    (hstrings : ∀ string ∈ run.reduceOption.flatten, 0 < string ∧ string ≤ count)
    (h : s.Engraves (openC count) key chords) :
    ∃ t, Plays run s t ∧ t.Engraves (openC count) key (chords ++ played) := by
  -- Each call is played in the session that the calls before it have left.
  induction hyields generalizing chords s with
  | nil => exact ⟨s, .nil s, by rwa [List.append_nil]⟩
  | @cons call chord run played hcall _ ih =>
      obtain ⟨strings, classes⟩ := chord
      cases call with
      | none =>
          obtain rfl : strings = [] := hcall
          obtain ⟨event, entries, strings, hchord, hfrets, ⟨cause, hfault⟩, hnext⟩ :=
            h.exists_refused hcount classes
          obtain ⟨t, hplays, hlast⟩ := ih hstrings hnext
          rw [List.append_assoc] at hlast
          have hrun := Plays.call hchord hfrets hplays
          rw [hfault] at hrun
          exact ⟨t, hrun, hlast⟩
      | some on =>
          obtain ⟨rfl, hlen⟩ : strings = on ∧ on.length = classes.length := hcall
          rw [List.reduceOption_cons_of_some, List.flatten_cons] at hstrings
          obtain ⟨hfirst, hrest⟩ := List.forall_mem_append.1 hstrings
          obtain ⟨event, entries, hchord, hfrets, hfault, hnext⟩ := h.exists_carried hlen hfirst
          obtain ⟨t, hplays, hlast⟩ := ih hrest hnext
          rw [List.append_assoc] at hlast
          have hrun := Plays.call hchord hfrets hplays
          rw [hfault] at hrun
          exact ⟨t, hrun, hlast⟩

end Session

/-! ## What is read right -/

theorem exists_bound (strings : List Nat) :
    ∃ count, 0 < count ∧ ∀ string ∈ strings, string ≤ count := by
  induction strings with
  | nil => exact ⟨1, Nat.one_pos, List.forall_mem_nil _⟩
  | cons string strings ih =>
      obtain ⟨count, hpos, hcount⟩ := ih
      refine ⟨max string count, by omega, List.forall_mem_cons.2 ⟨by omega, fun other hmem => ?_⟩⟩
      have hle := hcount other hmem
      omega

/-- **When the staff says what was played.** On a new stave with a staff, in some key and with the
standard strategy, a run of chords and notes of frets is read right, whatever is played in it, if
nothing is written after a refused call and either there are at most two notes, or the key has no
flats and at most five sharps and every chord keeps its order. Every other run can be read wrong.
Strings are counted from one. -/
theorem readsRight_iff_isSafe {key : String} (hkey : key ∈ knownKeys) {run : List Call}
    (hstrings : ∀ string ∈ run.reduceOption.flatten, 0 < string) :
    (∀ (s t : Session) (d : StaveDeclaration), d.staff = true → d.key = key →
      s.settings.accidentals = .standard → Session.Plays run (s.addStave d).state t →
        t.ReadsRight) ↔
    IsSafe key run := by
  rw [← readsBack_iff_isSafe hkey]
  constructor
  · intro hall played hyields
    -- Whatever can be engraved can be played on a tuning with enough strings.
    obtain ⟨count, hpos, hcount⟩ := exists_bound run.reduceOption.flatten
    let s := Session.start .standard
    let d := { StaveDeclaration.defaults .implicit with
      key := key, tuning := ⟨List.replicate count 60⟩ }
    have hstart : (s.addStave d).state.Engraves (Session.openC count) key [] :=
      Session.Engraves.addStave (d := d) hkey rfl rfl s
    obtain ⟨t, hplays, hlast⟩ := Session.exists_plays hpos hyields
      (fun string hmem => ⟨hstrings string hmem, hcount string hmem⟩) hstart
    exact hlast.readsRight_iff.1 (hall s t d rfl rfl rfl hplays)
  · intro hall s t d hstaff hd hstandard hplays
    obtain ⟨played, hyields, hlast⟩ :=
      hplays.exists_engraves (.addStave hkey hstaff hd s) hstandard
    exact hlast.readsRight_iff.2 (hall played hyields)

/-- In F major three notes on a string can be read wrong. -/
theorem not_readsRight_three_notes :
    "F" ∈ knownKeys ∧
    (∀ string ∈ ([some [1], some [1], some [1]] : List Call).reduceOption.flatten, 0 < string) ∧
    ¬ ∀ (s t : Session) (d : StaveDeclaration), d.staff = true → d.key = "F" →
      s.settings.accidentals = .standard →
      Session.Plays [some [1], some [1], some [1]] (s.addStave d).state t → t.ReadsRight := by
  have hkey : "F" ∈ knownKeys := by decide
  have hstrings : ∀ string ∈ ([some [1], some [1], some [1]] : List Call).reduceOption.flatten,
      0 < string := by decide
  refine ⟨hkey, hstrings, fun hall => ?_⟩
  have hsafe := (readsRight_iff_isSafe hkey hstrings).1 hall
  exact absurd hsafe (by decide)

/-- The notes B, B flat and again B on a stave in F major. -/
def returningToB : List Event :=
  [.stave { StaveDeclaration.defaults .implicit with key := "F" },
    .note (Session.fretEntry 2 0), .note (Session.fretEntry 3 3), .note (Session.fretEntry 2 0)]

/-- The second B is drawn without an accidental and read as B flat. -/
theorem not_readsRight_returningToB :
    ¬ ((Session.start .standard).follow returningToB).ReadsRight := by
  intro hreads
  exact absurd (hreads "F" rfl) (by decide)

end Tablature
