/-
# Tablature.Proofs.Accidentals — does a staff say what was played?

A stave with a staff shows every fret twice, as a position on tablature and as a key on the staff. A
reader of the staff should read the pitch classes that tablature shows (`Session.ReadsRight`). What
an operation writes on both views is said by `Session.Writes`, and `Session.Engraves` says that a
session shows what was engraved since the start of its stave: a new stave shows nothing, and a chord
adds what `engrave` adds for it.
-/
import Tablature.Proofs.Marking
import Tablature.Proofs.Refusals
import Tablature.Proofs.Spelled

namespace Tablature

/-! ## What a stave shows -/

/-- The accidental that is drawn at a key. -/
def accidentalAt? (marks : List Attached) (key : Nat) : Option Accidental :=
  marks.findSome? fun mark =>
    match mark.modifier with
    | .accidental a _ => if mark.index = key then some a else none
    | _ => none

namespace Tickable

/-- The keys of a note on a staff, as they are written. -/
def written : Tickable → List Written
  | staff n =>
      if n.rest then []
      else n.keys.mapIdx fun i key => (key.name.letter, accidentalAt? n.modifiers i)
  | _ => []

/-- The pitch classes of the positions of a note on tablature. -/
def frets (t : Tuning) : Tickable → List (Option PitchClass)
  | tab n => n.positions.map (·.pitchClass? t)
  | _ => []

/-- Marks that are not accidentals do not change what is written. -/
theorem written_mark {m : Modifier} (h : m.isPlain ∨ m.isFingerMark) (t : Tickable) (index : Nat) :
    (t.mark index m).written = t.written := by
  cases t with
  | staff n =>
      have hsame (key : Nat) :
          accidentalAt? (n.modifiers ++ [⟨index, m⟩]) key = accidentalAt? n.modifiers key := by
        rw [accidentalAt?, List.findSome?_append, accidentalAt?]
        cases m with
        | accidental a cautionary => rcases h with h | h <;> cases h
        | _ => exact Option.or_none
      simp only [mark, written, hsame]
  | _ => rfl

theorem written_marks {t u : Tickable} (h : Marks StaffAllows t u) : u.written = t.written := by
  induction h with
  | refl => rfl
  | add _ hallows ih => exact (written_mark (hallows.imp And.right And.right) _ _).trans ih

theorem frets_dressed (tuning : Tuning) {t u : Tickable} (h : Dressed t u) :
    u.frets tuning = t.frets tuning := by
  induction h with
  | refl => rfl
  | @mark u index m _ ih =>
      have hsame : (u.mark index m).frets tuning = u.frets tuning := by cases u <;> rfl
      exact hsame.trans ih
  | @hide u _ ih =>
      have hsame : u.hide.frets tuning = u.frets tuning := by cases u <;> rfl
      exact hsame.trans ih

end Tickable

/-! ### Slots of a chord -/

theorem accidentalAt?_cons (index : Nat) (a : Accidental) (cautionary : Bool)
    (marks : List Attached) (key : Nat) :
    accidentalAt? (⟨index, .accidental a cautionary⟩ :: marks) key =
      if index = key then some a else accidentalAt? marks key := by
  rw [accidentalAt?, List.findSome?_cons]
  by_cases h : index = key
  · simp [h]
  · simp only [if_neg h]
    rfl

theorem accidentalAt?_accidentalMarks_of_lt (entries : List ResolvedEntry) {start key : Nat}
    (h : key < start) : accidentalAt? (Chord.accidentalMarks entries start) key = none := by
  induction entries generalizing start with
  | nil => rfl
  | cons e entries ih =>
      have hrest := ih (Nat.lt_succ_of_lt h)
      rw [Chord.accidentalMarks]
      split
      · rw [accidentalAt?_cons, if_neg (Nat.ne_of_gt h)]
        exact hrest
      · exact hrest

/-- The keys of a slot, counted from `start`. -/
theorem mapIdx_accidentalMarks (entries : List ResolvedEntry) (start : Nat) :
    ((entries.map (·.key)).mapIdx fun i key =>
      (key.name.letter, accidentalAt? (Chord.accidentalMarks entries start) (start + i))) =
    entries.map ResolvedEntry.written := by
  induction entries generalizing start with
  | nil => rfl
  | cons e entries ih =>
      have hfirst : accidentalAt? (Chord.accidentalMarks (e :: entries) start) start =
          e.mark.map (·.accidental) := by
        have hnone := accidentalAt?_accidentalMarks_of_lt entries (Nat.lt_succ_self start)
        rw [Chord.accidentalMarks]
        cases e.mark with
        | none => exact hnone
        | some mark => exact (accidentalAt?_cons _ _ _ _ _).trans (if_pos rfl)
      -- The mark of the first entry is at `start`, so the keys behind it do not see it.
      have hlater (i : Nat) :
          accidentalAt? (Chord.accidentalMarks (e :: entries) start) (start + (i + 1)) =
            accidentalAt? (Chord.accidentalMarks entries (start + 1)) (start + 1 + i) := by
        have hne : start ≠ start + (i + 1) := by omega
        have hindex : start + (i + 1) = start + 1 + i := by omega
        rw [Chord.accidentalMarks, hindex]
        split
        · rw [accidentalAt?_cons, if_neg (hindex ▸ hne)]
        · rfl
      rw [List.map_cons, List.mapIdx_cons, List.map_cons, ← ih (start + 1), Nat.add_zero, hfirst]
      simp only [hlater, ResolvedEntry.written]

/-- A slot is written key by key, each with the accidental of its entry. -/
theorem written_staffNote (s : Session) (entries : List ResolvedEntry) :
    (Tickable.staff (s.staffNote entries)).written = entries.map ResolvedEntry.written := by
  have hall := mapIdx_accidentalMarks entries 0
  simp only [Nat.zero_add] at hall
  exact hall

theorem frets_tabNote (s : Session) (t : Tuning) (entries : List ResolvedEntry) :
    (Tickable.tab (s.tabNote entries)).frets t = entries.map (·.position.pitchClass? t) := by
  rw [Tickable.frets, Session.tabNote, List.map_map]
  rfl

namespace Session

/-- The key signature of the staff, if the active stave has a staff. -/
def staffKey? (s : Session) : Option String := (s.score.active.bind Stave.staff).map StaffView.key

/-- All keys of the voice in progress on the staff, in their order. -/
def written (s : Session) : List Written := s.staffNotes.flatMap Tickable.written

/-- The pitch classes of all positions of the voice in progress on tablature, in their order. -/
def frets (s : Session) : List (Option PitchClass) := s.tabNotes.flatMap (Tickable.frets s.tuning)

/-- **The staff says what was played**: a reader who starts with its key signature reads at every
key the pitch class of the fret opposite it. -/
def ReadsRight (s : Session) : Prop :=
  ∀ key, s.staffKey? = some key → ((Reader.start key).read s.written).map some = s.frets

/-! ## What an operation writes -/

/-- An operation that writes some entries, in their order, and leaves in force what entries are
resolved against. -/
structure Writes (entries : List ResolvedEntry) (s t : Session) : Prop where
  resolver : t.resolver = s.resolver
  memory : t.memory = s.memory
  staffKey : t.staffKey? = s.staffKey?
  written : s.staffKey?.isSome → t.written = s.written ++ entries.map ResolvedEntry.written
  frets : s.staffKey?.isSome →
    t.frets = s.frets ++ entries.map (·.position.pitchClass? s.tuning)

namespace Writes

variable {s t u : Session} {entries later : List ResolvedEntry}

theorem trans (h : Writes entries s t) (h' : Writes later t u) : Writes (entries ++ later) s u where
  resolver := h'.resolver.trans h.resolver
  memory := h'.memory.trans h.memory
  staffKey := h'.staffKey.trans h.staffKey
  written := fun hstaff => by
    rw [h'.written (h.staffKey ▸ hstaff), h.written hstaff, List.map_append, List.append_assoc]
  frets := fun hstaff => by
    have htuning : t.tuning = s.tuning := congrArg Resolver.tuning h.resolver
    rw [h'.frets (h.staffKey ▸ hstaff), h.frets hstaff, htuning, List.map_append,
      List.append_assoc]

/-- Marking writes nothing. -/
theorem of_marked (h : s.Marked t) : Writes [] s t := by
  have hactive := h.active
  have hkey : t.staffKey? = s.staffKey? := by
    unfold staffKey?
    generalize s.score.active = a at hactive
    generalize t.score.active = b at hactive
    cases hactive with
    | none => rfl
    | some hab => rw [Option.bind_some, Option.bind_some, hab.frame]
  have hwritten : t.written = s.written := by
    unfold Session.written staffNotes
    generalize s.score.active = a at hactive
    generalize t.score.active = b at hactive
    cases hactive with
    | none => rfl
    | some hab =>
        exact congrArg List.flatten
          (map_eq_of_forall₂ hab.staffNotes fun _ _ => Tickable.written_marks)
  have hfrets : t.frets = s.frets := by
    unfold Session.frets tabNotes
    rw [h.tuning]
    generalize s.score.active = a at hactive
    generalize t.score.active = b at hactive
    cases hactive with
    | none => rfl
    | some hab =>
        exact congrArg List.flatten
          (map_eq_of_forall₂ hab.tabNotes fun _ _ => Tickable.frets_dressed s.tuning)
  refine ⟨?_, h.memory, hkey, fun _ => by simp [hwritten], fun _ => by simp [hfrets]⟩
  obtain ⟨side, hsettings⟩ := h.settings
  simp only [Session.resolver, h.tuning, h.octaveShift, hsettings]

theorem push (s : Session) (entries : List ResolvedEntry) :
    Writes entries s
      (s.onActive (·.push (.tab (s.tabNote entries)) (.staff (s.staffNote entries)))) := by
  cases ha : s.score.active with
  | none =>
      rw [onActive_eq_self ha]
      have hkey : s.staffKey?.isSome = false := by rw [staffKey?, ha]; rfl
      refine ⟨rfl, rfl, rfl, fun hstaff => ?_, fun hstaff => ?_⟩
      · rw [hkey] at hstaff
        cases hstaff
      · rw [hkey] at hstaff
        cases hstaff
  | some a =>
      rw [onActive_eq ha]
      have hkey : s.staffKey? = a.staff.map StaffView.key := by rw [staffKey?, ha]; rfl
      refine ⟨rfl, rfl, by rw [hkey]; rfl, fun hstaff => ?_, fun _ => ?_⟩
      · have hview : a.staff.isSome := by
          rw [hkey, Option.isSome_map] at hstaff
          exact hstaff
        show (a.push _ _).staffNotes.flatMap _ = _
        rw [Session.written, staffNotes_eq ha, Stave.push, if_pos hview, List.flatMap_append,
          List.flatMap_singleton, written_staffNote]
      · show (a.push _ _).tabNotes.flatMap (Tickable.frets s.tuning) = _
        rw [Session.frets, tabNotes_eq ha, Stave.push, List.flatMap_append, List.flatMap_singleton,
          frets_tabNote]

theorem emit (s : Session) (entries : List ResolvedEntry) : Writes entries s (s.emit entries) := by
  have hmarked := (marked_applyTags (s := s.onActive (·.push (.tab (s.tabNote entries))
    (.staff (s.staffNote entries)))) (entries.map (·.articulation))).trans
      (marked_decorateWith (Chord.lastSome (entries.map (·.decorator))))
  have hwrites := (push s entries).trans (of_marked hmarked)
  rw [List.append_nil] at hwrites
  exact hwrites

theorem foldl_emit (s : Session) (slots : List (List ResolvedEntry)) :
    Writes slots.flatten s (slots.foldl Session.emit s) := by
  induction slots generalizing s with
  | nil => exact of_marked (.refl s)
  | cons slot slots ih => exact (emit s slot).trans (ih _)

/-- A chord is written in the order of its slots. -/
theorem writeChord (s : Session) (chord : List NoteEntry) (entries : List ResolvedEntry)
    (articulation : Option Articulation) (decorator : Option Decorator) :
    Writes (Chord.arrange (Chord.placesOf chord) entries) s
      (s.writeChord chord entries articulation decorator) := by
  have hmarked := (marked_applyChordTag
    (s := (Chord.slots (Chord.placesOf chord) entries).foldl Session.emit s) chord.length
      articulation).trans (marked_decorateWith decorator)
  have hwrites := (foldl_emit s (Chord.slots (Chord.placesOf chord) entries)).trans
    (of_marked hmarked)
  rw [List.append_nil, Chord.flatten_slots] at hwrites
  exact hwrites

end Writes

/-! ## Sessions that show what was engraved -/

/-- Since the start of a stave the session has engraved some chords and nothing else: the memory has
spelled their classes, and both views show the keys of `engrave`. -/
structure Engraves (r : Resolver) (key : String) (chords : List (List Nat × List PitchClass))
    (s : Session) : Prop where
  resolver : s.resolver = r
  staffKey : s.staffKey? = some key
  memory : s.memory = ((SpellingMemory.ofKnown key).spell (chords.flatMap (·.2))).1
  written : s.written = (engrave (.ofKnown key) chords).map (·.1)
  frets : s.frets = (engrave (.ofKnown key) chords).map fun k => some k.2

namespace Engraves

variable {r : Resolver} {key : String} {chords : List (List Nat × List PitchClass)} {s : Session}

theorem readsRight_iff (h : s.Engraves r key chords) :
    s.ReadsRight ↔ ReadsBack (.start key) (engrave (.ofKnown key) chords) := by
  have hsome : (engrave (.ofKnown key) chords).map (fun k => some k.2) =
      ((engrave (.ofKnown key) chords).map (·.2)).map some := by rw [List.map_map]; rfl
  unfold ReadsRight ReadsBack
  rw [h.staffKey, h.written, h.frets, hsome]
  constructor
  · intro hreads
    exact List.map_injective_iff.2 (fun _ _ => Option.some.inj) (hreads key rfl)
  · rintro hreads _ hkey
    cases hkey
    exact congrArg (List.map some) hreads

/-- A new stave with a staff shows nothing yet, and the memory is that of its key. -/
theorem addStave (hkey : key ∈ knownKeys) {d : StaveDeclaration} (hstaff : d.staff = true)
    (hd : d.key = key) (s : Session) :
    (s.addStave d).state.Engraves ⟨d.tuning, s.settings.accidentals, s.octaveShift⟩ key [] := by
  have hmarked := marked_closeBends (s := s) true
  obtain ⟨side, hsettings⟩ := hmarked.settings
  -- The key is read anew, whatever the memory held before.
  have hmemory (m : SpellingMemory) : (m.setKey d.key).state = .ofKnown key := by
    have hread : SpellingMemory.forKey d.key = .ok (.ofKnown key) := by
      rw [hd, forKey_eq_ofKnown hkey]
    show (Outcome.needing (SpellingMemory.forKey d.key) _ Outcome.done).state = _
    rw [hread]
    rfl
  have hplaced : ((s.closeBends true).placeStave d).resolver =
      ⟨d.tuning, s.settings.accidentals, s.octaveShift⟩ := by
    have hresolver : ((s.closeBends true).placeStave d).resolver =
        ⟨d.tuning, (s.closeBends true).settings.accidentals, (s.closeBends true).octaveShift⟩ := by
      unfold placeStave
      cases d.staff <;> cases d.tablature <;> rfl
    rw [hresolver, hsettings, hmarked.octaveShift]
  refine ⟨hplaced, ?_, hmemory _, ?_, ?_⟩
  · show ((s.closeBends true).placeStave d).staffKey? = some key
    unfold placeStave
    rw [hstaff, ← hd]
    cases d.tablature <;> rfl
  · show ((s.closeBends true).placeStave d).written = []
    unfold placeStave
    cases d.staff <;> cases d.tablature <;> rfl
  · show ((s.closeBends true).placeStave d).frets = []
    unfold placeStave
    cases d.staff <;> cases d.tablature <;> rfl

/-- A refused call writes nothing, whatever it has spelled. -/
theorem teach (h : s.Engraves r key chords) (classes : List PitchClass) :
    ({ s with memory := (s.memory.spell classes).1 } : Session).Engraves r key
      (chords ++ [([], classes)]) := by
  -- No strings, no keys.
  have hsame : engrave (.ofKnown key) (chords ++ [([], classes)]) =
      engrave (.ofKnown key) chords := by
    rw [engrave_append]
    exact List.append_nil _
  refine ⟨h.resolver, h.staffKey, ?_, ?_, ?_⟩
  · show (s.memory.spell classes).1 = _
    rw [h.memory, List.flatMap_append, SpellingMemory.spell_append, List.flatMap_singleton]
  · rw [hsame]
    exact h.written
  · rw [hsame]
    exact h.frets

/-- A chord whose entries are resolved is written as it is engraved. -/
theorem write (h : s.Engraves r key chords) {chord : List NoteEntry} {strings : List Nat}
    {classes : List PitchClass} {entries : List ResolvedEntry}
    (hplaces : Chord.placesOf chord = Chord.placesOn strings)
    (hwritten : entries.map ResolvedEntry.written = (s.memory.spell classes).2)
    (hclasses : entries.map (·.position.pitchClass? r.tuning) = classes.map some)
    (articulation : Option Articulation) (decorator : Option Decorator) :
    (({ s with memory := (s.memory.spell classes).1 } : Session).writeChord chord entries
      articulation decorator).Engraves r key (chords ++ [(strings, classes)]) := by
  have hwrites := Writes.writeChord { s with memory := (s.memory.spell classes).1 } chord entries
    articulation decorator
  rw [hplaces] at hwrites
  have hstaff : s.staffKey?.isSome := by rw [h.staffKey]; rfl
  have htuning : s.tuning = r.tuning := congrArg Resolver.tuning h.resolver
  have hlength : (s.memory.spell classes).2.length = classes.length :=
    SpellingMemory.length_spell s.memory classes
  -- The memory of the session is the one that `engrave` has after the chords so far.
  have hengraved : engrave (.ofKnown key) (chords ++ [(strings, classes)]) =
      engrave (.ofKnown key) chords ++ engraveChord s.memory strings classes := by
    rw [engrave_append, ← h.memory]
    exact congrArg (_ ++ ·) (List.append_nil _)
  refine ⟨hwrites.resolver.trans h.resolver, hwrites.staffKey.trans h.staffKey, ?_, ?_, ?_⟩
  · rw [hwrites.memory]
    exact (h.teach classes).memory.trans (by simp)
  · rw [hwrites.written hstaff, hengraved, List.map_append, ← h.written, engraveChord,
      Chord.map_arrange, Chord.map_arrange, List.map_fst_zip (Nat.le_of_eq hlength), hwritten]
    rfl
  · have hsome : (fun k : StaffKey => some k.2) = some ∘ fun k : StaffKey => k.2 := rfl
    rw [hwrites.frets hstaff, hengraved, List.map_append, ← h.frets, engraveChord,
      Chord.map_arrange, Chord.map_arrange, hsome, ← List.map_map,
      List.map_snd_zip (Nat.le_of_eq hlength.symm), ← hclasses, ← htuning]
    rfl

end Engraves

/-- A chord with entries, on a session with a stave. -/
theorem addChord_eq {s : Session} {key : String} (hstaff : s.staffKey? = some key)
    {chord : List NoteEntry} (hne : chord ≠ []) (articulation : Option Articulation)
    (decorator : Option Decorator) :
    s.addChord chord articulation decorator =
      match ResolvedEntry.resolveAll s.resolver s.memory chord with
      | (memory, .error cause) => .stopped { s with memory := memory } cause
      | (memory, .ok entries) =>
          .done
            (({ s with memory := memory }).writeChord chord entries articulation decorator) := by
  have hsome : ∃ a, s.score.active = some a := by
    cases ha : s.score.active with
    | none =>
        rw [staffKey?, ha] at hstaff
        cases hstaff
    | some a => exact ⟨a, rfl⟩
  obtain ⟨a, ha⟩ := hsome
  have hentries : ¬ chord.isEmpty := fun hempty => hne (List.isEmpty_iff.1 hempty)
  have hnext (next : Stave → Outcome Cause Session) : s.withStave next = next a := by
    rw [withStave, ha]
  exact (if_neg hentries).trans (hnext _)

end Session

end Tablature
