/-
# Tablature.Proofs.StaffSteps — how far from the middle line a key is drawn.

The place of a key on a staff is counted in steps of the scale, in integers of 32 bits: the position
of the key is kept within the range, and the position of the middle line is taken from it. Where the
count does not fall below the range it is exact, but for a position above the range, which is counted
as the highest one there is (`Preview.stepsAbove_of_le`, `Preview.exactSteps_iff`). A fret or a rest
never comes near the ends of the range, whatever the tuning, because its height is an integer of 32
bits and an octave has twelve semitones but only seven steps. So only a pitch letter with an octave
far out can be counted otherwise than exactly (`octave_of_compile`).
-/
import Tablature.Preview.Note
import Tablature.Proofs.Inscriptions
import Tablature.Proofs.Played
import Tablature.Proofs.RoundTrip

namespace Tablature

/-! ## Steps -/

/-- Steps of the scale above the C of octave zero, in exact integers. -/
def Pitch.position (p : Pitch) : Int := 7 * p.octave + p.name.letter.index

namespace Preview

/-- The steps of a key are counted exactly, and the count is an integer of 32 bits. -/
structure ExactSteps (key : Pitch) (clef : Option Clef) : Prop where
  eq : stepsAbove key clef = key.position - middleLine clef
  fits : FitsInt32 (stepsAbove key clef)

theorem middleLine_bounds (clef : Option Clef) : 22 ≤ middleLine clef ∧ middleLine clef ≤ 34 := by
  cases clef with
  | none => decide
  | some clef => cases clef <;> decide

end Preview

theorem Letter.index_le (l : Letter) : l.index ≤ 6 := by cases l <;> decide

/-- Octaves are kept within the range before the letter is added, so below the range the letter
still counts. -/
theorem Pitch.diatonicSteps_eq (p : Pitch) :
    p.diatonicSteps = min 2147483647 (max p.position (p.name.letter.index - 2147483648)) := by
  have hindex := p.name.letter.index_le
  unfold diatonicSteps position clamp32
  omega

namespace Preview

variable {key key' : Pitch} {clef : Option Clef}

/-- The steps of a key that is not below the range. -/
theorem stepsAbove_of_le (h : -2147483648 ≤ key.position - middleLine clef) :
    stepsAbove key clef = min 2147483647 key.position - middleLine clef ∧
      FitsInt32 (stepsAbove key clef) := by
  have hmiddle := middleLine_bounds clef
  have hindex := key.name.letter.index_le
  have hsteps : stepsAbove key clef = min 2147483647 key.position - middleLine clef := by
    rw [stepsAbove, key.diatonicSteps_eq]
    omega
  refine ⟨hsteps, ?_⟩
  rw [hsteps]
  unfold FitsInt32
  omega

/-- **Which steps are exact**: those to a key that is not above the range. -/
theorem exactSteps_iff (h : -2147483648 ≤ key.position - middleLine clef) :
    ExactSteps key clef ↔ key.position ≤ 2147483647 := by
  obtain ⟨hsteps, hfits⟩ := stepsAbove_of_le h
  constructor
  · intro hexact
    have heq := hexact.eq
    rw [hsteps] at heq
    omega
  · intro hhigh
    refine ⟨?_, hfits⟩
    rw [hsteps, Int.min_eq_right hhigh]

/-- A higher key is never counted lower. -/
theorem stepsAbove_mono (hlow : -2147483648 ≤ key.position - middleLine clef)
    (h : key.position ≤ key'.position) : stepsAbove key clef ≤ stepsAbove key' clef := by
  have hlow' : -2147483648 ≤ key'.position - middleLine clef := by omega
  rw [(stepsAbove_of_le hlow).1, (stepsAbove_of_le hlow').1]
  omega

end Preview

/-! ## Octaves -/

/-- The octaves whose keys are counted exactly whatever the letter and the clef. -/
def CountableOctave (octave : Int) : Prop := -306783373 ≤ octave ∧ octave ≤ 306783377

theorem Preview.exactSteps_of_countable {key : Pitch} (h : CountableOctave key.octave)
    (clef : Option Clef) : ExactSteps key clef := by
  have hmiddle := middleLine_bounds clef
  have hindex := key.name.letter.index_le
  obtain ⟨hlow, hhigh⟩ := h
  have hposition : key.position = 7 * key.octave + key.name.letter.index := rfl
  apply (exactSteps_iff ?_).2
  · omega
  · omega

/-- The entry is a pitch letter in an octave. -/
def NoteEntry.WritesOctave (e : NoteEntry) (octave : Int) : Prop :=
  ∃ p, e.letterPitch = some p ∧ Resolver.letterOctave e p = .ok octave

/-- The octave of a key is near those of heights of 32 bits, or one of the entries writes it. -/
def OctaveFrom (entries : List NoteEntry) (octave : Int) : Prop :=
  CountableOctave octave ∨ ∃ e ∈ entries, e.WritesOctave octave

theorem OctaveFrom.mono {entries more : List NoteEntry} {octave : Int} (h : OctaveFrom entries octave)
    (hsubset : entries ⊆ more) : OctaveFrom more octave := by
  rcases h with hnear | ⟨e, he, hwrites⟩
  · exact .inl hnear
  · exact .inr ⟨e, hsubset he, hwrites⟩

/-! ### Frets and rests -/

/-- A height of 32 bits is in one of these octaves. -/
theorem Tuning.octave_of_pitchAt {t : Tuning} {fret string : Nat} {p : Pitch}
    (h : t.pitchAt fret string = .ok p) : -178956971 ≤ p.octave ∧ p.octave ≤ 178956970 := by
  unfold pitchAt at h
  split at h
  · cases h
  · rename_i value _
    split at h
    · rename_i hfits
      cases h
      simp only [fits32, Bool.and_eq_true, decide_eq_true_eq] at hfits
      rw [pitchAtHeight, Int.fdiv_eq_ediv_of_nonneg _ (by decide)]
      dsimp only
      omega
    · cases h

namespace Resolver

variable {r : Resolver} {m : SpellingMemory} {e : NoteEntry} {b : Binding}

/-- Respelling moves a fret by one octave at most. -/
theorem octave_fret {fret string : Nat} (h : (r.fret m fret string).2 = .ok b) :
    CountableOctave b.key.octave := by
  unfold Resolver.fret at h
  cases hpitch : r.tuning.pitchAt fret string with
  | error cause =>
      rw [hpitch] at h
      cases h
  | ok pitch =>
      rw [hpitch] at h
      have hoctave := Tuning.octave_of_pitchAt hpitch
      dsimp only at h
      cases hshifted : r.shifted pitch.octave with
      | error cause =>
          rw [hshifted] at h
          cases h
      | ok octave =>
          rw [hshifted] at h
          cases h
          unfold CountableOctave respelledOctave
          dsimp only
          split
          · omega
          · split <;> omega

theorem octave_letter {p : LetterPitch} {octave : Int} {fret : Fret}
    (h : (r.letter m p octave fret).2 = .ok b) : b.key.octave = octave := by
  unfold letter at h
  split at h
  · cases h
  · cases hshifted : r.shifted octave with
    | error cause =>
        rw [hshifted] at h
        cases h
    | ok shifted =>
        rw [hshifted] at h
        cases h
        rfl

/-- **Where the octave of an entry is from**: from its string and fret, or it is written. -/
theorem octave_entry (h : (r.entry m e).2 = .ok b) : OctaveFrom [e] b.key.octave := by
  unfold entry at h
  split at h
  · rename_i p hp
    cases hoctave : letterOctave e p with
    | error cause =>
        rw [hoctave] at h
        cases h
    | ok octave =>
        rw [hoctave] at h
        rw [octave_letter h]
        exact .inr ⟨e, List.mem_singleton_self e, p, hp, hoctave⟩
  · split at h
    · exact .inl (octave_fret h)
    all_goals cases h

end Resolver

theorem ResolvedEntry.octave_resolve {r : Resolver} {m m' : SpellingMemory} {e : NoteEntry}
    {entry : ResolvedEntry} (h : resolve r m e = (m', .ok entry)) :
    OctaveFrom [e] entry.key.octave := by
  unfold resolve at h
  split at h
  · cases h
  · rename_i binding hbinding
    cases hduration : readDuration e with
    | error cause =>
        rw [hduration] at h
        cases h
    | ok duration =>
        rw [hduration] at h
        cases h
        exact Resolver.octave_entry (congrArg Prod.snd hbinding)

theorem Session.octave_restKey {s : Session} {position : Int} {key : Pitch}
    (h : s.restKey position = .ok key) : CountableOctave key.octave := by
  unfold restKey at h
  split at h
  · cases h
    exact ⟨by decide, by decide⟩
  · split at h
    · have hoctave := Tuning.octave_of_pitchAt h
      unfold CountableOctave
      omega
    · cases h

/-! ## Runs -/

/-- The entries that an event writes. -/
def Event.entries (event : Event) : List NoteEntry := event.chord?.getD []

namespace Session

variable {s : Session} {i : Inscription}

theorem octave_inscribesChord {chord : List NoteEntry} (h : i ∈ s.inscribesChord chord) :
    OctaveFrom chord i.key.octave := by
  unfold inscribesChord at h
  cases hresolved : ResolvedEntry.resolveAll s.resolver s.memory chord with
  | mk memory result =>
      rw [hresolved] at h
      cases result with
      | error cause => cases h
      | ok entries =>
          -- Arranging moves the entries, and each has been resolved by itself.
          have hmem := Chord.mem_of_mem_arrange h
          unfold ResolvedEntry.inscriptions at hmem
          obtain ⟨place, hlt, rfl⟩ := List.mem_iff_getElem.1 hmem
          rw [List.length_zipWith, Nat.lt_min] at hlt
          have hall := ResolvedEntry.forall₂_of_resolveAll hresolved
          obtain ⟨_, _, hresolve⟩ := hall.get hlt.1 hlt.2
          rw [List.getElem_zipWith]
          have hoctave := ResolvedEntry.octave_resolve hresolve
          exact hoctave.mono (List.cons_subset.2 ⟨List.get_mem chord ⟨place, hlt.1⟩, List.nil_subset _⟩)

/-- What an event engraves has its octave from the entries of the event. -/
theorem octave_inscribes {event : Event} (h : i ∈ s.inscribes event) :
    OctaveFrom event.entries i.key.octave := by
  unfold inscribes at h
  split at h
  · cases event with
    | chord entries articulation decorator => exact octave_inscribesChord h
    | note entry => exact octave_inscribesChord h
    | rest position =>
        obtain ⟨key, hkey, rfl⟩ := List.mem_map.1 h
        cases hrest : s.restKey position with
        | error cause =>
            rw [hrest] at hkey
            cases hkey
        | ok found =>
            rw [hrest] at hkey
            cases List.mem_singleton.1 hkey
            exact .inl (octave_restKey hrest)
    | _ => cases h
  · cases h

/-- What a run engraves has its octave from the entries of its events. -/
theorem octave_chronicle {events : List Event} (h : i ∈ s.chronicle events) :
    OctaveFrom (events.flatMap Event.entries) i.key.octave := by
  induction events generalizing s with
  | nil => cases h
  | cons event events ih =>
      rw [List.flatMap_cons]
      rcases List.mem_append.1 h with hfirst | hrest
      · exact (octave_inscribes hfirst).mono (List.subset_append_left _ _)
      · exact (ih hrest).mono (List.subset_append_right _ _)

end Session

/-! ## Directives -/

/-- The entries of a note element: those of its chord and its single note. -/
def NoteElement.entries (e : NoteElement) : List NoteEntry :=
  e.chord.getD [] ++ e.singleNote?.toList

/-- The entries of a directive. -/
def Directive.entries (d : Directive) : List NoteEntry := d.notes.flatMap NoteElement.entries

theorem TextLine.entries_of_mem_script {tokens : List String} {style : Session.TextStyle}
    {event : Event} (h : .ok event ∈ TextLine.script tokens style) : event.entries = [] := by
  induction tokens generalizing style with
  | nil => cases h
  | cons token tokens ih =>
      have first {e : Event} {style : Session.TextStyle} (he : e.entries = [])
          (h : Except.ok event ∈ .ok e :: TextLine.script tokens style) : event.entries = [] := by
        rcases List.mem_cons.1 h with heq | hrest
        · cases heq
          exact he
        · exact ih hrest
      rw [TextLine.script] at h
      split at h
      · exact first rfl h
      · exact first rfl h
      · exact ih h
      · exact ih h
      · exact first rfl h
      · exact ih h
      · exact first rfl h
      · exact first rfl h
      · rcases List.mem_cons.1 h with heq | hrest
        · cases heq
        · exact ih hrest

theorem NoteElement.entries_of_commandEvent {word : String} {e : NoteElement} {event : Event}
    (h : NoteElement.commandEvent word e = .ok event) : event.entries = [] := by
  unfold NoteElement.commandEvent at h
  split at h <;> cases h <;> rfl

theorem NoteElement.entries_subset_of_mem_script {e : NoteElement} {event : Event}
    (h : .ok event ∈ e.script) : event.entries ⊆ e.entries := by
  simp only [NoteElement.script, List.mem_append, Option.mem_toList, Option.map_eq_some_iff] at h
  obtain ((⟨time, _, heq⟩ | ⟨word, _, heq⟩) | ⟨chord, hchord, heq⟩) | ⟨note, hnote, heq⟩ := h
  · cases heq
    exact List.nil_subset _
  · rw [entries_of_commandEvent heq]
    exact List.nil_subset _
  · cases heq
    rw [NoteElement.entries, hchord]
    exact List.subset_append_left _ _
  · cases heq
    rw [NoteElement.entries, hnote]
    exact List.subset_append_right _ _

namespace Directive

variable {d : Directive} {event : Event}

theorem entries_subset_of_silent (h : event.entries = []) : event.entries ⊆ d.entries := by
  rw [h]
  exact List.nil_subset _

theorem entries_subset_of_mem_bodyScript (h : .ok event ∈ d.bodyScript) :
    event.entries ⊆ d.entries := by
  unfold bodyScript at h
  rcases List.mem_append.1 h with hnotes | htexts
  · obtain ⟨e, he, hevent⟩ := List.mem_flatMap.1 hnotes
    exact List.Subset.trans (NoteElement.entries_subset_of_mem_script hevent)
      fun entry hentry => List.mem_flatMap.2 ⟨e, he, hentry⟩
  · split at htexts
    · cases htexts
    · rcases List.mem_cons.1 htexts with heq | hline
      · cases heq
        exact entries_subset_of_silent rfl
      · exact entries_subset_of_silent (TextLine.entries_of_mem_script hline)

theorem entries_subset_of_mem_script (h : .ok event ∈ d.script) : event.entries ⊆ d.entries := by
  unfold script at h
  split at h
  · split at h <;> cases List.mem_singleton.1 h
    exact entries_subset_of_silent rfl
  · split at h
    · cases List.mem_singleton.1 h
    · rcases List.mem_cons.1 h with heq | hbody
      · split at heq <;> cases heq <;> exact entries_subset_of_silent rfl
      · exact entries_subset_of_mem_bodyScript hbody

/-- A list of directives has its entries from its directives. -/
theorem entries_subset_of_mem_events {ds : List Directive}
    (h : event ∈ Script.events (ds.flatMap script)) :
    event.entries ⊆ ds.flatMap Directive.entries := by
  obtain ⟨step, hstep, hevent⟩ := List.mem_filterMap.1 h
  obtain ⟨d, hd, hscript⟩ := List.mem_flatMap.1 hstep
  cases step with
  | error cause => cases hevent
  | ok found =>
      cases hevent
      exact List.Subset.trans (entries_subset_of_mem_script hscript)
        fun entry hentry => List.mem_flatMap.2 ⟨d, hd, hentry⟩

end Directive

/-! ## Keys of a score -/

/-- The keys of an object on a staff. -/
def Tickable.keys : Tickable → List Pitch
  | staff n => n.keys
  | _ => []

/-- The keys of the notes and rests on the staves of a score. -/
def Score.keys (s : Score) : List Pitch :=
  s.staves.flatMap fun a => (a.staffVoices ++ [a.staffNotes]).flatMap fun voice =>
    voice.flatMap Tickable.keys

theorem Tickable.map_engraved (t : Tickable) : t.engraved.map Prod.fst = t.keys := by
  cases t with
  | staff n =>
      unfold engraved StaffNote.engraved keys
      apply List.ext_getElem
      · rw [List.length_map, List.length_mapIdx]
      · intro i _ _
        rw [List.getElem_map, List.getElem_mapIdx]
  | _ => rfl

/-- The keys of a score are what is engraved, without the marks. -/
theorem Score.map_engraved (s : Score) : s.engraved.map Prod.fst = s.keys := by
  have hvoice (voice : List Tickable) :
      (engravedVoice voice).map Prod.fst = voice.flatMap Tickable.keys := by
    rw [engravedVoice, List.map_flatMap]
    simp only [Tickable.map_engraved]
  have hstave (a : Stave) : a.engraved.map Prod.fst =
      (a.staffVoices ++ [a.staffNotes]).flatMap fun voice => voice.flatMap Tickable.keys := by
    rw [Stave.engraved, List.map_append, List.map_flatMap, List.flatMap_append,
      List.flatMap_singleton]
    simp only [hvoice]
  rw [engraved, keys, List.map_flatMap]
  simp only [hstave]

/-- **The octaves of a score** are those of heights of 32 bits, or an entry writes them. -/
theorem octave_of_compile {setup : PageSetup} {ds : List Directive} {s : Session}
    (h : compileDirectives setup ds = .ok s) {key : Pitch} (hkey : key ∈ s.score.keys) :
    OctaveFrom (ds.flatMap Directive.entries) key.octave := by
  rw [← Score.map_engraved, engraved_compileDirectives h, List.map_map] at hkey
  obtain ⟨i, hi, rfl⟩ := List.mem_map.1 hkey
  have hoctave : OctaveFrom _ i.key.octave := Session.octave_chronicle hi
  refine hoctave.mono fun e he => ?_
  obtain ⟨event, hevent, he⟩ := List.mem_flatMap.1 he
  exact Directive.entries_subset_of_mem_events hevent he

/-- **The steps of a score.** A key that is not below the range is counted without overflow, at its
own position or at the highest one there is, and so exactly if it is not above the range. A key that
is not counted exactly has an octave far out, written with a pitch letter. Of two keys under one clef
the higher one is never counted lower. -/
theorem staffSteps_of_compile {setup : PageSetup} {ds : List Directive} {s : Session}
    (h : compileDirectives setup ds = .ok s) (clef : Option Clef) :
    (∀ key ∈ s.score.keys, -2147483648 ≤ key.position - Preview.middleLine clef →
      FitsInt32 (Preview.stepsAbove key clef) ∧
        Preview.stepsAbove key clef = min 2147483647 key.position - Preview.middleLine clef ∧
        (Preview.ExactSteps key clef ↔ key.position ≤ 2147483647)) ∧
    (∀ key ∈ s.score.keys, Preview.ExactSteps key clef ∨ ¬ CountableOctave key.octave ∧
      ∃ e ∈ ds.flatMap Directive.entries, e.WritesOctave key.octave) ∧
    (∀ key ∈ s.score.keys, ∀ key' ∈ s.score.keys,
      -2147483648 ≤ key.position - Preview.middleLine clef → key.position ≤ key'.position →
      Preview.stepsAbove key clef ≤ Preview.stepsAbove key' clef) := by
  refine ⟨?_, ?_, ?_⟩
  · intro key _ hlow
    obtain ⟨hsteps, hfits⟩ := Preview.stepsAbove_of_le hlow
    exact ⟨hfits, hsteps, Preview.exactSteps_iff hlow⟩
  · intro key hkey
    by_cases hnear : CountableOctave key.octave
    · exact .inl (Preview.exactSteps_of_countable hnear clef)
    · rcases octave_of_compile h hkey with hcountable | hwritten
      · exact absurd hcountable hnear
      · exact .inr ⟨hnear, hwritten⟩
  · intro key _ key' _ hlow hle
    exact Preview.stepsAbove_mono hlow hle

/-- Two letters on one stave: the B of the highest octave that is counted exactly, and the C of the
highest octave of 32 bits. -/
def farLetters : List Directive :=
  let note (letter : String) (octave : Int) : NoteElement :=
    { time := none, dot := false, command := none, barName := none, parameters := none
      chord := none, articulation := none, decorator := none, fret := some (.number 3)
      string := some 2, letterPitch := some ⟨letter, none, none⟩, octave := some octave
      line := none, column := none }
  [{ keyword := "tabstave", options := [⟨"notation", "true", none, none⟩], settings := []
     notes := [note "B" 306783377, note "C" 2147483647], text := []
     line := none, column := none }]

theorem keys_farLetters :
    ∃ s, compileDirectives .standard farLetters = .ok s ∧
      s.score.keys = [⟨⟨.b, none⟩, 306783377⟩, ⟨⟨.c, none⟩, 2147483647⟩] := by
  refine ⟨_, rfl, ?_⟩
  decide +kernel

/-- On the staff of a treble clef the first letter is counted exactly, and the second one at the
highest position of 32 bits. -/
theorem staffSteps_of_farLetters :
    ∃ s, compileDirectives .standard farLetters = .ok s ∧
      s.score.keys = [⟨⟨.b, none⟩, 306783377⟩, ⟨⟨.c, none⟩, 2147483647⟩] ∧
      Preview.ExactSteps ⟨⟨.b, none⟩, 306783377⟩ (some .treble) ∧
      Preview.stepsAbove ⟨⟨.c, none⟩, 2147483647⟩ (some .treble) = 2147483613 ∧
      Preview.stepsAbove ⟨⟨.b, none⟩, 306783377⟩ (some .treble) ≤
        Preview.stepsAbove ⟨⟨.c, none⟩, 2147483647⟩ (some .treble) := by
  obtain ⟨s, compiles, hkeys⟩ := keys_farLetters
  obtain ⟨hsteps, _, hmono⟩ := staffSteps_of_compile compiles (some .treble)
  rw [hkeys] at hsteps hmono
  obtain ⟨_, _, hexact⟩ := hsteps _ List.mem_cons_self (by decide)
  obtain ⟨_, hhigh, _⟩ := hsteps _ (List.mem_cons_of_mem _ List.mem_cons_self) (by decide)
  refine ⟨s, compiles, hkeys, hexact.2 (by decide), hhigh.trans (by decide), ?_⟩
  exact hmono _ List.mem_cons_self _ (List.mem_cons_of_mem _ List.mem_cons_self) (by decide)
    (by decide)

/-- The steps of a key of a score are not always exact. -/
theorem not_exactSteps_of_farLetters :
    ∃ s, compileDirectives .standard farLetters = .ok s ∧
      ∃ key ∈ s.score.keys, FitsInt32 key.octave ∧ ¬ Preview.ExactSteps key (some .treble) := by
  obtain ⟨s, compiles, hkeys⟩ := keys_farLetters
  refine ⟨s, compiles, ⟨⟨.c, none⟩, 2147483647⟩, ?_, ⟨by decide, by decide⟩, ?_⟩
  · rw [hkeys]
    exact List.mem_cons_of_mem _ List.mem_cons_self
  · intro hexact
    exact absurd hexact.eq (by decide)

end Tablature
