/-
# Tablature.Proofs.ChordSlots — the slots that a chord falls into.

An entry that is resolved marks its key with the accidental that the key is spelled with
(`ResolvedEntry.marksItsKey_of_resolveAll`), and a slot draws at each key the mark of its entry
(`Chord.accidentalsAt_accidentalMarks`). The places of a chord's entries have no gap: wherever an
entry stands, every smaller place is taken too (`mem_placesOf_of_lt`). So each slot of a resolved
chord has at least one entry (`Chord.ne_nil_of_mem_slots`), and the slots together hold every entry
once.
-/
import Mathlib.Data.List.Forall2
import Tablature.Session.Chord

namespace Tablature

/-! ## Marks of entries -/

/-- The accidental that a mark draws, if it draws one. -/
def Modifier.accidental? : Modifier → Option AccidentalMark
  | accidental a cautionary => some ⟨a, cautionary⟩
  | _ => none

/-- The accidentals that are drawn at a key. -/
def accidentalsAt (marks : List Attached) (key : Nat) : List AccidentalMark :=
  marks.filterMap fun mark => if mark.index = key then mark.modifier.accidental? else none

theorem accidentalsAt_append (xs ys : List Attached) (key : Nat) :
    accidentalsAt (xs ++ ys) key = accidentalsAt xs key ++ accidentalsAt ys key :=
  List.filterMap_append

/-- Marks that draw no accidental draw none at any key. -/
theorem accidentalsAt_eq_nil {marks : List Attached}
    (h : ∀ mark ∈ marks, mark.modifier.accidental? = none) (key : Nat) :
    accidentalsAt marks key = [] := by
  rw [accidentalsAt, List.filterMap_eq_nil_iff]
  intro mark hmem
  rw [h mark hmem, ite_self]

/-- A mark shows the accidental of a name, or a natural for a name without one. -/
def AccidentalMark.Shows (mark : AccidentalMark) (n : NoteName) : Prop :=
  mark.accidental = n.accidental.getD .natural

/-- Whatever the strategy, the mark of a selection shows the selected name. -/
theorem Selection.shows_mark {s : Selection} (h : s.accidental = s.note.accidental)
    {strategy : AccidentalStrategy} {mark : AccidentalMark} (hmark : s.mark strategy = some mark) :
    mark.Shows s.note := by
  unfold AccidentalMark.Shows
  rw [← h]
  unfold Selection.mark at hmark
  split at hmark
  · split at hmark <;> cases hmark
    rfl
  · split at hmark
    · cases hmark
      rfl
    · obtain ⟨a, ha, rfl⟩ := Option.map_eq_some_iff.1 hmark
      rw [ha]
      rfl

namespace Resolver

variable {r : Resolver} {m : SpellingMemory} {b : Binding} {mark : AccidentalMark}

theorem shows_fret {fret string : Nat} (h : (r.fret m fret string).2 = .ok b)
    (hmark : b.mark = some mark) : mark.Shows b.key.name := by
  unfold Resolver.fret at h
  split at h
  · cases h
  · rename_i pitch _
    dsimp only at h
    cases hoctave : r.shifted pitch.octave with
    | error cause =>
        rw [hoctave] at h
        cases h
    | ok octave =>
        rw [hoctave] at h
        cases h
        exact Selection.shows_mark (m.accidental_select pitch.name) hmark

theorem shows_letter {p : LetterPitch} {octave : Int} {fret : Fret}
    (h : (r.letter m p octave fret).2 = .ok b) (hmark : b.mark = some mark) :
    mark.Shows b.key.name := by
  unfold Resolver.letter at h
  split at h
  · cases h
  · rename_i name _
    dsimp only at h
    cases hoctave : r.shifted octave with
    | error cause =>
        rw [hoctave] at h
        cases h
    | ok shifted =>
        rw [hoctave] at h
        cases h
        obtain ⟨a, ha, rfl⟩ := Option.map_eq_some_iff.1 hmark
        -- A written natural is left out of the key, and shown.
        show a = name.normalized.accidental.getD .natural
        unfold NoteName.normalized
        rw [ha]
        split
        · rename_i hnatural
          exact Option.some.inj hnatural
        · rw [ha]
          rfl

theorem shows_entry {e : NoteEntry} (h : (r.entry m e).2 = .ok b) (hmark : b.mark = some mark) :
    mark.Shows b.key.name := by
  unfold Resolver.entry at h
  split at h
  · split at h
    · cases h
    · exact shows_letter h hmark
  · split at h
    · exact shows_fret h hmark
    all_goals cases h

end Resolver

namespace ResolvedEntry

/-- The mark of an entry, if it has one, shows how its key is spelled. -/
def MarksItsKey (e : ResolvedEntry) : Prop := ∀ mark, e.mark = some mark → mark.Shows e.key.name

theorem marksItsKey_of_resolve {r : Resolver} {m m' : SpellingMemory} {e : NoteEntry}
    {entry : ResolvedEntry} (h : resolve r m e = (m', .ok entry)) : entry.MarksItsKey := by
  unfold resolve at h
  generalize hattempt : r.entry m e = attempt at h
  obtain ⟨memory, result⟩ := attempt
  cases result with
  | error cause => cases h
  | ok binding =>
      cases hduration : readDuration e with
      | error cause =>
          rw [hduration] at h
          cases h
      | ok duration =>
          rw [hduration] at h
          cases h
          intro mark hmark
          exact Resolver.shows_entry (e := e) (congrArg Prod.snd hattempt) hmark

/-- Every entry of a chord that is resolved has been resolved by itself, in some memory. -/
theorem forall₂_of_resolveAll {r : Resolver} {m m' : SpellingMemory} {chord : List NoteEntry}
    {entries : List ResolvedEntry} (h : resolveAll r m chord = (m', .ok entries)) :
    List.Forall₂ (fun e entry => ∃ n n', resolve r n e = (n', .ok entry)) chord entries := by
  induction chord generalizing m m' entries with
  | nil =>
      cases h
      exact .nil
  | cons e chord ih =>
      simp only [resolveAll] at h
      split at h
      · cases h
      · rename_i hfirst
        split at h
        · cases h
        · rename_i hrest
          cases h
          exact .cons ⟨_, _, hfirst⟩ (ih hrest)

/-- **Marks show their keys.** -/
theorem marksItsKey_of_resolveAll {r : Resolver} {m m' : SpellingMemory} {chord : List NoteEntry}
    {entries : List ResolvedEntry} (h : resolveAll r m chord = (m', .ok entries)) :
    ∀ entry ∈ entries, entry.MarksItsKey := by
  have hall := forall₂_of_resolveAll h
  clear h
  induction hall with
  | nil => exact List.forall_mem_nil _
  | cons hfirst _ ih =>
      obtain ⟨_, _, hfirst⟩ := hfirst
      exact List.forall_mem_cons.2 ⟨marksItsKey_of_resolve hfirst, ih⟩

theorem length_of_resolveAll {r : Resolver} {m m' : SpellingMemory} {chord : List NoteEntry}
    {entries : List ResolvedEntry} (h : resolveAll r m chord = (m', .ok entries)) :
    entries.length = chord.length := (forall₂_of_resolveAll h).length_eq.symm

end ResolvedEntry

namespace Chord

/-! ## Marks of slots -/

/-- What a slot draws are accidentals at its keys, which are counted from `start`. -/
theorem mem_accidentalMarks {entries : List ResolvedEntry} {start : Nat} {mark : Attached}
    (h : mark ∈ accidentalMarks entries start) :
    start ≤ mark.index ∧ mark.index < start + entries.length ∧
      ∃ a cautionary, mark.modifier = .accidental a cautionary := by
  induction entries generalizing start with
  | nil => cases h
  | cons e entries ih =>
      have later (h : mark ∈ accidentalMarks entries (start + 1)) :
          start ≤ mark.index ∧ mark.index < start + (e :: entries).length ∧
            ∃ a cautionary, mark.modifier = .accidental a cautionary := by
        obtain ⟨hstart, hstop, haccidental⟩ := ih h
        exact ⟨by omega, by rw [List.length_cons]; omega, haccidental⟩
      rw [accidentalMarks] at h
      split at h
      · rcases List.mem_cons.1 h with rfl | h
        · exact ⟨Nat.le_refl _, by simp, _, _, rfl⟩
        · exact later h
      · exact later h

theorem accidentalsAt_accidentalMarks_of_lt (entries : List ResolvedEntry) {start key : Nat}
    (h : key < start) : accidentalsAt (accidentalMarks entries start) key = [] := by
  rw [accidentalsAt, List.filterMap_eq_nil_iff]
  intro mark hmem
  have hle := (mem_accidentalMarks hmem).1
  rw [if_neg (by omega)]

/-- **At a key stands the mark of its entry**, and nothing else. -/
theorem accidentalsAt_accidentalMarks (entries : List ResolvedEntry) (start i : Nat) :
    accidentalsAt (accidentalMarks entries start) (start + i) =
      ((entries[i]?).bind (·.mark)).toList := by
  induction entries generalizing start i with
  | nil => rfl
  | cons e entries ih =>
      cases i with
      | zero =>
          have hrest := accidentalsAt_accidentalMarks_of_lt entries (Nat.lt_succ_self start)
          rw [accidentalMarks, Nat.add_zero]
          cases hmark : e.mark with
          | none => simpa [hmark] using hrest
          | some mark =>
              show accidentalsAt ([_] ++ accidentalMarks entries (start + 1)) start = _
              rw [accidentalsAt_append, hrest]
              simp [accidentalsAt, Modifier.accidental?, hmark]
      | succ i =>
          have hkey : start + (i + 1) = start + 1 + i := by omega
          rw [accidentalMarks, hkey, List.getElem?_cons_succ, ← ih (start + 1)]
          split
          · -- The first mark stands at an earlier key.
            show accidentalsAt ([_] ++ accidentalMarks entries (start + 1)) (start + 1 + i) = _
            rw [accidentalsAt_append]
            simp [accidentalsAt, show start ≠ start + 1 + i by omega]
          · rfl

/-! ## Places have no gap -/

theorem length_places (string : Option Nat) (next : Nat) (entries : List NoteEntry) :
    (places string next entries).length = entries.length := by
  induction entries generalizing string next with
  | nil => rfl
  | cons e entries ih => simp [places, ih]

theorem length_placesOf (chord : List NoteEntry) : (placesOf chord).length = chord.length := by
  cases chord with
  | nil => rfl
  | cons e entries => exact length_places e.string 0 (e :: entries)

/-- Below a place there are only places that are taken, or that were taken before. -/
theorem mem_places_of_lt {string : Option Nat} {next : Nat} {entries : List NoteEntry} {p q : Nat}
    (hp : p ∈ places string next entries) (hq : q < p) :
    q ∈ places string next entries ∨ q < next := by
  induction entries generalizing string next with
  | nil => cases hp
  | cons e entries ih =>
      simp only [places, List.mem_cons] at hp ⊢
      generalize hplace : (if e.letterPitch.isSome || e.string != string then 0 else next) = place
        at hp ⊢
      -- A place is 0 or the next one, so what is missing below it was taken before.
      have hle : place ≤ next := by
        rw [← hplace]
        split <;> omega
      rcases hp with rfl | hp
      · right
        omega
      · rcases ih hp with h | h
        · exact .inl (.inr h)
        · rcases Nat.lt_succ_iff_lt_or_eq.1 h with h | rfl
          · right
            omega
          · exact .inl (.inl rfl)

theorem mem_placesOf_of_lt {chord : List NoteEntry} {p q : Nat} (hp : p ∈ placesOf chord)
    (hq : q < p) : q ∈ placesOf chord := by
  cases chord with
  | nil => cases hp
  | cons e entries =>
      rcases mem_places_of_lt hp hq with h | h
      · exact h
      · cases h

/-! ## Slots are not empty -/

theorem exists_le_of_lt_count {places : List Nat} {count q : Nat}
    (h : q < places.foldl (fun count place => max count (place + 1)) count) :
    q < count ∨ ∃ p ∈ places, q ≤ p := by
  induction places generalizing count with
  | nil => exact .inl h
  | cons p places ih =>
      rcases ih h with h | ⟨p', hp', hle⟩
      · have hmax : q < max count (p + 1) := h
        rcases Nat.lt_or_ge q count with hq | hq
        · exact .inl hq
        · exact .inr ⟨p, by simp, by omega⟩
      · exact .inr ⟨p', List.mem_cons_of_mem p hp', hle⟩

theorem mem_of_mem_slots {places : List Nat} {entries slot : List ResolvedEntry}
    (h : slot ∈ slots places entries) :
    ∃ q, slot = entriesAt q (places.zip entries) ∧ ∃ p ∈ places, q ≤ p := by
  simp only [slots, List.mem_map, List.mem_range] at h
  obtain ⟨q, hq, rfl⟩ := h
  rcases exists_le_of_lt_count hq with h | h
  · cases h
  · exact ⟨q, rfl, h⟩

theorem mem_of_mem_entriesAt {places : List Nat} {entries : List ResolvedEntry} {q : Nat}
    {e : ResolvedEntry} (h : e ∈ entriesAt q (places.zip entries)) : e ∈ entries := by
  obtain ⟨pair, hpair, rfl⟩ := List.mem_map.1 h
  exact (List.of_mem_zip (List.mem_filter.1 hpair).1).2

theorem entriesAt_ne_nil {places : List Nat} {entries : List ResolvedEntry} {q : Nat}
    (hlen : entries.length = places.length) (hq : q ∈ places) :
    entriesAt q (places.zip entries) ≠ [] := by
  obtain ⟨i, hi, rfl⟩ := List.mem_iff_getElem.1 hq
  have hi' : i < entries.length := by omega
  have hmem : (places[i], entries[i]) ∈ places.zip entries := by
    rw [List.mem_iff_getElem]
    exact ⟨i, by simp [hlen, hi], by simp⟩
  intro hnil
  rw [entriesAt, List.map_eq_nil_iff, List.filter_eq_nil_iff] at hnil
  simpa using hnil _ hmem

theorem ne_nil_of_mem_slots {chord : List NoteEntry} {entries slot : List ResolvedEntry}
    (hlen : entries.length = chord.length) (h : slot ∈ slots (placesOf chord) entries) :
    slot ≠ [] := by
  obtain ⟨q, rfl, p, hp, hle⟩ := mem_of_mem_slots h
  refine entriesAt_ne_nil (hlen.trans (length_placesOf chord).symm) ?_
  rcases Nat.lt_or_eq_of_le hle with hlt | rfl
  · exact mem_placesOf_of_lt hp hlt
  · exact hp

end Chord

end Tablature
