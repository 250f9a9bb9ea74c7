/-
# Tablature.Proofs.Spelled — what the frets of a chord are spelled as.

The entries of a chord of frets are resolved one after the other, and each of them selects the
canonical name of its pitch. So the memory after a chord has spelled the classes of its frets, or,
if an entry cannot be resolved, those of some frets before it; and when all entries are resolved,
they are written as the memory spells them (`resolveAll_spells`).
-/
import Tablature.Proofs.ChordOrder
import Tablature.Proofs.Reading

namespace Tablature

/-! ## Frets -/

/-- The pitch class of a fret on a string: the open string and so many semitones more. -/
def TabPosition.pitchClass? (t : Tuning) (p : TabPosition) : Option PitchClass :=
  match p.fret, t.openString p.string with
  | .number fret, .ok value => some (.ofInt (value + fret))
  | _, _ => none

/-- Where an entry stands on tablature. -/
def NoteEntry.position (e : NoteEntry) : TabPosition := ⟨e.fret.getD .muted, e.string.getD 0⟩

/-- What a resolved entry writes at its key. -/
def ResolvedEntry.written (e : ResolvedEntry) : Written :=
  (e.key.name.letter, e.mark.map (·.accidental))

/-! ## One entry -/

section Entry

variable {r : Resolver} {m : SpellingMemory}

theorem fret_spells (hstandard : r.strategy = .standard) (fret string : Nat) :
    ∃ classes, (r.fret m fret string).1 = (m.spell classes).1 ∧
      ∀ b, (r.fret m fret string).2 = .ok b →
        [(b.key.name.letter, b.mark.map (·.accidental))] = (m.spell classes).2 ∧
        b.fret = .number fret ∧
        [TabPosition.pitchClass? r.tuning ⟨.number fret, string⟩] = classes.map some := by
  rw [Resolver.fret]
  cases hpitch : r.tuning.pitchAt fret string with
  | error cause => exact ⟨[], rfl, fun b hb => nomatch hb⟩
  | ok pitch =>
      unfold Tuning.pitchAt at hpitch
      cases hopen : r.tuning.openString string with
      | error cause =>
          rw [hopen] at hpitch
          cases hpitch
      | ok value =>
          simp only [hopen] at hpitch
          split at hpitch
          · cases hpitch
            -- The name is selected before the octave is shifted: the class counts even if
            -- the shift is refused.
            refine ⟨[.ofInt (value + fret)], rfl, fun b hb => ?_⟩
            have hclass : TabPosition.pitchClass? r.tuning ⟨.number fret, string⟩ =
                some (.ofInt (value + fret)) := by
              simp only [TabPosition.pitchClass?, hopen]
            dsimp only at hb
            cases hoctave : r.shifted (Tuning.pitchAtHeight (value + fret)).octave with
            | error cause =>
                rw [hoctave] at hb
                cases hb
            | ok octave =>
                rw [hoctave, hstandard] at hb
                cases hb
                exact ⟨rfl, rfl, by rw [hclass]; rfl⟩
          · cases hpitch

theorem entry_spells (hstandard : r.strategy = .standard) {e : NoteEntry} {string : Nat}
    (hfret : e.IsFretOn string) :
    ∃ classes, (r.entry m e).1 = (m.spell classes).1 ∧
      ∀ b, (r.entry m e).2 = .ok b →
        [(b.key.name.letter, b.mark.map (·.accidental))] = (m.spell classes).2 ∧
        b.fret = e.fret.getD .muted ∧
        [e.position.pitchClass? r.tuning] = classes.map some := by
  obtain ⟨hletter, hsome, hstring⟩ := hfret
  rw [Resolver.entry, NoteEntry.position, hletter, hstring]
  cases hfret : e.fret with
  | none =>
      rw [hfret] at hsome
      cases hsome
  | some fret =>
      cases fret with
      | muted => exact ⟨[], rfl, fun b hb => nomatch hb⟩
      | number n => exact fret_spells hstandard n string

theorem resolve_spells (hstandard : r.strategy = .standard) {e : NoteEntry} {string : Nat}
    (hfret : e.IsFretOn string) :
    ∃ classes, (ResolvedEntry.resolve r m e).1 = (m.spell classes).1 ∧
      ∀ entry, (ResolvedEntry.resolve r m e).2 = .ok entry →
        [entry.written] = (m.spell classes).2 ∧ entry.position = e.position ∧
        [e.position.pitchClass? r.tuning] = classes.map some := by
  obtain ⟨classes, hmemory, hbinding⟩ := entry_spells (m := m) hstandard hfret
  refine ⟨classes, ?_⟩
  unfold ResolvedEntry.resolve
  generalize r.entry m e = attempt at hmemory hbinding
  obtain ⟨memory, binding⟩ := attempt
  cases binding with
  | error cause => exact ⟨hmemory, fun entry hentry => nomatch hentry⟩
  | ok b =>
      refine ⟨hmemory, fun entry hentry => ?_⟩
      obtain ⟨hwritten, hfretted, hclasses⟩ := hbinding b rfl
      cases hduration : ResolvedEntry.readDuration e with
      | error cause =>
          rw [hduration] at hentry
          cases hentry
      | ok duration =>
          rw [hduration] at hentry
          cases hentry
          refine ⟨hwritten, ?_, hclasses⟩
          show (⟨b.fret, e.string.getD 0⟩ : TabPosition) = e.position
          rw [hfretted]
          rfl

end Entry

/-! ## All entries of a chord -/

section Entries

variable {r : Resolver}

/-- **A chord of frets is spelled as its classes are.** -/
theorem resolveAll_spells (hstandard : r.strategy = .standard) {chord : List NoteEntry}
    {strings : List Nat} (hfrets : List.Forall₂ NoteEntry.IsFretOn chord strings)
    (m : SpellingMemory) :
    ∃ classes, (ResolvedEntry.resolveAll r m chord).1 = (m.spell classes).1 ∧
      ∀ entries, (ResolvedEntry.resolveAll r m chord).2 = .ok entries →
        entries.map ResolvedEntry.written = (m.spell classes).2 ∧
        entries.map (·.position) = chord.map NoteEntry.position ∧
        chord.map (·.position.pitchClass? r.tuning) = classes.map some := by
  -- Along the entries the classes add up; the first refusal ends both the chord and the list.
  induction hfrets generalizing m with
  | nil =>
      refine ⟨[], rfl, fun entries hentries => ?_⟩
      cases hentries
      exact ⟨rfl, rfl, rfl⟩
  | @cons e string chord strings hfret _ ih =>
      obtain ⟨first, hfirst, hwritten⟩ := resolve_spells (m := m) hstandard hfret
      rw [ResolvedEntry.resolveAll]
      generalize ResolvedEntry.resolve r m e = attempt at hfirst hwritten
      obtain ⟨memory, result⟩ := attempt
      obtain rfl : memory = (m.spell first).1 := hfirst
      cases result with
      | error cause => exact ⟨first, rfl, fun entries hentries => by cases hentries⟩
      | ok entry =>
          obtain ⟨rest, hrest, hwritten'⟩ := ih (m.spell first).1
          obtain ⟨hkey, hposition, hclass⟩ := hwritten entry rfl
          refine ⟨first ++ rest, ?_⟩
          rw [SpellingMemory.spell_append]
          dsimp only
          generalize ResolvedEntry.resolveAll r (m.spell first).1 chord = attempt at hrest hwritten'
          obtain ⟨memory, result⟩ := attempt
          obtain rfl : memory = ((m.spell first).1.spell rest).1 := hrest
          cases result with
          | error cause => exact ⟨rfl, fun entries hentries => by cases hentries⟩
          | ok others =>
              obtain ⟨hkeys, hpositions, hclasses⟩ := hwritten' others rfl
              refine ⟨rfl, fun entries hentries => ?_⟩
              cases hentries
              refine ⟨?_, ?_, ?_⟩
              · rw [List.map_cons, hkeys, ← hkey]
                rfl
              · rw [List.map_cons, List.map_cons, hposition, hpositions]
              · rw [List.map_cons, List.map_append, hclasses, ← hclass]
                rfl

end Entries

end Tablature
