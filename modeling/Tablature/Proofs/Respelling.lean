/-
# Tablature.Proofs.Respelling — the pitch that a respelled key is engraved at.

A fret sounds at the height of its string plus the fret. Its key may be engraved with another name
of the same pitch class, and then with another octave: octaves begin between B and C. Only one of
all names is put into a wrong octave, the C with two flats in the place of an A sharp
(`height_respelled`). Whether it can be met depends on what the memory holds: the tones of scales,
canonical names of pitch classes, and the names of the pitch letters that were written
(`holds_follow`). No scale has this name, so it must have been written.
-/
import Tablature.Proofs.Learning

namespace Tablature

/-! ## The names in a memory -/

/-- The names that a memory can hold after it was taught some names: these, without a written
natural, and the tones of a scale. -/
inductive NoteName.Known (taught : NoteName → Prop) : NoteName → Prop
  | written {n : NoteName} (h : taught n) : Known taught n.normalized
  | tone {key : String} {k : KeySignature} {names : List NoteName} {n : NoteName}
      (hread : KeySignature.read key = .ok k) (hspelled : k.spelledTones = .ok names)
      (hn : n ∈ names) : Known taught n

namespace SpellingMemory

/-- **What a memory holds**: under a pitch class stands a known name of this class. -/
structure Holds (taught : NoteName → Prop) (m : SpellingMemory) : Prop where
  byClass : ∀ v n, m.byClass v = some n → n.pitchClass = v ∧ n.Known taught
  ofKey : ∀ v n, m.ofKey v = some n → n.pitchClass = v ∧ n.Known taught

theorem classesOf_eq_some {names : List NoteName} {v : PitchClass} {n : NoteName}
    (h : classesOf names v = some n) : n.pitchClass = v ∧ n ∈ names := by
  revert v n
  unfold classesOf
  refine List.foldlRecOn
    (motive := fun table : PitchClass → Option NoteName =>
      ∀ {v n}, table v = some n → n.pitchClass = v ∧ n ∈ names) names _ ?_ ?_
  · intro v n h
    cases h
  intro table ih name hname v n h
  by_cases hv : v = name.pitchClass
  · rw [hv, replaceAt_same] at h
    cases h
    exact ⟨hv.symm, hname⟩
  · rw [replaceAt_of_ne _ hv] at h
    exact ih h

namespace Holds

variable {taught : NoteName → Prop} {m m' : SpellingMemory}

theorem ofScale {key : String} {k : KeySignature} {names : List NoteName}
    (hread : KeySignature.read key = .ok k) (hspelled : k.spelledTones = .ok names)
    (text : String) : (SpellingMemory.ofScale text names).Holds taught := by
  have hall (v : PitchClass) (n : NoteName) (h : classesOf names v = some n) :
      n.pitchClass = v ∧ n.Known taught := by
    obtain ⟨hclass, hn⟩ := classesOf_eq_some h
    exact ⟨hclass, .tone hread hspelled hn⟩
  exact ⟨hall, hall⟩

theorem cMajor : SpellingMemory.cMajor.Holds taught := by
  have hread : KeySignature.read "C" = .ok ⟨⟨.c, none⟩, false⟩ := by decide
  have hspelled : KeySignature.spelledTones ⟨⟨.c, none⟩, false⟩ =
      .ok (Letter.all.map NoteName.natural) := by decide
  exact ofScale hread hspelled "C"

theorem forKey {key : String} (h : SpellingMemory.forKey key = .ok m) : m.Holds taught := by
  unfold SpellingMemory.forKey at h
  split at h
  · cases h
  · rename_i k hread
    split at h
    · cases h
    · rename_i names hspelled
      cases h
      exact ofScale hread hspelled key

theorem setKey (h : m.Holds taught) (key : String) : (m.setKey key).state.Holds taught := by
  have hkept : ({ m with key := key } : SpellingMemory).Holds taught := ⟨h.byClass, h.ofKey⟩
  show (Outcome.needing (SpellingMemory.forKey key) _ Outcome.done).state.Holds taught
  cases hkey : SpellingMemory.forKey key with
  | error cause => exact hkept
  | ok m' => exact forKey hkey

/-- What a selection gives has the class of what is selected, and is known with it. -/
theorem selected (h : m.Holds taught) {n : NoteName} (hn : taught n) :
    (m.select n).2.note.pitchClass = n.pitchClass ∧ (m.select n).2.note.Known taught := by
  rw [← NoteName.pitchClass_normalized n]
  unfold SpellingMemory.select
  dsimp only
  split
  · exact ⟨rfl, .written hn⟩
  · split
    · exact h.byClass _ _ ‹_›
    · cases hkey : m.ofKey n.normalized.pitchClass with
      | none => exact ⟨rfl, .written hn⟩
      | some name => exact h.ofKey _ _ hkey

theorem select (h : m.Holds taught) {n : NoteName} (hn : taught n) :
    (m.select n).1.Holds taught := by
  have hselected := h.selected hn
  rw [← NoteName.pitchClass_normalized n] at hselected
  unfold SpellingMemory.select at hselected ⊢
  dsimp only at hselected ⊢
  split
  · exact h
  · rw [if_neg ‹_›] at hselected
    split
    · exact h
    · rename_i hnone
      rw [hnone] at hselected
      refine ⟨fun v k hk => ?_, h.ofKey⟩
      dsimp only [assign] at hk
      -- The class of the note gets the selected name, that of the former name loses its own.
      by_cases hv : v = n.normalized.pitchClass
      · rw [hv, replaceAt_same] at hk
        cases hk
        exact ⟨hv ▸ hselected.1, hselected.2⟩
      · rw [replaceAt_of_ne _ hv] at hk
        by_cases hold : v = (m.byLetter n.normalized.letter).pitchClass
        · rw [hold, replaceAt_same] at hk
          cases hk
        · rw [replaceAt_of_ne _ hold] at hk
          exact h.byClass v k hk

/-- One change keeps what a memory holds. -/
theorem change (hchange : Change taught m m') (h : m.Holds taught) : m'.Holds taught := by
  cases hchange with
  | select hn => exact h.select hn
  | setKey key => exact h.setKey key
  | forget => exact cMajor

theorem learns (hlearns : Learns taught m m') (h : m.Holds taught) : m'.Holds taught := by
  induction hlearns with
  | refl => exact h
  | tail _ hchange ih => exact change hchange ih

end Holds

end SpellingMemory

/-! ## Keys -/

/-- The C with two flats. -/
def NoteName.doubleFlatC : NoteName := ⟨.c, some .doubleFlat⟩

namespace KeySignature

/-- A key is a letter with at most one flat or sharp. -/
theorem root_accidental {key : String} {k : KeySignature} (h : read key = .ok k) :
    k.root.accidental ∈ [none, some Accidental.flat, some Accidental.sharp] := by
  unfold read at h
  split at h
  · rename_i k' hchars
    cases h
    unfold ofChars? at hchars
    split at hchars
    · cases hchars
    · split at hchars
      · cases hchars
      · split at hchars
        all_goals
          obtain ⟨minor, -, rfl⟩ := Option.map_eq_some_iff.1 hchars
          simp
  · cases h

theorem doubleFlatC_not_mem {key : String} {k : KeySignature} {names : List NoteName}
    (hread : read key = .ok k) (hspelled : k.spelledTones = .ok names) :
    NoteName.doubleFlatC ∉ names := by
  have hall : ∀ letter ∈ Letter.all,
      ∀ accidental ∈ [none, some Accidental.flat, some Accidental.sharp], ∀ minor : Bool,
      ∀ names ∈ (spelledTones ⟨⟨letter, accidental⟩, minor⟩).toOption,
        NoteName.doubleFlatC ∉ names := by decide
  refine hall _ k.root.letter.mem_all _ (root_accidental hread) k.minor names ?_
  show k.spelledTones.toOption = some names
  rw [hspelled]
  rfl

end KeySignature

/-- No scale teaches a C with two flats, nor does a fret. -/
theorem NoteName.Known.doubleFlatC {taught : NoteName → Prop}
    (h : NoteName.doubleFlatC.Known taught) : taught NoteName.doubleFlatC := by
  generalize hname : NoteName.doubleFlatC = name at h
  cases h with
  | @written n hn =>
      have hsame : n = NoteName.doubleFlatC := by
        unfold normalized at hname
        split at hname
        · exact nomatch congrArg accidental hname
        · exact hname.symm
      exact hsame ▸ hn
  | tone hread hspelled hn =>
      exact absurd (hname ▸ hn) (KeySignature.doubleFlatC_not_mem hread hspelled)

/-! ## Heights -/

theorem Tuning.height_pitchAtHeight (height : Int) :
    (Tuning.pitchAtHeight height).height = height := by
  have hclass : ∀ v : PitchClass, (NoteName.canonical v).rawValue = v.val := by decide
  have hval : ((PitchClass.ofInt height).val : Int) = height % 12 := by
    unfold PitchClass.ofInt
    simp only [Fin.ofNat]
    omega
  show 12 * Int.fdiv height 12 + (NoteName.canonical (PitchClass.ofInt height)).rawValue = height
  rw [hclass, hval, Int.fdiv_eq_ediv_of_nonneg height (by decide)]
  exact Int.mul_ediv_add_emod height 12

namespace Resolver

theorem respelledOctave_eq (octave : Int) (original spelled : Letter) :
    respelledOctave octave original spelled = octave + respelledOctave 0 original spelled := by
  unfold respelledOctave
  split
  · omega
  · split <;> omega

/-- **Where a name is engraved in the place of the canonical one of its class**: at the same height,
or else it is the C with two flats and an octave too low. -/
theorem height_respelled (octave : Int) (n : NoteName) :
    (⟨n, respelledOctave octave (NoteName.canonical n.pitchClass).letter n.letter⟩ : Pitch).height =
      (⟨NoteName.canonical n.pitchClass, octave⟩ : Pitch).height -
        if n = NoteName.doubleFlatC then 12 else 0 := by
  have hraw :
      12 * respelledOctave 0 (NoteName.canonical n.pitchClass).letter n.letter + n.rawValue =
      (NoteName.canonical n.pitchClass).rawValue - if n = NoteName.doubleFlatC then 12 else 0 := by
    obtain ⟨letter, _ | accidental⟩ := n
    · cases letter <;> decide
    · cases accidental <;> cases letter <;> decide
  rw [respelledOctave_eq]
  unfold Pitch.height
  dsimp only
  omega

/-- A fret is engraved at the height of its string and the fret, except as a C with two flats. -/
theorem height_fret {taught : NoteName → Prop} (hfret : ∀ v, taught (.canonical v)) {r : Resolver}
    {m : SpellingMemory} (hm : m.Holds taught) {fret string : Nat} {b : Binding}
    (hb : (r.fret m fret string).2 = .ok b) :
    ∃ value, r.tuning.openString string = .ok value ∧
      b.key.height = value + fret - (if b.key.name = .doubleFlatC then 12 else 0) ∧
      b.key.name.Known taught := by
  unfold Resolver.fret at hb
  cases hpitch : r.tuning.pitchAt fret string with
  | error cause =>
      rw [hpitch] at hb
      cases hb
  | ok pitch =>
      rw [hpitch] at hb
      unfold Tuning.pitchAt at hpitch
      cases hopen : r.tuning.openString string with
      | error cause =>
          rw [hopen] at hpitch
          cases hpitch
      | ok value =>
          simp only [hopen] at hpitch
          split at hpitch
          · cases hpitch
            -- The name in force is one of the class that the pitch has.
            let v : PitchClass := .ofInt (value + fret)
            obtain ⟨hclass, hknown⟩ := hm.selected (hfret v)
            rw [NoteName.canonical_pitchClass] at hclass
            dsimp only at hb
            cases hoctave : r.shifted (Tuning.pitchAtHeight (value + fret)).octave with
            | error cause =>
                rw [hoctave] at hb
                cases hb
            | ok octave =>
                rw [hoctave] at hb
                cases hb
                have hheight := height_respelled (Int.fdiv (value + fret) 12)
                  (m.select (.canonical v)).2.note
                have hsounds : (⟨.canonical v, Int.fdiv (value + fret) 12⟩ : Pitch).height =
                    value + fret := Tuning.height_pitchAtHeight (value + fret)
                rw [hclass, hsounds] at hheight
                exact ⟨value, rfl, hheight, hknown⟩
          · cases hpitch

end Resolver

/-! ## Frets after any events -/

namespace Session

theorem holds_follow {taught : NoteName → Prop} (hfret : ∀ v, taught (.canonical v))
    {events : List Event} (hletter : ∀ event ∈ events, ∀ n ∈ event.letterNames, taught n)
    {s : Session} (h : s.memory.Holds taught) : (s.follow events).memory.Holds taught := by
  induction events generalizing s with
  | nil => exact h
  | cons event events ih =>
      have hfirst : (s.handle event).state.memory.Holds taught :=
        h.learns (learns_handle hfret s (hletter event List.mem_cons_self))
      exact ih (fun e he => hletter e (List.mem_cons_of_mem event he)) hfirst

/-- **Where respelling moves a note.** After any events, a fret that can be resolved is engraved at
the height of its open string plus the fret unless it is engraved as a C with two flats. Then it
stands an octave too low, and some event has written this name with a pitch letter. -/
theorem height_resolveFret_iff (setup : PageSetup) (events : List Event) {fret string : Nat}
    {b : Binding}
    (hb : (((Session.start setup).follow events).resolveFret fret string).2 = .ok b) :
    ∃ value, ((Session.start setup).follow events).tuning.openString string = .ok value ∧
      (b.key.height = value + fret ↔ b.key.name ≠ .doubleFlatC) ∧
      (b.key.name = .doubleFlatC → b.key.height = value + fret - 12 ∧
        ∃ event ∈ events, NoteName.doubleFlatC ∈ event.letterNames) := by
  let taught (n : NoteName) : Prop :=
    (∃ v, n = .canonical v) ∨ ∃ event ∈ events, n ∈ event.letterNames
  have hfret (v : PitchClass) : taught (.canonical v) := .inl ⟨v, rfl⟩
  have hmemory : ((Session.start setup).follow events).memory.Holds taught :=
    holds_follow hfret (fun event hevent n hn => .inr ⟨event, hevent, hn⟩) .cMajor
  obtain ⟨value, hopen, hheight, hknown⟩ := Resolver.height_fret hfret hmemory hb
  refine ⟨value, hopen, ?_, fun hname => ?_⟩
  · split at hheight
    · rename_i hname
      exact ⟨fun h => by omega, fun h => absurd hname h⟩
    · rename_i hname
      exact ⟨fun _ => hname, fun _ => by omega⟩
  · rw [if_pos hname] at hheight
    rw [hname] at hknown
    refine ⟨hheight, ?_⟩
    have hcanonical : ∀ v, NoteName.doubleFlatC ≠ .canonical v := by decide
    rcases hknown.doubleFlatC with ⟨v, hv⟩ | hwritten
    · exact absurd hv (hcanonical v)
    · exact hwritten

/-- In C sharp major the first fret of the B string is engraved as a B sharp, an octave lower. -/
theorem height_resolveFret_bSharp :
    let s := (Session.start .standard).follow
      [.stave { StaveDeclaration.defaults .implicit with key := "C#" }]
    ∃ b, (s.resolveFret 1 2).2 = .ok b ∧ b.key = ⟨⟨.b, some .sharp⟩, 4⟩ ∧
      b.key.height = 59 + (1 : Nat) := by
  intro s
  let b : Binding :=
    { key := ⟨⟨.b, some .sharp⟩, 4⟩
      playNote := ⟨⟨.c, none⟩, 5⟩
      mark := none
      fret := .number 1 }
  have hb : (s.resolveFret 1 2).2 = .ok b := by decide +kernel
  obtain ⟨value, hopen, hiff, -⟩ := height_resolveFret_iff .standard _ hb
  have hvalue : s.tuning.openString 2 = .ok 59 := by decide +kernel
  cases hopen.symm.trans hvalue
  exact ⟨b, hb, rfl, hiff.2 (by decide)⟩

/-- A stave, and on it a C with two flats written as a pitch letter. -/
def writtenDoubleFlat : List Event :=
  [.stave (.defaults .implicit),
    .note
      { time := none, dot := false, fret := none, string := none
        letterPitch := some { key := "C", accidental := some "bb", accidentalType := none }
        octave := some 4, articulation := none, decorator := none }]

/-- The third fret of the G string, a B flat at 58, is then engraved at 46. -/
theorem height_resolveFret_writtenDoubleFlat :
    let s := (Session.start .standard).follow writtenDoubleFlat
    ∃ b, (s.resolveFret 3 3).2 = .ok b ∧ s.tuning.openString 3 = .ok 55 ∧
      b.key.height = 46 ∧ b.key.height ≠ 55 + (3 : Nat) := by
  intro s
  let b : Binding :=
    { key := ⟨.doubleFlatC, 4⟩
      playNote := ⟨⟨.a, some .sharp⟩, 4⟩
      mark := none
      fret := .number 3 }
  have hb : (s.resolveFret 3 3).2 = .ok b := by decide +kernel
  have hvalue : s.tuning.openString 3 = .ok 55 := by decide +kernel
  exact ⟨b, hb, hvalue, by decide, by decide⟩

end Session

end Tablature
