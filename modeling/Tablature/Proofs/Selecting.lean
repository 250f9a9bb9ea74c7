/-
# Tablature.Proofs.Selecting — what can be relied on when a note is spelled.

A memory is opened for a key, or for C major, and then used: names are selected, the measure is
started again, the key is changed. Some of these uses fail and leave the tables as they are. After
any of them the entries of both tables by pitch class stand where they belong. So a selected name
sounds like the name that came in, and selecting once more is quiet: the first time has put into
force what the second one finds (`SpellingMemory.select_select`).
-/
import Tablature.Proofs.Respelling

namespace Tablature

namespace SpellingMemory

/-! ## Uses -/

/-- One use of a memory. -/
inductive Use
  | select (name : NoteName)
  /-- A new measure. -/
  | reset
  | setKey (key : String)
  deriving DecidableEq, Repr

/-- A memory after one use, whether it was carried out or refused. -/
def use (m : SpellingMemory) : Use → SpellingMemory
  | .select name => (m.select name).1
  | .reset => m.reset.state
  | .setKey key => (m.setKey key).state

/-- A memory after some uses. -/
def after (m : SpellingMemory) (uses : List Use) : SpellingMemory := uses.foldl use m

/-- One use keeps what a memory holds, if it may be taught any name. -/
theorem Holds.use {m : SpellingMemory} (h : m.Holds fun _ => True) (u : Use) :
    (m.use u).Holds fun _ => True := by
  cases u with
  | select name => exact h.select trivial
  | reset => exact h.setKey m.key
  | setKey key => exact h.setKey key

theorem Holds.after {m : SpellingMemory} (h : m.Holds fun _ => True) (uses : List Use) :
    (m.after uses).Holds fun _ => True := by
  induction uses generalizing m with
  | nil => exact h
  | cons u uses ih => exact ih (h.use u)

/-! ## Selections -/

theorem ofKey_select (m : SpellingMemory) (n : NoteName) : (m.select n).1.ofKey = m.ofKey := by
  unfold SpellingMemory.select
  dsimp only
  split
  · rfl
  · split <;> rfl

/-- The entries that an assignment writes. -/
theorem byLetter_assign (m : SpellingMemory) (letter : Letter) (name : NoteName)
    (place : PitchClass) : (m.assign letter name place).byLetter letter = name := by
  rw [assign]
  exact replaceAt_same m.byLetter letter name

theorem byClass_assign (m : SpellingMemory) (letter : Letter) (name : NoteName)
    (place : PitchClass) : (m.assign letter name place).byClass place = some name := by
  rw [assign]
  exact replaceAt_same _ place (some name)

/-- **Selecting again is quiet**: the same spelling, no mark, and nothing new to remember. -/
theorem select_select (m : SpellingMemory) (n : NoteName) :
    (m.select n).1.select n = ((m.select n).1, { (m.select n).2 with change := false }) := by
  generalize hnote : n.normalized = note
  by_cases hletter : m.byLetter note.letter = note
  · -- In force already: neither selection changes anything.
    have hselect : m.select n = (m, ⟨note, note.accidental, false⟩) := by
      rw [SpellingMemory.select, hnote, if_pos hletter]
    rw [hselect, hselect]
  · cases hclass : m.byClass note.pitchClass with
    | some known =>
        have hselect : m.select n = (m, ⟨known, known.accidental, false⟩) := by
          rw [SpellingMemory.select, hnote, if_neg hletter, hclass]
        rw [hselect, hselect]
    | none =>
        -- The name that is put into force now is found next time, by its letter or by its class.
        let name := (m.ofKey note.pitchClass).getD note
        let m' := m.assign note.letter name note.pitchClass
        have hselect : m.select n = (m', ⟨name, name.accidental, true⟩) := by
          rw [SpellingMemory.select, hnote, if_neg hletter, hclass]
        have hletter' : m'.byLetter note.letter = name := byLetter_assign m _ _ _
        have hclass' : m'.byClass note.pitchClass = some name := byClass_assign m _ _ _
        rw [hselect]
        show m'.select n = (m', ⟨name, name.accidental, false⟩)
        rw [SpellingMemory.select, hnote, hletter', hclass']
        split
        · rename_i hsame
          rw [hsame]
        · rfl

/-- **What can be relied on when a note is spelled.** Open a memory for a key or for C major and use
it in any way, refused uses included. Then what either table holds under a pitch class is a name of
that class; selecting a name gives one of its pitch class with the accidental of that one, and
leaves the table of the key alone; and selecting the same name again at once gives the same note
without a mark and leaves the memory as it is. -/
theorem select_after {opened : SpellingMemory}
    (hopened : opened = cMajor ∨ ∃ key, forKey key = .ok opened) (uses : List Use) :
    let m := opened.after uses
    (∀ v name, m.byClass v = some name → name.pitchClass = v) ∧
    (∀ v name, m.ofKey v = some name → name.pitchClass = v) ∧
    ∀ n,
      (m.select n).2.note.pitchClass = n.pitchClass ∧
      (m.select n).2.accidental = (m.select n).2.note.accidental ∧
      (m.select n).1.ofKey = m.ofKey ∧
      (m.select n).1.select n = ((m.select n).1, { (m.select n).2 with change := false }) := by
  intro m
  have hfirst : opened.Holds fun _ => True := by
    rcases hopened with rfl | ⟨key, hkey⟩
    · exact .cMajor
    · exact .forKey hkey
  have hm : m.Holds fun _ => True := hfirst.after uses
  refine ⟨?_, ?_, ?_⟩
  · intro v name hname
    exact (hm.byClass v name hname).1
  · intro v name hname
    exact (hm.ofKey v name hname).1
  · intro n
    refine ⟨?_, ?_, ?_, ?_⟩
    · exact (hm.selected (n := n) trivial).1
    · exact accidental_select m n
    · exact ofKey_select m n
    · exact select_select m n

/-- In G major, after an F and a key that nobody can read: a G flat is spelled as the F sharp of the
key and needs a mark, and at once again it needs none. -/
theorem select_after_fNatural :
    ∃ opened, forKey "G" = .ok opened ∧
      let m := opened.after [.select ⟨.f, none⟩, .setKey "X#"]
      (m.select ⟨.g, some .flat⟩).2 = ⟨⟨.f, some .sharp⟩, some .sharp, true⟩ ∧
      ((m.select ⟨.g, some .flat⟩).1.select ⟨.g, some .flat⟩).2 =
        ⟨⟨.f, some .sharp⟩, some .sharp, false⟩ := by
  have hopened : forKey "G" = .ok _ := rfl
  refine ⟨_, hopened, ?_⟩
  intro m
  obtain ⟨-, -, hselects⟩ := select_after (.inr ⟨"G", hopened⟩) [.select ⟨.f, none⟩, .setKey "X#"]
  obtain ⟨-, -, -, hagain⟩ := hselects ⟨.g, some .flat⟩
  have hfirst : (m.select ⟨.g, some .flat⟩).2 = ⟨⟨.f, some .sharp⟩, some .sharp, true⟩ := by
    decide +kernel
  refine ⟨hfirst, ?_⟩
  rw [hagain, hfirst]

end SpellingMemory

end Tablature
