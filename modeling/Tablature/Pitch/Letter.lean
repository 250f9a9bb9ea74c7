/-
# Tablature.Pitch.Letter — the seven letters of the diatonic scale.

Letters count from C, the first letter of an octave. Each has a place in the scale and a height in
semitones above C.
-/
namespace Tablature

/-- A letter of the diatonic scale. -/
inductive Letter
  | c
  | d
  | e
  | f
  | g
  | a
  | b
  deriving DecidableEq, Repr, Inhabited

namespace Letter

/-- The letters upwards from C. -/
def all : List Letter := [c, d, e, f, g, a, b]

/-- The place of a letter in the scale, C being zero. -/
def index : Letter → Nat
  | c => 0
  | d => 1
  | e => 2
  | f => 3
  | g => 4
  | a => 5
  | b => 6

/-- Semitones above C. -/
def semitones : Letter → Int
  | c => 0
  | d => 2
  | e => 4
  | f => 5
  | g => 7
  | a => 9
  | b => 11

/-- The letter at a place of the scale, counted round. -/
def ofIndex (i : Nat) : Letter :=
  match i % 7 with
  | 0 => c
  | 1 => d
  | 2 => e
  | 3 => f
  | 4 => g
  | 5 => a
  | _ => b

/-- The letter that many steps of the scale higher, counted round. -/
def step (l : Letter) (steps : Nat) : Letter := ofIndex (l.index + steps)

/-- A letter as it is written. -/
def char : Letter → Char
  | c => 'c'
  | d => 'd'
  | e => 'e'
  | f => 'f'
  | g => 'g'
  | a => 'a'
  | b => 'b'

/-- The letter that a character stands for, small or capital. -/
def ofChar? (char : Char) : Option Letter :=
  match char.toLower with
  | 'c' => some c
  | 'd' => some d
  | 'e' => some e
  | 'f' => some f
  | 'g' => some g
  | 'a' => some a
  | 'b' => some b
  | _ => none

theorem mem_all (l : Letter) : l ∈ all := by cases l <;> decide

theorem ofChar?_char (l : Letter) : ofChar? l.char = some l := by cases l <;> rfl

end Letter

end Tablature
