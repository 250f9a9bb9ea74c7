/-
# Tablature.Duration — note values and exact ticks.

Time is counted in ticks, exact rational numbers, so that tuplets add up without rounding. A
duration code is a note value, an optional `d` for the dot and an optional `S` for slashed note
heads.
-/
import Tablature.Fault
import Tablature.Text.Blank

namespace Tablature

/-- An exact amount of time. -/
abbrev Ticks := Rat

namespace Ticks

/-- Amounts of time one after the other. -/
def sum (amounts : List Ticks) : Ticks := amounts.foldr (· + ·) 0

@[simp] theorem sum_nil : sum [] = 0 := rfl

@[simp] theorem sum_cons (amount : Ticks) (amounts : List Ticks) :
    sum (amount :: amounts) = amount + sum amounts := rfl

theorem sum_append (earlier later : List Ticks) :
    sum (earlier ++ later) = sum earlier + sum later := by
  induction earlier with
  | nil => exact (Rat.zero_add _).symm
  | cons amount earlier ih => rw [List.cons_append, sum_cons, sum_cons, ih, Rat.add_assoc]

theorem sum_singleton (amount : Ticks) : sum [amount] = amount := Rat.add_zero amount

/-- The longer one of two amounts of time. -/
def longer (first second : Ticks) : Ticks := if first ≤ second then second else first

theorem le_longer_left (first second : Ticks) : first ≤ longer first second := by
  unfold longer
  split
  · assumption
  · exact Rat.le_refl

theorem le_longer_right (first second : Ticks) : second ≤ longer first second := by
  unfold longer
  split
  · exact Rat.le_refl
  · exact Rat.le_of_lt (Rat.not_le.1 ‹_›)

end Ticks

/-- Ticks in a whole note. -/
def ticksPerWhole : Nat := 16384

/-- A note value without its dot. -/
inductive NoteValue
  | whole
  | half
  | quarter
  | eighth
  | sixteenth
  | thirtySecond
  | sixtyFourth
  deriving DecidableEq, Repr

namespace NoteValue

/-- How many of these fill a whole note. -/
def denominator : NoteValue → Nat
  | whole => 1
  | half => 2
  | quarter => 4
  | eighth => 8
  | sixteenth => 16
  | thirtySecond => 32
  | sixtyFourth => 64

/-- The code that is written. -/
def code : NoteValue → List Char
  | whole => ['w']
  | half => ['h']
  | quarter => ['q']
  | eighth => ['8']
  | sixteenth => ['1', '6']
  | thirtySecond => ['3', '2']
  | sixtyFourth => ['6', '4']

/-- The codes that are read: the three longest values may also be numbers. -/
def ofCode? : List Char → Option NoteValue
  | ['w'] | ['1'] => some whole
  | ['h'] | ['2'] => some half
  | ['q'] | ['4'] => some quarter
  | ['8'] => some eighth
  | ['1', '6'] => some sixteenth
  | ['3', '2'] => some thirtySecond
  | ['6', '4'] => some sixtyFourth
  | _ => none

theorem ofCode?_code (v : NoteValue) : ofCode? v.code = some v := by cases v <;> rfl

end NoteValue

/-- A note value with its dot. A slashed note is drawn differently and lasts as long. -/
structure Duration where
  value : NoteValue
  dotted : Bool
  slash : Bool
  deriving DecidableEq, Repr

namespace Duration

/-- The duration in force at first. -/
def quarter : Duration := ⟨.quarter, false, false⟩

/-- The text without one of the given characters at its end, and whether there was one. -/
def withoutLast (isMark : Char → Bool) (code : List Char) : List Char × Bool :=
  match code.reverse with
  | c :: front => if isMark c then (front.reverse, true) else (code, false)
  | [] => (code, false)

/-- The duration that a code without colons stands for. -/
def ofCode? (code : List Char) (dot : Bool) : Option Duration :=
  let (code, slash) := withoutLast (fun c => c == 'S' || c == 's') code
  let (code, dotted) := withoutLast (· == 'd') code
  (NoteValue.ofCode? code).map fun value => ⟨value, dotted || dot, slash⟩

/-- Reads the first word of a text as a duration code, colons in front of it left out. The flag
forces the dot. -/
def read (text : String) (dot : Bool) : Except Cause Duration :=
  match ofCode? ((Text.firstWord text.toList).dropWhile (· == ':')) dot with
  | some d => .ok d
  | none => .error (.badDuration text)

/-- A duration as it is written. -/
def text (d : Duration) : List Char :=
  d.value.code ++ (if d.dotted then ['d'] else []) ++ (if d.slash then ['S'] else [])

/-- A duration as a string. -/
def toText (d : Duration) : String := String.ofList d.text

/-- How long the duration lasts; a dot adds one half. -/
def ticks (d : Duration) : Ticks :=
  let base : Ticks := (ticksPerWhole : Ticks) / (d.value.denominator : Ticks)
  if d.dotted then base * (3 / 2) else base

end Duration

end Tablature
