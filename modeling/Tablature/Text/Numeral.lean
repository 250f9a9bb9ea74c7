/-
# Tablature.Text.Numeral — decimal numerals of natural numbers and integers.

`digits` writes a natural number, `ofInt` an integer; `readDigits` reads a run of ASCII digits
with any number of zeros in front. The readers of the notation allow one sign in front (`+`
always, `-` for integers) and refuse a number outside the range they are given.
-/
namespace Tablature.Text.Numeral

/-- The character of a digit below ten. -/
def digitChar (d : Nat) : Char := Char.ofNat (0x30 + d)

/-- The value of an ASCII digit. -/
def digitValue (c : Char) : Nat := c.toNat - 0x30

/-- The decimal digits of a number, the most significant first. -/
def digits (n : Nat) : List Char :=
  if n < 10 then [digitChar n] else digits (n / 10) ++ [digitChar (n % 10)]
termination_by n
decreasing_by omega

/-- The numeral of an integer: its digits, after a `-` when it is negative. -/
def ofInt : Int → List Char
  | .ofNat n => digits n
  | .negSucc n => '-' :: digits (n + 1)

/-- The numeral of a natural number as a text. -/
def natText (n : Nat) : String := String.ofList (digits n)

/-- The numeral of an integer as a text. -/
def intText (n : Int) : String := String.ofList (ofInt n)

/-- The value of a run of digits that follows a number already read. -/
def accumulate (start : Nat) (cs : List Char) : Nat :=
  cs.foldl (fun value c => value * 10 + digitValue c) start

/-- The number that a non-empty run of ASCII digits stands for. -/
def readDigits (cs : List Char) : Option Nat :=
  if cs ≠ [] && cs.all Char.isDigit then some (accumulate 0 cs) else none

/-- The text without one `+` at its start. -/
def withoutPlus : List Char → List Char
  | '+' :: rest => rest
  | cs => cs

/-- A natural number below `bound`: digits, with at most one `+` in front. -/
def readNat (bound : Nat) (cs : List Char) : Option Nat :=
  (readDigits (withoutPlus cs)).filter (· < bound)

/-- An integer from `-bound` to `bound - 1`: digits, with at most one sign in front. -/
def readInt (bound : Nat) (cs : List Char) : Option Int :=
  match cs with
  | '-' :: rest => ((readDigits rest).filter (· ≤ bound)).map fun n => -(n : Int)
  | _ => (readNat bound cs).map Int.ofNat

/-- Numbers that fit in 32 bits. -/
def readNat32 (cs : List Char) : Option Nat := readNat (Nat.pow 2 32) cs

/-- Integers that fit in 32 bits with their sign. -/
def readInt32 (cs : List Char) : Option Int := readInt (Nat.pow 2 31) cs

theorem digits_ne_nil (n : Nat) : digits n ≠ [] := by
  rw [digits]; split <;> simp

theorem isDigit_digitChar {d : Nat} (h : d < 10) : (digitChar d).isDigit = true := by
  have all : ∀ e ∈ List.range 10, (digitChar e).isDigit = true := by decide
  exact all d (List.mem_range.2 h)

theorem digitValue_digitChar {d : Nat} (h : d < 10) : digitValue (digitChar d) = d := by
  have all : ∀ e ∈ List.range 10, digitValue (digitChar e) = e := by decide
  exact all d (List.mem_range.2 h)

theorem all_isDigit_digits (n : Nat) : (digits n).all Char.isDigit = true := by
  induction n using digits.induct with
  | case1 n h => rw [digits, if_pos h]; simp [isDigit_digitChar h]
  | case2 n h ih =>
      rw [digits, if_neg h]
      simp [List.all_append, ih, isDigit_digitChar (Nat.mod_lt n (by decide : 0 < 10))]

theorem accumulate_append (start : Nat) (xs ys : List Char) :
    accumulate start (xs ++ ys) = accumulate (accumulate start xs) ys := by
  simp [accumulate]

theorem accumulate_digits (n : Nat) : accumulate 0 (digits n) = n := by
  induction n using digits.induct with
  | case1 n h => rw [digits, if_pos h]; simp [accumulate, digitValue_digitChar h]
  | case2 n h ih =>
      rw [digits, if_neg h, accumulate_append, ih]
      simp only [accumulate, List.foldl_cons, List.foldl_nil,
        digitValue_digitChar (Nat.mod_lt n (by decide : 0 < 10))]
      omega

/-- Reading undoes writing. -/
theorem readDigits_digits (n : Nat) : readDigits (digits n) = some n := by
  simp [readDigits, digits_ne_nil, all_isDigit_digits, accumulate_digits]

theorem isDigit_of_mem_digits {n : Nat} {c : Char} (h : c ∈ digits n) : c.isDigit :=
  List.all_eq_true.1 (all_isDigit_digits n) c h

theorem withoutPlus_digits (n : Nat) : withoutPlus (digits n) = digits n := by
  unfold withoutPlus
  split
  · rename_i rest heq
    have hplus : '+'.isDigit := isDigit_of_mem_digits (n := n) (by simp [heq])
    cases hplus
  · rfl

theorem readNat_digits {bound n : Nat} (h : n < bound) : readNat bound (digits n) = some n := by
  rw [readNat, withoutPlus_digits, readDigits_digits, Option.filter_some_pos (by simpa using h)]

end Tablature.Text.Numeral
