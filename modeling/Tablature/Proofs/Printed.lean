/-
# Tablature.Proofs.Printed — music is read back from how it is printed.

A pitch, a fret and a time signature are printed in one way each, in small letters and without
blanks. The texts look ambiguous: `bb` is a B flat and `bbb` a B with two flats. But the first
character of a name is always its letter, and no name has the stroke in it that comes before the
octave. So what is printed is read back exactly if its numbers fit in 32 bits, and pitches printed
with commas between them are a tuning with these open strings: no tuning is named with a stroke, so
the list is never taken for a name (`printed_music_reads_back`).
-/
import Tablature.Meter
import Tablature.Proofs.Fingerings
import Tablature.Proofs.RoundTrip

namespace Tablature

/-! ## Numbers that fit -/

/-- The octave of a pitch fits. -/
def Pitch.Fits (p : Pitch) : Prop := FitsInt32 p.octave

/-- The numbers of a time signature fit, and none of them is zero. -/
def TimeSignature.Fits : TimeSignature → Prop
  | numeric beats beatValue =>
      (0 < beats ∧ FitsNat32 beats) ∧ (0 < beatValue ∧ FitsNat32 beatValue)
  | _ => True

/-! ## Numerals -/

namespace Text.Numeral

theorem mem_ofInt {n : Int} {c : Char} (h : c ∈ ofInt n) : c = '-' ∨ c.isDigit := by
  cases n with
  | ofNat n => exact .inr (isDigit_of_mem_digits h)
  | negSucc n =>
      rcases List.mem_cons.1 h with rfl | hdigit
      · exact .inl rfl
      · exact .inr (isDigit_of_mem_digits hdigit)

theorem isBlank_of_mem_ofInt {n : Int} {c : Char} (h : c ∈ ofInt n) : isBlank c = false := by
  rcases mem_ofInt h with rfl | hdigit
  · decide
  · exact isBlank_of_isDigit hdigit

theorem isBlank_of_mem_digits {n : Nat} {c : Char} (h : c ∈ digits n) : isBlank c = false :=
  isBlank_of_isDigit (isDigit_of_mem_digits h)

theorem trim_ofInt (n : Int) : trim (ofInt n) = ofInt n :=
  trim_eq_self fun _ hc => isBlank_of_mem_ofInt hc

theorem trim_digits (n : Nat) : trim (digits n) = digits n :=
  trim_eq_self fun _ hc => isBlank_of_mem_digits hc

/-- A numeral of a natural number is no numeral with a sign. -/
theorem readInt_digits (bound n : Nat) :
    readInt bound (digits n) = (readNat bound (digits n)).map Int.ofNat := by
  unfold readInt
  split
  · rename_i rest heq
    have hminus : '-' ∈ digits n := heq ▸ List.mem_cons_self
    cases isDigit_of_mem_digits hminus
  · rfl

/-- An integer is read back exactly within the range. -/
theorem readInt_ofInt (bound : Nat) (n : Int) :
    readInt bound (ofInt n) = if -(bound : Int) ≤ n ∧ n < bound then some n else none := by
  cases n with
  | ofNat n =>
      rw [ofInt, readInt_digits]
      by_cases h : n < bound
      · have hrange : -(bound : Int) ≤ Int.ofNat n ∧ Int.ofNat n < bound := by
          rw [Int.ofNat_eq_natCast]
          omega
        rw [readNat_digits h, if_pos hrange]
        rfl
      · have hrange : ¬ (-(bound : Int) ≤ Int.ofNat n ∧ Int.ofNat n < bound) := by
          rw [Int.ofNat_eq_natCast]
          omega
        rw [readNat, withoutPlus_digits, readDigits_digits, if_neg hrange,
          Option.filter_some_neg (by simpa using h)]
        rfl
  | negSucc n =>
      show ((readDigits (digits (n + 1))).filter (· ≤ bound)).map (fun n => -(n : Int)) = _
      rw [readDigits_digits]
      by_cases h : n + 1 ≤ bound
      · have hrange : -(bound : Int) ≤ Int.negSucc n ∧ Int.negSucc n < bound := by omega
        rw [Option.filter_some_pos (by simpa using h), if_pos hrange]
        rfl
      · have hrange : ¬ (-(bound : Int) ≤ Int.negSucc n ∧ Int.negSucc n < bound) := by omega
        rw [Option.filter_some_neg (by simpa using h), if_neg hrange]
        rfl

theorem readInt32_ofInt_eq_some_iff {n m : Int} :
    readInt32 (ofInt n) = some m ↔ FitsInt32 n ∧ n = m := by
  rw [readInt32, readInt_ofInt, Option.ite_none_right_eq_some, Option.some.injEq]
  exact Iff.rfl

end Text.Numeral

/-! ## Names -/

namespace NoteName

/-- The characters of names. -/
def alphabet : List Char := ['c', 'd', 'e', 'f', 'g', 'a', 'b', 'n', '#']

theorem mem_text {n : NoteName} {c : Char} (h : c ∈ n.text) : c ∈ alphabet := by
  rcases List.mem_cons.1 h with rfl | hsymbol
  · cases n.letter <;> decide
  · cases haccidental : n.accidental with
    | none =>
        rw [haccidental] at hsymbol
        cases hsymbol
    | some a =>
        rw [haccidental] at hsymbol
        have all : a.symbol.toList.all alphabet.contains = true := by cases a <;> decide
        exact List.contains_iff_mem.1 (List.all_eq_true.1 all c hsymbol)

/-- The characters of a name are small, no blanks and no separators. -/
theorem plain_of_mem_text {n : NoteName} {c : Char} (h : c ∈ n.text) :
    Text.isBlank c = false ∧ c.toLower = c ∧ c ≠ '/' ∧ c ≠ ',' := by
  have all : alphabet.all (fun c => decide
      (Text.isBlank c = false ∧ c.toLower = c ∧ c ≠ '/' ∧ c ≠ ',')) = true := by decide
  exact of_decide_eq_true (List.all_eq_true.1 all c (mem_text h))

/-- The first character is the letter, and the others are the accidental. -/
theorem ofChars?_text (n : NoteName) : ofChars? n.text = some n := by
  obtain ⟨letter, accidental⟩ := n
  cases accidental with
  | none =>
      show ofChars? [letter.char] = _
      rw [ofChars?, Letter.ofChar?_char]
  | some a =>
      have hsymbol := Accidental.ofSymbol?_symbol a
      show ofChars? (letter.char :: a.symbol.toList) = _
      rw [ofChars?, Letter.ofChar?_char]
      dsimp only
      split
      · rename_i hempty
        rw [hempty] at hsymbol
        cases hsymbol
      · rw [hsymbol]
        rfl

theorem read_text (n : NoteName) : read (String.ofList n.text) = .ok n := by
  have htrim : Text.trim n.text = n.text :=
    Text.trim_eq_self fun c hc => (plain_of_mem_text hc).1
  have hlower : Text.lower n.text = n.text := by
    refine (List.map_congr_left fun c hc => ?_).trans (List.map_id _)
    exact (plain_of_mem_text hc).2.1
  rw [read, String.toList_ofList, htrim, hlower, ofChars?_text]

end NoteName

/-! ## Pitches -/

namespace Pitch

theorem comma_not_mem_text (p : Pitch) : ',' ∉ p.text := by
  intro h
  rcases List.mem_append.1 h with hname | hoctave
  · exact (NoteName.plain_of_mem_text hname).2.2.2 rfl
  · rcases List.mem_cons.1 hoctave with hstroke | hnumeral
    · cases hstroke
    · rcases Text.Numeral.mem_ofInt hnumeral with hminus | hdigit
      · cases hminus
      · cases hdigit

theorem splitFirst_text (p : Pitch) :
    Text.splitFirst '/' p.text = some (p.name.text, Text.Numeral.ofInt p.octave) := by
  have hstroke : '/' ∉ p.name.text := fun h => (NoteName.plain_of_mem_text h).2.2.1 rfl
  exact Text.splitFirst_append hstroke _

theorem read_text_of_fits {p : Pitch} (h : p.Fits) : read (String.ofList p.text) = .ok p := by
  have hoctave := Text.Numeral.readInt32_ofInt_eq_some_iff.2 ⟨h, rfl⟩
  rw [read, String.toList_ofList, splitFirst_text]
  simp only [Text.Numeral.trim_ofInt, hoctave, NoteName.read_text]

theorem read_text_of_not_fits {p : Pitch} (h : ¬ p.Fits) :
    read (String.ofList p.text) = .error (.badPitchOctave (String.ofList p.text)) := by
  have hoctave : Text.Numeral.readInt32 (Text.Numeral.ofInt p.octave) = none := by
    apply Option.eq_none_iff_forall_ne_some.2
    intro n hn
    exact h (Text.Numeral.readInt32_ofInt_eq_some_iff.1 hn).1
  rw [read, String.toList_ofList, splitFirst_text]
  simp only [Text.Numeral.trim_ofInt, hoctave]

theorem read_toText_iff (p : Pitch) : read p.toText = .ok p ↔ p.Fits := by
  constructor
  · intro hread
    by_contra hfits
    rw [toText, read_text_of_not_fits hfits] at hread
    cases hread
  · exact read_text_of_fits

end Pitch

/-! ## Frets and time signatures -/

theorem Fret.read_toText_iff (f : Fret) : Fret.read f.toText = .ok f ↔ f.Fits :=
  ⟨Fret.fits_of_read, Fret.read_toText⟩

namespace TimeSignature

/-- A part of a time signature is read back exactly if it is positive and fits. -/
theorem readPart_digits_eq_some_iff {n m : Nat} :
    readPart (Text.Numeral.digits n) = some m ↔ (0 < n ∧ FitsNat32 n) ∧ n = m := by
  rw [readPart, Text.Numeral.trim_digits, Text.Numeral.readNat32, Text.Numeral.readNat,
    Text.Numeral.withoutPlus_digits, Text.Numeral.readDigits_digits]
  simp only [Option.filter_eq_some_iff, Option.some.injEq, decide_eq_true_eq]
  constructor
  · rintro ⟨⟨rfl, hbound⟩, hpos⟩
    exact ⟨⟨hpos, hbound⟩, rfl⟩
  · rintro ⟨⟨hpos, hbound⟩, rfl⟩
    exact ⟨⟨rfl, hbound⟩, hpos⟩

theorem trim_text_numeric (beats beatValue : Nat) :
    Text.trim (numeric beats beatValue).text = (numeric beats beatValue).text := by
  apply Text.trim_eq_self
  intro c hc
  rcases List.mem_append.1 hc with hbeats | hrest
  · exact Text.Numeral.isBlank_of_mem_digits hbeats
  · rcases List.mem_cons.1 hrest with rfl | hvalue
    · decide
    · exact Text.Numeral.isBlank_of_mem_digits hvalue

/-- Two numerals with a stroke between them are read as a time signature of two numbers. -/
theorem ofChars?_numeric (beats beatValue : Nat) {t : TimeSignature} :
    ofChars? (numeric beats beatValue).text = some t ↔
      (numeric beats beatValue).Fits ∧ t = numeric beats beatValue := by
  have hstroke : '/' ∈ (numeric beats beatValue).text :=
    List.mem_append_right _ List.mem_cons_self
  have hnot : '/' ∉ Text.Numeral.digits beats :=
    FingerMark.not_mem_of_readDigits (Text.Numeral.readDigits_digits beats) (by decide)
  unfold ofChars?
  rw [trim_text_numeric]
  split
  · rename_i heq
    rw [heq] at hstroke
    simp at hstroke
  · rename_i heq
    rw [heq] at hstroke
    simp at hstroke
  · rw [show (numeric beats beatValue).text =
      Text.Numeral.digits beats ++ '/' :: Text.Numeral.digits beatValue from rfl,
      Text.splitFirst_append hnot]
    dsimp only
    constructor
    · intro hread
      split at hread
      · rename_i b v hb hv
        obtain ⟨hbeats, rfl⟩ := readPart_digits_eq_some_iff.1 hb
        obtain ⟨hvalue, rfl⟩ := readPart_digits_eq_some_iff.1 hv
        cases hread
        exact ⟨⟨hbeats, hvalue⟩, rfl⟩
      · cases hread
    · rintro ⟨⟨hbeats, hvalue⟩, rfl⟩
      rw [readPart_digits_eq_some_iff.2 ⟨hbeats, rfl⟩, readPart_digits_eq_some_iff.2 ⟨hvalue, rfl⟩]

theorem read_toText_iff (t : TimeSignature) : read t.toText = .ok t ↔ t.Fits := by
  cases t with
  | common => exact iff_of_true rfl trivial
  | cutCommon => exact iff_of_true rfl trivial
  | numeric beats beatValue =>
      rw [read, toText, String.toList_ofList]
      constructor
      · intro hread
        split at hread
        · rename_i t ht
          exact ((ofChars?_numeric beats beatValue).1 ht).1
        · cases hread
      · intro hfits
        rw [(ofChars?_numeric beats beatValue).2 ⟨hfits, rfl⟩]

end TimeSignature

/-! ## Tunings -/

namespace Tuning

/-- No tuning is named with a stroke. -/
theorem expand_of_stroke {spec : String} (h : '/' ∈ spec.toList) : expand spec = spec := by
  have named : ∀ entry ∈ Tuning.named, '/' ∉ entry.1.toList := by decide
  have hnone : Tuning.named.find? (·.1 == spec) = none := by
    apply List.find?_eq_none.2
    intro entry hentry heq
    rw [beq_iff_eq] at heq
    exact named entry hentry (heq ▸ h)
  rw [expand, hnone]
  rfl

/-- Open strings are read piece by piece. -/
theorem readStrings_eq_some_iff {pieces : List (List Char)} {strings : List Int} :
    readStrings pieces = some strings ↔
      List.Forall₂ (fun piece value => ∃ p, Pitch.read (String.ofList piece) = .ok p ∧
        p.semitones = value) pieces strings := by
  induction pieces generalizing strings with
  | nil => simp [readStrings, eq_comm]
  | cons piece pieces ih =>
      rw [List.forall₂_cons_left_iff, readStrings]
      constructor
      · intro h
        split at h
        · rename_i p rest hp hrest
          cases h
          exact ⟨p.semitones, rest, ⟨p, hp, rfl⟩, ih.1 hrest, rfl⟩
        · cases h
      · rintro ⟨_, rest, ⟨p, hp, rfl⟩, hrest, rfl⟩
        rw [hp, ih.2 hrest]

theorem toList_intercalate_toText (ps : List Pitch) :
    (",".intercalate (ps.map Pitch.toText)).toList = [','].intercalate (ps.map Pitch.text) := by
  have htexts : (ps.map Pitch.toText).map String.toList = ps.map Pitch.text := by
    rw [List.map_map]
    apply List.map_congr_left
    intro p _
    exact String.toList_ofList
  rw [String.toList_intercalate, htexts]
  rfl

/-- A list of pitches with commas between them falls into the pitches. -/
theorem splitAll_intercalate {ps : List Pitch} (h : ps ≠ []) :
    Text.splitAll ',' ([','].intercalate (ps.map Pitch.text)) = ps.map Pitch.text := by
  rw [Text.splitAll_eq_splitOn]
  apply List.splitOn_intercalate
  · intro piece hpiece
    obtain ⟨p, -, rfl⟩ := List.mem_map.1 hpiece
    exact p.comma_not_mem_text
  · simpa using h

theorem stroke_mem_intercalate {ps : List Pitch} (h : ps ≠ []) :
    '/' ∈ [','].intercalate (ps.map Pitch.text) := by
  cases ps with
  | nil => exact absurd rfl h
  | cons p ps =>
      have hstroke : '/' ∈ p.text := List.mem_append_right _ List.mem_cons_self
      cases ps with
      | nil => simpa using hstroke
      | cons q ps =>
          rw [List.map_cons, List.map_cons, List.intercalate_cons_cons]
          exact List.mem_append_left _ (List.mem_append_left _ hstroke)

/-- **A printed list of pitches is a tuning** exactly if there is a pitch and all octaves fit. -/
theorem read_intercalate_iff (ps : List Pitch) :
    read (",".intercalate (ps.map Pitch.toText)) = .ok ⟨ps.map Pitch.semitones⟩ ↔
      ps ≠ [] ∧ ∀ p ∈ ps, p.Fits := by
  by_cases hne : ps = []
  · -- No pitch leaves one empty piece, which is none.
    subst hne
    exact iff_of_false (by decide) fun h => h.1 rfl
  · have hstrings : readStrings (ps.map Pitch.text) = some (ps.map Pitch.semitones) ↔
        ∀ p ∈ ps, p.Fits := by
      rw [readStrings_eq_some_iff, List.forall₂_map_left_iff, List.forall₂_map_right_iff,
        List.forall₂_same]
      constructor
      · intro hread p hp
        by_contra hfits
        obtain ⟨q, hq, -⟩ := hread p hp
        rw [Pitch.read_text_of_not_fits hfits] at hq
        cases hq
      · intro hfits p hp
        exact ⟨p, Pitch.read_text_of_fits (hfits p hp), rfl⟩
    have hstroke := stroke_mem_intercalate hne
    rw [← toList_intercalate_toText] at hstroke
    rw [read, expand_of_stroke hstroke, toList_intercalate_toText, splitAll_intercalate hne]
    constructor
    · intro hread
      split at hread
      · rename_i strings hsome
        cases hread
        exact ⟨hne, hstrings.1 hsome⟩
      · cases hread
    · rintro ⟨-, hfits⟩
      rw [hstrings.2 hfits]

end Tuning

/-! ## Printed music -/

/-- **Printed music is read back.** A pitch, a fret and a time signature are read from their texts
exactly if their numbers fit in 32 bits, those of a time signature being positive. Pitches with
commas between them are read as the tuning with their heights for open strings, in this order,
exactly if there is one and their octaves fit. -/
theorem printed_music_reads_back :
    (∀ p : Pitch, Pitch.read p.toText = .ok p ↔ p.Fits) ∧
    (∀ f : Fret, Fret.read f.toText = .ok f ↔ f.Fits) ∧
    (∀ t : TimeSignature, TimeSignature.read t.toText = .ok t ↔ t.Fits) ∧
    ∀ ps : List Pitch,
      Tuning.read (",".intercalate (ps.map Pitch.toText)) = .ok ⟨ps.map Pitch.semitones⟩ ↔
        ps ≠ [] ∧ ∀ p ∈ ps, p.Fits :=
  ⟨Pitch.read_toText_iff, Fret.read_toText_iff, TimeSignature.read_toText_iff,
    Tuning.read_intercalate_iff⟩

end Tablature
