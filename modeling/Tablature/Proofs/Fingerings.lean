/-
# Tablature.Proofs.Fingerings — fingering tokens are read as they are written.

A fingering token is `.fingering/`, the entries with dashes between them, and a point; what follows
the point does not count. `FingerMark.SpelledAs` says which texts stand for an entry: blanks around
it and zeros in front of its number are allowed, everything else is fixed. A token is a fingering
exactly if its pieces spell entries, one each (`Markup.ofChars_eq_fingering_iff`), and a single
piece that spells none makes the whole token wrong. From these two facts follows that the tokens
that are written from entries are read back, and that whatever was read can be written and read
again (`Markup.fingering_round_trip`).
-/
import Tablature.Proofs.Voices

namespace Tablature

/-! ## Cutting and trimming texts -/

namespace Text

variable {separator : Char} {text before after : List Char} {c : Char}

theorem splitAll_eq_splitOn (separator : Char) (text : List Char) :
    splitAll separator text = text.splitOn separator := by
  induction text with
  | nil => rfl
  | cons c text ih =>
      rw [List.splitOn_cons_eq_if_modifyHead, splitAll, ih]
      by_cases hc : c = separator
      · simp [hc]
      · rw [if_neg hc, if_neg (by simpa using hc)]
        split
        · rename_i hnil
          exact absurd hnil (List.splitOn_ne_nil _ _)
        · rename_i heq
          rw [heq]
          rfl

theorem splitFirst_append (h : separator ∉ before) (after : List Char) :
    splitFirst separator (before ++ separator :: after) = some (before, after) := by
  induction before with
  | nil => simp [splitFirst]
  | cons c before ih =>
      obtain ⟨hc, hrest⟩ := not_or.1 (mt List.mem_cons.2 h)
      rw [List.cons_append, splitFirst, if_neg (Ne.symm hc), ih hrest]
      rfl

theorem afterStart?_eq_some_iff {start rest : List Char} :
    afterStart? start text = some rest ↔ text = start ++ rest := by
  constructor
  · intro h
    induction start generalizing text with
    | nil => simpa [afterStart?] using h
    | cons s start ih =>
        cases text with
        | nil => cases h
        | cons c text =>
            rw [afterStart?] at h
            split at h
            · rename_i hc
              rw [hc, ih h, List.cons_append]
            · cases h
  · rintro rfl
    exact afterStart?_append start rest

/-- Nothing is trimmed off a text that has no blank at its ends. -/
theorem trim_eq_self_of_ends (first : ∀ c, text.head? = some c → isBlank c = false)
    (last : ∀ c, text.getLast? = some c → isBlank c = false) : trim text = text := by
  have start (cs : List Char) (h : ∀ c, cs.head? = some c → isBlank c = false) :
      trimStart cs = cs := by
    cases cs with
    | nil => rfl
    | cons c cs => exact List.dropWhile_cons_of_neg (by simp [h c rfl])
  rw [trim, start text first, trimEnd, start _ (by simpa using last), List.reverse_reverse]

/-- A text that has been trimmed does not end in a blank. -/
theorem isBlank_of_getLast?_trim (h : (trim text).getLast? = some c) : isBlank c = false := by
  rw [trim, trimEnd, List.getLast?_reverse] at h
  have hnot := List.head?_dropWhile_not isBlank (trimStart text).reverse
  rw [show List.dropWhile isBlank (trimStart text).reverse = trimStart (trimStart text).reverse
    from rfl, h] at hnot
  simpa using hnot

end Text

/-! ## Entries -/

namespace FingerMark

open Text Text.Numeral

/-- An entry that can be written: its number fits in 64 bits, and its label is not empty, holds no
dash and no point, and does not end in a blank. -/
structure Writable (m : FingerMark) : Prop where
  number : m.note < noteBound
  labelled : m.label.toList ≠ []
  undivided : '-' ∉ m.label.toList ∧ '.' ∉ m.label.toList
  trimmed : ∀ c, m.label.toList.getLast? = some c → isBlank c = false

/-- What follows the number of an entry. -/
def afterNumber (m : FingerMark) : List Char :=
  ':' :: positionChar m.position :: ':' :: kindChar m.kind :: ':' :: m.label.toList

/-- The texts that stand for an entry: the entry can be written, and this is how it is written but
for blanks around it and zeros in front of its number. -/
structure SpelledAs (m : FingerMark) (piece : List Char) : Prop where
  writable : m.Writable
  spelling : ∃ numeral, readDigits numeral = some m.note ∧ trim piece = numeral ++ m.afterNumber

variable {m : FingerMark} {marks : List FingerMark} {piece body : List Char} {c : Char}

theorem text_eq (m : FingerMark) : m.text = digits m.note ++ m.afterNumber := rfl

theorem positionOf?_eq_some_iff {p : Position} : positionOf? c = some p ↔ c = positionChar p := by
  constructor
  · intro h
    unfold positionOf? at h
    split at h <;> cases h <;> rfl
  · rintro rfl
    cases p <;> rfl

theorem kindOf?_eq_some_iff {k : FingerKind} : kindOf? c = some k ↔ c = kindChar k := by
  constructor
  · intro h
    unfold kindOf? at h
    split at h <;> cases h <;> rfl
  · rintro rfl
    cases k <;> rfl

theorem isDigit_of_readDigits {numeral : List Char} {n : Nat} (h : readDigits numeral = some n) :
    numeral ≠ [] ∧ ∀ c ∈ numeral, c.isDigit := by
  unfold readDigits at h
  split at h
  · rename_i hdigits
    simpa using hdigits
  · cases h

/-- No separator is a digit. -/
theorem not_mem_of_readDigits {numeral : List Char} {n : Nat} (h : readDigits numeral = some n)
    (hc : c.isDigit = false) : c ∉ numeral := by
  intro hmem
  rw [(isDigit_of_readDigits h).2 c hmem] at hc
  cases hc

/-- **An entry is read from its number, its letters and its label**, and from nothing else. -/
theorem ofChars?_eq_some_iff :
    ofChars? piece = some m ↔
      m.note < noteBound ∧ m.label.toList ≠ [] ∧
        ('-' ∉ m.label.toList ∧ '.' ∉ m.label.toList) ∧
        ∃ numeral, readDigits numeral = some m.note ∧ piece = numeral ++ m.afterNumber := by
  constructor
  · intro h
    simp only [ofChars?, Option.bind_eq_bind, Option.bind_eq_some_iff, Option.filter_eq_some_iff]
      at h
    obtain ⟨⟨numeral, rest⟩, hsplit, note, ⟨hnote, hbound⟩, hrest⟩ := h
    obtain ⟨hpiece, -⟩ := splitFirst_eq_some hsplit
    split at hrest
    · rename_i p k label heq
      obtain rfl : rest = _ := heq
      simp only [Option.bind_eq_some_iff] at hrest
      obtain ⟨position, hposition, kind, hkind, hlabel⟩ := hrest
      split at hlabel
      · cases hlabel
      · rename_i hgood
        cases hlabel
        obtain rfl := positionOf?_eq_some_iff.1 hposition
        obtain rfl := kindOf?_eq_some_iff.1 hkind
        simp only [Bool.or_eq_true, decide_eq_true_eq, List.any_eq_true, beq_iff_eq, not_or,
          not_exists, not_and] at hgood
        refine ⟨of_decide_eq_true hbound, ?_, ?_, numeral, hnote, ?_⟩
        · simpa using hgood.1
        · simp only [String.toList_ofList]
          exact ⟨fun hmem => (hgood.2 '-' hmem).1 rfl, fun hmem => (hgood.2 '.' hmem).2 rfl⟩
        · simpa [afterNumber] using hpiece
    · cases hrest
  · rintro ⟨hbound, hne, ⟨hdash, hpoint⟩, numeral, hnote, rfl⟩
    have hsplit : splitFirst ':' (numeral ++ m.afterNumber) = some (numeral, m.afterNumber.tail) :=
      splitFirst_append (not_mem_of_readDigits hnote (by decide)) _
    have hlabel : ¬ (m.label.toList = [] ||
        m.label.toList.any fun c => c == '-' || c == '.') = true := by
      simp only [Bool.or_eq_true, decide_eq_true_eq, List.any_eq_true, beq_iff_eq, not_or,
        not_exists, not_and]
      refine ⟨hne, fun c hmem => ⟨?_, ?_⟩⟩
      · rintro rfl
        exact hdash hmem
      · rintro rfl
        exact hpoint hmem
    have hnumber : (readDigits numeral).filter (· < noteBound) = some m.note := by
      rw [hnote, Option.filter_some_pos (by simpa using hbound)]
    rw [ofChars?, hsplit]
    simp only [Option.bind_eq_bind, Option.bind_some, hnumber, afterNumber, List.tail_cons,
      positionOf?_eq_some_iff.2 rfl, kindOf?_eq_some_iff.2 rfl, if_neg hlabel, String.ofList_toList]
    rfl

/-- A piece is read as an entry exactly if it spells it. What is trimmed off does not matter, and
the label of what is left cannot end in a blank. -/
theorem ofChars?_trim_eq_some_iff : ofChars? (trim piece) = some m ↔ m.SpelledAs piece := by
  rw [ofChars?_eq_some_iff]
  constructor
  · rintro ⟨hbound, hne, hundivided, numeral, hnote, hpiece⟩
    refine ⟨⟨hbound, hne, hundivided, fun c hc => ?_⟩, numeral, hnote, hpiece⟩
    have hlast : (trim piece).getLast? = some c := by
      rw [hpiece, show numeral ++ m.afterNumber =
        (numeral ++ [':', positionChar m.position, ':', kindChar m.kind, ':']) ++ m.label.toList by
          simp [afterNumber], List.getLast?_append_of_ne_nil _ hne, hc]
    exact isBlank_of_getLast?_trim hlast
  · rintro ⟨hwritable, hspelling⟩
    exact ⟨hwritable.number, hwritable.labelled, hwritable.undivided, hspelling⟩

theorem ofPieces?_eq_some_iff {pieces : List (List Char)} :
    ofPieces? pieces = some marks ↔ List.Forall₂ (fun piece m => m.SpelledAs piece) pieces marks := by
  induction pieces generalizing marks with
  | nil => simp [ofPieces?, eq_comm]
  | cons piece pieces ih =>
      rw [List.forall₂_cons_left_iff, ofPieces?]
      constructor
      · intro h
        split at h
        · rename_i m marks' hm hmarks
          cases h
          exact ⟨m, marks', ofChars?_trim_eq_some_iff.1 hm, ih.1 hmarks, rfl⟩
        · cases h
      · rintro ⟨m, marks', hm, hmarks, rfl⟩
        rw [ofChars?_trim_eq_some_iff.2 hm, ih.2 hmarks]

/-- One piece that cannot be read is enough. -/
theorem ofPieces?_eq_none {pieces : List (List Char)}
    (h : ∃ piece ∈ pieces, ∀ m : FingerMark, ¬ m.SpelledAs piece) : ofPieces? pieces = none := by
  rw [Option.eq_none_iff_forall_ne_some]
  intro marks hmarks
  obtain ⟨piece, hpiece, hnot⟩ := h
  obtain ⟨m, -, hm⟩ := exists_of_mem_forall₂ (ofPieces?_eq_some_iff.1 hmarks) hpiece
  exact hnot m hm

theorem readBody_eq_ok_iff :
    readBody body = .ok marks ↔
      List.Forall₂ (fun piece m => m.SpelledAs piece) (splitAll '-' body) marks := by
  rw [← ofPieces?_eq_some_iff, readBody]
  split
  · rename_i found hfound
    rw [hfound]
    simp
  · rename_i hnone
    rw [hnone]
    simp

/-! ## Entries as they are written -/

theorem not_mem_text (h : m.Writable) (hc : c = '-' ∨ c = '.') : c ∉ m.text := by
  have hdigit : c.isDigit = false := by
    rcases hc with rfl | rfl <;> decide
  have hlabel : c ∉ m.label.toList := by
    rcases hc with rfl | rfl
    · exact h.undivided.1
    · exact h.undivided.2
  have hletters : c ∉ [':', positionChar m.position, ':', kindChar m.kind, ':'] := by
    cases m.position <;> cases m.kind <;> rcases hc with rfl | rfl <;> decide
  intro hmem
  rw [text_eq, show digits m.note ++ m.afterNumber = digits m.note ++
    ([':', positionChar m.position, ':', kindChar m.kind, ':'] ++ m.label.toList) from rfl,
    List.mem_append, List.mem_append] at hmem
  rcases hmem with hmem | hmem | hmem
  · exact not_mem_of_readDigits (readDigits_digits m.note) hdigit hmem
  · exact hletters hmem
  · exact hlabel hmem

theorem text_ne_nil (m : FingerMark) : m.text ≠ [] := by
  rw [text_eq]
  exact List.append_ne_nil_of_left_ne_nil (digits_ne_nil m.note) _

/-- An entry is spelled as it is written: its number is no blank, and its label does not end in
one. -/
theorem spelledAs_text (h : m.Writable) : m.SpelledAs m.text := by
  refine ⟨h, digits m.note, readDigits_digits m.note, ?_⟩
  rw [← text_eq]
  apply trim_eq_self_of_ends
  · intro c hc
    rw [text_eq, List.head?_append_of_ne_nil _ (digits_ne_nil m.note)] at hc
    exact isBlank_of_isDigit (isDigit_of_mem_digits (List.mem_of_head? hc))
  · intro c hc
    rw [text_eq, show digits m.note ++ m.afterNumber =
      (digits m.note ++ [':', positionChar m.position, ':', kindChar m.kind, ':']) ++
        m.label.toList by simp [afterNumber], List.getLast?_append_of_ne_nil _ h.labelled] at hc
    exact h.trimmed c hc

theorem bodyText_eq_intercalate (marks : List FingerMark) :
    bodyText marks = ['-'].intercalate (marks.map text) := by
  induction marks with
  | nil => rfl
  | cons m marks ih =>
      cases marks with
      | nil => simp [bodyText]
      | cons m' marks =>
          rw [bodyText, ih]
          · simp
          · simp

/-- The body of a token falls into the entries that it was written from. -/
theorem splitAll_bodyText (hne : marks ≠ []) (h : ∀ m ∈ marks, m.Writable) :
    splitAll '-' (bodyText marks) = marks.map text := by
  rw [splitAll_eq_splitOn, bodyText_eq_intercalate]
  apply List.splitOn_intercalate
  · intro piece hpiece
    obtain ⟨m, hm, rfl⟩ := List.mem_map.1 hpiece
    exact not_mem_text (h m hm) (.inl rfl)
  · simpa using hne

theorem readBody_bodyText (hne : marks ≠ []) (h : ∀ m ∈ marks, m.Writable) :
    readBody (bodyText marks) = .ok marks := by
  rw [readBody_eq_ok_iff, splitAll_bodyText hne h, List.forall₂_map_left_iff]
  apply List.forall₂_same.2
  intro m hm
  exact spelledAs_text (h m hm)

theorem bodyText_ne_nil (hne : marks ≠ []) : bodyText marks ≠ [] := by
  cases marks with
  | nil => exact absurd rfl hne
  | cons m marks =>
      cases marks with
      | nil => exact text_ne_nil m
      | cons m' marks => exact List.append_ne_nil_of_left_ne_nil (text_ne_nil m) _

theorem point_not_mem_bodyText (h : ∀ m ∈ marks, m.Writable) : '.' ∉ bodyText marks := by
  induction marks with
  | nil => simp [bodyText]
  | cons m marks ih =>
      have hm : '.' ∉ m.text := not_mem_text (h m List.mem_cons_self) (.inr rfl)
      cases marks with
      | nil => exact hm
      | cons m' marks =>
          have hrest := ih fun x hx => h x (List.mem_cons_of_mem m hx)
          simp [bodyText, hm, hrest]

/-- A fingering token with the given entries. -/
def token (marks : List FingerMark) : String :=
  ".fingering/" ++ String.ofList (bodyText marks) ++ "."

end FingerMark

/-! ## Tokens -/

namespace Markup

open FingerMark

variable {opening : String} {text body : List Char} {marks : List FingerMark}

theorem bodyAfter?_eq_some_iff :
    bodyAfter? opening text = some body ↔
      body ≠ [] ∧ '.' ∉ body ∧ ∃ rest, text = opening.toList ++ (body ++ '.' :: rest) := by
  constructor
  · intro h
    rw [bodyAfter?] at h
    split at h
    · cases h
    · rename_i after hafter
      rw [Text.afterStart?_eq_some_iff] at hafter
      split at h
      · cases h
      · rename_i hsplit
        cases h
        obtain ⟨rfl, hpoint⟩ := Text.splitFirst_eq_some hsplit
        refine ⟨?_, hpoint, _, hafter⟩
        rintro rfl
        simp_all
      · cases h
  · rintro ⟨hne, hpoint, rest, rfl⟩
    rw [bodyAfter?, Text.afterStart?_append]
    dsimp only
    rw [Text.splitFirst_append hpoint]
    cases body with
    | nil => exact absurd rfl hne
    | cons c body => rfl

/-- A token that opens as a fingering is read as one: neither an articulation nor a stroke opens
so. -/
theorem ofChars_of_opening (h : bodyAfter? ".fingering/" text = some body) :
    ofChars text = (readBody body).map .fingering := by
  obtain ⟨-, -, rest, htext⟩ := bodyAfter?_eq_some_iff.1 h
  have harticulation : articulationParts? text = none := by
    rw [htext]
    rfl
  have hstroke : bodyAfter? ".stroke/" text = none := by
    rw [htext]
    rfl
  rw [ofChars, harticulation]
  dsimp only
  rw [hstroke, h]

/-- **What a fingering token is**: the opening, pieces with dashes between them that spell the
entries, and a point. -/
theorem ofChars_eq_fingering_iff :
    ofChars text = .ok (.fingering marks) ↔
      ∃ body rest, text = ".fingering/".toList ++ (body ++ '.' :: rest) ∧ body ≠ [] ∧ '.' ∉ body ∧
        List.Forall₂ (fun piece m => m.SpelledAs piece) (Text.splitAll '-' body) marks := by
  constructor
  · intro h
    cases hbody : bodyAfter? ".fingering/" text with
    | none =>
        -- Every other form of a token is read as something else.
        exfalso
        rw [ofChars, hbody] at h
        split at h
        · cases h
        · split at h
          · rename_i code _
            cases hstroke : Stroke.read code <;> rw [hstroke] at h <;> cases h
          · dsimp only at h
            cases htext : readText text <;> rw [htext] at h <;> cases h
    | some body =>
        rw [ofChars_of_opening hbody] at h
        obtain ⟨hne, hpoint, rest, htext⟩ := bodyAfter?_eq_some_iff.1 hbody
        refine ⟨body, rest, htext, hne, hpoint, readBody_eq_ok_iff.1 ?_⟩
        cases hread : readBody body <;> rw [hread] at h <;> cases h
        rfl
  · rintro ⟨body, rest, htext, hne, hpoint, hspelled⟩
    rw [ofChars_of_opening (bodyAfter?_eq_some_iff.2 ⟨hne, hpoint, rest, htext⟩),
      readBody_eq_ok_iff.2 hspelled]
    rfl

theorem read_token (hne : marks ≠ []) (h : ∀ m ∈ marks, m.Writable) (rest : String) :
    read (token marks ++ rest) = .ok (.fingering marks) := by
  apply ofChars_eq_fingering_iff.2
  refine ⟨bodyText marks, rest.toList, ?_, bodyText_ne_nil hne, point_not_mem_bodyText h,
    readBody_eq_ok_iff.1 (readBody_bodyText hne h)⟩
  simp [token]

/-- **Fingering tokens are read back.** A token that is written from entries, with any text after
it, is read as these entries in their order. Whatever entries are read from a token can be written,
and the token written from them is read as the same entries. And if one piece between the dashes
spells no entry, the token as a whole is wrong. -/
theorem fingering_round_trip :
    (∀ marks : List FingerMark, marks ≠ [] → (∀ m ∈ marks, m.Writable) → ∀ rest : String,
      read (token marks ++ rest) = .ok (.fingering marks)) ∧
    (∀ (text : String) (marks : List FingerMark), read text = .ok (.fingering marks) →
      marks ≠ [] ∧ (∀ m ∈ marks, m.Writable) ∧ read (token marks) = .ok (.fingering marks)) ∧
    ∀ body rest : String, body ≠ "" → '.' ∉ body.toList →
      (∃ piece ∈ Text.splitAll '-' body.toList, ∀ m : FingerMark, ¬ m.SpelledAs piece) →
      read (".fingering/" ++ body ++ "." ++ rest) = .error (.badFingering body) ∧
        (Cause.badFingering body).kind = .malformed := by
  refine ⟨fun marks hne h rest => read_token hne h rest, fun text marks h => ?_,
    fun body rest hne hpoint hwrong => ⟨?_, rfl⟩⟩
  · obtain ⟨body, rest, -, -, -, hspelled⟩ := ofChars_eq_fingering_iff.1 h
    have hmarks : marks ≠ [] := by
      rintro rfl
      exact Text.splitAll_ne_nil '-' body (List.forall₂_nil_right_iff.1 hspelled)
    have hwritable : ∀ m ∈ marks, m.Writable := by
      intro m hm
      obtain ⟨piece, -, hpiece⟩ := exists_of_mem_forall₂ hspelled.flip hm
      exact hpiece.writable
    refine ⟨hmarks, hwritable, ?_⟩
    simpa using read_token hmarks hwritable ""
  · have hopening : bodyAfter? ".fingering/" (".fingering/" ++ body ++ "." ++ rest).toList =
        some body.toList := by
      apply bodyAfter?_eq_some_iff.2
      refine ⟨?_, hpoint, rest.toList, by simp⟩
      simpa using hne
    rw [read, ofChars_of_opening hopening, readBody, ofPieces?_eq_none hwrong]
    simp [Except.map]

/-- Two entries, the second with a blank and a colon in its label; the same with blanks and a zero
too many; and a token whose second entry has no position that there is. -/
theorem fingering_round_trip_twoEntries :
    let marks : List FingerMark := [⟨1, .left, .finger, "2"⟩, ⟨12, .above, .stringNumber, " 5:6"⟩]
    let wrong := "1:l:f:2-2:x:s:5"
    marks ≠ [] ∧ (∀ m ∈ marks, m.Writable) ∧ read (token marks ++ "Am") = .ok (.fingering marks) ∧
      read ".fingering/01:l:f:2 - 12:a:s: 5:6.Am" = .ok (.fingering marks) ∧
      read (token marks) = .ok (.fingering marks) ∧
      wrong ≠ "" ∧ '.' ∉ wrong.toList ∧
      (∃ piece ∈ Text.splitAll '-' wrong.toList, ∀ m : FingerMark, ¬ m.SpelledAs piece) ∧
      read (".fingering/" ++ wrong ++ "." ++ "Am") = .error (.badFingering wrong) := by
  intro marks wrong
  obtain ⟨written, again, refused⟩ := fingering_round_trip
  have hread : read ".fingering/01:l:f:2 - 12:a:s: 5:6.Am" = .ok (.fingering marks) := by decide
  obtain ⟨hne, hwritable, hagain⟩ := again _ marks hread
  have hwrong : ∃ piece ∈ Text.splitAll '-' wrong.toList, ∀ m : FingerMark, ¬ m.SpelledAs piece := by
    refine ⟨"2:x:s:5".toList, by decide, fun m hm => ?_⟩
    have hnone : ofChars? (Text.trim "2:x:s:5".toList) = none := by decide
    rw [ofChars?_trim_eq_some_iff.2 hm] at hnone
    cases hnone
  have hpoint : '.' ∉ wrong.toList := by decide
  exact ⟨hne, hwritable, written marks hne hwritable "Am", hread, hagain, by decide, hpoint, hwrong,
    (refused wrong "Am" (by decide) hpoint hwrong).1⟩

end Markup

end Tablature
