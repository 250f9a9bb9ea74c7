/-
# Tablature.Proofs.DurationCodes — which texts are durations.

A duration is written as a word: any number of colons, the code of a note value, perhaps a `d` for
the dot and perhaps an `S` or `s` for slashed heads (`DurationWord`). The reader takes such words
apart from their two ends, and no mark can be mistaken for a part of a code, since no code has a
colon, a `d`, an `S` or an `s` in it. So a text is a duration exactly if its first word is of this
form, whatever follows that word, and the duration is what the word says; any other text is refused
as malformed (`Duration.read_grammar`).
-/
import Mathlib.Data.List.Basic
import Mathlib.Data.List.TakeWhile
import Tablature.Duration

namespace Tablature

/-! ## Words of a text -/

namespace Text

/-- The words of a text: its longest runs without a blank character, in order. -/
def words (text : List Char) : List (List Char) := (text.splitOnP isBlank).filter (· ≠ [])

/-- The first piece of a text that is cut at every character of a class ends before the first. -/
theorem head?_splitOnP (p : Char → Bool) (text : List Char) :
    (text.splitOnP p).head? = some (text.takeWhile (! p ·)) := by
  induction text with
  | nil => rfl
  | cons c text ih =>
      rw [List.splitOnP_cons_eq_if_modifyHead]
      cases hc : p c with
      | true => simp [hc]
      | false =>
          rw [if_neg (by simp), List.head?_modifyHead, ih, Option.map_some,
            List.takeWhile_cons_of_pos (by simp [hc])]

/-- Blank characters in front of a text belong to no word. -/
theorem words_cons_of_blank {c : Char} (hc : isBlank c = true) (text : List Char) :
    words (c :: text) = words text := by
  rw [words, List.splitOnP_cons_eq_if_modifyHead, if_pos hc, List.filter_cons_of_neg (by simp)]
  rfl

/-- A text that does not begin with a blank character begins with its first word. -/
theorem head?_words_cons {c : Char} (hc : isBlank c = false) (text : List Char) :
    (words (c :: text)).head? = some (c :: text.takeWhile (! isBlank ·)) := by
  have hfirst := head?_splitOnP isBlank (c :: text)
  rw [List.takeWhile_cons_of_pos (by simp [hc])] at hfirst
  obtain ⟨pieces, hpieces⟩ := List.head?_eq_some_iff.1 hfirst
  rw [words, hpieces, List.filter_cons_of_pos (by simp)]
  rfl

/-- **The first word is the first of the words**, and empty only if there is none. -/
theorem firstWord_eq_iff {text word : List Char} (hword : word ≠ []) :
    firstWord text = word ↔ (words text).head? = some word := by
  induction text with
  | nil =>
      refine iff_of_false (fun h => hword ?_) (fun h => ?_)
      · exact h.symm
      · cases h
  | cons c text ih =>
      cases hc : isBlank c with
      | true =>
          rw [words_cons_of_blank hc, ← ih, firstWord, trimStart,
            List.dropWhile_cons_of_pos (by simp [hc])]
          rfl
      | false =>
          rw [head?_words_cons hc, firstWord, trimStart,
            List.dropWhile_cons_of_neg (by simp [hc]), List.takeWhile_cons_of_pos (by simp [hc]),
            Option.some.injEq]

end Text

/-! ## Codes and marks -/

namespace NoteValue

/-- The codes of a note value: the one that is written, and a number for the three longest. -/
def codes : NoteValue → List (List Char)
  | whole => [['w'], ['1']]
  | half => [['h'], ['2']]
  | quarter => [['q'], ['4']]
  | eighth => [['8']]
  | sixteenth => [['1', '6']]
  | thirtySecond => [['3', '2']]
  | sixtyFourth => [['6', '4']]

theorem ofCode?_eq_some_iff {code : List Char} {v : NoteValue} :
    ofCode? code = some v ↔ code ∈ v.codes := by
  constructor
  · intro h
    unfold ofCode? at h
    split at h <;> cases h <;> decide
  · intro h
    have all : ∀ code ∈ v.codes, ofCode? code = some v := by cases v <;> decide
    exact all code h

theorem code_mem_codes (v : NoteValue) : v.code ∈ v.codes := ofCode?_eq_some_iff.1 (ofCode?_code v)

/-- A code is not empty, and nothing that stands around a code is a part of one. -/
theorem of_mem_codes {v : NoteValue} {code : List Char} (h : code ∈ v.codes) :
    code ≠ [] ∧ ':' ∉ code ∧ 'd' ∉ code ∧ 'S' ∉ code ∧ 's' ∉ code := by
  have all : ∀ code ∈ v.codes,
      code ≠ [] ∧ ':' ∉ code ∧ 'd' ∉ code ∧ 'S' ∉ code ∧ 's' ∉ code := by
    cases v <;> decide
  exact all code h

end NoteValue

namespace Duration

variable {isMark : Char → Bool} {code : List Char} {c : Char}

theorem withoutLast_concat (code : List Char) (h : isMark c = true) :
    withoutLast isMark (code ++ [c]) = (code, true) := by
  rw [withoutLast, List.reverse_concat]
  simp only [h, if_true, List.reverse_reverse]

theorem withoutLast_of_not_mark (h : ∀ c ∈ code, isMark c = false) :
    withoutLast isMark code = (code, false) := by
  unfold withoutLast
  split
  · rename_i c front heq
    have hmem : c ∈ code := List.mem_reverse.1 (heq ▸ List.mem_cons_self)
    rw [h c hmem]
    rfl
  · rfl

/-- A mark that is taken off was there. -/
theorem exists_mark (isMark : Char → Bool) (code : List Char) :
    ∃ mark : Option Char, code = (withoutLast isMark code).1 ++ mark.toList ∧
      mark.isSome = (withoutLast isMark code).2 ∧ ∀ c ∈ mark, isMark c = true := by
  rcases List.eq_nil_or_concat' code with rfl | ⟨front, c, rfl⟩
  · exact ⟨none, rfl, rfl, by simp⟩
  · rw [withoutLast, List.reverse_concat]
    dsimp only
    cases hc : isMark c with
    | true => exact ⟨some c, by simp, by simp, by simpa using hc⟩
    | false => exact ⟨none, by simp, by simp, by simp⟩

end Duration

/-! ## Words for durations -/

/-- A word that stands for a duration: colons, the code of a note value, perhaps a `d` and perhaps
an `S` or `s`. -/
structure DurationWord where
  colons : Nat
  value : NoteValue
  code : List Char
  dotted : Bool
  slash : Option Char
  isCode : code ∈ value.codes
  isSlash : ∀ c ∈ slash, c = 'S' ∨ c = 's'

namespace DurationWord

/-- The code and the dot. -/
def front (w : DurationWord) : List Char := w.code ++ if w.dotted then ['d'] else []

/-- The word without its colons. -/
def body (w : DurationWord) : List Char := w.front ++ w.slash.toList

/-- The characters of the word. -/
def letters (w : DurationWord) : List Char := List.replicate w.colons ':' ++ w.body

/-- The duration that the word stands for. A flag forces the dot. -/
def duration (w : DurationWord) (dot : Bool) : Duration :=
  ⟨w.value, w.dotted || dot, w.slash.isSome⟩

theorem body_ne_nil (w : DurationWord) : w.body ≠ [] := by
  obtain ⟨hcode, -⟩ := NoteValue.of_mem_codes w.isCode
  exact List.append_ne_nil_of_left_ne_nil (List.append_ne_nil_of_left_ne_nil hcode _) _

theorem letters_ne_nil (w : DurationWord) : w.letters ≠ [] :=
  List.append_ne_nil_of_right_ne_nil _ w.body_ne_nil

/-- The colons end where the code begins. -/
theorem dropWhile_letters (w : DurationWord) : w.letters.dropWhile (· == ':') = w.body := by
  obtain ⟨hne, hcolon, -⟩ := NoteValue.of_mem_codes w.isCode
  rw [letters, List.dropWhile_append_of_pos (by simp)]
  cases hw : w.code with
  | nil => exact absurd hw hne
  | cons c rest =>
      have hfirst : c ≠ ':' := by
        rintro rfl
        exact hcolon (hw ▸ List.mem_cons_self)
      rw [body, front, hw]
      exact List.dropWhile_cons_of_neg (by simpa using hfirst)

/-- An `S` or `s` is taken off, and nothing else at the end is mistaken for it. -/
theorem withoutSlash_body (w : DurationWord) :
    Duration.withoutLast (fun c => c == 'S' || c == 's') w.body = (w.front, w.slash.isSome) := by
  obtain ⟨-, -, -, hlarge, hsmall⟩ := NoteValue.of_mem_codes w.isCode
  cases hmark : w.slash with
  | some c =>
      rw [body, hmark]
      apply Duration.withoutLast_concat
      simpa using w.isSlash c hmark
  | none =>
      rw [body, hmark, Option.toList_none, List.append_nil]
      apply Duration.withoutLast_of_not_mark
      intro c hc
      rcases List.mem_append.1 hc with hmem | hdot
      · have hS : c ≠ 'S' := fun h => hlarge (h ▸ hmem)
        have hs : c ≠ 's' := fun h => hsmall (h ▸ hmem)
        simp [hS, hs]
      · split at hdot
        · rw [List.mem_singleton.1 hdot]
          rfl
        · cases hdot

/-- A `d` is taken off, and nothing else at the end is mistaken for it. -/
theorem withoutDot_front (w : DurationWord) :
    Duration.withoutLast (· == 'd') w.front = (w.code, w.dotted) := by
  obtain ⟨-, -, hdot, -⟩ := NoteValue.of_mem_codes w.isCode
  unfold front
  cases w.dotted with
  | true => exact Duration.withoutLast_concat w.code (by simp)
  | false =>
      rw [if_neg (by simp), List.append_nil]
      apply Duration.withoutLast_of_not_mark
      intro c hc
      have hd : c ≠ 'd' := fun h => hdot (h ▸ hc)
      simp [hd]

/-- The two marks are taken off, and the code is left. -/
theorem ofCode?_body (w : DurationWord) (dot : Bool) :
    Duration.ofCode? w.body dot = some (w.duration dot) := by
  rw [Duration.ofCode?, withoutSlash_body]
  dsimp only
  rw [withoutDot_front]
  dsimp only
  rw [NoteValue.ofCode?_eq_some_iff.2 w.isCode]
  rfl

end DurationWord

namespace Duration

variable {code : List Char} {dot : Bool} {d : Duration}

/-- **What is read without colons is a word without colons.** -/
theorem ofCode?_eq_some_iff :
    ofCode? code dot = some d ↔ ∃ w : DurationWord, w.body = code ∧ w.duration dot = d := by
  constructor
  · intro h
    unfold ofCode? at h
    obtain ⟨slash, hslash, hisSlash, hS⟩ := exists_mark (fun c => c == 'S' || c == 's') code
    generalize withoutLast (fun c => c == 'S' || c == 's') code = front at h hslash hisSlash
    obtain ⟨front, slashed⟩ := front
    obtain ⟨mark, hmark, hisMark, hd⟩ := exists_mark (· == 'd') front
    dsimp only at h hslash hisSlash
    generalize withoutLast (· == 'd') front = rest at h hmark hisMark
    obtain ⟨rest, dotted⟩ := rest
    dsimp only at h hmark hisMark
    obtain ⟨value, hvalue, rfl⟩ := Option.map_eq_some_iff.1 h
    have hdot : mark.toList = if dotted then ['d'] else [] := by
      cases mark with
      | none => rw [← hisMark]; rfl
      | some c => rw [← hisMark, beq_iff_eq.1 (hd c rfl)]; rfl
    let w : DurationWord :=
      { colons := 0
        value
        code := rest
        dotted
        slash
        isCode := NoteValue.ofCode?_eq_some_iff.1 hvalue
        isSlash := fun c hc => by simpa using hS c hc }
    refine ⟨w, ?_, ?_⟩
    · show rest ++ (if dotted then ['d'] else []) ++ slash.toList = code
      rw [← hdot, ← hmark, ← hslash]
    · show Duration.mk value (dotted || dot) slash.isSome = _
      rw [hisSlash]
  · rintro ⟨w, rfl, rfl⟩
    exact w.ofCode?_body dot

/-- **A text is read as a duration exactly if its first word stands for it.** -/
theorem read_eq_ok_iff {text : String} :
    read text dot = .ok d ↔
      ∃ w : DurationWord, (Text.words text.toList).head? = some w.letters ∧ w.duration dot = d := by
  have hread : read text dot = .ok d ↔
      ofCode? ((Text.firstWord text.toList).dropWhile (· == ':')) dot = some d := by
    unfold read
    split <;> rename_i heq <;> rw [heq] <;> simp
  rw [hread, ofCode?_eq_some_iff]
  constructor
  · rintro ⟨w, hbody, rfl⟩
    -- The word has as many colons as the text has in front of the code.
    let colons := (Text.firstWord text.toList).takeWhile (· == ':')
    have hcolons : colons = List.replicate colons.length ':' := by
      apply List.eq_replicate_of_mem
      intro c hc
      exact beq_iff_eq.1 (List.mem_takeWhile_imp (p := (· == ':')) hc)
    let w' : DurationWord := { w with colons := colons.length }
    have hletters : w'.letters = Text.firstWord text.toList := by
      show List.replicate colons.length ':' ++ w.body = _
      rw [← hcolons, hbody]
      exact List.takeWhile_append_dropWhile
    exact ⟨w', (Text.firstWord_eq_iff w'.letters_ne_nil).1 hletters.symm, rfl⟩
  · rintro ⟨w, hword, rfl⟩
    rw [← Text.firstWord_eq_iff w.letters_ne_nil] at hword
    exact ⟨w, by rw [hword, w.dropWhile_letters], rfl⟩

/-- A duration as it is written, as a word. -/
def asWord (d : Duration) : DurationWord where
  colons := 0
  value := d.value
  code := d.value.code
  dotted := d.dotted
  slash := if d.slash then some 'S' else none
  isCode := d.value.code_mem_codes
  isSlash := by
    intro c hc
    split at hc <;> cases hc
    exact .inl rfl

theorem letters_asWord (d : Duration) : d.asWord.letters = d.text := by
  show d.value.code ++ (if d.dotted then ['d'] else []) ++
    Option.toList (if d.slash then some 'S' else none) = d.text
  rw [text]
  cases d.slash <;> rfl

/-- What is written is one word. -/
theorem head?_words_text (d : Duration) : (Text.words d.text).head? = some d.text := by
  have hblank : ∀ c ∈ d.text, (! Text.isBlank c) = true := by
    apply List.all_eq_true.1
    obtain ⟨value, dotted, slash⟩ := d
    cases value <;> cases dotted <;> cases slash <;> decide
  have hne : d.text ≠ [] := letters_asWord d ▸ d.asWord.letters_ne_nil
  rw [← Text.firstWord_eq_iff hne, Text.firstWord,
    Text.trimStart_eq_self (by simpa using hblank)]
  exact List.takeWhile_eq_self_iff.2 hblank

theorem read_toText (d : Duration) : read d.toText false = .ok d := by
  refine read_eq_ok_iff.2 ⟨d.asWord, ?_, ?_⟩
  · rw [toText, String.toList_ofList, letters_asWord, head?_words_text]
  · obtain ⟨value, dotted, slash⟩ := d
    cases slash <;> simp [DurationWord.duration, asWord]

/-- **Durations are read exactly in their grammar.** A text is read as a duration exactly if its
first word consists of colons, a code, perhaps a `d` and perhaps an `S` or `s`; the duration has the
note value of the code, is dotted if there is a `d` or the flag is set, and slashed if there is an
`S` or `s`. Otherwise the text is malformed. Every duration is read back from how it is written. -/
theorem read_grammar (text : String) (dot : Bool) :
    (∀ d, read text dot = .ok d ↔
      ∃ w : DurationWord, (Text.words text.toList).head? = some w.letters ∧ w.duration dot = d) ∧
    ((∃ cause, read text dot = .error cause ∧ cause.kind.name = "Syntax") ↔
      ∀ w : DurationWord, (Text.words text.toList).head? ≠ some w.letters) ∧
    ∀ d : Duration, read d.toText false = .ok d := by
  refine ⟨fun d => read_eq_ok_iff, ?_, read_toText⟩
  constructor
  · rintro ⟨cause, hcause, -⟩ w hword
    rw [read_eq_ok_iff.2 ⟨w, hword, rfl⟩] at hcause
    cases hcause
  · intro hnone
    refine ⟨.badDuration text, ?_, rfl⟩
    have hnot (d : Duration) : read text dot ≠ .ok d := by
      intro hread
      obtain ⟨w, hword, -⟩ := read_eq_ok_iff.1 hread
      exact hnone w hword
    unfold read at hnot ⊢
    split
    · rename_i d hd
      rw [hd] at hnot
      exact absurd rfl (hnot d)
    · rfl

end Duration

end Tablature
