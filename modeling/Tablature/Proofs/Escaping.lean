/-
# Tablature.Proofs.Escaping — escaped texts are character data.

An escaped text has none of the characters that delimit markup, every `&` in it begins one of four
references, and what the references stand for is the text again (`escapes`). Escaping one character
at a time is the same as replacing the four characters one after the other in the whole text, as
long as `&` comes first: the references that the later replacements write contain an `&`, too
(`escape_eq_replaced`). A *plain* text, such as that of a number, stays as it is.
-/
import Tablature.Preview.Element

namespace Tablature.Text

/-! ## References -/

/-- What may stand between `&` and `;`, with the character that is meant. -/
def references : List (List Char × Char) :=
  [("amp".toList, '&'), ("lt".toList, '<'), ("gt".toList, '>'), ("quot".toList, '"')]

/-- The characters that markup gives a meaning. -/
def isMarkup (c : Char) : Bool := references.any (·.2 == c)

theorem entity_of_not_isMarkup {c : Char} (h : isMarkup c = false) : entity c = [c] := by
  unfold entity
  split
  · cases h
  · cases h
  · cases h
  · cases h
  · rfl

/-- A character is written as a reference to it, or as itself if markup gives it no meaning. -/
theorem entity_cases (c : Char) :
    (isMarkup c = false ∧ entity c = [c]) ∨
      ∃ name, (name, c) ∈ references ∧ entity c = '&' :: name ++ [';'] := by
  cases hc : isMarkup c with
  | false => exact .inl ⟨rfl, entity_of_not_isMarkup hc⟩
  | true =>
      obtain ⟨r, hr, hrc⟩ := List.any_eq_true.1 hc
      cases eq_of_beq hrc
      have written : ∀ r ∈ references, entity r.2 = '&' :: r.1 ++ [';'] := by decide
      exact .inr ⟨r.1, hr, written r hr⟩

theorem isAlpha_of_mem_references {r : List Char × Char} (hr : r ∈ references) {c : Char}
    (hc : c ∈ r.1) : c.isAlpha = true := by
  have letters : ∀ r ∈ references, r.1.all Char.isAlpha = true := by decide
  exact List.all_eq_true.1 (letters r hr) c hc

/-! ## Escaped texts -/

/-- Nothing in an entity delimits markup. -/
theorem not_mem_entity {d : Char} (hd : isMarkup d = true) (hamp : d ≠ '&') (c : Char) :
    d ∉ entity c := by
  intro hmem
  rcases entity_cases c with ⟨hc, hentity⟩ | ⟨name, hname, hentity⟩
  · rw [hentity, List.mem_singleton] at hmem
    cases hd.symm.trans (hmem ▸ hc)
  · rw [hentity] at hmem
    rcases List.mem_cons.1 hmem with rfl | hmem
    · exact hamp rfl
    rcases List.mem_append.1 hmem with hmem | hmem
    · have hletter := isAlpha_of_mem_references hname hmem
      have noLetter : ∀ r ∈ references, r.2.isAlpha = false := by decide
      obtain ⟨r, hr, hrd⟩ := List.any_eq_true.1 hd
      cases eq_of_beq hrd
      cases (noLetter r hr).symm.trans hletter
    · cases List.mem_singleton.1 hmem
      cases hd

theorem not_mem_escape {d : Char} (hd : isMarkup d = true) (hamp : d ≠ '&') (text : List Char) :
    d ∉ escape text := by
  intro hmem
  obtain ⟨c, -, hc⟩ := List.mem_flatMap.1 hmem
  exact not_mem_entity hd hamp c hc

/-- Every `&` of an escaped text begins a reference. -/
theorem exists_reference {text before after : List Char}
    (h : escape text = before ++ '&' :: after) :
    ∃ r ∈ references, r.1 ++ [';'] <+: after := by
  induction text generalizing before after with
  | nil => simp at h
  | cons c text ih =>
      rw [escape_cons, List.append_eq_append_iff] at h
      rcases h with ⟨middle, -, hrest⟩ | ⟨middle, hentity, hrest⟩
      · exact ih hrest
      cases middle with
      | nil =>
          have hhere : escape text = [] ++ '&' :: after := hrest.symm
          exact ih hhere
      | cons d middle =>
          -- The `&` stands in the entity of `c`, of which it can only be the first character.
          cases hrest
          rcases entity_cases c with ⟨hc, hself⟩ | ⟨name, hname, hreference⟩
          · have hmem : '&' ∈ entity c := by simp [hentity]
            rw [hself, List.mem_singleton] at hmem
            cases hmem ▸ hc
          · rw [hreference] at hentity
            cases before with
            | nil =>
                cases hentity
                exact ⟨_, hname, _, rfl⟩
            | cons first before =>
                have htail : name ++ [';'] = before ++ '&' :: middle := (List.cons.inj hentity).2
                have hmem : '&' ∈ name ++ [';'] := by simp [htail]
                rcases List.mem_append.1 hmem with hmem | hmem
                · cases isAlpha_of_mem_references hname hmem
                · cases List.mem_singleton.1 hmem

theorem unescape_reference {r : List Char × Char} (hr : r ∈ references) (rest : List Char) :
    unescape ('&' :: r.1 ++ [';'] ++ rest) = r.2 :: unescape rest := by
  simp only [references, List.mem_cons, List.not_mem_nil, or_false] at hr
  rcases hr with rfl | rfl | rfl | rfl <;> rfl

theorem unescape_cons {c : Char} (hc : c ≠ '&') (rest : List Char) :
    unescape (c :: rest) = c :: unescape rest := by
  rw [unescape]
  all_goals
    intros
    contradiction

/-- What the references stand for is the text. -/
theorem unescape_escape (text : List Char) : unescape (escape text) = text := by
  induction text with
  | nil => rfl
  | cons c text ih =>
      rw [escape_cons]
      rcases entity_cases c with ⟨hc, hentity⟩ | ⟨name, hname, hentity⟩
      · have hne : c ≠ '&' := by
          rintro rfl
          cases hc
        rw [hentity, List.singleton_append, unescape_cons hne, ih]
      · rw [hentity, unescape_reference hname, ih]

/-! ## One character after the other -/

/-- A word in the place of every occurrence of a character. -/
def replaceAll (c : Char) (word text : List Char) : List Char :=
  text.flatMap fun d => if d = c then word else [d]

/-- The four characters replaced one after the other, `&` first. -/
def replaced (text : List Char) : List Char :=
  references.foldl (fun text r => replaceAll r.2 ('&' :: r.1 ++ [';']) text) text

theorem replaceAll_append (c : Char) (word s t : List Char) :
    replaceAll c word (s ++ t) = replaceAll c word s ++ replaceAll c word t :=
  List.flatMap_append

theorem replaced_append (s t : List Char) : replaced (s ++ t) = replaced s ++ replaced t := by
  simp only [replaced, references, List.foldl_cons, List.foldl_nil, replaceAll_append]

theorem replaced_singleton (c : Char) : replaced [c] = entity c := by
  rcases entity_cases c with ⟨hc, hentity⟩ | ⟨name, hname, hentity⟩
  · have other : ∀ r ∈ references, c ≠ r.2 := by
      rintro r hr rfl
      cases hc.symm.trans (List.any_eq_true.2 ⟨r, hr, beq_self_eq_true _⟩)
    simp only [references, List.forall_mem_cons] at other
    obtain ⟨hamp, hlt, hgt, hquot, -⟩ := other
    simp [replaced, references, replaceAll, hentity, hamp, hlt, hgt, hquot]
  · have written : ∀ r ∈ references, replaced [r.2] = entity r.2 := by decide
    exact written (name, c) hname

theorem escape_eq_replaced (text : List Char) : escape text = replaced text := by
  induction text with
  | nil => rfl
  | cons c text ih =>
      rw [escape_cons, ih, ← replaced_singleton, ← replaced_append, List.singleton_append]

/-- **An escaped text is character data**: it delimits no markup, every `&` in it begins a
reference, and it stands for the text. -/
structure Escapes (text : List Char) : Prop where
  delimiters : '<' ∉ escape text ∧ '>' ∉ escape text ∧ '"' ∉ escape text
  referring : ∀ before after, escape text = before ++ '&' :: after →
    ∃ r ∈ references, r.1 ++ [';'] <+: after
  decoded : unescape (escape text) = text
  /-- Escaping is replacing the four characters in turn. -/
  inTurn : escape text = replaced text

theorem escapes (text : List Char) : Escapes text where
  delimiters := ⟨not_mem_escape (by decide) (by decide) text,
    not_mem_escape (by decide) (by decide) text, not_mem_escape (by decide) (by decide) text⟩
  referring := fun _ _ => exists_reference
  decoded := unescape_escape text
  inTurn := escape_eq_replaced text

/-! ## Texts over an alphabet -/

/-- Every character of a text is in an alphabet. -/
def Over (C : Char → Prop) (text : List Char) : Prop := ∀ c ∈ text, C c

instance {C : Char → Prop} [DecidablePred C] (text : List Char) : Decidable (Over C text) :=
  text.decidableBAll _

namespace Over

variable {C D : Char → Prop} {s t : List Char}

theorem nil : Over C [] := List.forall_mem_nil _

theorem cons {c : Char} (hc : C c) (ht : Over C t) : Over C (c :: t) :=
  List.forall_mem_cons.2 ⟨hc, ht⟩

theorem append (hs : Over C s) (ht : Over C t) : Over C (s ++ t) :=
  List.forall_mem_append.2 ⟨hs, ht⟩

theorem replicate {c : Char} (hc : C c) (n : Nat) : Over C (List.replicate n c) :=
  fun _ hd => List.eq_of_mem_replicate hd ▸ hc

theorem of_subset (ht : Over C t) (h : s ⊆ t) : Over C s := fun c hc => ht c (h hc)

theorem take (hs : Over C s) (n : Nat) : Over C (s.take n) := hs.of_subset (List.take_subset n s)

theorem drop (hs : Over C s) (n : Nat) : Over C (s.drop n) := hs.of_subset (List.drop_subset n s)

theorem mono (hs : Over C s) (h : ∀ c, C c → D c) : Over D s := fun c hc => h c (hs c hc)

theorem intercalate {pieces : List (List Char)} (hs : Over C s) (h : ∀ t ∈ pieces, Over C t) :
    Over C (s.intercalate pieces) := by
  induction pieces with
  | nil => exact nil
  | cons t pieces ih =>
      obtain ⟨ht, hrest⟩ := List.forall_mem_cons.1 h
      cases pieces with
      | nil => rwa [List.intercalate_singleton]
      | cons next pieces =>
          rw [List.intercalate_cons_cons]
          exact (ht.append hs).append (ih hrest)

end Over

/-! ## Plain texts -/

/-- Characters that can be printed and mean nothing in markup. -/
def isPlain (c : Char) : Bool := !isMarkup c && decide (' ' ≤ c) && decide (c ≤ '~')

/-- Texts that escaping leaves as they are, and that hold no control characters. -/
abbrev Plain : List Char → Prop := Over (isPlain · = true)

namespace Plain

variable {s : List Char}

theorem escape_eq (hs : Plain s) : escape s = s := by
  induction s with
  | nil => rfl
  | cons c s ih =>
      obtain ⟨hc, hs⟩ := List.forall_mem_cons.1 hs
      have hmarkup : isMarkup c = false := by
        simp only [isPlain, Bool.and_eq_true, Bool.not_eq_true'] at hc
        exact hc.1.1
      rw [escape_cons, entity_of_not_isMarkup hmarkup, ih hs, List.singleton_append]

theorem escapeString_eq {text : String} (h : Plain text.toList) : escapeString text = text := by
  rw [escapeString, h.escape_eq, String.ofList_toList]

end Plain

theorem isPlain_of_isDigit {c : Char} (h : c.isDigit = true) : isPlain c = true := by
  have hmarkup : isMarkup c = false := by
    refine List.any_eq_false.2 fun r hr hrc => ?_
    have noDigit : ∀ r ∈ references, r.2.isDigit = false := by decide
    rw [← eq_of_beq hrc] at h
    cases (noDigit r hr).symm.trans h
  simp only [Char.isDigit, Bool.and_eq_true, decide_eq_true_eq] at h
  have hlow : ' ' ≤ c := UInt32.le_trans (by decide) h.1
  have hhigh : c ≤ '~' := UInt32.le_trans h.2 (by decide)
  simp [isPlain, hmarkup, hlow, hhigh]

theorem plain_digits (n : Nat) : Plain (Numeral.digits n) :=
  fun _ hc => isPlain_of_isDigit (Numeral.isDigit_of_mem_digits hc)

end Tablature.Text

namespace Tablature.Decimal

open Tablature.Text

theorem plain_sign (negative : Bool) : Plain (sign negative) := by cases negative <;> decide

theorem plain_unboundedText (negative : Bool) : Plain (unboundedText negative) :=
  (plain_sign negative).append (by decide)

theorem plain_positional (s : Scientific) : Plain (positional s) := by
  have hdigits := plain_digits s.coefficient
  unfold positional
  dsimp only
  split
  · exact hdigits.append (.replicate (by decide) _)
  split
  · exact .append (.cons (by decide) (.cons (by decide) (.replicate (by decide) _))) hdigits
  · exact (hdigits.take _).append (.cons (by decide) (hdigits.drop _))

theorem plain_withPlaces (places units : Nat) : Plain (withPlaces places units) := by
  have hpadded : Plain (List.replicate (places + 1 - (Numeral.digits units).length) '0' ++
      Numeral.digits units) := .append (.replicate (by decide) _) (plain_digits units)
  unfold withPlaces
  dsimp only
  split
  · exact hpadded
  · exact (hpadded.take _).append (.cons (by decide) (hpadded.drop _))

/-- The text of a double is plain. -/
theorem plain_plain (x : Float) : Plain (plain x).toList := by
  rw [plain, String.toList_ofList]
  split
  · decide
  · exact plain_unboundedText _
  · exact (plain_sign _).append (plain_positional _)

theorem plain_fixed (places : Nat) (x : Float) : Plain (fixed places x).toList := by
  rw [fixed, String.toList_ofList]
  split
  · decide
  · exact plain_unboundedText _
  · exact (plain_sign _).append (plain_withPlaces places _)

end Tablature.Decimal
