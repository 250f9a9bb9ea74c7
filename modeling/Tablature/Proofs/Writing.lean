/-
# Tablature.Proofs.Writing — what is written as JSON is clear.

In strings control characters are written as escapes, and every number of a score or a fault is
written in plain characters. So the text of a score, and that of a fault, holds no control character
but line breaks, whatever strings are in it (`Score.clear_toJson`, `Foreign.clear_encodeFault`).
-/
import Tablature.Interface
import Tablature.Proofs.Escaping

namespace Tablature

/-! ## Clear texts -/

namespace Text

/-- A text without control characters, line breaks apart. -/
abbrev Clear : List Char → Prop := Over fun c => c = '\n' ∨ ' ' ≤ c

theorem Plain.clear {text : List Char} (h : Plain text) : Clear text := by
  refine h.mono fun c hc => ?_
  simp only [isPlain, Bool.and_eq_true, decide_eq_true_eq] at hc
  exact .inr hc.1.2

end Text

namespace Json

open Text (Clear Plain)

/-! ## Values -/

theorem clear_writeChar (c : Char) : Clear (writeChar c) := by
  have digits : ∀ n < 16, Clear [hexDigit n] := by decide
  unfold writeChar
  split
  · decide
  split
  · decide
  split
  · decide
  split
  · decide
  split
  · decide
  split
  · decide
  split
  · decide
  split
  · rename_i hcontrol
    have hfirst := digits (c.toNat / 16) (by omega)
    have hsecond := digits (c.toNat % 16) (by omega)
    have hstart : Clear ['\\', 'u', '0', '0'] := by decide
    exact (hstart.append hfirst).append hsecond
  · rename_i hcontrol
    refine List.forall_mem_singleton.2 (.inr ?_)
    rw [Char.le_def, UInt32.le_iff_toNat_le]
    exact Nat.le_of_not_lt hcontrol

theorem clear_writeString (s : String) : Clear (writeString s) := by
  refine .append (.cons (by decide) ?_) (by decide)
  exact List.forall_mem_flatMap.2 fun c _ => clear_writeChar c

theorem clear_newLine (level : Nat) : Clear (newLine level) := by
  refine .cons (by decide) fun c hc => ?_
  rw [List.eq_of_mem_replicate hc]
  decide

namespace Value

/-- A value whose numbers are written in plain characters. -/
inductive Spelled : Value → Prop
  | null : Spelled .null
  | boolean (b : Bool) : Spelled (.boolean b)
  | number {n : Number} (h : Plain n.text) : Spelled (.number n)
  | string (s : String) : Spelled (.string s)
  | array {items : List Value} (h : ∀ v ∈ items, Spelled v) : Spelled (.array items)
  | object {members : List (String × Value)} (h : ∀ m ∈ members, Spelled m.2) :
      Spelled (.object members)

theorem clear_compactItems {items : List Value} (h : ∀ v ∈ items, Clear v.compact) :
    Clear (compactItems items) := by
  induction items with
  | nil => decide
  | cons item items ih =>
      obtain ⟨hitem, hrest⟩ := List.forall_mem_cons.1 h
      rw [compactItems]
      exact .cons (by decide) (hitem.append (ih hrest))

theorem clear_compactMembers {members : List (String × Value)}
    (h : ∀ m ∈ members, Clear m.2.compact) : Clear (compactMembers members) := by
  induction members with
  | nil => decide
  | cons member members ih =>
      obtain ⟨hmember, hrest⟩ := List.forall_mem_cons.1 h
      rw [compactMembers]
      exact .append (.cons (by decide) (.append (clear_writeString _) (.cons (by decide) hmember)))
        (ih hrest)

theorem clear_prettyItems {items : List Value} (h : ∀ v ∈ items, ∀ level, Clear (v.pretty level))
    (level : Nat) : Clear (prettyItems level items) := by
  induction items with
  | nil => exact (clear_newLine level).append (by decide)
  | cons item items ih =>
      obtain ⟨hitem, hrest⟩ := List.forall_mem_cons.1 h
      rw [prettyItems]
      exact .append (.cons (by decide) ((clear_newLine _).append (hitem _))) (ih hrest)

theorem clear_prettyMembers {members : List (String × Value)}
    (h : ∀ m ∈ members, ∀ level, Clear (m.2.pretty level)) (level : Nat) :
    Clear (prettyMembers level members) := by
  induction members with
  | nil => exact (clear_newLine level).append (by decide)
  | cons member members ih =>
      obtain ⟨hmember, hrest⟩ := List.forall_mem_cons.1 h
      rw [prettyMembers]
      have hname := (clear_newLine (level + 1)).append (clear_writeString member.1)
      have hvalue : Clear (':' :: ' ' :: member.2.pretty (level + 1)) :=
        .cons (by decide) (.cons (by decide) (hmember _))
      exact .append (.append (.cons (by decide) hname) hvalue) (ih hrest)

theorem Spelled.clear_leaf {v : Value} (h : v.Spelled) : Clear v.writeLeaf := by
  have brackets : Clear ['[', ']'] ∧ Clear ['\x7b', '\x7d'] := by decide
  cases h with
  | null => decide
  | boolean b => cases b <;> decide
  | number h => exact h.clear
  | string s => exact clear_writeString s
  | array h => exact brackets.1
  | object h => exact brackets.2

theorem Spelled.clear_compact {v : Value} (h : v.Spelled) : Clear v.compact := by
  induction h with
  | null => exact Spelled.null.clear_leaf
  | boolean b => exact (Spelled.boolean b).clear_leaf
  | number h => exact (Spelled.number h).clear_leaf
  | string s => exact (Spelled.string s).clear_leaf
  | @array items h ih =>
      cases items with
      | nil => exact (Spelled.array h).clear_leaf
      | cons item items =>
          obtain ⟨hitem, hrest⟩ := List.forall_mem_cons.1 ih
          rw [compact]
          exact .append (.cons (by decide) hitem) (clear_compactItems hrest)
  | @object members h ih =>
      cases members with
      | nil => exact (Spelled.object h).clear_leaf
      | cons member members =>
          obtain ⟨hmember, hrest⟩ := List.forall_mem_cons.1 ih
          rw [compact]
          exact .append (.append (.cons (by decide) (clear_writeString _))
            (.cons (by decide) hmember)) (clear_compactMembers hrest)

theorem Spelled.clear_pretty {v : Value} (h : v.Spelled) (level : Nat) :
    Clear (v.pretty level) := by
  induction h generalizing level with
  | null => exact Spelled.null.clear_leaf
  | boolean b => exact (Spelled.boolean b).clear_leaf
  | number h => exact (Spelled.number h).clear_leaf
  | string s => exact (Spelled.string s).clear_leaf
  | @array items h ih =>
      cases items with
      | nil => exact (Spelled.array h).clear_leaf
      | cons item items =>
          obtain ⟨hitem, hrest⟩ := List.forall_mem_cons.1 ih
          rw [pretty]
          exact .append (.append (.cons (by decide) (clear_newLine _)) (hitem _))
            (clear_prettyItems hrest level)
  | @object members h ih =>
      cases members with
      | nil => exact (Spelled.object h).clear_leaf
      | cons member members =>
          obtain ⟨hmember, hrest⟩ := List.forall_mem_cons.1 ih
          have hname := (clear_newLine (level + 1)).append (clear_writeString member.1)
          have hvalue : Clear (':' :: ' ' :: member.2.pretty (level + 1)) :=
            .cons (by decide) (.cons (by decide) (hmember _))
          rw [pretty]
          exact .append (.append (.cons (by decide) hname) hvalue)
            (clear_prettyMembers hrest level)

/-! ## Parts of a score -/

@[simp] theorem spelled_string (s : String) : (string s).Spelled := .string s

@[simp] theorem spelled_boolean (b : Bool) : (boolean b).Spelled := .boolean b

@[simp] theorem spelled_object {members : List (String × Value)} :
    (object members).Spelled ↔ ∀ m ∈ members, m.2.Spelled :=
  ⟨fun h => match h with | .object h => h, .object⟩

@[simp] theorem spelled_array {items : List Value} :
    (array items).Spelled ↔ ∀ v ∈ items, v.Spelled :=
  ⟨fun h => match h with | .array h => h, .array⟩

@[simp] theorem spelled_int (n : Int) : (int n).Spelled := by
  refine .number ?_
  cases n with
  | ofNat n => exact Text.plain_digits n
  | negSucc n => exact .cons (by decide) (Text.plain_digits (n + 1))

@[simp] theorem spelled_nat (n : Nat) : (nat n).Spelled := spelled_int n

theorem plain_text {l : Literal} (h : Plain l.fraction) : Plain l.text := by
  have hfraction : Plain (if l.fraction = [] then [] else '.' :: l.fraction) := by
    split
    · exact List.forall_mem_nil _
    · exact .cons (by decide) h
  have hexponent : Plain ((l.exponent.map Literal.exponentText).getD []) := by
    cases l.exponent with
    | none => exact List.forall_mem_nil _
    | some e =>
        refine .append ?_ (Text.plain_digits e.natAbs)
        split <;> decide
  exact (((Decimal.plain_sign _).append (Text.plain_digits _)).append hfraction).append hexponent

theorem plain_layOut (negative : Bool) (s : Decimal.Scientific) :
    Plain (Number.layOut negative s).fraction := by
  have zero : Plain ['0'] := by decide
  unfold Number.layOut
  dsimp only
  split
  · exact zero
  split
  · exact (Text.plain_digits _).drop 1
  split
  · exact zero
  · exact .append (.replicate (by decide) _) (Text.plain_digits _)

@[simp] theorem spelled_float (x : Float) : (float x).Spelled := by
  have spelled {n : Number} (h : Number.ofFloat? x = some n) : Plain n.text := by
    unfold Number.ofFloat? at h
    split at h
    · cases h
      exact plain_text (plain_layOut _ _)
    · cases h
  unfold float
  cases h : Number.ofFloat? x with
  | none => exact .null
  | some n => exact .number (spelled h)

@[simp] theorem spelled_option {α : Type} {encode : α → Value} (h : ∀ a, (encode a).Spelled)
    (o : Option α) : (option encode o).Spelled := by
  cases o with
  | none => exact .null
  | some a => exact h a

@[simp] theorem spelled_list {α : Type} {encode : α → Value} (h : ∀ a, (encode a).Spelled)
    (items : List α) : (list encode items).Spelled :=
  .array (List.forall_mem_map.2 fun a _ => h a)

end Value

end Json

open Json

@[simp] theorem spelled_encodeTicks (t : Ticks) : (encodeTicks t).Spelled := by simp [encodeTicks]

@[simp] theorem Font.spelled (f : Font) : f.encode.Spelled := by simp [encode]

@[simp] theorem Pitch.spelled (p : Pitch) : p.encode.Spelled := .string _

@[simp] theorem Duration.spelled (d : Duration) : d.encode.Spelled := .string _

@[simp] theorem BarType.spelled (b : BarType) : b.encode.Spelled := .string _

@[simp] theorem Clef.spelled (c : Clef) : c.encode.Spelled := .string _

@[simp] theorem BendStep.spelled (b : BendStep) : b.encode.Spelled := by simp [encode]

@[simp] theorem Modifier.spelled (m : Modifier) : m.encode.Spelled := by cases m <;> simp [encode]

@[simp] theorem Attached.spelled (a : Attached) : a.encode.Spelled := by simp [encode]

@[simp] theorem TabPosition.spelled (p : TabPosition) : p.encode.Spelled := by simp [encode]

@[simp] theorem TextNote.spelled (t : TextNote) : t.encode.Spelled := by simp [encode, members]

@[simp] theorem Tickable.spelled (t : Tickable) : t.encode.Spelled := by
  cases t <;> simp [encode, TabNote.members, StaffNote.members, TextNote.members]

@[simp] theorem spelled_encodeVoice (voice : List Tickable) : (encodeVoice voice).Spelled := by
  simp [encodeVoice]

@[simp] theorem TabView.spelled (v : TabView) : v.encode.Spelled := by simp [encode]

@[simp] theorem StaffView.spelled (v : StaffView) : v.encode.Spelled := by simp [encode]

@[simp] theorem Stave.spelled (s : Stave) : s.encode.Spelled := by simp [encode]

@[simp] theorem NoteRef.spelled (r : NoteRef) : r.encode.Spelled := by simp [encode]

@[simp] theorem TabLink.spelled (l : TabLink) : l.encode.Spelled := by
  cases l <;> simp [encode, Link.members, Tuplet.members]

@[simp] theorem StaffLink.spelled (l : StaffLink) : l.encode.Spelled := by
  cases l <;> simp [encode, Link.members, Tuplet.members]

@[simp] theorem Settings.spelled (s : Settings) : s.encode.Spelled := by simp [encode]

theorem Score.spelled (s : Score) : s.encode.Spelled := by simp [encode]

/-- **The text of a score is clear**, whatever strings are in the score. -/
theorem Score.clear_toJson (s : Score) : Text.Clear s.toJson.toList := by
  rw [toJson, Value.prettyText, String.toList_ofList]
  exact s.spelled.clear_pretty 0

@[simp] theorem Foreign.spelled_encodeLocation (here : Location) :
    (encodeLocation here).Spelled := by
  simp [encodeLocation]

/-- The text of a fault is clear, whatever was wrong. -/
theorem Foreign.clear_encodeFault (f : Fault) : Text.Clear (encodeFault f).compactText.toList := by
  have hspelled : (encodeFault f).Spelled := by simp [encodeFault]
  rw [Value.compactText, String.toList_ofList]
  exact hspelled.clear_compact

end Tablature
