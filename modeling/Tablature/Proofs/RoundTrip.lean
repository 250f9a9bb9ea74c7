/-
# Tablature.Proofs.RoundTrip — directives survive being written as JSON.

Every field is written, and what is written at a field is read back: `null` as nothing, a fret from
its text, a tag from its letter, parameters in the shape that they were written in, because no
shape can be read as an earlier one. Numbers are read within 32 bits, so directives are read back
exactly if their numbers fit (`Directive.Fits`), and whatever is read fits. The order of the members
and members with unknown names do not matter to that (`Directive.survives_json`), but for the parameters
of a command: a value that cannot be kept, or a name of a shape that is tried before theirs, changes
what they are read as (`Directive.decodeList_added`).
-/
import Tablature.Directive.Encode
import Tablature.Proofs.Rearranging

namespace Tablature

open Json

/-! ## Numbers that fit -/

/-- A natural number of 32 bits. -/
def FitsNat32 (n : Nat) : Prop := n < 4294967296

/-- An integer of 32 bits with its sign. -/
def FitsInt32 (n : Int) : Prop := -2147483648 ≤ n ∧ n < 2147483648

/-- Something that is there fits. -/
def FitsIfAny {α : Type} (fits : α → Prop) (o : Option α) : Prop := ∀ a ∈ o, fits a

/-- The number of a fret fits. -/
def Fret.Fits (f : Fret) : Prop := FitsIfAny FitsNat32 f.number?

/-- The place of an option fits. -/
structure OptionEntry.Fits (o : OptionEntry) : Prop where
  line : FitsIfAny FitsNat32 o.line
  column : FitsIfAny FitsNat32 o.column

/-- The numbers of a position of a chord fit. -/
structure NoteEntry.Fits (n : NoteEntry) : Prop where
  fret : FitsIfAny Fret.Fits n.fret
  string : FitsIfAny FitsNat32 n.string
  octave : FitsIfAny FitsInt32 n.octave

/-- The numbers of parameters fit. -/
def Parameters.Fits : Parameters → Prop
  | tuplet count notes => FitsNat32 count ∧ FitsIfAny FitsNat32 notes
  | rest position => FitsInt32 position
  | _ => True

/-- The numbers of a note element fit. -/
structure NoteElement.Fits (e : NoteElement) : Prop where
  parameters : FitsIfAny Parameters.Fits e.parameters
  chord : FitsIfAny (∀ n ∈ ·, NoteEntry.Fits n) e.chord
  fret : FitsIfAny Fret.Fits e.fret
  string : FitsIfAny FitsNat32 e.string
  octave : FitsIfAny FitsInt32 e.octave
  line : FitsIfAny FitsNat32 e.line
  column : FitsIfAny FitsNat32 e.column

/-- The numbers of a directive fit. -/
structure Directive.Fits (d : Directive) : Prop where
  options : ∀ o ∈ d.options, o.Fits
  settings : ∀ o ∈ d.settings, o.Fits
  notes : ∀ e ∈ d.notes, e.Fits
  line : FitsIfAny FitsNat32 d.line
  column : FitsIfAny FitsNat32 d.column

/-! ## Plain values -/

/-- What is written is read back. -/
def RoundTrips {α : Type} (encode : α → Value) (decode : Value → Option α) (a : α) : Prop :=
  decode (encode a) = some a

theorem roundTrips_string (s : String) : RoundTrips .string Value.asString? s := rfl

theorem roundTrips_boolean (b : Bool) : RoundTrips .boolean Value.asBool? b := rfl

theorem roundTrips_nat {n : Nat} (h : FitsNat32 n) : RoundTrips .nat Value.asNat32? n := by
  have hrange : 0 ≤ (n : Int) ∧ (n : Int) < 4294967296 := by
    unfold FitsNat32 at h
    omega
  rw [RoundTrips, Value.nat, Value.int, Value.asNat32?, if_pos hrange, Int.toNat_natCast]

theorem roundTrips_int {n : Int} (h : FitsInt32 n) : RoundTrips .int Value.asInt32? n := by
  rw [RoundTrips, Value.int, Value.asInt32?, if_pos (show _ ∧ _ from h)]

theorem OptionEntry.roundTrips_value (s : String) : RoundTrips .string OptionEntry.decodeValue s :=
  rfl

theorem Articulation.roundTrips (a : Articulation) : RoundTrips encode decode a :=
  ofLetter?_letter a

theorem Decorator.roundTrips (d : Decorator) : RoundTrips encode decode d :=
  ofLetter?_letter d

/-- A fret is read from its text: its digits are neither trimmed nor a sign, and are not `x`. -/
theorem Fret.read_toText {f : Fret} (h : f.Fits) : Fret.read f.toText = .ok f := by
  cases f with
  | muted => rfl
  | number n =>
      have hdigit : ∀ c ∈ Text.Numeral.digits n, c.isDigit := fun _ =>
        Text.Numeral.isDigit_of_mem_digits
      have htrim : Text.trim (Text.Numeral.digits n) = Text.Numeral.digits n :=
        Text.trim_eq_self fun c hc => Text.isBlank_of_isDigit (hdigit c hc)
      have hnotx : Text.lower (Text.Numeral.digits n) ≠ ['x'] := by
        intro hx
        have hmem : 'x' ∈ Text.lower (Text.Numeral.digits n) := by simp [hx]
        obtain ⟨c, hc, hlower⟩ := List.mem_map.1 hmem
        rw [Text.toLower_of_isDigit (hdigit c hc)] at hlower
        have hxdigit : 'x'.isDigit := hlower ▸ hdigit c hc
        cases hxdigit
      rw [Fret.read, Fret.toText, Fret.text, String.toList_ofList, htrim,
        if_neg hnotx, Text.Numeral.readNat32, Text.Numeral.readNat_digits (h n rfl)]

theorem Fret.roundTrips {f : Fret} (h : f.Fits) : RoundTrips encode decode f := by
  show (Fret.read f.toText).toOption = some f
  rw [read_toText h]
  rfl

theorem asList?_list {α : Type} {encode : α → Value} {decode : Value → Option α} {items : List α}
    (h : ∀ a ∈ items, RoundTrips encode decode a) :
    Value.asList? decode (Value.list encode items) = some items := by
  show Value.decodeAll decode (items.map encode) = some items
  induction items with
  | nil => rfl
  | cons a items ih =>
      obtain ⟨ha, hitems⟩ := List.forall_mem_cons.1 h
      rw [List.map_cons, Value.decodeAll, ha, ih hitems]

/-! ## Fields -/

section Fields

variable {α : Type} {encode : α → Value} {decode : Value → Option α} {names : List String}
  {members : List (String × Value)} {r : Record} {name : String}

theorem ofMembers_once (h : Record.namesOnce names members) :
    Record.ofMembers names members = some ⟨false, members⟩ :=
  if_pos h

theorem read_object (h : Record.namesOnce names members) :
    Record.read names (.object members) = some ⟨false, members⟩ :=
  ofMembers_once h

theorem required_of_find? {a : α} (hfind : r.find? name = some (encode a))
    (h : RoundTrips encode decode a) : r.required name decode = some a := by
  rw [Record.required, hfind]
  exact h

theorem orElse_of_find? {a default : α} (hfind : r.find? name = some (encode a))
    (h : RoundTrips encode decode a) : r.orElse name default decode = some a := by
  rw [Record.orElse, hfind]
  exact h

/-- What may be absent is `null` when it is, and nothing that is there is written as `null`. -/
theorem nullable_option {o : Option α} (hnull : decode .null = none)
    (h : ∀ a ∈ o, RoundTrips encode decode a) :
    Record.nullable decode (Value.option encode o) = some o := by
  cases o with
  | none => rfl
  | some a =>
      have ha : decode (encode a) = some a := h a rfl
      show Record.nullable decode (encode a) = some (some a)
      unfold Record.nullable
      split
      · rename_i heq
        rw [heq, hnull] at ha
        cases ha
      · rw [ha]
        rfl

theorem optional_of_find? {o : Option α} (hfind : r.find? name = some (Value.option encode o))
    (hnull : decode .null = none) (h : ∀ a ∈ o, RoundTrips encode decode a) :
    r.optional name decode = some o := by
  rw [Record.optional, hfind]
  exact nullable_option hnull h

theorem optionalOrNothing_of_find? {o : Option α}
    (hfind : r.find? name = some (Value.option encode o))
    (hnull : decode .null = none) (h : ∀ a ∈ o, RoundTrips encode decode a) :
    r.optionalOrNothing name decode = some o := by
  rw [Record.optionalOrNothing, hfind]
  exact nullable_option hnull h

end Fields

/-! ## Records -/

/-- The fields of an option as a record gives them. -/
structure OptionEntry.Given (r : Record) (o : OptionEntry) : Prop where
  key : r.required "key" Value.asString? = some o.key
  value : r.required "value" OptionEntry.decodeValue = some o.value
  line : r.optionalOrNothing "_l" Value.asNat32? = some o.line
  column : r.optionalOrNothing "_c" Value.asNat32? = some o.column

theorem OptionEntry.decode_eq_some_iff {v : Value} {o : OptionEntry} :
    decode v = some o ↔
      ∃ r, Record.read Directive.Names.optionEntry v = some r ∧ o.Given r := by
  constructor
  · intro h
    obtain ⟨r, hr, h⟩ := Option.bind_eq_some_iff.1 h
    obtain ⟨key, hkey, h⟩ := Option.bind_eq_some_iff.1 h
    obtain ⟨value, hvalue, h⟩ := Option.bind_eq_some_iff.1 h
    obtain ⟨line, hline, h⟩ := Option.bind_eq_some_iff.1 h
    obtain ⟨column, hcolumn, h⟩ := Option.bind_eq_some_iff.1 h
    cases h
    exact ⟨r, hr, hkey, hvalue, hline, hcolumn⟩
  · rintro ⟨r, hr, h⟩
    rw [decode, hr, Option.bind_eq_bind, Option.bind_some, h.key, h.value, h.line,
      h.column]
    rfl

theorem OptionEntry.roundTrips {o : OptionEntry} (h : o.Fits) : RoundTrips encode decode o :=
  decode_eq_some_iff.2 ⟨_, read_object rfl,
    { key := required_of_find? rfl (roundTrips_string o.key)
      value := required_of_find? rfl (roundTrips_value o.value)
      line := optionalOrNothing_of_find? rfl rfl fun n hn => roundTrips_nat (h.line n hn)
      column := optionalOrNothing_of_find? rfl rfl fun n hn => roundTrips_nat (h.column n hn) }⟩

theorem Directive.roundTrips_token (text : String) : RoundTrips encodeToken decodeToken text := by
  rw [RoundTrips, encodeToken, decodeToken, read_object rfl]
  simp only [Option.bind_eq_bind, Option.bind_some]
  exact required_of_find? rfl (roundTrips_string text)

theorem LetterPitch.roundTrips (p : LetterPitch) : RoundTrips encode decode p := by
  rw [RoundTrips, encode, decode, read_object rfl]
  simp only [Option.bind_eq_bind, Option.bind_some]
  rw [required_of_find? rfl (roundTrips_string p.key),
    optional_of_find? rfl rfl fun s _ => roundTrips_string s,
    optional_of_find? rfl rfl fun s _ => roundTrips_string s]
  rfl

/-- The fields of a position of a chord as a record gives them. -/
structure NoteEntry.Given (r : Record) (n : NoteEntry) : Prop where
  time : r.optional "time" Value.asString? = some n.time
  dot : r.orElse "dot" false Value.asBool? = some n.dot
  fret : r.optional "fret" Fret.decode = some n.fret
  string : r.optional "string" Value.asNat32? = some n.string
  letterPitch : r.optional "abc" LetterPitch.decode = some n.letterPitch
  octave : r.optional "octave" Value.asInt32? = some n.octave
  articulation : r.optional "articulation" Articulation.decode = some n.articulation
  decorator : r.optional "decorator" Decorator.decode = some n.decorator

theorem NoteEntry.decode_eq_some_iff {v : Value} {n : NoteEntry} :
    decode v = some n ↔
      ∃ r, Record.read Directive.Names.noteEntry v = some r ∧ n.Given r := by
  constructor
  · intro h
    obtain ⟨r, hr, h⟩ := Option.bind_eq_some_iff.1 h
    obtain ⟨time, htime, h⟩ := Option.bind_eq_some_iff.1 h
    obtain ⟨dot, hdot, h⟩ := Option.bind_eq_some_iff.1 h
    obtain ⟨fret, hfret, h⟩ := Option.bind_eq_some_iff.1 h
    obtain ⟨string, hstring, h⟩ := Option.bind_eq_some_iff.1 h
    obtain ⟨letterPitch, hletterPitch, h⟩ := Option.bind_eq_some_iff.1 h
    obtain ⟨octave, hoctave, h⟩ := Option.bind_eq_some_iff.1 h
    obtain ⟨articulation, harticulation, h⟩ := Option.bind_eq_some_iff.1 h
    obtain ⟨decorator, hdecorator, h⟩ := Option.bind_eq_some_iff.1 h
    cases h
    exact ⟨r, hr, htime, hdot, hfret, hstring, hletterPitch, hoctave, harticulation, hdecorator⟩
  · rintro ⟨r, hr, h⟩
    rw [decode, hr, Option.bind_eq_bind, Option.bind_some, h.time, h.dot, h.fret,
      h.string, h.letterPitch, h.octave, h.articulation, h.decorator]
    rfl

theorem NoteEntry.roundTrips {n : NoteEntry} (h : n.Fits) : RoundTrips encode decode n :=
  decode_eq_some_iff.2 ⟨_, read_object rfl,
    { time := optional_of_find? rfl rfl fun s _ => roundTrips_string s
      dot := orElse_of_find? rfl (roundTrips_boolean n.dot)
      fret := optional_of_find? rfl rfl fun f hf => Fret.roundTrips (h.fret f hf)
      string := optional_of_find? rfl rfl fun k hk => roundTrips_nat (h.string k hk)
      letterPitch := optional_of_find? rfl rfl fun p _ => LetterPitch.roundTrips p
      octave := optional_of_find? rfl rfl fun k hk => roundTrips_int (h.octave k hk)
      articulation := optional_of_find? rfl rfl fun a _ => Articulation.roundTrips a
      decorator := optional_of_find? rfl rfl fun d _ => Decorator.roundTrips d }⟩

namespace Parameters

theorem kept_int {n : Int} (h : FitsInt32 n ∨ 0 ≤ n ∧ n < 4294967296) (limit : Nat) :
    (Value.int n).Kept limit := by
  have hrange : -9223372036854775808 ≤ n ∧ n < 18446744073709551616 := by
    unfold FitsInt32 at h
    omega
  refine ⟨?_, Nat.zero_le limit⟩
  rw [Value.int, Value.numbersInRange, Number.inRange]
  simp [hrange.1, hrange.2]

theorem kept_nat {n : Nat} (h : FitsNat32 n) (limit : Nat) : (Value.nat n).Kept limit := by
  refine kept_int (.inr ?_) limit
  unfold FitsNat32 at h
  omega

/-- What is written for parameters can be kept. -/
theorem kept_encode {p : Parameters} (h : p.Fits) : p.encode.Kept depthLimit := by
  cases p with
  | tuplet count notes =>
      rw [encode, Value.kept_object]
      refine ⟨by decide, List.forall_mem_cons.2 ⟨kept_nat h.1 _, List.forall_mem_singleton.2 ?_⟩⟩
      cases notes with
      | none => exact ⟨rfl, Nat.zero_le _⟩
      | some n => exact kept_nat (h.2 n rfl) _
  | rest position =>
      rw [encode, Value.kept_object]
      exact ⟨by decide, List.forall_mem_singleton.2 (kept_int (.inl h) _)⟩
  | tokens words =>
      rw [encode, Value.list, Value.kept_array, List.forall_mem_map]
      exact ⟨by decide, fun _ _ => ⟨rfl, Nat.zero_le _⟩⟩
  | line text => exact ⟨rfl, Nat.zero_le _⟩

theorem decodeTuplet_tuplet {count : Nat} {notes : Option Nat} (hcount : FitsNat32 count)
    (hnotes : FitsIfAny FitsNat32 notes) :
    decodeTuplet [("tuplet", .nat count), ("notes", .option .nat notes)] =
      some (tuplet count notes) := by
  rw [decodeTuplet, ofMembers_once rfl, Option.bind_eq_bind, Option.bind_some,
    required_of_find? rfl (roundTrips_nat hcount), Option.bind_eq_bind, Option.bind_some,
    optional_of_find? rfl rfl fun n hn => roundTrips_nat (hnotes n hn)]
  rfl

theorem decodeRest_rest {position : Int} (h : (rest position).Fits) :
    decodeRest [("position", .int position)] = some (rest position) := by
  rw [decodeRest, ofMembers_once rfl, Option.bind_eq_bind, Option.bind_some,
    required_of_find? rfl (roundTrips_int h)]
  rfl

/-- A rest has no field that a tuplet must have. -/
theorem decodeTuplet_rest (position : Int) : decodeTuplet [("position", .int position)] = none :=
  rfl

/-- Parameters are read in the shape that they were written in. -/
theorem decodeShape_encode {p : Parameters} (h : p.Fits) : decodeShape p.encode = some p := by
  cases p with
  | tuplet count notes => rw [encode, decodeShape, decodeTuplet_tuplet h.1 h.2, Option.some_or]
  | rest position =>
      rw [encode, decodeShape, decodeTuplet_rest, Option.none_or, decodeRest_rest h]
  | tokens words =>
      have hwords := asList?_list fun word (_ : word ∈ words) => roundTrips_string word
      exact congrArg (·.map tokens) hwords
  | line text => rfl

theorem roundTrips {p : Parameters} (h : p.Fits) : RoundTrips encode decode p :=
  (decode_eq.1 (kept_encode h)).trans (decodeShape_encode h)

end Parameters

/-- The fields of a note element as a record gives them. -/
structure NoteElement.Given (r : Record) (e : NoteElement) : Prop where
  time : r.optional "time" Value.asString? = some e.time
  dot : r.orElse "dot" false Value.asBool? = some e.dot
  command : r.optional "command" Value.asString? = some e.command
  barName : r.optional "type" Value.asString? = some e.barName
  parameters : r.optional "params" Parameters.decode = some e.parameters
  chord : r.optional "chord" (Value.asList? NoteEntry.decode) = some e.chord
  articulation : r.optional "articulation" Articulation.decode = some e.articulation
  decorator : r.optional "decorator" Decorator.decode = some e.decorator
  fret : r.optional "fret" Fret.decode = some e.fret
  string : r.optional "string" Value.asNat32? = some e.string
  letterPitch : r.optional "abc" LetterPitch.decode = some e.letterPitch
  octave : r.optional "octave" Value.asInt32? = some e.octave
  line : r.optionalOrNothing "_l" Value.asNat32? = some e.line
  column : r.optionalOrNothing "_c" Value.asNat32? = some e.column

theorem NoteElement.decode_eq_some_iff {v : Value} {e : NoteElement} :
    decode v = some e ↔
      ∃ r, Record.read Directive.Names.noteElement v = some r ∧ e.Given r := by
  constructor
  · intro h
    obtain ⟨r, hr, h⟩ := Option.bind_eq_some_iff.1 h
    obtain ⟨time, htime, h⟩ := Option.bind_eq_some_iff.1 h
    obtain ⟨dot, hdot, h⟩ := Option.bind_eq_some_iff.1 h
    obtain ⟨command, hcommand, h⟩ := Option.bind_eq_some_iff.1 h
    obtain ⟨barName, hbarName, h⟩ := Option.bind_eq_some_iff.1 h
    obtain ⟨parameters, hparameters, h⟩ := Option.bind_eq_some_iff.1 h
    obtain ⟨chord, hchord, h⟩ := Option.bind_eq_some_iff.1 h
    obtain ⟨articulation, harticulation, h⟩ := Option.bind_eq_some_iff.1 h
    obtain ⟨decorator, hdecorator, h⟩ := Option.bind_eq_some_iff.1 h
    obtain ⟨fret, hfret, h⟩ := Option.bind_eq_some_iff.1 h
    obtain ⟨string, hstring, h⟩ := Option.bind_eq_some_iff.1 h
    obtain ⟨letterPitch, hletterPitch, h⟩ := Option.bind_eq_some_iff.1 h
    obtain ⟨octave, hoctave, h⟩ := Option.bind_eq_some_iff.1 h
    obtain ⟨line, hline, h⟩ := Option.bind_eq_some_iff.1 h
    obtain ⟨column, hcolumn, h⟩ := Option.bind_eq_some_iff.1 h
    cases h
    exact ⟨r, hr, htime, hdot, hcommand, hbarName, hparameters, hchord, harticulation,
      hdecorator, hfret, hstring, hletterPitch, hoctave, hline, hcolumn⟩
  · rintro ⟨r, hr, h⟩
    rw [decode, hr, Option.bind_eq_bind, Option.bind_some, h.time, h.dot,
      h.command, h.barName, h.parameters, h.chord, h.articulation, h.decorator, h.fret,
      h.string, h.letterPitch, h.octave, h.line, h.column]
    rfl

theorem NoteElement.roundTrips {e : NoteElement} (h : e.Fits) : RoundTrips encode decode e :=
  decode_eq_some_iff.2 ⟨_, read_object rfl,
    { time := optional_of_find? rfl rfl fun s _ => roundTrips_string s
      dot := orElse_of_find? rfl (roundTrips_boolean e.dot)
      command := optional_of_find? rfl rfl fun s _ => roundTrips_string s
      barName := optional_of_find? rfl rfl fun s _ => roundTrips_string s
      parameters := optional_of_find? rfl rfl fun p hp => Parameters.roundTrips (h.parameters p hp)
      chord := optional_of_find? rfl rfl fun ns hns =>
        asList?_list fun n hn => NoteEntry.roundTrips (h.chord ns hns n hn)
      articulation := optional_of_find? rfl rfl fun a _ => Articulation.roundTrips a
      decorator := optional_of_find? rfl rfl fun d _ => Decorator.roundTrips d
      fret := optional_of_find? rfl rfl fun f hf => Fret.roundTrips (h.fret f hf)
      string := optional_of_find? rfl rfl fun k hk => roundTrips_nat (h.string k hk)
      letterPitch := optional_of_find? rfl rfl fun p _ => LetterPitch.roundTrips p
      octave := optional_of_find? rfl rfl fun k hk => roundTrips_int (h.octave k hk)
      line := optionalOrNothing_of_find? rfl rfl fun k hk => roundTrips_nat (h.line k hk)
      column := optionalOrNothing_of_find? rfl rfl fun k hk => roundTrips_nat (h.column k hk) }⟩

/-- The fields of a directive as a record gives them. -/
structure Directive.Given (r : Record) (d : Directive) : Prop where
  keyword : r.required "element" Value.asString? = some d.keyword
  options : r.orElse "options" [] (Value.asList? OptionEntry.decode) = some d.options
  settings : r.orElse "params" [] (Value.asList? OptionEntry.decode) = some d.settings
  notes : r.orElse "notes" [] (Value.asList? NoteElement.decode) = some d.notes
  text : r.orElse "text" [] (Value.asList? Directive.decodeToken) = some d.text
  line : r.optionalOrNothing "_l" Value.asNat32? = some d.line
  column : r.optionalOrNothing "_c" Value.asNat32? = some d.column

theorem Directive.decode_eq_some_iff {v : Value} {d : Directive} :
    decode v = some d ↔
      ∃ r, Record.read Directive.Names.directive v = some r ∧ d.Given r := by
  constructor
  · intro h
    obtain ⟨r, hr, h⟩ := Option.bind_eq_some_iff.1 h
    obtain ⟨keyword, hkeyword, h⟩ := Option.bind_eq_some_iff.1 h
    obtain ⟨options, hoptions, h⟩ := Option.bind_eq_some_iff.1 h
    obtain ⟨settings, hsettings, h⟩ := Option.bind_eq_some_iff.1 h
    obtain ⟨notes, hnotes, h⟩ := Option.bind_eq_some_iff.1 h
    obtain ⟨text, htext, h⟩ := Option.bind_eq_some_iff.1 h
    obtain ⟨line, hline, h⟩ := Option.bind_eq_some_iff.1 h
    obtain ⟨column, hcolumn, h⟩ := Option.bind_eq_some_iff.1 h
    cases h
    exact ⟨r, hr, hkeyword, hoptions, hsettings, hnotes, htext, hline, hcolumn⟩
  · rintro ⟨r, hr, h⟩
    rw [decode, hr, Option.bind_eq_bind, Option.bind_some, h.keyword, h.options,
      h.settings, h.notes, h.text, h.line, h.column]
    rfl

theorem Directive.roundTrips {d : Directive} (h : d.Fits) : RoundTrips encode decode d :=
  decode_eq_some_iff.2 ⟨_, read_object rfl,
    { keyword := required_of_find? rfl (roundTrips_string d.keyword)
      options := orElse_of_find? rfl
        (asList?_list fun o ho => OptionEntry.roundTrips (h.options o ho))
      settings := orElse_of_find? rfl
        (asList?_list fun o ho => OptionEntry.roundTrips (h.settings o ho))
      notes := orElse_of_find? rfl (asList?_list fun e he => NoteElement.roundTrips (h.notes e he))
      text := orElse_of_find? rfl (asList?_list fun text _ => roundTrips_token text)
      line := optionalOrNothing_of_find? rfl rfl fun k hk => roundTrips_nat (h.line k hk)
      column := optionalOrNothing_of_find? rfl rfl fun k hk => roundTrips_nat (h.column k hk) }⟩

/-! ## Whatever is read fits -/

/-- Whatever a reader reads has a property. -/
def Yields {α : Type} (decode : Value → Option α) (p : α → Prop) : Prop :=
  ∀ v a, decode v = some a → p a

section Yields

variable {α : Type} {decode : Value → Option α} {p : α → Prop} {r : Record} {name : String}
  {o : Option α}

theorem yields_asNat32? : Yields Value.asNat32? FitsNat32 := by
  intro v n h
  unfold Value.asNat32? at h
  split at h
  · split at h
    · rename_i hrange
      cases h
      unfold FitsNat32
      omega
    · cases h
  · cases h

theorem yields_asInt32? : Yields Value.asInt32? FitsInt32 := by
  intro v n h
  unfold Value.asInt32? at h
  split at h
  · split at h
    · rename_i hrange
      cases h
      exact hrange
    · cases h
  · cases h

theorem Fret.fits_of_read {text : String} {f : Fret} (h : Fret.read text = .ok f) : f.Fits := by
  unfold Fret.read at h
  dsimp only at h
  split at h
  · cases h
    exact fun _ => nofun
  · split at h
    · rename_i n hn
      cases h
      rintro _ ⟨⟩
      exact of_decide_eq_true (p := n < 4294967296) (Option.filter_eq_some_iff.1 hn).2
    · cases h

theorem Fret.yields_decode : Yields Fret.decode Fret.Fits := by
  intro v f h
  unfold Fret.decode at h
  split at h
  · rename_i text
    cases hread : Fret.read text with
    | error cause =>
        rw [hread] at h
        cases h
    | ok g =>
        rw [hread] at h
        cases h
        exact fits_of_read hread
  · obtain ⟨n, hn, rfl⟩ := Option.map_eq_some_iff.1 h
    rintro _ ⟨⟩
    exact yields_asNat32? v n hn

theorem Yields.required {a : α} (h : Yields decode p) (ha : r.required name decode = some a) :
    p a := by
  unfold Record.required at ha
  split at ha
  · exact h _ a ha
  · cases ha

theorem Yields.nullable (h : Yields decode p) :
    Yields (Record.nullable decode) (FitsIfAny p) := by
  intro v o ho a ha
  unfold Record.nullable at ho
  split at ho
  · cases ho
    cases ha
  · obtain ⟨b, hb, rfl⟩ := Option.map_eq_some_iff.1 ho
    cases ha
    exact h v a hb

theorem Yields.optional (h : Yields decode p) (ho : r.optional name decode = some o) :
    FitsIfAny p o := by
  unfold Record.optional at ho
  split at ho
  · exact h.nullable _ o ho
  · split at ho
    · cases ho
    · cases ho
      exact fun _ => nofun

theorem Yields.optionalOrNothing (h : Yields decode p)
    (ho : r.optionalOrNothing name decode = some o) : FitsIfAny p o := by
  unfold Record.optionalOrNothing at ho
  split at ho
  · exact h.nullable _ o ho
  · cases ho
    exact fun _ => nofun

theorem Yields.asList? (h : Yields decode p) :
    Yields (Value.asList? decode) (∀ a ∈ ·, p a) := by
  intro v as has
  cases v with
  | array items =>
      replace has : Value.decodeAll decode items = some as := has
      induction items generalizing as with
      | nil =>
          cases has
          exact List.forall_mem_nil p
      | cons item items ih =>
          rw [Value.decodeAll] at has
          split at has
          · rename_i a rest ha hrest
            cases has
            exact List.forall_mem_cons.2 ⟨h item a ha, ih rest hrest⟩
          · cases has
  | _ => cases has

theorem Yields.orElse {as : List α} (h : Yields decode p)
    (has : r.orElse name [] (Value.asList? decode) = some as) : ∀ a ∈ as, p a := by
  unfold Record.orElse at has
  split at has
  · exact h.asList? _ as has
  · cases has
    exact List.forall_mem_nil p

end Yields

theorem OptionEntry.yields_decode : Yields decode Fits := by
  intro v o h
  obtain ⟨r, -, hgiven⟩ := decode_eq_some_iff.1 h
  exact
    { line := yields_asNat32?.optionalOrNothing hgiven.line
      column := yields_asNat32?.optionalOrNothing hgiven.column }

theorem NoteEntry.yields_decode : Yields decode Fits := by
  intro v n h
  obtain ⟨r, -, hgiven⟩ := decode_eq_some_iff.1 h
  exact
    { fret := Fret.yields_decode.optional hgiven.fret
      string := yields_asNat32?.optional hgiven.string
      octave := yields_asInt32?.optional hgiven.octave }

namespace Parameters

theorem fits_of_decodeTuplet {members : List (String × Value)} {p : Parameters}
    (h : decodeTuplet members = some p) : p.Fits := by
  simp only [decodeTuplet, Option.bind_eq_bind, Option.bind_eq_some_iff] at h
  obtain ⟨r, -, count, hcount, notes, hnotes, h⟩ := h
  cases h
  exact ⟨yields_asNat32?.required hcount, yields_asNat32?.optional hnotes⟩

theorem fits_of_decodeRest {members : List (String × Value)} {p : Parameters}
    (h : decodeRest members = some p) : p.Fits := by
  simp only [decodeRest, Option.bind_eq_bind, Option.bind_eq_some_iff] at h
  obtain ⟨r, -, position, hposition, h⟩ := h
  cases h
  exact yields_asInt32?.required (p := FitsInt32) hposition

theorem yields_decodeShape : Yields decodeShape Fits := by
  intro v p h
  cases v with
  | object members =>
      rcases Option.or_eq_some_iff.1 h with h | ⟨-, h⟩
      · exact fits_of_decodeTuplet h
      · exact fits_of_decodeRest h
  | array items =>
      obtain ⟨words, -, rfl⟩ := Option.map_eq_some_iff.1 h
      exact trivial
  | string text =>
      cases h
      exact trivial
  | _ => cases h

theorem yields_decode : Yields decode Fits := by
  intro v p h
  unfold decode at h
  split at h
  · exact yields_decodeShape v p h
  · cases h

end Parameters

theorem NoteElement.yields_decode : Yields decode Fits := by
  intro v e h
  obtain ⟨r, -, hgiven⟩ := decode_eq_some_iff.1 h
  exact
    { parameters := Parameters.yields_decode.optional hgiven.parameters
      chord := NoteEntry.yields_decode.asList?.optional hgiven.chord
      fret := Fret.yields_decode.optional hgiven.fret
      string := yields_asNat32?.optional hgiven.string
      octave := yields_asInt32?.optional hgiven.octave
      line := yields_asNat32?.optionalOrNothing hgiven.line
      column := yields_asNat32?.optionalOrNothing hgiven.column }

namespace Directive

theorem yields_decode : Yields decode Fits := by
  intro v d h
  obtain ⟨r, -, hgiven⟩ := decode_eq_some_iff.1 h
  exact
    { options := OptionEntry.yields_decode.orElse hgiven.options
      settings := OptionEntry.yields_decode.orElse hgiven.settings
      notes := NoteElement.yields_decode.orElse hgiven.notes
      line := yields_asNat32?.optionalOrNothing hgiven.line
      column := yields_asNat32?.optionalOrNothing hgiven.column }

/-! ## Lists of directives -/

/-- What is written of a list of directives is read back exactly if its numbers fit. -/
theorem roundTrips_list_iff {ds : List Directive} :
    RoundTrips encodeList decodeList ds ↔ ∀ d ∈ ds, d.Fits :=
  ⟨yields_decode.asList? _ ds, fun h => asList?_list fun d hd => roundTrips (h d hd)⟩

/-- **Directives survive their JSON.** From the JSON that is written for them directives are read
back as they were, exactly if their numbers fit; and what is read from any JSON is not changed by
any number of edits. A member with an unknown name may hold any value, but for the parameters of a
command, which are read as before exactly if the value can be kept with them. -/
theorem survives_json :
    (∀ ds, decodeList (encodeList ds) = some ds ↔ ∀ d ∈ ds, d.Fits) ∧
      (∀ v v', Relation.EqvGen (Edit (.list format)) v v' → decodeList v = decodeList v') ∧
      ∀ members name value p, Parameters.decode (.object members) = some p →
        name ∉ Parameters.known members →
          (Parameters.decode (.object ((name, value) :: members)) = some p ↔
            Format.parameters.Admits value) := by
  refine ⟨fun _ => roundTrips_list_iff, fun v v' h => ?_, fun _ _ _ _ =>
    Parameters.decode_add_eq_some_iff⟩
  induction h with
  | rel v v' h => exact blind_decodeList v v' h
  | refl v => rfl
  | symm v v' _ ih => exact ih.symm
  | trans v w v' _ _ ih ih' => exact ih.trans ih'

/-- A stave with one command. -/
def commanded (parameters : Parameters) : Directive :=
  { keyword := "tabstave", options := [⟨"key", "A", some 1, some 9⟩], settings := []
    notes :=
      [{ time := none, dot := false, command := some "rest", barName := none
         parameters := some parameters, chord := none, articulation := none, decorator := none
         fret := none, string := none, letterPitch := none, octave := none, line := none
         column := none }]
    text := ["words"], line := some 1, column := none }

/-- The JSON of its note, the parameters being written by themselves. -/
def commandedNote (parameters : Value) : Value :=
  .object ([("time", .null), ("dot", .boolean false), ("command", .string "rest"), ("type", .null)] ++
    ("params", parameters) :: [("chord", .null), ("articulation", .null), ("decorator", .null),
      ("fret", .null), ("string", .null), ("abc", .null), ("octave", .null), ("_l", .null),
      ("_c", .null)])

/-- The members of its JSON. -/
def commandedMembers (parameters : Value) : List (String × Value) :=
  [("element", .string "tabstave"),
    ("options", .list OptionEntry.encode [⟨"key", "A", some 1, some 9⟩]), ("params", .array [])] ++
    ("notes", .array ([] ++ commandedNote parameters :: [])) ::
      [("text", .list encodeToken ["words"]), ("_l", .nat 1), ("_c", .null)]

/-- A stave with a rest is written, its members are reversed, one is added to them and one to the
parameters of the rest. -/
theorem survives_json_reversed :
    let plain := Value.object [("position", .int 0)]
    let added := Value.object [("margin", .array [.int 3, .null]), ("position", .int 0)]
    let v := Value.array [.object (("comment", .null) :: (commandedMembers added).reverse)]
    (commanded (.rest 0)).Fits ∧
      encodeList [commanded (.rest 0)] = .array [.object (commandedMembers plain)] ∧
      Relation.EqvGen (Edit (.list format)) (encodeList [commanded (.rest 0)]) v ∧
      decodeList v = some [commanded (.rest 0)] ∧
      Format.parameters.Admits (.array [.int 3, .null]) := by
  intro plain added v
  have hfits (n : Nat) (h : n < 4294967296) : FitsIfAny FitsNat32 (some n) := by
    rintro _ ⟨⟩
    exact h
  have hnone {α : Type} (fits : α → Prop) : FitsIfAny fits none := nofun
  have hrest : FitsIfAny Parameters.Fits (some (.rest 0)) := by
    rintro _ ⟨⟩
    exact ⟨by decide, by decide⟩
  have hds : (commanded (.rest 0)).Fits :=
    { options := List.forall_mem_singleton.2 ⟨hfits 1 (by decide), hfits 9 (by decide)⟩
      settings := List.forall_mem_nil _
      notes := List.forall_mem_singleton.2
        ⟨hrest, hnone _, hnone _, hnone _, hnone _, hnone _, hnone _⟩
      line := hfits 1 (by decide)
      column := hnone _ }
  have hadmits : Format.parameters.Admits (.array [.int 3, .null]) := ⟨rfl, by decide⟩
  have inList {w w' : Value} (h : Edit format w w') :
      Relation.EqvGen (Edit (.list format)) (.array ([] ++ w :: [])) (.array ([] ++ w' :: [])) :=
    .rel _ _ (.inItem h)
  have hparameters : Edit format (.object (commandedMembers plain))
      (.object (commandedMembers added)) :=
    .inMember (.inItem (.inMember (.add (by decide) hadmits)))
  have hreverse : Edit format (.object (commandedMembers added))
      (.object (commandedMembers added).reverse) :=
    .permute (commandedMembers added).reverse_perm.symm
  have hcomment : Edit format (.object (commandedMembers added).reverse)
      (.object (("comment", .null) :: (commandedMembers added).reverse)) :=
    .add (by decide) trivial
  have hedits : Relation.EqvGen (Edit (.list format)) (encodeList [commanded (.rest 0)]) v :=
    .trans _ _ _ (inList hparameters) (.trans _ _ _ (inList hreverse) (inList hcomment))
  refine ⟨hds, rfl, hedits, ?_, ?_⟩
  · rw [← survives_json.2.1 _ _ hedits]
    exact (survives_json.1 _).2 (List.forall_mem_singleton.2 hds)
  · exact (survives_json.2.2 [("position", .int 0)] "margin" _ (.rest 0) rfl (by decide)).1 rfl

/-- Of the parameters of a rest the shape knows one name. With a number under another name that is too
large for a double they cannot be read, and with a number of notes per beat they are a tuplet's. -/
theorem decodeList_added :
    let position := ("position", Value.int 0)
    let large := ("x", Value.number (.decimal ⟨false, 1, [], some 999⟩))
    let v (members : List (String × Value)) :=
      Value.array [.object (commandedMembers (.object members))]
    "x" ∉ Directive.Names.tuplet ++ Directive.Names.rest ∧ "tuplet" ∉ Directive.Names.rest ∧
      decodeList (v [position]) = some [commanded (.rest 0)] ∧
      decodeList (v [large, position]) = none ∧
      decodeList (v [("tuplet", .nat 3), position]) = some [commanded (.tuplet 3 none)] := by
  refine ⟨by decide, by decide, rfl, ?_, rfl⟩
  decide +kernel

end Directive

end Tablature
