/-
# Tablature.Proofs.Rearranging — what may be changed in the JSON of directives.

A record is read by the names of its fields, so the order of the members of an object does not
matter, nor does a member whose name the record does not know. An `Edit` is one such change at one
place of a value, however deep it lies; which names are known at a place is said by the `Format` of
the whole. A reader is `Blind` to the edits of a format if it reads the same before and after, and
each reader of directives is blind to the edits of what it reads (`Directive.blind_decodeList`). The
parameters of a command are the one exception: they are kept as a whole before they are read, and one
shape is tried after the other. So a member that is added to them must hold a value that can be kept
(`Parameters.decode_add_eq_some_iff`), and its name may be known to no shape that it could turn them
into (`Parameters.known`).
-/
import Mathlib.Logic.Relation
import Tablature.Directive.Decode

namespace Tablature

open Json

/-! ## Formats and edits -/

/-- What is written at a place: a record with the formats of its fields, a list with the format of
its items, the parameters of a command, or anything else. -/
inductive Format
  | plain
  | list (item : Format)
  | record (fields : List (String × Format))
  | parameters

/-- The names that parameters with these members know. A rest is tried as a tuplet first, so it knows
the name that would make it one; parameters that are neither know the names of both. -/
def Parameters.known (members : List (String × Value)) : List String :=
  if (decodeTuplet members).isSome then Directive.Names.tuplet
  else if (decodeRest members).isSome then "tuplet" :: Directive.Names.rest
  else Directive.Names.tuplet ++ Directive.Names.rest

namespace Format

/-- The names that an object with these members knows at a place. -/
def known (members : List (String × Value)) : Format → List String
  | record fields => fields.map (·.1)
  | parameters => Parameters.known members
  | _ => []

/-- The format of the field with a name. -/
def field (name : String) : Format → Format
  | record fields => ((fields.find? (·.1 == name)).map (·.2)).getD plain
  | _ => plain

/-- The format of an item of an array. An array can also be a record written without names. -/
def item (place : Nat) : Format → Format
  | list format => format
  | record fields => ((fields[place]?).map fun entry => (record fields).field entry.1).getD plain
  | _ => plain

/-- May a member with an unknown name hold a value? Only parameters are choosy: they are kept as a
whole before they are read, so a value in them must be one that can be kept. -/
def Admits : Format → Value → Prop
  | record _, _ => True
  | parameters, v => v.numbersInRange ∧ v.depth < Parameters.depthLimit
  | _, _ => False

end Format

/-- One change of a value at one place: the members of an object in another order, or one member
more whose name is not known there. -/
inductive Edit : Format → Value → Value → Prop
  | permute {f : Format} {members members' : List (String × Value)} (h : members.Perm members') :
      Edit f (.object members) (.object members')
  | add {f : Format} {members : List (String × Value)} {name : String} {value : Value}
      (unknown : name ∉ f.known members) (admits : f.Admits value) :
      Edit f (.object members) (.object ((name, value) :: members))
  | inMember {f : Format} {before after : List (String × Value)} {name : String}
      {value value' : Value} (h : Edit (f.field name) value value') :
      Edit f (.object (before ++ (name, value) :: after))
        (.object (before ++ (name, value') :: after))
  | inItem {f : Format} {before after : List Value} {value value' : Value}
      (h : Edit (f.item before.length) value value') :
      Edit f (.array (before ++ value :: after)) (.array (before ++ value' :: after))

/-- Is the value an array or an object? -/
def Json.Value.isCompound : Value → Bool
  | .array _ | .object _ => true
  | _ => false

theorem Edit.isCompound {f : Format} {v v' : Value} (h : Edit f v v') :
    v.isCompound ∧ v'.isCompound := by
  cases h <;> exact ⟨rfl, rfl⟩

/-- A reader that reads the same before and after an edit. -/
def Blind {α : Type} (f : Format) (decode : Value → Option α) : Prop :=
  ∀ v v', Edit f v v' → decode v = decode v'

section Readers

variable {α β : Type} {f : Format} {decode : Value → Option α}

/-! ## Readers of plain values -/

/-- A reader that reads neither arrays nor objects. -/
theorem Blind.of_atoms (harray : ∀ items, decode (.array items) = none)
    (hobject : ∀ members, decode (.object members) = none) : Blind f decode := by
  intro v v' hedit
  cases hedit with
  | inItem _ => rw [harray, harray]
  | _ => rw [hobject, hobject]

theorem blind_asString? : Blind f Value.asString? := .of_atoms (fun _ => rfl) fun _ => rfl

theorem blind_asBool? : Blind f Value.asBool? := .of_atoms (fun _ => rfl) fun _ => rfl

theorem blind_asNat32? : Blind f Value.asNat32? := .of_atoms (fun _ => rfl) fun _ => rfl

theorem blind_asInt32? : Blind f Value.asInt32? := .of_atoms (fun _ => rfl) fun _ => rfl

theorem OptionEntry.blind_decodeValue : Blind f OptionEntry.decodeValue :=
  .of_atoms (fun _ => rfl) fun _ => rfl

theorem Fret.blind_decode : Blind f Fret.decode := .of_atoms (fun _ => rfl) fun _ => rfl

theorem Blind.bind (h : Blind f decode) (next : α → Option β) :
    Blind f fun v => (decode v).bind next := by
  intro v v' hedit
  dsimp only
  rw [h v v' hedit]

theorem Blind.nullable (h : Blind f decode) : Blind f (Record.nullable decode) := by
  have hcompound (v : Value) (hv : v.isCompound) : Record.nullable decode v = (decode v).map some :=
    match v, hv with
    | .array _, _ | .object _, _ => rfl
  intro v v' hedit
  rw [hcompound v hedit.isCompound.1, hcompound v' hedit.isCompound.2, h v v' hedit]

theorem Directive.decodeTag_object {members : List (String × Value)} {name : String} :
    Directive.decodeTag (.object members) = some name ↔ members = [(name, .null)] := by
  match members with
  | [] => simp [Directive.decodeTag]
  | [(only, value)] => cases value <;> simp [Directive.decodeTag]
  | _ :: _ :: _ => simp [Directive.decodeTag]

/-- An object is a tag if `null` is all that it holds, and there is nothing to be edited in it. -/
theorem Directive.blind_decodeTag : Blind .plain Directive.decodeTag := by
  intro v v' hedit
  cases hedit with
  | permute h =>
      refine Option.ext fun name => ?_
      rw [decodeTag_object, decodeTag_object]
      constructor
      · rintro rfl
        exact List.perm_singleton.1 h.symm
      · rintro rfl
        exact List.perm_singleton.1 h
  | add _ admits => exact admits.elim
  | @inMember _ before after name value value' h =>
      have hnot (u : Value) (hu : u.isCompound) (tag : String) :
          before ++ (name, u) :: after ≠ [(tag, .null)] := by
        intro heq
        have hmem : (name, u) ∈ [(tag, Value.null)] := by simp [← heq]
        cases List.mem_singleton.1 hmem
        cases hu
      refine Option.ext fun tag => ?_
      rw [decodeTag_object, decodeTag_object]
      exact iff_of_false (hnot value h.isCompound.1 tag) (hnot value' h.isCompound.2 tag)
  | inItem _ => rfl

theorem Articulation.blind_decode : Blind .plain Articulation.decode :=
  Directive.blind_decodeTag.bind Articulation.ofLetter?

theorem Decorator.blind_decode : Blind .plain Decorator.decode :=
  Directive.blind_decodeTag.bind Decorator.ofLetter?

/-! ## Readers of lists -/

theorem decodeAll_congr {before after : List Value} {v v' : Value} (h : decode v = decode v') :
    Value.decodeAll decode (before ++ v :: after) =
      Value.decodeAll decode (before ++ v' :: after) := by
  induction before with
  | nil => simp only [List.nil_append, Value.decodeAll, h]
  | cons u before ih => simp only [List.cons_append, Value.decodeAll, ih]

theorem Blind.asList? (h : Blind f decode) : Blind (.list f) (Value.asList? decode) := by
  intro v v' hedit
  cases hedit with
  | permute _ => rfl
  | add _ _ => rfl
  | inMember _ => rfl
  | inItem hitem => exact decodeAll_congr (h _ _ hitem)

end Readers

/-! ## Records -/

namespace Json.Record

/-- What two records have in common whose JSON differs by an edit: each field of interest is given
the same value, or values that differ by an edit. -/
structure Alike (f : Format) (names : List String) (r r' : Record) : Prop where
  positional : r.positional = r'.positional
  find? : ∀ name ∈ names, r.find? name = r'.find? name ∨
    ∃ v v', r.find? name = some v ∧ r'.find? name = some v' ∧ Edit (f.field name) v v'

namespace Alike

variable {α : Type} {f : Format} {names : List String} {r r' : Record}
  {decode : Value → Option α}

theorem required (h : Alike f names r r') (name : String) (hname : name ∈ names)
    (hblind : Blind (f.field name) decode) : r.required name decode = r'.required name decode := by
  unfold Record.required
  rcases h.find? name hname with heq | ⟨v, v', hv, hv', hedit⟩
  · rw [heq]
  · rw [hv, hv']
    exact hblind v v' hedit

theorem optional (h : Alike f names r r') (name : String) (hname : name ∈ names)
    (hblind : Blind (f.field name) decode) : r.optional name decode = r'.optional name decode := by
  unfold Record.optional
  rcases h.find? name hname with heq | ⟨v, v', hv, hv', hedit⟩
  · rw [heq, h.positional]
  · rw [hv, hv']
    exact hblind.nullable v v' hedit

theorem optionalOrNothing (h : Alike f names r r') (name : String) (hname : name ∈ names)
    (hblind : Blind (f.field name) decode) :
    r.optionalOrNothing name decode = r'.optionalOrNothing name decode := by
  unfold Record.optionalOrNothing
  rcases h.find? name hname with heq | ⟨v, v', hv, hv', hedit⟩
  · rw [heq]
  · rw [hv, hv']
    exact hblind.nullable v v' hedit

theorem orElse (h : Alike f names r r') (name : String) (hname : name ∈ names) (default : α)
    (hblind : Blind (f.field name) decode) :
    r.orElse name default decode = r'.orElse name default decode := by
  unfold Record.orElse
  rcases h.find? name hname with heq | ⟨v, v', hv, hv', hedit⟩
  · rw [heq]
  · rw [hv, hv']
    exact hblind v v' hedit

end Alike

section Members

variable {f : Format} {names : List String} {members members' : List (String × Value)}

/-- A field's value is replaced by an edited one. -/
theorem alike_replace (positional : Bool) {before after : List (String × Value)} {name : String}
    {value value' : Value} (h : Edit (f.field name) value value') :
    Alike f names ⟨positional, before ++ (name, value) :: after⟩
      ⟨positional, before ++ (name, value') :: after⟩ where
  positional := rfl
  find? := by
    intro other _
    unfold find?
    dsimp only
    rw [List.find?_append, List.find?_append]
    cases hbefore : before.find? (·.1 == other) with
    | some entry => exact .inl rfl
    | none =>
        by_cases hname : name = other
        · subst hname
          exact .inr ⟨value, value', by simp, by simp, h⟩
        · exact .inl (by simp [hname])

/-- A member with an unknown name is added. -/
theorem alike_add {name : String} (unknown : name ∉ names) {value : Value} :
    Alike f names ⟨false, members⟩ ⟨false, (name, value) :: members⟩ where
  positional := rfl
  find? := by
    intro other hother
    have hne : name ≠ other := by
      rintro rfl
      exact unknown hother
    left
    unfold find?
    dsimp only
    rw [List.find?_cons_of_neg (by simpa using hne)]

/-- How often a name is given. -/
theorem namesOnce_iff : namesOnce names members ↔
    ∀ name ∈ names, (members.filter (·.1 == name)).length ≤ 1 := by
  simp [namesOnce]

/-- The members are permuted, none of the names being given twice. -/
theorem alike_permute (h : members.Perm members') (honce : namesOnce names members) :
    Alike f names ⟨false, members⟩ ⟨false, members'⟩ where
  positional := rfl
  find? := by
    intro name hname
    left
    have hperm := h.filter (·.1 == name)
    have hle := namesOnce_iff.1 honce name hname
    -- At most one member is found, and a single member cannot be permuted.
    have heq : members.filter (·.1 == name) = members'.filter (·.1 == name) := by
      generalize members.filter (·.1 == name) = found at hperm hle
      match found, hle with
      | [], _ => exact (List.nil_perm.1 hperm).symm
      | [_], _ => exact List.singleton_perm.1 hperm
    unfold find?
    dsimp only
    rw [← List.head?_filter, ← List.head?_filter, heq]

theorem namesOnce_eq {members members' : List (String × Value)}
    (h : ∀ name ∈ names,
      (members.filter (·.1 == name)).length = (members'.filter (·.1 == name)).length) :
    namesOnce names members = namesOnce names members' :=
  Bool.eq_iff_iff.2 <| by
    rw [namesOnce_iff, namesOnce_iff]
    exact forall₂_congr fun name hname => by rw [h name hname]

/-- After a change an object is a record if it was one before, and then both are alike. -/
theorem rel_ofMembers (honce : namesOnce names members = namesOnce names members')
    (halike : namesOnce names members → Alike f names ⟨false, members⟩ ⟨false, members'⟩) :
    Option.Rel (Alike f names) (ofMembers names members) (ofMembers names members') := by
  unfold ofMembers
  rw [← honce]
  split
  · exact .some (halike ‹_›)
  · exact .none

theorem rel_permute (h : members.Perm members') :
    Option.Rel (Alike f names) (ofMembers names members) (ofMembers names members') :=
  rel_ofMembers (namesOnce_eq fun _ _ => (h.filter _).length_eq) (alike_permute h)

theorem rel_add {name : String} (unknown : name ∉ names) {value : Value} :
    Option.Rel (Alike f names) (ofMembers names members)
      (ofMembers names ((name, value) :: members)) := by
  refine rel_ofMembers (namesOnce_eq fun other hother => ?_) fun _ => alike_add unknown
  rw [List.filter_cons_of_neg]
  simp only [beq_iff_eq]
  rintro rfl
  exact unknown hother

theorem rel_inMember {before after : List (String × Value)} {name : String} {value value' : Value}
    (h : Edit (f.field name) value value') :
    Option.Rel (Alike f names) (ofMembers names (before ++ (name, value) :: after))
      (ofMembers names (before ++ (name, value') :: after)) := by
  refine rel_ofMembers (namesOnce_eq fun other _ => ?_) fun _ => alike_replace false h
  simp [List.filter_append, List.filter_cons]
  split <;> rfl

end Members

/-- An item of a record without names is the value of the field at its place. -/
theorem zip_item {names : List String} {before after : List Value}
    (h : before.length < names.length) (value : Value) :
    names.zip (before ++ value :: after) = (names.take before.length).zip before ++
      (names[before.length], value) :: (names.drop (before.length + 1)).zip after := by
  have hsplit : names = names.take before.length ++
      names[before.length] :: names.drop (before.length + 1) := by
    rw [← List.drop_eq_getElem_cons h, List.take_append_drop]
  refine (congrArg (List.zip · _) hsplit).trans ?_
  rw [List.zip_append (by simp; omega), List.zip_cons_cons]

/-- What is read as a record is read as one after an edit, and both are alike. -/
theorem rel_read {fields : List (String × Format)} {v v' : Value}
    (h : Edit (.record fields) v v') :
    Option.Rel (Alike (.record fields) (fields.map (·.1))) (read (fields.map (·.1)) v)
      (read (fields.map (·.1)) v') := by
  cases h with
  | permute h => exact rel_permute h
  | add unknown _ => exact rel_add unknown
  | inMember h => exact rel_inMember h
  | @inItem _ before after value value' h =>
      have hlength : (before ++ value :: after).length = (before ++ value' :: after).length := by
        simp
      unfold read
      dsimp only
      rw [← hlength]
      split
      · rename_i hle
        have hlt : before.length < (fields.map (·.1)).length := by
          rw [List.length_append, List.length_cons] at hle
          omega
        have hfield : (Format.record fields).item before.length =
            (Format.record fields).field (fields.map (·.1))[before.length] := by
          have hlt' : before.length < fields.length := by rwa [List.length_map] at hlt
          simp [Format.item, hlt']
        rw [zip_item hlt, zip_item hlt]
        exact .some (alike_replace true (hfield ▸ h))
      · exact .none

theorem bind_eq_of_rel {α β : Type} {R : α → α → Prop} {next : α → Option β} {a b : Option α}
    (h : Option.Rel R a b) (hnext : ∀ x y, R x y → next x = next y) :
    a.bind next = b.bind next := by
  cases h with
  | some hxy => exact hnext _ _ hxy
  | none => rfl

/-- A reader of a record is blind if what it makes of alike records is the same. -/
theorem blind_read {α : Type} {fields : List (String × Format)} {next : Record → Option α}
    (h : ∀ r r', Alike (.record fields) (fields.map (·.1)) r r' → next r = next r') :
    Blind (.record fields) fun v => (read (fields.map (·.1)) v).bind next :=
  fun _ _ hedit => bind_eq_of_rel (rel_read hedit) h

end Json.Record

/-! ## Readers of records -/

/-- A text token. -/
def Directive.tokenFormat : Format := .record [("text", .plain)]

theorem Directive.blind_decodeToken : Blind tokenFormat decodeToken :=
  Record.blind_read fun _ _ h => h.required "text" (by simp) blind_asString?

/-- An option. -/
def OptionEntry.format : Format :=
  .record [("key", .plain), ("value", .plain), ("_l", .plain), ("_c", .plain)]

theorem OptionEntry.blind_decode : Blind format decode := by
  refine Record.blind_read fun r r' h => ?_
  rw [h.required "key" (by simp) blind_asString?, h.required "value" (by simp) blind_decodeValue,
    h.optionalOrNothing "_l" (by simp) blind_asNat32?,
    h.optionalOrNothing "_c" (by simp) blind_asNat32?]

/-- An explicit pitch letter. -/
def LetterPitch.format : Format :=
  .record [("key", .plain), ("accidental", .plain), ("accidental_type", .plain)]

theorem LetterPitch.blind_decode : Blind format decode := by
  refine Record.blind_read fun r r' h => ?_
  rw [h.required "key" (by simp) blind_asString?, h.optional "accidental" (by simp) blind_asString?,
    h.optional "accidental_type" (by simp) blind_asString?]

/-- A position of a chord. -/
def NoteEntry.format : Format :=
  .record
    [("time", .plain), ("dot", .plain), ("fret", .plain), ("string", .plain),
      ("abc", LetterPitch.format), ("octave", .plain), ("articulation", .plain),
      ("decorator", .plain)]

theorem NoteEntry.blind_decode : Blind format decode := by
  refine Record.blind_read fun r r' h => ?_
  rw [h.optional "time" (by simp) blind_asString?, h.orElse "dot" (by simp) false blind_asBool?,
    h.optional "fret" (by simp) Fret.blind_decode, h.optional "string" (by simp) blind_asNat32?,
    h.optional "abc" (by simp) LetterPitch.blind_decode,
    h.optional "octave" (by simp) blind_asInt32?,
    h.optional "articulation" (by simp) Articulation.blind_decode,
    h.optional "decorator" (by simp) Decorator.blind_decode]

/-! ## Readers of parameters -/

namespace Json.Value

/-- A value that can be kept: its numbers can, and it is not nested more deeply than `limit`. -/
def Kept (limit : Nat) (v : Value) : Prop := v.numbersInRange ∧ v.depth ≤ limit

theorem itemsInRange_iff {items : List Value} :
    itemsInRange items ↔ ∀ v ∈ items, v.numbersInRange := by
  induction items with
  | nil => simp [itemsInRange]
  | cons item items ih => rw [itemsInRange, Bool.and_eq_true, ih, List.forall_mem_cons]

theorem membersInRange_iff {members : List (String × Value)} :
    membersInRange members ↔ ∀ entry ∈ members, entry.2.numbersInRange := by
  induction members with
  | nil => simp [membersInRange]
  | cons entry members ih => rw [membersInRange, Bool.and_eq_true, ih, List.forall_mem_cons]

theorem depthOfItems_le {items : List Value} {n : Nat} :
    depthOfItems items ≤ n ↔ ∀ v ∈ items, v.depth ≤ n := by
  induction items with
  | nil => simp [depthOfItems]
  | cons item items ih => rw [depthOfItems, Nat.max_le, ih, List.forall_mem_cons]

theorem depthOfMembers_le {members : List (String × Value)} {n : Nat} :
    depthOfMembers members ≤ n ↔ ∀ entry ∈ members, entry.2.depth ≤ n := by
  induction members with
  | nil => simp [depthOfMembers]
  | cons entry members ih => rw [depthOfMembers, Nat.max_le, ih, List.forall_mem_cons]

theorem kept_array {items : List Value} {limit : Nat} :
    (array items).Kept limit ↔ 0 < limit ∧ ∀ v ∈ items, v.Kept (limit - 1) := by
  have hdepth : depthOfItems items + 1 ≤ limit ↔ 0 < limit ∧ depthOfItems items ≤ limit - 1 := by
    omega
  simp only [Kept, numbersInRange, depth, itemsInRange_iff, hdepth, depthOfItems_le, imp_and,
    forall_and, and_left_comm]

theorem kept_object {members : List (String × Value)} {limit : Nat} :
    (object members).Kept limit ↔ 0 < limit ∧ ∀ entry ∈ members, entry.2.Kept (limit - 1) := by
  have hdepth : depthOfMembers members + 1 ≤ limit ↔
      0 < limit ∧ depthOfMembers members ≤ limit - 1 := by
    omega
  simp only [Kept, numbersInRange, depth, membersInRange_iff, hdepth, depthOfMembers_le, imp_and,
    forall_and, and_left_comm]

end Json.Value

theorem kept_permute {members members' : List (String × Value)} (h : members.Perm members')
    (limit : Nat) : (Value.object members).Kept limit ↔ (Value.object members').Kept limit := by
  rw [Value.kept_object, Value.kept_object]
  exact and_congr_right fun _ => forall_congr' fun entry => by rw [h.mem_iff]

theorem kept_inMember {before after : List (String × Value)} {name : String} {value value' : Value}
    (h : ∀ limit, value.Kept limit ↔ value'.Kept limit) (limit : Nat) :
    (Value.object (before ++ (name, value) :: after)).Kept limit ↔
      (Value.object (before ++ (name, value') :: after)).Kept limit := by
  rw [Value.kept_object, Value.kept_object, List.forall_mem_append, List.forall_mem_append,
    List.forall_mem_cons, List.forall_mem_cons, h (limit - 1)]

theorem kept_inItem {before after : List Value} {value value' : Value}
    (h : ∀ limit, value.Kept limit ↔ value'.Kept limit) (limit : Nat) :
    (Value.array (before ++ value :: after)).Kept limit ↔
      (Value.array (before ++ value' :: after)).Kept limit := by
  rw [Value.kept_array, Value.kept_array, List.forall_mem_append, List.forall_mem_append,
    List.forall_mem_cons, List.forall_mem_cons, h (limit - 1)]

/-- Where no record is, nothing is added, and what can be kept stays so. -/
theorem Edit.kept_iff {v v' : Value} (h : Edit .plain v v') (limit : Nat) :
    v.Kept limit ↔ v'.Kept limit := by
  generalize hplain : Format.plain = f at h
  induction h generalizing limit with
  | permute h => exact kept_permute h limit
  | add _ admits =>
      subst hplain
      exact admits.elim
  | inMember _ ih =>
      subst hplain
      exact kept_inMember (fun limit => ih limit rfl) limit
  | inItem _ ih =>
      subst hplain
      exact kept_inItem (fun limit => ih limit rfl) limit

namespace Parameters

section Shapes

variable {members members' : List (String × Value)} {name : String} {value : Value}

theorem decodeTuplet_eq (h : Option.Rel (Record.Alike .parameters Directive.Names.tuplet)
    (Record.ofMembers Directive.Names.tuplet members)
    (Record.ofMembers Directive.Names.tuplet members')) :
    decodeTuplet members = decodeTuplet members' := by
  refine Record.bind_eq_of_rel h fun r r' halike => ?_
  rw [halike.required "tuplet" (by decide) blind_asNat32?,
    halike.optional "notes" (by decide) blind_asNat32?]

theorem decodeRest_eq (h : Option.Rel (Record.Alike .parameters Directive.Names.rest)
    (Record.ofMembers Directive.Names.rest members)
    (Record.ofMembers Directive.Names.rest members')) :
    decodeRest members = decodeRest members' := by
  refine Record.bind_eq_of_rel h fun r r' halike => ?_
  rw [halike.required "position" (by decide) blind_asInt32?]

theorem decodeTuplet_add (unknown : name ∉ Directive.Names.tuplet) :
    decodeTuplet ((name, value) :: members) = decodeTuplet members :=
  (decodeTuplet_eq (Record.rel_add unknown)).symm

theorem decodeRest_add (unknown : name ∉ Directive.Names.rest) :
    decodeRest ((name, value) :: members) = decodeRest members :=
  (decodeRest_eq (Record.rel_add unknown)).symm

/-- What is no tuplet is none for being told a number of notes. -/
theorem decodeTuplet_notes (h : decodeTuplet members = none) :
    decodeTuplet (("notes", value) :: members) = none := by
  refine Option.eq_none_iff_forall_ne_some.2 fun p hp => ?_
  obtain ⟨r, hr, hp⟩ := Option.bind_eq_some_iff.1 hp
  obtain ⟨count, hcount, -⟩ := Option.bind_eq_some_iff.1 hp
  obtain ⟨honce, hr⟩ := Option.ite_none_right_eq_some.1 hr
  cases hr
  have htwice := Record.namesOnce_iff.1 honce
  -- The members name no notes themselves, for the name is not given twice.
  have hnotes : members.filter (·.1 == "notes") = [] := by
    have hle := htwice "notes" (by decide)
    rw [List.filter_cons_of_pos (by rfl), List.length_cons] at hle
    exact List.eq_nil_of_length_eq_zero (by omega)
  have honce' : Record.namesOnce Directive.Names.tuplet members := by
    refine Record.namesOnce_iff.2 fun name hname => Nat.le_trans ?_ (htwice name hname)
    exact ((List.sublist_cons_self _ _).filter _).length_le
  have hfind : (Record.mk false members).find? "notes" = none := by
    rw [Record.find?, ← List.head?_filter, hnotes]
    rfl
  have hcount' : (Record.mk false members).required "tuplet" Value.asNat32? = some count := by
    rw [← hcount, Record.required, Record.required, Record.find?, Record.find?,
      List.find?_cons_of_neg (by simp)]
  rw [decodeTuplet, Record.ofMembers, if_pos honce', Option.bind_eq_bind, Option.bind_some, hcount',
    Option.bind_eq_bind, Option.bind_some, Record.optional, hfind] at h
  cases h

/-- A member with an unknown name leaves parameters what they are. -/
theorem decodeShape_add (unknown : name ∉ known members) :
    decodeShape (.object ((name, value) :: members)) = decodeShape (.object members) := by
  unfold known at unknown
  split at unknown
  · rename_i htuplet
    obtain ⟨p, hp⟩ := Option.isSome_iff_exists.1 htuplet
    rw [decodeShape, decodeShape, decodeTuplet_add unknown, hp, Option.some_or, Option.some_or]
  · rename_i hnot
    have htuplet : decodeTuplet members = none := by simpa using hnot
    split at unknown
    · rw [List.mem_cons, not_or] at unknown
      rw [decodeShape, decodeShape, decodeRest_add unknown.2]
      by_cases hname : name = "notes"
      · rw [hname, decodeTuplet_notes htuplet, htuplet]
      · rw [decodeTuplet_add (by simp [Directive.Names.tuplet, unknown.1, hname])]
    · rw [List.mem_append, not_or] at unknown
      rw [decodeShape, decodeShape, decodeTuplet_add unknown.1, decodeRest_add unknown.2]

end Shapes

theorem blind_decodeShape : Blind .parameters decodeShape := by
  intro v v' hedit
  cases hedit with
  | permute h =>
      exact congrArg₂ Option.or (decodeTuplet_eq (Record.rel_permute h))
        (decodeRest_eq (Record.rel_permute h))
  | add unknown _ => exact (decodeShape_add unknown).symm
  | inMember h =>
      exact congrArg₂ Option.or (decodeTuplet_eq (Record.rel_inMember h))
        (decodeRest_eq (Record.rel_inMember h))
  | inItem h => exact congrArg (·.map tokens) (decodeAll_congr (blind_asString? _ _ h))

/-- What is added to parameters can be kept, so the parameters can be kept if they could before. -/
theorem kept_iff {v v' : Value} (h : Edit .parameters v v') :
    v.Kept depthLimit ↔ v'.Kept depthLimit := by
  cases h with
  | permute h => exact kept_permute h _
  | add _ admits =>
      rw [Value.kept_object, Value.kept_object, List.forall_mem_cons]
      exact and_congr_right fun _ => (and_iff_right ⟨admits.1, Nat.le_pred_of_lt admits.2⟩).symm
  | inMember h => exact kept_inMember h.kept_iff _
  | inItem h => exact kept_inItem h.kept_iff _

theorem decode_eq {v : Value} :
    (v.Kept depthLimit → decode v = decodeShape v) ∧ (¬ v.Kept depthLimit → decode v = none) := by
  have hkept : (v.numbersInRange && decide (v.depth ≤ depthLimit)) = true ↔ v.Kept depthLimit := by
    rw [Bool.and_eq_true, decide_eq_true_eq, Value.Kept]
  exact ⟨fun h => if_pos (hkept.2 h), fun h => if_neg (mt hkept.1 h)⟩

theorem blind_decode : Blind .parameters decode := by
  intro v v' hedit
  by_cases h : v.Kept depthLimit
  · rw [decode_eq.1 h, decode_eq.1 ((kept_iff hedit).1 h)]
    exact blind_decodeShape v v' hedit
  · rw [decode_eq.2 h, decode_eq.2 (mt (kept_iff hedit).2 h)]

/-- Parameters to which a member with an unknown name is added are read as before exactly if its value
can be kept with them. -/
theorem decode_add_eq_some_iff {members : List (String × Value)} {name : String} {value : Value}
    {p : Parameters} (h : decode (.object members) = some p) (unknown : name ∉ known members) :
    decode (.object ((name, value) :: members)) = some p ↔ Format.parameters.Admits value := by
  constructor
  · intro hadded
    by_cases hkept : (Value.object ((name, value) :: members)).Kept depthLimit
    · obtain ⟨hrange, hdepth⟩ := (Value.kept_object.1 hkept).2 _ List.mem_cons_self
      exact ⟨hrange, Nat.lt_of_le_pred (by decide) hdepth⟩
    · rw [decode_eq.2 hkept] at hadded
      cases hadded
  · intro hadmits
    rw [← blind_decode _ _ (.add unknown hadmits)]
    exact h

end Parameters

/-! ## Readers of directives -/

/-- A note element. -/
def NoteElement.format : Format :=
  .record
    [("time", .plain), ("dot", .plain), ("command", .plain), ("type", .plain),
      ("params", .parameters), ("chord", .list NoteEntry.format), ("articulation", .plain),
      ("decorator", .plain), ("fret", .plain), ("string", .plain), ("abc", LetterPitch.format),
      ("octave", .plain), ("_l", .plain), ("_c", .plain)]

theorem NoteElement.blind_decode : Blind format decode := by
  refine Record.blind_read fun r r' h => ?_
  rw [h.optional "time" (by simp) blind_asString?, h.orElse "dot" (by simp) false blind_asBool?,
    h.optional "command" (by simp) blind_asString?, h.optional "type" (by simp) blind_asString?,
    h.optional "params" (by simp) Parameters.blind_decode,
    h.optional "chord" (by simp) NoteEntry.blind_decode.asList?,
    h.optional "articulation" (by simp) Articulation.blind_decode,
    h.optional "decorator" (by simp) Decorator.blind_decode,
    h.optional "fret" (by simp) Fret.blind_decode, h.optional "string" (by simp) blind_asNat32?,
    h.optional "abc" (by simp) LetterPitch.blind_decode,
    h.optional "octave" (by simp) blind_asInt32?,
    h.optionalOrNothing "_l" (by simp) blind_asNat32?,
    h.optionalOrNothing "_c" (by simp) blind_asNat32?]

namespace Directive

/-- A directive. -/
def format : Format :=
  .record
    [("element", .plain), ("options", .list OptionEntry.format),
      ("params", .list OptionEntry.format), ("notes", .list NoteElement.format),
      ("text", .list tokenFormat), ("_l", .plain), ("_c", .plain)]

theorem blind_decode : Blind format decode := by
  refine Record.blind_read fun r r' h => ?_
  rw [h.required "element" (by simp) blind_asString?,
    h.orElse "options" (by simp) [] OptionEntry.blind_decode.asList?,
    h.orElse "params" (by simp) [] OptionEntry.blind_decode.asList?,
    h.orElse "notes" (by simp) [] NoteElement.blind_decode.asList?,
    h.orElse "text" (by simp) [] blind_decodeToken.asList?,
    h.optionalOrNothing "_l" (by simp) blind_asNat32?,
    h.optionalOrNothing "_c" (by simp) blind_asNat32?]

/-- Reading directives is blind to edits at any depth. -/
theorem blind_decodeList : Blind (.list format) decodeList := blind_decode.asList?

end Directive

end Tablature
