/-
# Tablature.Proofs.Tags — reading markup back.

A document is read character by character, by someone who knows markup and nothing of drawings
(`Reader.step`): tags with their attributes, and between them characters, of which some are given by
references. An element is written so that what is read is the element again, its attributes and its
content as they were before they were escaped (`Adds.node`), wherever between tags it stands.
-/
import Tablature.Proofs.Escaping

namespace Tablature.Preview

/-! ## Reading markup -/

/-- A piece of a document: a tag, or a character between tags. -/
inductive Token
  | opening (tag : String) (attributes : List (String × String))
  /-- A tag without content. -/
  | single (tag : String) (attributes : List (String × String))
  | closing (tag : String)
  | char (c : Char)
  deriving DecidableEq, Repr

/-- Character data as far as it has been read: the characters that it stands for, and the name of
the reference that is being read, if one is. -/
structure Data where
  text : List Char
  reference : Option (List Char)

/-- No character data. -/
def Data.blank : Data := ⟨[], none⟩

/-- One more character of character data. References that are not known cannot be read. -/
def Data.step (d : Data) (c : Char) : Option Data :=
  match d.reference with
  | none => if c = '&' then some ⟨d.text, some []⟩ else some ⟨d.text ++ [c], none⟩
  | some name =>
      if c = ';' then (Text.references.lookup name).map fun c => ⟨d.text ++ [c], none⟩
      else some ⟨d.text, some (name ++ [c])⟩

/-- Where in a document a reader is. -/
inductive Mode
  | content (data : Data)
  /-- After the `<` of a tag. -/
  | start
  | name (tag : List Char)
  | closing (tag : List Char)
  /-- Between the attributes of a tag. -/
  | attributes (tag : String) (attributes : List (String × String))
  | key (tag : String) (attributes : List (String × String)) (key : List Char)
  /-- After the `=` of an attribute. -/
  | equals (tag : String) (attributes : List (String × String)) (key : List Char)
  | value (tag : String) (attributes : List (String × String)) (key : List Char) (data : Data)
  /-- After the `/` of a tag without content. -/
  | slash (tag : String) (attributes : List (String × String))

/-- A reader of a document: what has been read, and where the reader is. -/
structure Reader where
  tokens : List Token
  mode : Mode

/-- Characters of the names of tags and attributes. -/
def isNameChar (c : Char) : Bool := c.isAlphanum || c == '-'

namespace Reader

/-- After the name or an attribute of a tag. -/
def within (tokens : List Token) (tag : String) (attributes : List (String × String)) (c : Char) :
    Option Reader :=
  if c = ' ' then some ⟨tokens, .attributes tag attributes⟩
  else if c = '/' then some ⟨tokens, .slash tag attributes⟩
  else if c = '>' then some ⟨tokens ++ [.opening tag attributes], .content .blank⟩
  else none

/-- One more character of a document. -/
def step (r : Reader) (c : Char) : Option Reader :=
  match r.mode with
  | .content data =>
      if c = '<' then
        if data.reference.isNone then some ⟨r.tokens ++ data.text.map .char, .start⟩ else none
      else (data.step c).map fun data => ⟨r.tokens, .content data⟩
  | .start =>
      if c = '/' then some ⟨r.tokens, .closing []⟩
      else if isNameChar c then some ⟨r.tokens, .name [c]⟩
      else none
  | .name tag =>
      if isNameChar c then some ⟨r.tokens, .name (tag ++ [c])⟩
      else within r.tokens (String.ofList tag) [] c
  | .closing tag =>
      if isNameChar c then some ⟨r.tokens, .closing (tag ++ [c])⟩
      else if c = '>' then some ⟨r.tokens ++ [.closing (String.ofList tag)], .content .blank⟩
      else none
  | .attributes tag attributes =>
      if isNameChar c then some ⟨r.tokens, .key tag attributes [c]⟩
      else within r.tokens tag attributes c
  | .key tag attributes key =>
      if isNameChar c then some ⟨r.tokens, .key tag attributes (key ++ [c])⟩
      else if c = '=' then some ⟨r.tokens, .equals tag attributes key⟩
      else none
  | .equals tag attributes key =>
      if c = '"' then some ⟨r.tokens, .value tag attributes key .blank⟩ else none
  | .value tag attributes key data =>
      if c = '"' then
        if data.reference.isNone then
          some ⟨r.tokens,
            .attributes tag (attributes ++ [(String.ofList key, String.ofList data.text)])⟩
        else none
      else if c = '<' then none
      else (data.step c).map fun data => ⟨r.tokens, .value tag attributes key data⟩
  | .slash tag attributes =>
      if c = '>' then some ⟨r.tokens ++ [.single tag attributes], .content .blank⟩ else none

end Reader

/-- What a document says, if it can be read to its end. -/
def readDocument (text : String) : Option (List Token) :=
  match text.toList.foldlM Reader.step ⟨[], .content .blank⟩ with
  | some ⟨tokens, .content ⟨text, none⟩⟩ => some (tokens ++ text.map .char)
  | _ => none

/-! ## Parts of a document -/

/-- Reading a part of a document leads from one reader to another. -/
def Reads (r : Reader) (text : List Char) (r' : Reader) : Prop :=
  text.foldlM Reader.step r = some r'

namespace Reads

variable {r r' r'' : Reader} {s t : List Char} {c : Char}

theorem nil : Reads r [] r := rfl

theorem append (hs : Reads r s r') (ht : Reads r' t r'') : Reads r (s ++ t) r'' := by
  unfold Reads at hs ht ⊢
  rw [List.foldlM_append, hs]
  exact ht

theorem cons (hc : r.step c = some r') (ht : Reads r' t r'') : Reads r (c :: t) r'' := by
  unfold Reads at ht ⊢
  rw [List.foldlM_cons, hc]
  exact ht

theorem singleton (hc : r.step c = some r') : Reads r [c] r' := .cons hc .nil

end Reads

/-! ### Character data -/

namespace Data

/-- Reading some character data, none of which delimits markup. -/
inductive Reads : Data → List Char → Data → Prop
  | nil (d : Data) : Reads d [] d
  | cons {d d' d'' : Data} {c : Char} {text : List Char} (hlt : c ≠ '<') (hquot : c ≠ '"')
      (hc : d.step c = some d') (h : Reads d' text d'') : Reads d (c :: text) d''

namespace Reads

variable {d d' d'' : Data} {s t : List Char}

theorem append (hs : Reads d s d') (ht : Reads d' t d'') : Reads d (s ++ t) d'' := by
  induction hs with
  | nil => exact ht
  | cons hlt hquot hc _ ih => exact .cons hlt hquot hc (ih ht)

theorem content (h : Reads d s d') (tokens : List Token) :
    Preview.Reads ⟨tokens, .content d⟩ s ⟨tokens, .content d'⟩ := by
  induction h with
  | nil => exact .nil
  | cons hlt hquot hc _ ih =>
      refine .cons ?_ ih
      simp only [Reader.step, if_neg hlt, hc, Option.map_some]

theorem value (h : Reads d s d') (tokens : List Token) (tag : String)
    (attributes : List (String × String)) (key : List Char) :
    Preview.Reads ⟨tokens, .value tag attributes key d⟩ s
      ⟨tokens, .value tag attributes key d'⟩ := by
  induction h with
  | nil => exact .nil
  | cons hlt hquot hc _ ih =>
      refine .cons ?_ ih
      simp only [Reader.step, if_neg hlt, if_neg hquot, hc, Option.map_some]

end Reads

/-- The name of a reference, letter by letter. -/
theorem reads_letters {letters : List Char} (h : ∀ c ∈ letters, c.isAlpha = true)
    (text name : List Char) :
    Reads ⟨text, some name⟩ letters ⟨text, some (name ++ letters)⟩ := by
  induction letters generalizing name with
  | nil =>
      rw [List.append_nil]
      exact .nil _
  | cons c letters ih =>
      obtain ⟨hc, hletters⟩ := List.forall_mem_cons.1 h
      have hne : ∀ d : Char, d.isAlpha = false → c ≠ d := by
        rintro d hd rfl
        cases hd.symm.trans hc
      have hstep : step ⟨text, some name⟩ c = some ⟨text, some (name ++ [c])⟩ :=
        if_neg (hne ';' (by decide))
      have hrest := ih hletters (name ++ [c])
      rw [List.append_assoc, List.singleton_append] at hrest
      exact .cons (hne '<' (by decide)) (hne '"' (by decide)) hstep hrest

/-- The entity of a character stands for the character. -/
theorem reads_entity (c : Char) (text : List Char) :
    Reads ⟨text, none⟩ (Text.entity c) ⟨text ++ [c], none⟩ := by
  rcases Text.entity_cases c with ⟨hc, hentity⟩ | ⟨name, hname, hentity⟩
  · -- A character that is written as itself neither delimits markup nor begins a reference.
    have hne : ∀ d : Char, Text.isMarkup d = true → c ≠ d := by
      rintro d hd rfl
      cases hd.symm.trans hc
    rw [hentity]
    exact .cons (hne '<' (by decide)) (hne '"' (by decide)) (if_neg (hne '&' (by decide))) (.nil _)
  · have known : ∀ r ∈ Text.references, Text.references.lookup r.1 = some r.2 := by decide
    have hend : step ⟨text, some name⟩ ';' = some ⟨text ++ [c], none⟩ := by
      show (Text.references.lookup name).map _ = _
      rw [known (name, c) hname]
      rfl
    have hstart : step ⟨text, none⟩ '&' = some ⟨text, some []⟩ := rfl
    rw [hentity]
    refine .cons (by decide) (by decide) hstart ?_
    exact (reads_letters (fun d hd => Text.isAlpha_of_mem_references hname hd) text []).append
      (.cons (by decide) (by decide) hend (.nil _))

/-- An escaped text stands for the text. -/
theorem reads_escape (added text : List Char) :
    Reads ⟨text, none⟩ (Text.escape added) ⟨text ++ added, none⟩ := by
  induction added generalizing text with
  | nil =>
      rw [List.append_nil]
      exact .nil _
  | cons c added ih =>
      have hrest := ih (text ++ [c])
      rw [List.append_assoc, List.singleton_append] at hrest
      exact (reads_entity c text).append hrest

end Data

/-! ### Tags -/

/-- Names of tags and attributes. -/
def Named (word : String) : Prop := word.toList ≠ [] ∧ ∀ c ∈ word.toList, isNameChar c = true

instance (word : String) : Decidable (Named word) :=
  have : Decidable (∀ c ∈ word.toList, isNameChar c = true) := word.toList.decidableBAll _
  inferInstanceAs (Decidable (_ ∧ _))

/-- A name, character by character. -/
theorem reads_word {tokens : List Token} (mode : List Char → Mode)
    (hstep : ∀ read c, isNameChar c = true →
      Reader.step ⟨tokens, mode read⟩ c = some ⟨tokens, mode (read ++ [c])⟩)
    {word : List Char} (hword : ∀ c ∈ word, isNameChar c = true) (read : List Char) :
    Reads ⟨tokens, mode read⟩ word ⟨tokens, mode (read ++ word)⟩ := by
  induction word generalizing read with
  | nil =>
      rw [List.append_nil]
      exact .nil
  | cons c word ih =>
      obtain ⟨hc, hrest⟩ := List.forall_mem_cons.1 hword
      have hread := ih hrest (read ++ [c])
      rw [List.append_assoc, List.singleton_append] at hread
      exact .cons (hstep read c hc) hread

/-- A reader in a tag, after some of its attributes. -/
def Within (r : Reader) (tokens : List Token) (tag : String) (attributes : List (String × String)) :
    Prop :=
  ∀ c, isNameChar c = false → r.step c = Reader.within tokens tag attributes c

theorem within_name (tokens : List Token) (tag : String) :
    Within ⟨tokens, .name tag.toList⟩ tokens tag [] := by
  intro c hc
  simp only [Reader.step, hc, Bool.false_eq_true, if_false, String.ofList_toList]

theorem within_attributes (tokens : List Token) (tag : String)
    (attributes : List (String × String)) :
    Within ⟨tokens, .attributes tag attributes⟩ tokens tag attributes := by
  intro c hc
  simp only [Reader.step, hc, Bool.false_eq_true, if_false]

section Tags

variable {r : Reader} {tokens : List Token} {tag : String} {attributes : List (String × String)}

theorem reads_attribute (h : Within r tokens tag attributes) {key : String} (hkey : Named key)
    (value : String) :
    Reads r (Node.attributeText (key, value)).toList
      ⟨tokens, .attributes tag (attributes ++ [(key, value)])⟩ := by
  obtain ⟨c, rest, hchars⟩ := List.exists_cons_of_ne_nil hkey.1
  have hnames := hkey.2
  rw [hchars] at hnames
  obtain ⟨hc, hrest⟩ := List.forall_mem_cons.1 hnames
  have hblank : r.step ' ' = some ⟨tokens, .attributes tag attributes⟩ := h ' ' (by decide)
  have hfirst : Reader.step ⟨tokens, .attributes tag attributes⟩ c =
      some ⟨tokens, .key tag attributes [c]⟩ := if_pos hc
  have hword : Reads ⟨tokens, .key tag attributes [c]⟩ rest
      ⟨tokens, .key tag attributes (c :: rest)⟩ :=
    reads_word (.key tag attributes) (fun read c hc => if_pos hc) hrest [c]
  have hequals : Reader.step ⟨tokens, .key tag attributes (c :: rest)⟩ '=' =
      some ⟨tokens, .equals tag attributes (c :: rest)⟩ := rfl
  have hquote : Reader.step ⟨tokens, .equals tag attributes (c :: rest)⟩ '"' =
      some ⟨tokens, .value tag attributes (c :: rest) .blank⟩ := rfl
  have hvalue := (Data.reads_escape value.toList []).value tokens tag attributes (c :: rest)
  rw [List.nil_append] at hvalue
  have htext : (Node.attributeText (key, value)).toList =
      ' ' :: c :: (rest ++ '=' :: '"' :: (Text.escape value.toList ++ ['"'])) := by
    simp [Node.attributeText, Text.escapeString, hchars]
  rw [htext]
  refine .cons hblank <| .cons hfirst <| hword.append <| .cons hequals <| .cons hquote <|
    hvalue.append <| .singleton ?_
  simp only [Reader.step, if_true, Option.isNone_none, ← hchars, String.ofList_toList]

theorem reads_attributes (h : Within r tokens tag attributes)
    {added : List (String × String)} (hadded : ∀ a ∈ added, Named a.1) :
    ∃ r', Reads r (Node.attributesText added).toList r' ∧
      Within r' tokens tag (attributes ++ added) := by
  induction added generalizing r attributes with
  | nil => exact ⟨r, .nil, by rwa [List.append_nil]⟩
  | cons a added ih =>
      obtain ⟨hkey, hrest⟩ := List.forall_mem_cons.1 hadded
      -- After an attribute the reader is within the tag again.
      have hfirst := reads_attribute h hkey a.2
      obtain ⟨r', hreads, hwithin⟩ := ih (within_attributes tokens tag (attributes ++ [a])) hrest
      refine ⟨r', ?_, ?_⟩
      · have htext : (Node.attributesText (a :: added)).toList =
            (Node.attributeText a).toList ++ (Node.attributesText added).toList := by
          simp [Node.attributesText]
        rw [htext]
        exact hfirst.append hreads
      · rwa [List.append_assoc, List.singleton_append] at hwithin

end Tags

/-! ### Elements -/

/-- What is said by some characters. -/
def chars (text : String) : List Token := text.toList.map .char

/-- What an element in markup says. -/
def Node.tokens (n : Node) : List Token :=
  match n.content with
  | none => [.single n.tag n.attributes]
  | some content => .opening n.tag n.attributes :: chars content ++ [.closing n.tag]

/-- The tag and the keys of an element in markup are names. -/
def Node.WellNamed (n : Node) : Prop := Named n.tag ∧ ∀ a ∈ n.attributes, Named a.1

/-- What a reader between tags has read so far. -/
def Says (r : Reader) (said : List Token) : Prop :=
  ∃ tokens text, r = ⟨tokens, .content ⟨text, none⟩⟩ ∧ tokens ++ text.map .char = said

/-- After the `<` of a tag the characters before it have been read. -/
theorem step_lt (tokens : List Token) (text : List Char) :
    Reader.step ⟨tokens, .content ⟨text, none⟩⟩ '<' = some ⟨tokens ++ text.map .char, .start⟩ := rfl

/-- A part of a document that adds some tokens, wherever it stands between tags. -/
def Adds (text : List Char) (added : List Token) : Prop :=
  ∀ r said, Says r said → ∃ r', Reads r text r' ∧ Says r' (said ++ added)

namespace Adds

variable {s t : List Char} {first second : List Token}

theorem nil : Adds [] [] := fun r said h => ⟨r, .nil, by rwa [List.append_nil]⟩

theorem append (hs : Adds s first) (ht : Adds t second) : Adds (s ++ t) (first ++ second) := by
  intro r said h
  obtain ⟨r', hreads, hsays⟩ := hs r said h
  obtain ⟨r'', hreads', hsays'⟩ := ht r' _ hsays
  exact ⟨r'', hreads.append hreads', by rwa [List.append_assoc] at hsays'⟩

theorem flatMap {α : Type} {text : α → List Char} {tokens : α → List Token} {xs : List α}
    (h : ∀ x ∈ xs, Adds (text x) (tokens x)) : Adds (xs.flatMap text) (xs.flatMap tokens) := by
  induction xs with
  | nil => exact .nil
  | cons x xs ih =>
      obtain ⟨hx, hrest⟩ := List.forall_mem_cons.1 h
      exact hx.append (ih hrest)

/-- An escaped text adds the characters of the text. -/
theorem escape (text : String) : Adds (Text.escape text.toList) (chars text) := by
  rintro _ _ ⟨tokens, before, rfl, rfl⟩
  refine ⟨_, (Data.reads_escape text.toList before).content tokens, tokens, _, rfl, ?_⟩
  rw [List.map_append, chars, List.append_assoc]

/-- Text between tags that needs no escaping. -/
theorem written (text : String) (h : Text.escape text.toList = text.toList) :
    Adds text.toList (chars text) := h ▸ escape text

/-- The tag of an element, up to where it ends. -/
theorem reads_opening {n : Node} (hn : n.WellNamed) {r : Reader} {said : List Token}
    (h : Says r said) : ∃ r', Reads r n.opening.toList r' ∧ Within r' said n.tag n.attributes := by
  obtain ⟨tokens, before, rfl, rfl⟩ := h
  obtain ⟨htag, hkeys⟩ := hn
  obtain ⟨c, rest, hchars⟩ := List.exists_cons_of_ne_nil htag.1
  have hnames := htag.2
  rw [hchars] at hnames
  obtain ⟨hc, hrest⟩ := List.forall_mem_cons.1 hnames
  let said := tokens ++ before.map .char
  have hstart : Reader.step ⟨said, .start⟩ c = some ⟨said, .name [c]⟩ := by
    have hne : c ≠ '/' := by
      rintro rfl
      cases hc
    simp only [Reader.step, if_neg hne, hc, if_true]
  have hword : Reads ⟨said, .name [c]⟩ rest ⟨said, .name n.tag.toList⟩ :=
    hchars ▸ reads_word .name (fun read c hc => if_pos hc) hrest [c]
  obtain ⟨r', hattributes, hwithin⟩ := reads_attributes (within_name said n.tag) hkeys
  have htext : n.opening.toList =
      '<' :: c :: (rest ++ (Node.attributesText n.attributes).toList) := by
    simp [Node.opening, hchars]
  refine ⟨r', ?_, hwithin⟩
  rw [htext]
  exact .cons (step_lt tokens before) <| .cons hstart <| hword.append hattributes

theorem opening {n : Node} (hn : n.WellNamed) :
    Adds (n.opening ++ ">").toList [.opening n.tag n.attributes] := by
  intro r said h
  obtain ⟨r', hreads, hwithin⟩ := reads_opening hn h
  refine ⟨⟨said ++ [.opening n.tag n.attributes], .content .blank⟩, ?_, _, [], rfl, ?_⟩
  · rw [String.toList_append]
    exact hreads.append (.singleton (hwithin '>' (by decide)))
  · rw [List.map_nil, List.append_nil]

theorem single {n : Node} (hn : n.WellNamed) :
    Adds (n.opening ++ "/>").toList [.single n.tag n.attributes] := by
  intro r said h
  obtain ⟨r', hreads, hwithin⟩ := reads_opening hn h
  have hslash : r'.step '/' = some ⟨said, .slash n.tag n.attributes⟩ := hwithin '/' (by decide)
  refine ⟨⟨said ++ [.single n.tag n.attributes], .content .blank⟩, ?_, _, [], rfl, ?_⟩
  · rw [String.toList_append]
    exact hreads.append (.cons hslash (.singleton rfl))
  · rw [List.map_nil, List.append_nil]

theorem closing {tag : String} (htag : Named tag) :
    Adds ("</" ++ tag ++ ">").toList [.closing tag] := by
  rintro _ _ ⟨tokens, before, rfl, rfl⟩
  let said := tokens ++ before.map .char
  have hslash : Reader.step ⟨said, .start⟩ '/' = some ⟨said, .closing []⟩ := rfl
  have hword : Reads ⟨said, .closing []⟩ tag.toList ⟨said, .closing tag.toList⟩ :=
    reads_word .closing (fun read c hc => if_pos hc) htag.2 []
  have hend : Reader.step ⟨said, .closing tag.toList⟩ '>' =
      some ⟨said ++ [.closing tag], .content .blank⟩ := by
    have hname : isNameChar '>' = false := by decide
    simp only [Reader.step, hname, Bool.false_eq_true, if_false, if_true, String.ofList_toList]
  have htext : ("</" ++ tag ++ ">").toList = '<' :: '/' :: (tag.toList ++ ['>']) := by simp
  refine ⟨⟨said ++ [.closing tag], .content .blank⟩, ?_, _, [], rfl, ?_⟩
  · rw [htext]
    exact .cons (step_lt tokens before) <| .cons hslash <| hword.append (.singleton hend)
  · rw [List.map_nil, List.append_nil]

/-- An element in markup says what it is. -/
theorem node {n : Node} (hn : n.WellNamed) : Adds n.text.toList n.tokens := by
  unfold Node.text Node.tokens
  cases n.content with
  | none => exact single hn
  | some content =>
      have htext : (n.opening ++ ">" ++ Text.escapeString content ++ "</" ++ n.tag ++ ">").toList =
          (n.opening ++ ">").toList ++
            (Text.escape content.toList ++ ("</" ++ n.tag ++ ">").toList) := by
        simp [Text.escapeString]
      dsimp only
      rw [htext]
      exact (opening hn).append ((escape content).append (closing hn.1))

end Adds

theorem readDocument_of_adds {text : String} {tokens : List Token} (h : Adds text.toList tokens) :
    readDocument text = some tokens := by
  obtain ⟨_, hreads, read, rest, rfl, hsaid⟩ := h ⟨[], .content .blank⟩ [] ⟨[], [], rfl, rfl⟩
  rw [List.nil_append] at hsaid
  rw [readDocument, show text.toList.foldlM Reader.step _ = _ from hreads]
  exact congrArg some hsaid

end Tablature.Preview
