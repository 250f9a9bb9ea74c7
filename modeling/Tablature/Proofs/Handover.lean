/-
# Tablature.Proofs.Handover — what gets through to a foreign caller.

A foreign text ends at its first zero byte. A text without the zero character gets in as it is: its
bytes hold no zero, and they are read back to it (`Foreign.readText_bytes`). On the way out the
scores and the faults get through as they are, for what is written as JSON is clear. A finished
drawing gets through exactly if none of the texts and font families in it holds the zero character,
which escaping does not touch; otherwise the caller gets an empty text in its place, and not the
missing text that stands for failure (`Foreign.faithful_iff`). A drawing holds no zero character that
is not in a setting, an annotation or a text line of the directives (`whole_of_compileDirectives`), so
only an escape in one of those can break it. For a drawing that does not get finished the caller
waits as the library does.
-/
import Tablature.Proofs.Documents
import Tablature.Proofs.Measures
import Tablature.Proofs.Wording
import Tablature.Proofs.Writing

namespace Tablature

/-! ## The zero character -/

/-- A text that holds no zero character. -/
def Unbroken (text : String) : Prop := '\x00' ∉ text.toList

instance (text : String) : Decidable (Unbroken text) := inferInstanceAs (Decidable (¬ _))

theorem unbroken_iff_over {text : String} :
    Unbroken text ↔ Text.Over (· ≠ '\x00') text.toList :=
  ⟨fun h _ hc heq => h (heq ▸ hc), fun h hmem => h _ hmem rfl⟩

/-- Neither the fixed texts nor numerals hold the zero character. -/
theorem Text.alphabet_ne_zero : Text.Alphabet (· ≠ '\x00') where
  own := by decide
  digit := by
    rintro c hdigit rfl
    cases hdigit

theorem Text.Clear.unbroken {text : String} (h : Text.Clear text.toList) : Unbroken text := by
  intro hmem
  have hzero : ¬ ('\x00' = '\n' ∨ ' ' ≤ '\x00') := by decide
  exact hzero (h _ hmem)

theorem Text.Plain.unbroken {text : String} (h : Text.Plain text.toList) : Unbroken text :=
  h.clear.unbroken

namespace Foreign

/-! ## Texts on their way in -/

/-- The bytes from the start of a text on: those of the text, the zero that ends it, and whatever
comes after it. -/
def bytes (text : String) (rest : List UInt8) : List UInt8 :=
  text.toByteArray.data.toList ++ 0 :: rest

theorem ofNat_ne_zero {n : Nat} (h : n % 256 ≠ 0) : UInt8.ofNat n ≠ 0 := by
  intro heq
  have hmod : n % 256 = 0 := by simpa using congrArg UInt8.toNat heq
  exact h hmod

theorem zero_not_mem_bytes (values : List Nat) (h : ∀ n ∈ values, n % 256 ≠ 0) :
    (0 : UInt8) ∉ values.map UInt8.ofNat := by
  intro hmem
  obtain ⟨n, hn, hzero⟩ := List.mem_map.1 hmem
  exact ofNat_ne_zero (h n hn) hzero

/-- Only the zero character has a zero byte. -/
theorem zero_not_mem_utf8EncodeChar {c : Char} (hc : c ≠ '\x00') :
    (0 : UInt8) ∉ String.utf8EncodeChar c := by
  have hval : c.val.toNat ≠ 0 := fun hzero => hc (Char.toNat_inj.1 hzero)
  generalize hv : c.val.toNat = v at hval
  rw [String.utf8EncodeChar, hv]
  split
  · exact zero_not_mem_bytes [v] (by simp; omega)
  split
  · exact zero_not_mem_bytes [v / 64 % 32 + 192, v % 64 + 128] (by simp; omega)
  split
  · exact zero_not_mem_bytes [v / 4096 % 16 + 224, v / 64 % 64 + 128, v % 64 + 128]
      (by simp; omega)
  · exact zero_not_mem_bytes
      [v / 262144 % 8 + 240, v / 4096 % 64 + 128, v / 64 % 64 + 128, v % 64 + 128]
      (by simp; omega)

theorem zero_not_mem_toByteArray {text : String} (h : Unbroken text) :
    (0 : UInt8) ∉ text.toByteArray.data.toList := by
  rw [← String.utf8Encode_toList, List.utf8Encode, List.data_toByteArray, List.toList_toArray]
  intro hmem
  obtain ⟨c, hc, hzero⟩ := List.mem_flatMap.1 hmem
  have hne : c ≠ '\x00' := by
    rintro rfl
    exact h hc
  exact zero_not_mem_utf8EncodeChar hne hzero

/-- A text without the zero character is read as it is. -/
theorem readText_bytes {text : String} (h : Unbroken text) (rest : List UInt8) :
    readText (some (bytes text rest)) = some text := by
  have htake : (bytes text rest).takeWhile (· ≠ 0) = text.toByteArray.data.toList := by
    have hbytes : ∀ b ∈ text.toByteArray.data.toList, decide (b ≠ 0) = true := by
      intro b hb
      refine decide_eq_true ?_
      rintro rfl
      exact zero_not_mem_toByteArray h hb
    rw [bytes, List.takeWhile_append_of_pos hbytes]
    simp
  rw [readText, htake, Array.toArray_toList]
  exact dif_pos text.isValidUTF8

/-! ## Texts on their way out -/

theorem writeText_of_unbroken {text : String} (h : Unbroken text) : writeText text = text := by
  rw [writeText, if_neg]
  simpa [Unbroken] using h

theorem writeText_of_broken {text : String} (h : ¬ Unbroken text) : writeText text = "" := by
  rw [writeText, if_pos]
  simpa [Unbroken] using h

/-- The text of the score of a directive list, or of the fault that prevents one. -/
def scoreText (json : String) : String :=
  match compileToJson json with
  | .ok text => text
  | .error fault => (encodeFault fault).compactText

theorem unbroken_scoreText (json : String) : Unbroken (scoreText json) := by
  unfold scoreText compileToJson
  cases compileWith .standard json with
  | error fault => exact (clear_encodeFault fault).unbroken
  | ok s => exact s.score.clear_toJson.unbroken

end Foreign

/-! ## Drawings -/

namespace Preview

theorem zero_mem_entity_iff {c : Char} : '\x00' ∈ Text.entity c ↔ c = '\x00' := by
  rcases Text.entity_cases c with ⟨-, hentity⟩ | ⟨name, hname, hentity⟩
  · rw [hentity, List.mem_singleton, eq_comm]
  · have hletters : '\x00' ∉ name := fun hmem =>
      nomatch Text.isAlpha_of_mem_references hname hmem
    have hmarkup : c ≠ '\x00' := by
      rintro rfl
      revert hname
      simp [Text.references]
    simp [hentity, hletters, hmarkup]

/-- Escaping neither adds nor removes the zero character. -/
theorem unbroken_escapeString_iff {text : String} :
    Unbroken (Text.escapeString text) ↔ Unbroken text := by
  rw [Unbroken, Unbroken, Text.escapeString, String.toList_ofList, Text.escape, List.mem_flatMap]
  simp [zero_mem_entity_iff]

theorem unbroken_append_iff {s t : String} : Unbroken (s ++ t) ↔ Unbroken s ∧ Unbroken t := by
  simp [Unbroken, String.toList_append]

theorem Named.unbroken {word : String} (h : Named word) : Unbroken word := fun hmem =>
  nomatch h.2 _ hmem

theorem unbroken_attributesText_iff {attributes : List (String × String)}
    (hnames : ∀ a ∈ attributes, Named a.1) :
    Unbroken (Node.attributesText attributes) ↔ ∀ a ∈ attributes, Unbroken a.2 := by
  induction attributes with
  | nil => simp [Node.attributesText, Unbroken]
  | cons a attributes ih =>
      obtain ⟨hname, hrest⟩ := List.forall_mem_cons.1 hnames
      have htext : Node.attributesText (a :: attributes) =
          Node.attributeText a ++ Node.attributesText attributes := by
        simp [Node.attributesText]
      have hfixed : Unbroken " " ∧ Unbroken "=\"" ∧ Unbroken "\"" := by decide
      obtain ⟨hblank, hequals, hquote⟩ := hfixed
      rw [htext, unbroken_append_iff, ih hrest, List.forall_mem_cons, Node.attributeText]
      simp only [unbroken_append_iff, unbroken_escapeString_iff, hname.unbroken, hblank, hequals,
        hquote, true_and, and_true]

theorem Node.unbroken_opening_iff {n : Node} (hn : n.WellNamed) :
    Unbroken n.opening ↔ ∀ a ∈ n.attributes, Unbroken a.2 := by
  have hlt : Unbroken "<" := by decide
  rw [opening, unbroken_append_iff, unbroken_append_iff, unbroken_attributesText_iff hn.2]
  simp only [hlt, hn.1.unbroken, true_and]

/-- An element in markup is unbroken if its attributes and its content are. -/
theorem Node.unbroken_text_iff {n : Node} (hn : n.WellNamed) :
    Unbroken n.text ↔
      (∀ a ∈ n.attributes, Unbroken a.2) ∧ ∀ content ∈ n.content, Unbroken content := by
  have hfixed : Unbroken "/>" ∧ Unbroken ">" ∧ Unbroken "</" := by decide
  obtain ⟨hend, hgt, hclose⟩ := hfixed
  unfold text
  cases n.content with
  | none => simp [unbroken_append_iff, unbroken_opening_iff hn, hend]
  | some content =>
      simp [unbroken_append_iff, unbroken_escapeString_iff, unbroken_opening_iff hn, hgt, hclose,
        hn.1.unbroken]

/-- A text in a drawing that holds no zero character, nor does the name of its font. -/
def Whole (inscription : Option String × String) : Prop :=
  Unbroken inscription.2 ∧ ∀ family ∈ inscription.1, Unbroken family

instance (inscription : Option String × String) : Decidable (Whole inscription) :=
  inferInstanceAs (Decidable (_ ∧ _))

/-- Of plain attributes only the family of a font can hold the zero character. -/
theorem Element.PlainAttributes.unbroken_iff {attributes : List (String × String)}
    (h : PlainAttributes attributes) :
    (∀ a ∈ attributes, Unbroken a.2) ↔
      ∀ a ∈ attributes, a.1 = "font-family" → Unbroken a.2 := by
  refine ⟨fun hall a ha _ => hall a ha, fun hfamily a ha => ?_⟩
  by_cases hkey : a.1 = "font-family"
  · exact hfamily a ha hkey
  · exact (h a ha hkey).unbroken

/-- An element is written unbroken exactly if the text that it shows is whole. -/
theorem Element.Own.unbroken_iff {e : Element} (h : e.Own) :
    Unbroken e.node.text ↔ ∀ i ∈ e.inscription?, Whole i := by
  rw [Node.unbroken_text_iff e.wellNamed, h.plainAttributes.unbroken_iff]
  cases e with
  | head center filled => cases filled <;> simp [node, ellipse, inscription?]
  | line => simp [node, inscription?]
  | rect => simp [node, inscription?]
  | curve => simp [node, inscription?]
  | text => simp [node, inscription?, Whole]
  | styledText => simp [node, inscription?, Whole, and_comm]
  | glyph => simp [node, inscription?, Whole]

namespace Surface

/-- **A document is unbroken exactly if the texts that it shows are whole.** -/
theorem unbroken_document_iff (s : Surface) {elements : List Element} (h : Owned elements) :
    Unbroken (s.document elements) ↔ ∀ i ∈ elements.filterMap Element.inscription?, Whole i := by
  have opens {n : Node} (hn : n.WellNamed) (hplain : Element.PlainAttributes n.attributes)
      (hkeys : ∀ a ∈ n.attributes, a.1 ≠ "font-family") : Unbroken n.opening :=
    (Node.unbroken_opening_iff hn).2 fun a ha => (hplain a ha (hkeys a ha)).unbroken
  have hroot : Unbroken s.root.opening :=
    opens s.wellNamed_root s.plainAttributes_root (by simp [root, attributes])
  have hgroup : Unbroken s.group.opening :=
    opens s.wellNamed_group s.plainAttributes_group (by simp [group])
  have hlines (elements : List Element) :
      Unbroken (String.join (elements.map fun e => "  " ++ e.node.text ++ "\n")) ↔
        ∀ e ∈ elements, Unbroken e.node.text := by
    simp [Unbroken, List.mem_flatMap]
  have hfixed : Unbroken ">\n" ∧ Unbroken "</g>\n</svg>\n" := by decide
  obtain ⟨hgt, hend⟩ := hfixed
  have helements : (∀ e ∈ elements, Unbroken e.node.text) ↔
      ∀ i ∈ elements.filterMap Element.inscription?, Whole i := by
    simp only [List.mem_filterMap, forall_exists_index, and_imp]
    constructor
    · intro hall i e he hi
      exact (h e he).unbroken_iff.1 (hall e he) i hi
    · intro hall e he
      exact (h e he).unbroken_iff.2 fun i hi => hall i e he hi
  show Unbroken (s.root.opening ++ ">\n" ++ s.group.opening ++ ">\n" ++
    String.join (elements.map fun e => "  " ++ e.node.text ++ "\n") ++ "</g>\n</svg>\n") ↔ _
  simp only [unbroken_append_iff, hroot, hgroup, hlines, hgt, hend, true_and, and_true, helements]

end Surface

end Preview

open Preview

/-- The texts that a drawing shows, each with the family that it is shown in. -/
def Preview.Drawing.shown (d : Drawing) : List (Option String × String) :=
  d.picture.elements.filterMap Element.inscription?

section Finished

variable {s : Session} {drawing : Drawing}

/-- What is shown of a session without zero characters is whole. -/
theorem Session.Over.whole (hs : s.Over (· ≠ '\x00'))
    (h : Drawing.ofCalls s.render.2 = .finished drawing) : ∀ i ∈ drawing.shown, Whole i := by
  intro i hi
  obtain ⟨e, he, hi⟩ := List.mem_filterMap.1 hi
  have hover :=
    (Drawing.lettered_ofCalls Text.alphabet_ne_zero hs.render.layoutCalls drawing h e he).2
  cases e <;> cases hi
  · exact ⟨unbroken_iff_over.2 hover, fun _ hfamily => nomatch hfamily⟩
  · exact ⟨unbroken_iff_over.2 hover.1,
      fun _ hfamily => Option.some.inj hfamily ▸ unbroken_iff_over.2 hover.2⟩
  · refine ⟨unbroken_iff_over.2 ?_, fun _ hfamily => nomatch hfamily⟩
    rw [String.toList_singleton]
    exact List.forall_mem_singleton.2 hover

theorem unbroken_document_iff (h : Drawing.ofCalls s.render.2 = .finished drawing) :
    Unbroken drawing.document ↔ ∀ i ∈ drawing.shown, Whole i := by
  obtain ⟨surface, hdocument⟩ := exists_document_eq h
  rw [hdocument]
  exact surface.unbroken_document_iff (Drawing.owned_ofCalls _ drawing h)

theorem document_ne_empty (h : Drawing.ofCalls s.render.2 = .finished drawing) :
    drawing.document ≠ "" := by
  obtain ⟨surface, hdocument⟩ := exists_document_eq h
  rw [hdocument]
  intro hempty
  have hlength := congrArg String.length hempty
  simp [Surface.document, Node.opening] at hlength

end Finished

theorem fontFace_withWidth (width : Option Float) :
    (PageSetup.withWidth width).fontFace = PageSetup.standard.fontFace := by
  cases width <;> rfl

/-- Directives without zero characters are drawn without any. -/
theorem whole_of_compileDirectives {ds : List Directive} (hds : ∀ d ∈ ds, d.Over (· ≠ '\x00'))
    {width : Option Float} {s : Session} (h : compileDirectives (.withWidth width) ds = .ok s)
    {drawing : Drawing} (hdrawing : Drawing.ofCalls s.render.2 = .finished drawing) :
    ∀ i ∈ drawing.shown, Whole i := by
  have hs : s.Over (· ≠ '\x00') := by
    refine compileDirectives_over Text.alphabet_ne_zero ?_ hds h
    rw [fontFace_withWidth]
    decide
  exact hs.whole hdrawing

namespace Foreign

/-- What a caller gets for a drawing. -/
theorem render_bytes {json : String} (hjson : Unbroken json) (rest : List UInt8) (width : Float) :
    render (some (bytes json rest)) width =
      handOver <$> renderToDocument json (if 0.0 < width then some width else none) := by
  rw [render, readText_bytes hjson]
  rfl

theorem compile_bytes {json : String} (hjson : Unbroken json) (rest : List UInt8) :
    compile (some (bytes json rest)) = some (scoreText json) := by
  rw [compile, readText_bytes hjson, Option.map_some]
  exact congrArg some (writeText_of_unbroken (unbroken_scoreText json))

/-- **What a foreign caller is promised**: the texts that the library gives, and a missing text
exactly when there is no drawing. -/
structure Faithful (json : String) (width : Float) : Prop where
  score : ∀ rest, compile (some (bytes json rest)) = some (scoreText json)
  drawing : ∀ rest, render (some (bytes json rest)) width =
    Except.toOption <$> renderToDocument json (if 0.0 < width then some width else none)

section Drawn

variable {json : String} {width : Float} {s : Session} {drawing : Drawing}

theorem renderToDocument_eq {width : Option Float}
    (hs : compileWith (.withWidth width) json = .ok s)
    (hdrawing : Drawing.ofCalls s.render.2 = .finished drawing) :
    renderToDocument json width = .finished (.ok drawing.document) := by
  rw [renderToDocument_ok hs, Session.draw_eq hdrawing]
  rfl

/-- A broken drawing is handed over as the empty text. -/
theorem render_of_broken (hjson : Unbroken json)
    (hs : compileWith (.withWidth (if 0.0 < width then some width else none)) json = .ok s)
    (hdrawing : Drawing.ofCalls s.render.2 = .finished drawing)
    (hbroken : ∃ i ∈ drawing.shown, ¬ Whole i) (rest : List UInt8) :
    render (some (bytes json rest)) width = .finished (some "") := by
  have hdocument : ¬ Unbroken drawing.document := by
    rw [unbroken_document_iff hdrawing]
    obtain ⟨i, hi, hnot⟩ := hbroken
    exact fun hall => hnot (hall i hi)
  rw [render_bytes hjson, renderToDocument_eq hs hdrawing]
  exact congrArg (fun text => Sketch.finished (some text)) (writeText_of_broken hdocument)

/-- A whole drawing is handed over as it is. -/
theorem render_of_whole (hjson : Unbroken json)
    (hs : compileWith (.withWidth (if 0.0 < width then some width else none)) json = .ok s)
    (hdrawing : Drawing.ofCalls s.render.2 = .finished drawing)
    (hwhole : ∀ i ∈ drawing.shown, Whole i) (rest : List UInt8) :
    render (some (bytes json rest)) width = .finished (some drawing.document) := by
  rw [render_bytes hjson, renderToDocument_eq hs hdrawing]
  exact congrArg (fun text => Sketch.finished (some text))
    (writeText_of_unbroken ((unbroken_document_iff hdrawing).2 hwhole))

end Drawn

/-- The caller gets a finished drawing if every text that it shows is whole, and only then. -/
theorem faithful_iff {json : String} (hjson : Unbroken json) (width : Float) :
    Faithful json width ↔
      ∀ s, compileWith (.withWidth (if 0.0 < width then some width else none)) json = .ok s →
        ∀ drawing, Drawing.ofCalls s.render.2 = .finished drawing →
          ∀ i ∈ drawing.shown, Whole i := by
  constructor
  · intro hfaithful s hs drawing hdrawing
    by_contra hnot
    have hbroken : ∃ i ∈ drawing.shown, ¬ Whole i := by simpa using hnot
    have hgiven := hfaithful.drawing []
    rw [render_of_broken hjson hs hdrawing hbroken, renderToDocument_eq hs hdrawing] at hgiven
    -- The caller would get the empty text, which no document is.
    have hsame := Option.some.inj (Sketch.finished.inj hgiven)
    exact document_ne_empty hdrawing hsame.symm
  · intro hwhole
    refine ⟨compile_bytes hjson, fun rest => ?_⟩
    cases hs : compileWith (.withWidth (if 0.0 < width then some width else none)) json with
    | error fault =>
        rw [render_bytes hjson, renderToDocument_error hs]
        rfl
    | ok s =>
        cases hdrawing : Drawing.ofCalls s.render.2 with
        | finished drawing =>
            rw [render_of_whole hjson hs hdrawing (hwhole s hs drawing hdrawing),
              renderToDocument_eq hs hdrawing]
            rfl
        | overflow =>
            rw [render_bytes hjson, renderToDocument_ok hs, Session.draw, hdrawing]
            rfl
        | endless =>
            rw [render_bytes hjson, renderToDocument_ok hs, Session.draw, hdrawing]
            rfl

/-- **What a foreign caller gets** for a text without the zero character. The score or its fault
gets through in every case. The drawing comes to an end exactly if the library's does, and it is
missing exactly if there is none. A finished drawing gets through if every text that it shows is whole,
and only then; otherwise the caller gets an empty text. Every text is whole unless a setting, an
annotation or a text line of the directives holds a zero character. -/
theorem handed_over {json : String} (hjson : Unbroken json) (width : Float) :
    let override := if 0.0 < width then some width else none
    (∀ rest, compile (some (bytes json rest)) = some (scoreText json)) ∧
      (∀ rest, (render (some (bytes json rest)) width).Finishes ↔
        (renderToDocument json override).Finishes) ∧
      ((renderToDocument json override).Finishes ↔
        ∀ s, compileWith (.withWidth override) json = .ok s →
          ∃ bound, s.render.1.score.EndsWithin bound) ∧
      (∀ rest, render (some (bytes json rest)) width = .finished none ↔
        ∃ fault, renderToDocument json override = .finished (.error fault)) ∧
      (∀ s, compileWith (.withWidth override) json = .ok s →
        ∀ drawing, Drawing.ofCalls s.render.2 = .finished drawing →
          (∃ i ∈ drawing.shown, ¬ Whole i) →
            renderToDocument json override = .finished (.ok drawing.document) ∧
              drawing.document ≠ "" ∧
              ∀ rest, render (some (bytes json rest)) width = .finished (some "")) ∧
      (Faithful json width ↔
        ∀ s, compileWith (.withWidth override) json = .ok s →
          ∀ drawing, Drawing.ofCalls s.render.2 = .finished drawing →
            ∀ i ∈ drawing.shown, Whole i) ∧
      ∀ ds, Directive.read json = .ok ds → (∀ d ∈ ds, d.Over (· ≠ '\x00')) →
        Faithful json width := by
  intro override
  refine ⟨compile_bytes hjson, ?_, finishes_renderToDocument_iff, ?_, ?_, faithful_iff hjson width,
    ?_⟩
  · intro rest
    rw [render_bytes hjson, Sketch.finishes_map_iff]
  · intro rest
    rw [render_bytes hjson, Sketch.map_eq_finished_iff]
    constructor
    · rintro ⟨fault | text, hdrawing, hmissing⟩
      · exact ⟨fault, hdrawing⟩
      · cases hmissing
    · rintro ⟨fault, hfault⟩
      exact ⟨_, hfault, rfl⟩
  · intro s hs drawing hdrawing hbroken
    exact ⟨renderToDocument_eq hs hdrawing, document_ne_empty hdrawing,
      render_of_broken hjson hs hdrawing hbroken⟩
  · intro ds hread hds
    refine (faithful_iff hjson width).2 fun s hs drawing hdrawing => ?_
    rw [compileWith, hread] at hs
    exact whole_of_compileDirectives hds hs hdrawing

/-! ### Captions -/

/-- A stave of tablature with one text below it, as a directive. -/
def caption (text : String) : Directive :=
  { keyword := "tabstave", options := [], settings := [], notes := [], text := [text]
    line := none, column := none }

theorem compile_caption (setup : PageSetup) {text : String}
    (h : TextCommand.read text = .text text false) :
    compileDirectives setup [caption text] = .ok (captioned setup text) := by
  let start := Session.start setup
  let declaration := StaveDeclaration.defaults .tablature
  have hstave : start.addStave declaration = .done (start.addStave declaration).state := by
    refine Outcome.eq_done_of_fault ?_
    rw [Session.fault_addStave]
    exact SpellingMemory.fault_setKey _ (by decide)
  have htext : (start.addStave declaration).state.addTextLine [text] =
      .done (captioned setup text) := by
    simp only [Session.addTextLine, Outcome.forEach_cons, h]
    rfl
  have hperform : start.perform (caption text) = .done (captioned setup text) := by
    show (start.addStave declaration).located.andThen (Session.body (caption text)) = _
    rw [hstave]
    show ((start.addStave declaration).state.addTextLine [text]).located = _
    rw [htext]
    rfl
  have hcompile : start.compile [caption text] = .done (captioned setup text) := by
    show ((start.perform (caption text)).within none none).andThen _ = _
    rw [hperform]
    rfl
  rw [compileDirectives, hcompile]
  rfl

/-- What a directive list with one caption compiles to. -/
theorem compileWith_caption {json text : String} (hjson : Directive.read json = .ok [caption text])
    (h : TextCommand.read text = .text text false) (setup : PageSetup) :
    compileWith setup json = .ok (captioned setup text) := by
  rw [compileWith, hjson]
  exact compile_caption setup h

/-- A caption that can be sung. -/
def laCaption : String :=
  "[\x7b\"element\":\"tabstave\",\"text\":[\x7b\"text\":\"la\"\x7d]\x7d]"

/-- A caption without the zero character gets through, and its drawing comes to an end. -/
theorem handed_over_laCaption :
    Unbroken laCaption ∧ (caption "la").Over (· ≠ '\x00') ∧ Faithful laCaption 0.0 ∧
      ∀ rest, (render (some (bytes laCaption rest)) 0.0).Finishes := by
  have hjson : Unbroken laCaption := by decide
  have hread : Directive.read laCaption = .ok [caption "la"] := rfl
  have hletters : (caption "la").Over (· ≠ '\x00') :=
    ⟨List.forall_mem_nil _, List.forall_mem_nil _, List.forall_mem_singleton.2 (by decide)⟩
  obtain ⟨-, hreturns, hfinishes, -, -, -, hfaithful⟩ := handed_over hjson 0.0
  refine ⟨hjson, hletters, hfaithful _ hread (List.forall_mem_singleton.2 hletters), fun rest => ?_⟩
  refine (hreturns rest).2 (hfinishes.2 fun s hs => ⟨0, Score.endsWithin_zero ?_⟩)
  rw [compileWith_caption hread rfl] at hs
  cases hs
  exact List.forall_mem_singleton.2 rfl

/-- A caption with the zero character, which is written as an escape in the list itself. -/
def zeroCaption : String :=
  "[\x7b\"element\":\"tabstave\",\"text\":[\x7b\"text\":\"a\\u0000b\"\x7d]\x7d]"

/-- There is a drawing with the caption, but the caller gets an empty text. -/
theorem not_faithful_zeroCaption :
    Unbroken zeroCaption ∧ ¬ Faithful zeroCaption 0.0 ∧
      (∀ rest, render (some (bytes zeroCaption rest)) 0.0 = .finished (some "")) ∧
      ∃ text, renderToDocument zeroCaption (if 0.0 < 0.0 then some 0.0 else none) =
        .finished (.ok text) ∧ text ≠ "" := by
  have hjson : Unbroken zeroCaption := by decide
  have hread : Directive.read zeroCaption = .ok [caption "a\x00b"] := rfl
  have hs : compileWith (.withWidth (if 0.0 < 0.0 then some 0.0 else none)) zeroCaption = .ok _ :=
    compileWith_caption hread rfl _
  have hdrawing : Drawing.ofCalls (captioned (.withWidth (if 0.0 < 0.0 then some 0.0 else none))
      "a\x00b").render.2 = .finished _ := rfl
  have hbroken : ¬ Whole (some PageSetup.standard.fontFace, "a\x00b") := by decide
  have hrender := render_of_broken hjson hs hdrawing
    ⟨_, List.mem_of_getElem? (i := 3) rfl, hbroken⟩
  have htext := renderToDocument_eq hs hdrawing
  have hne := document_ne_empty hdrawing
  refine ⟨hjson, fun hfaithful => ?_, hrender, _, htext, hne⟩
  have hgiven := hfaithful.drawing []
  rw [hrender, htext] at hgiven
  exact hne (Option.some.inj (Sketch.finished.inj hgiven)).symm

end Foreign

end Tablature
