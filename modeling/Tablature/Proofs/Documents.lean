/-
# Tablature.Proofs.Documents — the texts of a drawing stay texts.

What is read from the document of some elements is what the elements say, tag by tag
(`Surface.readDocument_document`). The texts that it shows are those of the elements, each in the
family it was passed with, and whatever the texts and families are, the tags and all other
attributes are the same (`Surface.bare_tokens_eq`). So what comes from a score is in its drawing
either a text or the name of a font, and nothing else (`texts_stay_texts`).
-/
import Mathlib.Data.List.Forall2
import Tablature.Interface
import Tablature.Proofs.Palette
import Tablature.Proofs.Placements
import Tablature.Proofs.Tags

namespace Tablature.Preview

/-! ## Documents -/

/-- Which names an element has in markup does not depend on what it shows. -/
theorem Node.WellNamed.of {n : Node} (tag : String) (keys : List String) (htag : n.tag = tag)
    (hkeys : n.attributes.map (·.1) = keys) (h : Named tag ∧ ∀ key ∈ keys, Named key) :
    n.WellNamed := by
  subst htag hkeys
  exact ⟨h.1, List.forall_mem_map.1 h.2⟩

theorem Element.wellNamed (e : Element) : e.node.WellNamed := by
  cases e with
  | line =>
      exact .of "line" ["x1", "y1", "x2", "y2", "stroke", "stroke-width", "stroke-linecap"] rfl rfl
        (by decide)
  | rect => exact .of "rect" ["x", "y", "width", "height", "fill"] rfl rfl (by decide)
  | text =>
      exact .of "text" ["x", "y", "font-size", "font-weight", "fill", "text-anchor"] rfl rfl
        (by decide)
  | styledText =>
      exact .of "text" ["x", "y", "font-family", "font-size", "font-weight", "font-style", "fill",
        "text-anchor"] rfl rfl (by decide)
  | curve =>
      exact .of "path" ["d", "fill", "stroke", "stroke-width", "stroke-linecap"] rfl rfl
        (by decide)
  | head center filled =>
      cases filled with
      | true =>
          exact .of "ellipse" ["cx", "cy", "rx", "ry", "fill", "transform"] rfl rfl (by decide)
      | false =>
          exact .of "ellipse" ["cx", "cy", "rx", "ry", "fill", "stroke", "stroke-width",
            "transform"] rfl rfl (by decide)
  | glyph =>
      exact .of "text" ["x", "y", "font-size", "fill", "text-anchor"] rfl rfl (by decide)

namespace Surface

/-- The outermost element of a document. -/
def root (s : Surface) : Node := ⟨"svg", s.attributes, none⟩

/-- The group of a document. -/
def group (s : Surface) : Node :=
  ⟨"g", [("transform", "scale(" ++ Decimal.plain s.scale ++ ")")], none⟩

theorem wellNamed_root (s : Surface) : s.root.WellNamed :=
  .of "svg" ["xmlns", "viewBox", "width", "height", "style"] rfl rfl (by decide)

theorem wellNamed_group (s : Surface) : s.group.WellNamed :=
  .of "g" ["transform"] rfl rfl (by decide)

/-- What the document of some elements says. -/
def tokens (s : Surface) (elements : List Element) : List Token :=
  [.opening "svg" s.attributes] ++ chars "\n" ++ [.opening "g" s.group.attributes] ++ chars "\n" ++
    (elements.flatMap fun e => chars "  " ++ e.node.tokens ++ chars "\n") ++ [.closing "g"] ++
    chars "\n" ++ [.closing "svg"] ++ chars "\n"

/-- **A document says what its elements are**, each text and each font family as it was passed. -/
theorem readDocument_document (s : Surface) (elements : List Element) :
    readDocument (s.document elements) = some (s.tokens elements) := by
  have hline : Adds "\n".toList (chars "\n") := .written _ (by decide)
  have helements : Adds
      (elements.flatMap fun e => "  ".toList ++ e.node.text.toList ++ "\n".toList)
      (elements.flatMap fun e => chars "  " ++ e.node.tokens ++ chars "\n") :=
    .flatMap fun e _ => ((Adds.written "  " (by decide)).append (.node e.wellNamed)).append hline
  have htext : (s.document elements).toList =
      (s.root.opening ++ ">").toList ++ "\n".toList ++ (s.group.opening ++ ">").toList ++
        "\n".toList ++
        (elements.flatMap fun e => "  ".toList ++ e.node.text.toList ++ "\n".toList) ++
        ("</" ++ "g" ++ ">").toList ++ "\n".toList ++ ("</" ++ "svg" ++ ">").toList ++
        "\n".toList := by
    simp [document, root, group, List.flatMap_map]
  apply readDocument_of_adds
  rw [htext]
  have hopened := ((Adds.opening s.wellNamed_root).append hline).append (.opening s.wellNamed_group)
  have hgroup : Adds ("</" ++ "g" ++ ">").toList [.closing "g"] := .closing (by decide)
  have hroot : Adds ("</" ++ "svg" ++ ">").toList [.closing "svg"] := .closing (by decide)
  have hinner := ((hopened.append hline).append helements).append hgroup
  exact ((hinner.append hline).append hroot).append hline

end Surface

/-! ## Texts in a document -/

/-- An attribute without the family of a font. -/
def forgetFamily (a : String × String) : String × String :=
  if a.1 = "font-family" then (a.1, "") else a

/-- A tag without the family of a font; characters between tags are forgotten. -/
def Token.bare? : Token → Option Token
  | opening tag attributes => some (opening tag (attributes.map forgetFamily))
  | single tag attributes => some (single tag (attributes.map forgetFamily))
  | closing tag => some (closing tag)
  | char _ => none

/-- The same element but for its text and the family of its font. -/
inductive Element.Reworded : Element → Element → Prop
  | refl (e : Element) : Reworded e e
  | text (place : Point) (content content' : String) (size : Float) (weight anchor : String) :
      Reworded (.text place content size weight anchor) (.text place content' size weight anchor)
  | styledText (place : Point) (content content' family family' : String) (size : Float)
      (style : Option String) (anchor : String) :
      Reworded (.styledText place content family size style anchor)
        (.styledText place content' family' size style anchor)

/-- The tags of a document, with all attributes but the families of fonts. -/
def bare (tokens : List Token) : List Token := tokens.filterMap Token.bare?

theorem bare_append (s t : List Token) : bare (s ++ t) = bare s ++ bare t := List.filterMap_append

theorem bare_chars (text : String) : bare (chars text) = [] := by
  rw [bare, chars, List.filterMap_map]
  exact List.filterMap_eq_nil_iff.2 fun _ _ => rfl

theorem bare_node (tag : String) (attributes : List (String × String)) (content : String) :
    bare (Node.mk tag attributes (some content)).tokens =
      [.opening tag (attributes.map forgetFamily), .closing tag] := by
  have htokens : (Node.mk tag attributes (some content)).tokens =
      [.opening tag attributes] ++ (chars content ++ [.closing tag]) := rfl
  rw [htokens, bare_append, bare_append, bare_chars]
  rfl

theorem Element.Reworded.bare_eq {e e' : Element} (h : e.Reworded e') :
    bare e'.node.tokens = bare e.node.tokens := by
  cases h with
  | refl => rfl
  | text => exact (bare_node _ _ _).trans (bare_node _ _ _).symm
  | styledText => exact (bare_node _ _ _).trans (bare_node _ _ _).symm

/-- Other texts and other families leave every tag and every other attribute. -/
theorem Surface.bare_tokens_eq (s : Surface) {elements elements' : List Element}
    (h : List.Forall₂ Element.Reworded elements elements') :
    bare (s.tokens elements') = bare (s.tokens elements) := by
  have hlines : bare (elements'.flatMap fun e => chars "  " ++ e.node.tokens ++ chars "\n") =
      bare (elements.flatMap fun e => chars "  " ++ e.node.tokens ++ chars "\n") := by
    induction h with
    | nil => rfl
    | cons hfirst _ ih =>
        simp only [List.flatMap_cons, bare_append, ih, hfirst.bare_eq]
  simp only [tokens, bare_append, hlines]

/-- The text of an element and the family of its font, if it has one of its own. -/
def Element.inscription? : Element → Option (Option String × String)
  | .text _ content _ _ _ => some (none, content)
  | .styledText _ content family _ _ _ => some (some family, content)
  | .glyph _ sign _ => some (none, String.singleton sign)
  | _ => none

/-- The characters up to the next tag. -/
def charsAhead : List Token → List Char
  | .char c :: tokens => c :: charsAhead tokens
  | _ => []

/-- The texts that a document shows, with the families that they are to be shown in. -/
def inscriptions : List Token → List (Option String × String)
  | .opening "text" attributes :: tokens =>
      (attributes.lookup "font-family", String.ofList (charsAhead tokens)) :: inscriptions tokens
  | _ :: tokens => inscriptions tokens
  | [] => []

theorem inscriptions_chars (text : String) (tokens : List Token) :
    inscriptions (chars text ++ tokens) = inscriptions tokens := by
  have hchars (text : List Char) :
      inscriptions (text.map .char ++ tokens) = inscriptions tokens := by
    induction text with
    | nil => rfl
    | cons c text ih => exact ih
  exact hchars text.toList

theorem charsAhead_chars (text : String) (tag : String) (tokens : List Token) :
    charsAhead (chars text ++ .closing tag :: tokens) = text.toList := by
  have hchars (text : List Char) :
      charsAhead (text.map .char ++ .closing tag :: tokens) = text := by
    induction text with
    | nil => rfl
    | cons c text ih => exact congrArg (c :: ·) ih
  exact hchars text.toList

theorem inscriptions_text (attributes : List (String × String)) (content : String)
    (tokens : List Token) :
    inscriptions ((Node.mk "text" attributes (some content)).tokens ++ tokens) =
      (attributes.lookup "font-family", content) :: inscriptions tokens := by
  have htokens : (Node.mk "text" attributes (some content)).tokens ++ tokens =
      .opening "text" attributes :: (chars content ++ .closing "text" :: tokens) := by
    simp [Node.tokens]
  rw [htokens, inscriptions, charsAhead_chars, String.ofList_toList, inscriptions_chars]
  rfl

theorem inscriptions_element (e : Element) (tokens : List Token) :
    inscriptions (e.node.tokens ++ tokens) = e.inscription?.toList ++ inscriptions tokens := by
  cases e with
  | text => exact inscriptions_text _ _ _
  | styledText => exact inscriptions_text _ _ _
  | glyph => exact inscriptions_text _ _ _
  | head center filled => cases filled <;> rfl
  | line => rfl
  | rect => rfl
  | curve => rfl

/-- The texts of a document are those of its elements. -/
theorem Surface.inscriptions_tokens (s : Surface) (elements : List Element) :
    inscriptions (s.tokens elements) = elements.filterMap Element.inscription? := by
  have hlines (rest : List Token) :
      inscriptions ((elements.flatMap fun e => chars "  " ++ e.node.tokens ++ chars "\n") ++ rest) =
        elements.filterMap Element.inscription? ++ inscriptions rest := by
    induction elements with
    | nil => rfl
    | cons e elements ih =>
        rw [List.flatMap_cons, List.append_assoc, List.append_assoc, List.append_assoc,
          inscriptions_chars, inscriptions_element, inscriptions_chars, ih]
        cases he : e.inscription? <;> simp [he]
  have hend :
      inscriptions ([.closing "g"] ++ chars "\n" ++ [.closing "svg"] ++ chars "\n") = [] := by
    decide
  have hstart : s.tokens elements =
      .opening "svg" s.attributes :: (chars "\n" ++ .opening "g" s.group.attributes ::
        (chars "\n" ++ ((elements.flatMap fun e => chars "  " ++ e.node.tokens ++ chars "\n") ++
          ([.closing "g"] ++ chars "\n" ++ [.closing "svg"] ++ chars "\n")))) := by
    simp [tokens]
  have hroot (attributes : List (String × String)) (rest : List Token) :
      inscriptions (.opening "svg" attributes :: rest) = inscriptions rest := rfl
  have hgroup (attributes : List (String × String)) (rest : List Token) :
      inscriptions (.opening "g" attributes :: rest) = inscriptions rest := rfl
  rw [hstart, hroot, inscriptions_chars, hgroup, inscriptions_chars, hlines, hend, List.append_nil]

/-! ## Drawings -/

/-- Attributes that are written as they are, the family of a font left out. -/
def Node.Verbatim (n : Node) : Prop :=
  ∀ a ∈ n.attributes, a.1 ≠ "font-family" → Text.escapeString a.2 = a.2

theorem Element.PlainAttributes.verbatim {n : Node} (h : Element.PlainAttributes n.attributes) :
    n.Verbatim :=
  fun a ha hne => (h a ha hne).escapeString_eq

namespace Surface

theorem plainAttributes_root (s : Surface) : Element.PlainAttributes s.root.attributes := by
  have hsize (before : Text.Plain "0 0 ".toList) :
      Text.Plain ("0 0 " ++ Decimal.plain s.width ++ " " ++ Decimal.plain s.height).toList := by
    simp only [String.toList_append]
    exact ((before.append (Decimal.plain_plain _)).append (by decide)).append
      (Decimal.plain_plain _)
  exact .cons (by decide) <| .cons (hsize (by decide)) <| .cons (Decimal.plain_plain _) <|
    .cons (Decimal.plain_plain _) <| .cons (by decide) .nil

theorem plainAttributes_group (s : Surface) : Element.PlainAttributes s.group.attributes := by
  have hscale : Text.Plain ("scale(" ++ Decimal.plain s.scale ++ ")").toList := by
    simp only [String.toList_append]
    exact (Text.Over.append (by decide) (Decimal.plain_plain _)).append (by decide)
  exact .cons hscale .nil

end Surface

/-- The same element with another text, if it has one. -/
def Element.withText (content : String) : Element → Element
  | .text place _ size weight anchor => .text place content size weight anchor
  | .styledText place _ family size style anchor =>
      .styledText place content family size style anchor
  | e => e

theorem Element.reworded_withText (e : Element) (content : String) :
    e.Reworded (e.withText content) := by
  cases e with
  | text => exact .text _ _ _ _ _ _
  | styledText => exact .styledText _ _ _ _ _ _ _ _
  | _ => exact .refl _

end Tablature.Preview

namespace Tablature

open Preview

section Finished

variable {s : Session} {drawing : Drawing}

theorem Session.draw_eq (h : Drawing.ofCalls s.render.2 = .finished drawing) :
    s.draw = .finished drawing.document := by
  rw [Session.draw, h]
  rfl

/-- The document of a session is that of the elements which are drawn for it. -/
theorem exists_document_eq (h : Drawing.ofCalls s.render.2 = .finished drawing) :
    ∃ surface : Surface, drawing.document = surface.document drawing.picture.elements := by
  obtain ⟨surface, staves, -, rfl⟩ := Drawing.exists_staves_of_finished h
  exact ⟨surface, rfl⟩

end Finished

/-- **Texts stay texts.** Escaped texts are character data. The drawing of a session gets finished
exactly if the keys on its staves can be counted and their ledger lines end. Of every finished one,
whatever texts, fonts, labels and codes are in the score, the document can be read; it shows exactly
the texts of its elements, each in its family, and with other texts and families in their place it
would have the same tags with the same attributes. All other attributes are the drawing's own: the
colours, weights and anchors of its elements are those of the lists, and no attribute needs
escaping. -/
theorem texts_stay_texts : (∀ text, Text.Escapes text) ∧
    (∀ s : Session, s.draw.Finishes ↔ ∃ bound, s.render.1.score.EndsWithin bound) ∧
    ∀ (s : Session) (drawing : Drawing), Drawing.ofCalls s.render.2 = .finished drawing →
      let elements := drawing.picture.elements
      ∃ surface tokens, s.draw = .finished (Surface.document surface elements) ∧
        readDocument (surface.document elements) = some tokens ∧
        inscriptions tokens = elements.filterMap Element.inscription? ∧
        (∀ elements', List.Forall₂ Element.Reworded elements elements' →
          ∃ tokens', readDocument (surface.document elements') = some tokens' ∧
            inscriptions tokens' = elements'.filterMap Element.inscription? ∧
            bare tokens' = bare tokens) ∧
        surface.root.Verbatim ∧ surface.group.Verbatim ∧
        ∀ e ∈ elements, e.Own ∧ e.node.Verbatim := by
  refine ⟨Text.escapes, Session.finishes_draw_iff, fun s drawing hdrawing => ?_⟩
  dsimp only
  obtain ⟨surface, hdocument⟩ := exists_document_eq hdrawing
  let elements := drawing.picture.elements
  refine ⟨surface, surface.tokens elements, hdocument ▸ Session.draw_eq hdrawing,
    surface.readDocument_document elements, surface.inscriptions_tokens elements, ?_,
    surface.plainAttributes_root.verbatim, surface.plainAttributes_group.verbatim, ?_⟩
  · intro elements' hreworded
    exact ⟨_, surface.readDocument_document elements', surface.inscriptions_tokens elements',
      surface.bare_tokens_eq hreworded⟩
  · intro e he
    have hown := Drawing.owned_ofCalls s.render.2 drawing hdrawing e he
    exact ⟨hown, hown.plainAttributes.verbatim⟩

/-- A stave of tablature with one text below it. -/
def captioned (setup : PageSetup) (text : String) : Session :=
  .follow [.stave (StaveDeclaration.defaults .tablature), .textVoice,
    .text text ⟨0, .center, true, false⟩] (.start setup)

/-- A text that looks like markup is shown as it is, after the letters of the tablature. With `&` in
the place of all four the tags are the same. -/
theorem texts_stay_texts_markup :
    Text.escape "a<b & \"c\"".toList = "a&lt;b &amp; &quot;c&quot;".toList ∧
      ∃ drawing surface tokens tokens',
        Drawing.ofCalls (captioned .standard "</text>&amp;").render.2 = .finished drawing ∧
        (captioned .standard "</text>&amp;").draw =
          .finished (Surface.document surface drawing.picture.elements) ∧
        readDocument (surface.document drawing.picture.elements) = some tokens ∧
        inscriptions tokens = [(none, "T"), (none, "A"), (none, "B"),
          (some PageSetup.standard.fontFace, "</text>&amp;")] ∧
        readDocument (surface.document (drawing.picture.elements.map (Element.withText "&"))) =
          some tokens' ∧
        inscriptions tokens' = [(none, "&"), (none, "&"), (none, "&"),
          (some PageSetup.standard.fontFace, "&")] ∧
        bare tokens' = bare tokens := by
  obtain ⟨hescapes, -, hdraws⟩ := texts_stay_texts
  have hdrawing : Drawing.ofCalls (captioned .standard "</text>&amp;").render.2 = .finished _ := rfl
  obtain ⟨surface, tokens, hdraw, hread, hshown, hreworded, -⟩ := hdraws _ _ hdrawing
  obtain ⟨tokens', hread', hshown', hbare⟩ := hreworded _
    (List.forall₂_map_right_iff.2 (List.forall₂_same.2 fun e _ => e.reworded_withText "&"))
  refine ⟨(hescapes _).inTurn.trans (by decide), _, surface, tokens, tokens', hdrawing, hdraw, hread,
    ?_, hread', ?_, hbare⟩
  · exact hshown.trans rfl
  · exact hshown'.trans rfl

end Tablature
