/-
# Tablature.Proofs.Palette — what an element shows beside its text.

Colours, weights and anchors of the elements of a drawing are taken from short lists, whatever is
drawn (`Drawing.owned_ofCalls`); what else an element shows beside its text and the family of its
font are numbers. So all of its other attributes are plain texts (`Element.Own.plainAttributes`):
nothing in them needs escaping, and no text of a score gets into them. The texts and the families
are those of the score, numerals or fixed: they are written in the letters of what the engine is
handed (`Drawing.lettered_ofCalls`). All of this is about what gets finished.
-/
import Tablature.Proofs.Finishing
import Tablature.Proofs.Letters

namespace Tablature.Preview

open Text (Plain)

/-! ## Elements -/

/-- The colours of a drawing. -/
def colors : List String := [noteColor, staffColor, barColor, backgroundColor]

/-- The weights of its texts. -/
def weights : List String := ["normal", "bold", "italic"]

/-- The anchors of its texts. -/
def anchors : List String := ["start", "middle", "end"]

/-- **An element of a drawing**: its colours, weights and anchors are those of the lists. -/
inductive Element.Own : Element → Prop
  | line {start stop : Point} {color : String} {width : Float} (hcolor : color ∈ colors) :
      Own (.line start stop color width)
  | rect {corner : Point} {width height : Float} {fill : String} (hfill : fill ∈ colors) :
      Own (.rect corner width height fill)
  | text {place : Point} {content : String} {size : Float} {weight anchor : String}
      (hweight : weight ∈ weights) (hanchor : anchor ∈ anchors) :
      Own (.text place content size weight anchor)
  | styledText {place : Point} {content family : String} {size : Float} {style : Option String}
      {anchor : String} (hanchor : anchor ∈ anchors) :
      Own (.styledText place content family size style anchor)
  | curve {start control stop : Point} : Own (.curve start control stop)
  | head {center : Point} {filled : Bool} : Own (.head center filled)
  | glyph {place : Point} {sign : Char} {size : Float} : Own (.glyph place sign size)

namespace Element

theorem plain_coordinate (x : Float) : Plain (coordinate x).toList := Decimal.plain_fixed 1 x

theorem plain_fontSize (x : Float) : Plain (fontSize x).toList := Decimal.plain_fixed 0 x

theorem plain_pathPoint (p : Point) : Plain (pathPoint p).toList := by
  simp only [pathPoint, String.toList_append]
  exact ((plain_coordinate _).append (by decide)).append (plain_coordinate _)

theorem plain_slope (p : Point) : Plain (slope p).toList := by
  simp only [slope, String.toList_append]
  exact (Text.Over.append (by decide) (plain_pathPoint p)).append (by decide)

theorem plain_weightAndSlant (style : Option String) :
    Plain (weightAndSlant style).1.toList ∧ Plain (weightAndSlant style).2.toList := by
  unfold weightAndSlant
  split <;> decide

theorem plain_color {color : String} (h : color ∈ colors) : Plain color.toList := by
  have all : ∀ color ∈ colors, Plain color.toList := by decide
  exact all color h

theorem plain_weight {weight : String} (h : weight ∈ weights) : Plain weight.toList := by
  have all : ∀ weight ∈ weights, Plain weight.toList := by decide
  exact all weight h

theorem plain_anchor {anchor : String} (h : anchor ∈ anchors) : Plain anchor.toList := by
  have all : ∀ anchor ∈ anchors, Plain anchor.toList := by decide
  exact all anchor h

theorem plain_noteColor : Plain noteColor.toList := by decide

/-- Attributes that are plain texts, the family of a font left out. -/
def PlainAttributes (attributes : List (String × String)) : Prop :=
  ∀ a ∈ attributes, a.1 ≠ "font-family" → Plain a.2.toList

namespace PlainAttributes

theorem nil : PlainAttributes [] := List.forall_mem_nil _

theorem cons {key value : String} {attributes : List (String × String)}
    (h : Plain value.toList) (hrest : PlainAttributes attributes) :
    PlainAttributes ((key, value) :: attributes) :=
  List.forall_mem_cons.2 ⟨fun _ => h, hrest⟩

theorem family {value : String} {attributes : List (String × String)}
    (hrest : PlainAttributes attributes) :
    PlainAttributes (("font-family", value) :: attributes) :=
  List.forall_mem_cons.2 ⟨fun hne => absurd rfl hne, hrest⟩

theorem ellipse {center : Point} {radiusX radiusY : Float} {attributes : List (String × String)}
    (hrest : PlainAttributes attributes) :
    PlainAttributes (Element.ellipse center radiusX radiusY ++ attributes) :=
  .cons (plain_coordinate _) <| .cons (plain_coordinate _) <| .cons (plain_coordinate _) <|
    .cons (plain_coordinate _) hrest

end PlainAttributes

/-- Beside the family of its font, every attribute of an element is a plain text. -/
theorem Own.plainAttributes {e : Element} (h : e.Own) : PlainAttributes e.node.attributes := by
  cases h with
  | line hcolor =>
      exact .cons (plain_coordinate _) <| .cons (plain_coordinate _) <|
        .cons (plain_coordinate _) <| .cons (plain_coordinate _) <| .cons (plain_color hcolor) <|
        .cons (plain_coordinate _) <| .cons (by decide) .nil
  | rect hfill =>
      exact .cons (plain_coordinate _) <| .cons (plain_coordinate _) <|
        .cons (plain_coordinate _) <| .cons (plain_coordinate _) <| .cons (plain_color hfill) .nil
  | text hweight hanchor =>
      exact .cons (plain_coordinate _) <| .cons (plain_coordinate _) <|
        .cons (plain_fontSize _) <| .cons (plain_weight hweight) <| .cons plain_noteColor <|
        .cons (plain_anchor hanchor) .nil
  | styledText hanchor =>
      obtain ⟨hweight, hslant⟩ := plain_weightAndSlant ‹Option String›
      exact .cons (plain_coordinate _) <| .cons (plain_coordinate _) <| .family <|
        .cons (plain_fontSize _) <| .cons hweight <| .cons hslant <| .cons plain_noteColor <|
        .cons (plain_anchor hanchor) .nil
  | @curve start control stop =>
      have hpath : Plain ("M" ++ pathPoint start ++ " Q" ++ pathPoint control ++ " " ++
          pathPoint stop).toList := by
        simp only [String.toList_append]
        exact ((((Text.Over.append (by decide) (plain_pathPoint _)).append (by decide)).append
          (plain_pathPoint _)).append (by decide)).append (plain_pathPoint _)
      exact .cons hpath <| .cons (by decide) <| .cons plain_noteColor <|
        .cons (plain_coordinate _) <| .cons (by decide) .nil
  | @head center filled =>
      cases filled with
      | true => exact .ellipse <| .cons plain_noteColor <| .cons (plain_slope _) .nil
      | false =>
          exact .ellipse <| .cons (by decide) <| .cons plain_noteColor <|
            .cons (plain_coordinate _) <| .cons (plain_slope _) .nil
  | glyph =>
      exact .cons (plain_coordinate _) <| .cons (plain_coordinate _) <|
        .cons (plain_fontSize _) <| .cons plain_noteColor <| .cons (by decide) .nil

end Element

/-- What an element says is over an alphabet: its text, and the family of its font. -/
def Element.Over (C : Char → Prop) : Element → Prop
  | text _ content _ _ _ => Text.Over C content.toList
  | styledText _ content family _ _ _ => Text.Over C content.toList ∧ Text.Over C family.toList
  | glyph _ sign _ => C sign
  | _ => True

/-- Elements of a drawing. -/
abbrev Owned (elements : List Element) : Prop := ∀ e ∈ elements, e.Own

/-- Elements of a drawing that say what they say in the letters of an alphabet. -/
abbrev Lettered (C : Char → Prop) (elements : List Element) : Prop :=
  ∀ e ∈ elements, e.Own ∧ e.Over C

variable {C : Char → Prop}

theorem Lettered.single {e : Element} (hown : e.Own) (hover : e.Over C) : Lettered C [e] :=
  List.forall_mem_singleton.2 ⟨hown, hover⟩

theorem Lettered.cons {e : Element} {elements : List Element} (hown : e.Own) (hover : e.Over C)
    (hrest : Lettered C elements) : Lettered C (e :: elements) :=
  List.forall_mem_cons.2 ⟨⟨hown, hover⟩, hrest⟩

theorem Lettered.append {elements elements' : List Element} (h : Lettered C elements)
    (h' : Lettered C elements') : Lettered C (elements ++ elements') :=
  List.forall_mem_append.2 ⟨h, h'⟩

/-! ## Notes -/

theorem own_stroke (x1 y1 x2 y2 width : Float) : (stroke x1 y1 x2 y2 width).Own :=
  .line (by decide)

theorem own_ledger (x y : Float) : (ledger x y).Own := .line (by decide)

theorem own_dot (x y : Float) : (dot x y).Own := .rect (by decide)

theorem over_articulationGlyph (own : Text.Alphabet C) {code : String}
    (h : Text.Over C code.toList) : Text.Over C (articulationGlyph code).toList := by
  unfold articulationGlyph
  split
  all_goals first
    | exact h
    | exact own.own _ (by decide)

theorem over_accidentalGlyph (own : Text.Alphabet C) (accidental : Accidental) :
    Text.Over C (accidentalGlyph accidental).toList := by
  cases accidental <;> exact own.own _ (by decide)

theorem over_bendLabel (own : Text.Alphabet C) {phrase : List BendStep}
    (h : ∀ step ∈ phrase, Text.Over C step.label.toList) :
    Text.Over C (bendLabel phrase).toList := by
  rw [bendLabel, String.toList_intercalate]
  refine (own.own " / " (by decide)).intercalate ?_
  rw [List.map_map]
  refine List.forall_mem_map.2 fun step hstep => ?_
  dsimp only [Function.comp_apply]
  split
  · exact h step hstep
  · exact own.own "release" (by decide)

theorem lettered_sharedMark (own : Text.Alphabet C) (x above below : Float) {m : Modifier}
    (hm : m.Over C) : Lettered C (sharedMark x above below m) := by
  cases m with
  | vibrato harsh =>
      refine .single (.text (by decide) (by decide)) ?_
      cases harsh with
      | true => exact own.own "≈≈≈" (by decide)
      | false => exact own.own "~~~" (by decide)
  | articulation code position =>
      exact .single (.text (by decide) (by decide)) (over_articulationGlyph own hm)
  | caption caption => exact .single (.styledText (by decide)) hm
  | stroke kind =>
      refine .single (.text (by decide) (by decide)) ?_
      dsimp only [Element.Over]
      split
      · exact own.own "↑" (by decide)
      · exact own.own "↓" (by decide)
  | bend phrase => exact List.forall_mem_nil _
  | accidental accidental cautionary => exact List.forall_mem_nil _
  | fingering text position => exact List.forall_mem_nil _
  | stringNumber text position => exact List.forall_mem_nil _

theorem lettered_ledgerLines (x top y : Float) : (ledgerLines x top y).Holds (Lettered C) := by
  have loop (row : LedgerRow) (y : Float) :
      (Sketch.ofLoop (row.lines x y)).Holds (Lettered C) := by
    intro lines hlines
    obtain ⟨n, -, -, rfl⟩ :=
      LedgerRow.lines_eq_some_iff.1 (Sketch.ofLoop_eq_finished_iff.1 hlines)
    exact List.forall_mem_map.2 fun y _ => ⟨own_ledger x y, trivial⟩
  exact (loop _ _).bind fun above habove => (loop _ _).bind fun below hbelow =>
    .finished (habove.append hbelow)

theorem own_keyHead (note : StaffNote) (x y : Float) : (keyHead note x y).Own := by
  unfold keyHead
  split
  · exact own_stroke _ _ _ _ _
  · exact .head

theorem over_keyHead (note : StaffNote) (x y : Float) : (keyHead note x y).Over C := by
  unfold keyHead
  split <;> trivial

theorem lettered_staffHead (note : StaffNote) (x top y : Float) :
    (staffHead note x top y).Holds (Lettered C) :=
  (lettered_ledgerLines x top y).map fun _ hlines =>
    hlines.append (.single (own_keyHead note x y) (over_keyHead note x y))

theorem lettered_staffStem (note : StaffNote) (x middle : Float) (ys : List Float) :
    Lettered C (staffStem note x middle ys) := by
  unfold staffStem
  split
  · exact List.forall_mem_nil _
  dsimp only
  split <;> exact .single (own_stroke _ _ _ _ _) trivial

theorem lettered_staffMark (own : Text.Alphabet C) (x top : Float) (ys : List Float)
    {attached : Attached} (h : attached.modifier.Over C) :
    Lettered C (staffMark x top ys attached) := by
  unfold staffMark
  dsimp only
  split
  · rename_i accidental cautionary _
    refine .single (.text (by decide) (by decide)) ?_
    have hsign := over_accidentalGlyph own accidental
    dsimp only [Element.Over]
    split
    · simp only [String.toList_append]
      exact ((own.own "(" (by decide)).append hsign).append (own.own ")" (by decide))
    · exact hsign
  · rename_i heq
    rw [heq] at h
    exact .single (.text (by decide) (by decide)) h
  · rename_i heq
    rw [heq] at h
    exact .single (.text (by decide) (by decide)) h
  · exact lettered_sharedMark own _ _ _ h

theorem lettered_staffNoteElements (own : Text.Alphabet C) {note : StaffNote}
    (h : (Tickable.staff note).Over C) (x top : Float) (ys : List Float) :
    (staffNoteElements note x top ys).Holds (Lettered C) := by
  unfold staffNoteElements
  split
  · exact .finished (.single (.rect (by decide)) trivial)
  have hheads : ∀ head ∈ ys.map (staffHead note x top), head.Holds (Lettered C) :=
    List.forall_mem_map.2 fun y _ => lettered_staffHead note x top y
  refine (Sketch.Holds.all hheads).bind fun heads hheads => .finished ?_
  refine .append (.append (.append (List.forall_mem_flatten.2 hheads) ?_)
    (lettered_staffStem _ _ _ _)) ?_
  · split
    · exact List.forall_mem_map.2 fun y _ => ⟨own_dot x y, trivial⟩
    · exact List.forall_mem_nil _
  · exact List.forall_mem_flatMap.2 fun attached hattached =>
      lettered_staffMark own x top _ (h attached hattached)

theorem over_fret (own : Text.Alphabet C) (fret : Fret) : Text.Over C fret.toText.toList := by
  rw [Fret.toText, String.toList_ofList]
  cases fret with
  | number n => exact own.digits n
  | muted => exact own.own "X" (by decide)

theorem lettered_fretElements (own : Text.Alphabet C) (x first : Float) (p : TabPosition) :
    Lettered C (fretElements x first p) :=
  .cons (.rect (by decide)) trivial <|
    .single (.text (by decide) (by decide)) (over_fret own p.fret)

theorem lettered_tabStem (note : TabNote) (x first last : Float) (beam : BeamPolicy) :
    Lettered C (tabStem note x first last beam) := by
  unfold tabStem
  split
  · split <;> exact .single (own_stroke _ _ _ _ _) trivial
  · exact List.forall_mem_nil _

theorem lettered_tabMark (own : Text.Alphabet C) (x first last : Float) (ys : List Float)
    {attached : Attached} (h : attached.modifier.Over C) :
    Lettered C (tabMark x first last ys attached) := by
  unfold tabMark
  split
  · rename_i heq
    rw [heq] at h
    exact .cons .curve trivial <|
      .single (.text (by decide) (by decide)) (over_bendLabel own h)
  · exact lettered_sharedMark own _ _ _ h

theorem lettered_tabNoteElements (own : Text.Alphabet C) {note : TabNote}
    (h : (Tickable.tab note).Over C) (x first last : Float) (beam : BeamPolicy) :
    Lettered C (tabNoteElements note x first last beam) := by
  unfold tabNoteElements
  split
  · exact List.forall_mem_nil _
  refine .append (.append ?_ (lettered_tabStem _ _ _ _ _)) ?_
  · exact List.forall_mem_flatMap.2 fun p _ => lettered_fretElements own x first p
  · exact List.forall_mem_flatMap.2 fun attached hattached =>
      lettered_tabMark own x first last _ (h attached hattached)

/-! ## Staves -/

theorem lettered_barLine (type : BarType) (x top bottom : Float) :
    Lettered C (barLine type x top bottom) := by
  have line (x width : Float) : (Element.line ⟨x, top⟩ ⟨x, bottom⟩ barColor width).Own :=
    .line (by decide)
  have dots (upper lower : Point) :
      Lettered C [.rect upper 3.0 3.0 barColor, .rect lower 3.0 3.0 barColor] :=
    .cons (.rect (by decide)) trivial (.single (.rect (by decide)) trivial)
  have lines (x x' width width' : Float) : Lettered C
      [.line ⟨x, top⟩ ⟨x, bottom⟩ barColor width, .line ⟨x', top⟩ ⟨x', bottom⟩ barColor width'] :=
    .cons (line _ _) trivial (.single (line _ _) trivial)
  cases type with
  | single => exact .single (line _ _) trivial
  | double => exact lines _ _ _ _
  | final => exact lines _ _ _ _
  | repeatBegin => exact .append (lines _ _ _ _) (dots _ _)
  | repeatEnd => exact .append (dots _ _) (lines _ _ _ _)
  | repeatBoth =>
      exact .append (.append (dots _ _) (.cons (line _ _) trivial (lines _ _ _ _))) (dots _ _)

theorem lettered_endBarLine (bar : Option BarType) (x top bottom : Float) :
    Lettered C (endBarLine bar x top bottom) := by
  cases bar with
  | none => exact List.forall_mem_nil _
  | some type => exact lettered_barLine type x top bottom

theorem lettered_staveLines (x width first spacing : Float) (count : Nat) :
    Lettered C (staveLines x width first spacing count) :=
  List.forall_mem_map.2 fun _ _ => ⟨.line (by decide), trivial⟩

theorem lettered_clefElements (own : Text.Alphabet C) (clef : Option Clef) (x top : Float) :
    Lettered C (clefElements clef x top) := by
  have letter {place : Point} {text : String} {size : Float} (htext : text ∈ Text.ownTexts) :
      Lettered C [.text place text size "bold" "middle"] :=
    .single (.text (by decide) (by decide)) (own.own text htext)
  unfold clefElements
  dsimp only
  split
  · exact .single .glyph (own.own "𝄞" (by decide) _ (by decide))
  · exact .single .glyph (own.own "𝄢" (by decide) _ (by decide))
  · exact letter (by decide)
  · exact letter (by decide)
  · exact letter (by decide)
  · exact List.forall_mem_nil _

theorem over_timeSignature (own : Text.Alphabet C) (t : TimeSignature) :
    Text.Over C t.toText.toList := by
  rw [TimeSignature.toText, String.toList_ofList]
  cases t with
  | common => exact own.own "C" (by decide)
  | cutCommon => exact own.own "C|" (by decide)
  | numeric beats beatValue =>
      exact (own.digits beats).append
        (.append (own.own "/" (by decide)) (own.digits beatValue))

theorem lettered_timeElements (own : Text.Alphabet C) (time : Option TimeSignature)
    (x top : Float) : Lettered C (timeElements time x top) := by
  cases time with
  | none => exact List.forall_mem_nil _
  | some t => exact .single (.text (by decide) (by decide)) (over_timeSignature own t)

theorem lettered_tabGlyph (own : Text.Alphabet C) (x first last : Float) :
    Lettered C (tabGlyph x first last) :=
  .cons (.text (by decide) (by decide)) (own.own "T" (by decide)) <|
    .cons (.text (by decide) (by decide)) (own.own "A" (by decide)) <|
    .single (.text (by decide) (by decide)) (own.own "B" (by decide))

namespace Picture

theorem lettered_join {pictures : List Picture} (h : ∀ p ∈ pictures, Lettered C p.elements) :
    Lettered C (join pictures).elements := by
  induction pictures with
  | nil => exact List.forall_mem_nil _
  | cons p pictures ih =>
      obtain ⟨hp, hrest⟩ := List.forall_mem_cons.1 h
      exact .append hp (ih hrest)

end Picture

/-- A picture whose elements say what they say in the letters of an alphabet. -/
abbrev Picture.Lettered (C : Char → Prop) (p : Picture) : Prop := Preview.Lettered C p.elements

theorem lettered_join {pictures : List (Sketch Picture)}
    (h : ∀ x ∈ pictures, x.Holds (Picture.Lettered C)) :
    (Sketch.join pictures).Holds (Picture.Lettered C) :=
  (Sketch.Holds.all h).map fun _ hparts => Picture.lettered_join hparts

/-- What is placed are the objects of the voice. -/
theorem Timeline.mem_of_mem_place {t : Timeline} {voice : List Tickable}
    {m : Nat × Float × Tickable} (h : m ∈ t.place voice) : m.2.2 ∈ voice := by
  have hmem := List.mem_map_of_mem (f := (·.2.2)) h
  rwa [t.map_place] at hmem

theorem lettered_staffObject (own : Text.Alphabet C) (view : StaffView) (top : Float)
    (stave voice index : Nat) (left : Float) {t : Tickable} (h : t.Over C) :
    (staffObject view top stave voice index left t).Holds (Picture.Lettered C) := by
  cases t with
  | staff note =>
      intro picture hpicture
      obtain ⟨ys, -, hpicture⟩ := Sketch.bind_eq_finished_iff.1 hpicture
      obtain ⟨elements, helements, ⟨⟩⟩ := Sketch.bind_eq_finished_iff.1 hpicture
      exact lettered_staffNoteElements own h _ _ _ elements helements
  | bar type =>
      exact .finished (lettered_barLine .single (left + headWidth - headWidth) top (bottomOf top))
  | tab note => exact .finished (List.forall_mem_nil _)
  | spacer duration multiplier => exact .finished (List.forall_mem_nil _)
  | text note => exact .finished (List.forall_mem_nil _)

theorem lettered_tabObject (own : Text.Alphabet C) (first last : Float) (beam : BeamPolicy)
    (stave voice index : Nat) (left : Float) {t : Tickable} (h : t.Over C) :
    (tabObject first last beam stave voice index left t).Holds (Picture.Lettered C) := by
  cases t with
  | tab note => exact .finished (lettered_tabNoteElements own h _ _ _ _)
  | bar type =>
      exact .finished (lettered_barLine .single (left + headWidth - headWidth) first last)
  | staff note => exact .finished (List.forall_mem_nil _)
  | spacer duration multiplier => exact .finished (List.forall_mem_nil _)
  | text note => exact .finished (List.forall_mem_nil _)

theorem lettered_voicePictures {timeline : Timeline}
    {object : Nat → Nat → Float → Tickable → Sketch Picture} {voices : List (List Tickable)}
    (h : ∀ voice index left t, t.Over C →
      (object voice index left t).Holds (Picture.Lettered C))
    (hvoices : ∀ voice ∈ voices, ∀ t ∈ voice, t.Over C) :
    (voicePictures timeline object voices).Holds (Picture.Lettered C) := by
  refine lettered_join fun x hx => ?_
  obtain ⟨voice, hvoice, rfl⟩ := List.mem_mapIdx.1 hx
  refine lettered_join (List.forall_mem_map.2 fun m hm => ?_)
  exact h voice m.1 m.2.1 m.2.2
    (hvoices _ (List.getElem_mem hvoice) _ (Timeline.mem_of_mem_place hm))

theorem lettered_staffPicture (own : Text.Alphabet C) (timeline : Timeline) (stave : Nat)
    (view : StaffView) {voices : List (List Tickable)}
    (hvoices : ∀ voice ∈ voices, ∀ t ∈ voice, t.Over C) :
    (staffPicture timeline stave view voices).Holds (Picture.Lettered C) := by
  refine lettered_join (List.forall_mem_cons.2 ⟨.finished ?_, List.forall_mem_cons.2
    ⟨lettered_voicePictures (fun _ _ _ _ => lettered_staffObject own _ _ _ _ _ _) hvoices,
      List.forall_mem_singleton.2 (.finished (lettered_endBarLine _ _ _ _))⟩⟩)
  exact .append (.append (lettered_staveLines _ _ _ _ _) (lettered_clefElements own _ _ _))
    (lettered_timeElements own _ _ _)

theorem lettered_tabPicture (own : Text.Alphabet C) (timeline : Timeline) (stave : Nat)
    (beam : BeamPolicy) (view : TabView) {voices : List (List Tickable)}
    (hvoices : ∀ voice ∈ voices, ∀ t ∈ voice, t.Over C) :
    (tabPicture timeline stave beam view voices).Holds (Picture.Lettered C) := by
  refine lettered_join (List.forall_mem_cons.2 ⟨.finished ?_, List.forall_mem_cons.2
    ⟨lettered_voicePictures (fun _ _ _ _ => lettered_tabObject own _ _ _ _ _ _ _) hvoices,
      List.forall_mem_singleton.2 (.finished (lettered_endBarLine _ _ _ _))⟩⟩)
  refine .append (lettered_staveLines _ _ _ _ _) ?_
  split
  · exact lettered_tabGlyph own _ _ _
  · exact List.forall_mem_nil _

theorem lettered_textElements (bottom : Float) (row : Nat) (left : Float) {note : TextNote}
    (h : note.Over C) : Lettered C (textElements bottom row left note) := by
  have hanchor : anchorOf note.justification ∈ anchors := by
    cases note.justification <;> decide
  have hshown : Text.Over C (note.glyph.getD note.text).toList := by
    cases hglyph : note.glyph with
    | none => exact h.text
    | some name => exact h.glyph name hglyph
  unfold textElements
  split
  · exact List.forall_mem_nil _
  · exact .single (.styledText hanchor) ⟨hshown, h.family⟩

theorem lettered_stavePicture (own : Text.Alphabet C) {g : StaveGroup} (h : g.Over C) :
    (stavePicture g).Holds (Picture.Lettered C) := by
  refine lettered_join (List.forall_mem_cons.2 ⟨?_, List.forall_mem_cons.2
    ⟨?_, List.forall_mem_singleton.2 (.finished ?_)⟩⟩)
  · split
    · rename_i hstaff
      exact lettered_staffPicture own _ _ _ (h.staff _ hstaff)
    · exact .finished (List.forall_mem_nil _)
  · split
    · rename_i htab
      exact lettered_tabPicture own _ _ _ _ (h.tab _ htab)
    · exact .finished (List.forall_mem_nil _)
  · refine List.forall_mem_flatten.2 fun elements helements => ?_
    obtain ⟨row, hrow, rfl⟩ := List.mem_mapIdx.1 helements
    refine List.forall_mem_flatMap.2 fun m hm => lettered_textElements _ _ _ ?_
    exact h.texts _ (List.getElem_mem hrow) _ (List.of_mem_zip hm).1

/-! ## Links -/

theorem lettered_tupletElements (own : Text.Alphabet C) (placements : Placements) (view : View)
    (tuplet : Tuplet) : Lettered C (tupletElements placements view tuplet) := by
  unfold tupletElements
  dsimp only
  split
  · exact .cons (own_stroke _ _ _ _ _) trivial <| .cons (own_stroke _ _ _ _ _) trivial <|
      .cons (own_stroke _ _ _ _ _) trivial <| .cons (.rect (by decide)) trivial <|
      .single (.text (by decide) (by decide)) (own.natText tuplet.count)
  · exact List.forall_mem_nil _

theorem lettered_tabTieElements {label : String} (h : Text.Over C label.toList) (a b : Point) :
    Lettered C (tabTieElements label a b) := by
  refine .cons .curve trivial ?_
  split
  · exact List.forall_mem_nil _
  · exact .single (.text (by decide) (by decide)) h

theorem lettered_tabLinkElements (own : Text.Alphabet C) (placements : Placements) {l : TabLink}
    (h : l.Over C) : Lettered C (tabLinkElements placements l) := by
  cases l with
  | slide link => exact List.forall_mem_map.2 fun _ _ => ⟨own_stroke _ _ _ _ _, trivial⟩
  | tie link label => exact List.forall_mem_flatMap.2 fun _ _ => lettered_tabTieElements h _ _
  | tuplet tuplet => exact lettered_tupletElements own _ _ _

theorem lettered_staffLinkElements (own : Text.Alphabet C) (placements : Placements)
    (l : StaffLink) : Lettered C (staffLinkElements placements l) := by
  cases l with
  | tie link => exact List.forall_mem_map.2 fun _ _ => ⟨.curve, trivial⟩
  | tuplet tuplet => exact lettered_tupletElements own _ _ _

/-! ## Drawings -/

namespace Drawing

theorem lettered_perform (own : Text.Alphabet C) {d : Drawing} (h : d.picture.Lettered C)
    {call : LayoutCall} (hcall : call.Over C) :
    (d.perform call).Holds fun d => d.picture.Lettered C := by
  unfold perform
  split
  -- A new surface starts a new drawing.
  · exact .finished (List.forall_mem_nil _)
  · exact (lettered_stavePicture own hcall).map fun _ hp => .append h hp
  · refine .finished (.append h (.append ?_ ?_))
    · exact List.forall_mem_flatMap.2 fun l hl => lettered_tabLinkElements own _ (hcall l hl)
    · exact List.forall_mem_flatMap.2 fun l _ => lettered_staffLinkElements own _ l
  · exact .finished h

/-- **A drawing says what it says in the letters of its calls**, but for the fixed texts and
numerals. -/
theorem lettered_ofCalls (own : Text.Alphabet C) {calls : List LayoutCall}
    (h : ∀ call ∈ calls, call.Over C) : (ofCalls calls).Holds fun d => d.picture.Lettered C :=
  .foldlM (List.forall_mem_nil _) fun _ hd call hcall => lettered_perform own hd (h call hcall)

/-- **Whatever is drawn**, its colours, weights and anchors are those of the lists. -/
theorem owned_ofCalls (calls : List LayoutCall) :
    (ofCalls calls).Holds fun d => Owned d.picture.elements := by
  intro drawing hdrawing e he
  exact (lettered_ofCalls .all (fun call _ => call.over_all) drawing hdrawing e he).1

end Drawing

end Tablature.Preview
