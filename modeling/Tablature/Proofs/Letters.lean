/-
# Tablature.Proofs.Letters — in which letters a score is written.

A session makes no letters up. The texts of its score are parts of the texts of its events, or texts
of its own, of which there are a few (`Text.ownTexts`) beside numerals. So an alphabet with the
letters of both has those of every text in the score, whatever happens to the session
(`Session.follow_over`), and for a list of directives the letters of their settings, annotations and
text lines are enough (`compileDirectives_over`).
-/
import Tablature.Proofs.Annotating
import Tablature.Proofs.Escaping
import Tablature.Proofs.Fingerings
import Tablature.Proofs.Objects

namespace Tablature

/-! ## Alphabets -/

namespace Text

/-- The fixed texts of scores and drawings. -/
def ownTexts : List String :=
  ["≈≈≈", "~~~", "↑", "↓", "a|", "am", ">", "·", "–", "^", "∨", "⊓", "𝄐", "+", "(", ")", "𝄫", "♭",
    "♮", "♯", "𝄪", "X", "C", "C|", "/", "T", "A", "B", "P", "H", " ", "1/2", "Full", "1 1/2",
    "Bend to ", "release", " / ", "Times", "𝄞", "𝄢"]

/-- An alphabet in which the fixed texts and all numerals can be written. -/
structure Alphabet (C : Char → Prop) : Prop where
  own : ∀ text ∈ ownTexts, Over C text.toList
  digit : ∀ c, c.isDigit = true → C c

variable {C : Char → Prop} {separator : Char} {text before after : List Char}

/-- All letters together. -/
theorem Alphabet.all : Alphabet fun _ => True := ⟨fun _ _ _ _ => trivial, fun _ _ => trivial⟩

theorem Alphabet.digits (h : Alphabet C) (n : Nat) : Over C (Numeral.digits n) :=
  fun c hc => h.digit c (Numeral.isDigit_of_mem_digits hc)

theorem Alphabet.natText (h : Alphabet C) (n : Nat) : Over C (Numeral.natText n).toList := by
  rw [Numeral.natText, String.toList_ofList]
  exact h.digits n

/-! ### Parts of texts -/

theorem trimStart_subset (text : List Char) : trimStart text ⊆ text :=
  (List.dropWhile_suffix _).subset

theorem trim_subset (text : List Char) : trim text ⊆ text := by
  intro c hc
  rw [trim, trimEnd, List.mem_reverse] at hc
  exact trimStart_subset _ (List.mem_reverse.1 (trimStart_subset _ hc))

theorem subset_of_splitFirst (h : splitFirst separator text = some (before, after)) :
    before ⊆ text ∧ after ⊆ text := by
  obtain ⟨rfl, -⟩ := splitFirst_eq_some h
  exact ⟨List.subset_append_left _ _, fun c hc => List.mem_append_right _ (.tail _ hc)⟩

theorem subset_of_afterStart? {start : List Char} (h : afterStart? start text = some after) :
    after ⊆ text := by
  rw [afterStart?_eq_some_iff] at h
  exact h ▸ List.subset_append_right _ _

theorem subset_of_mem_splitAll {piece : List Char} (h : piece ∈ splitAll separator text) :
    piece ⊆ text := by
  induction text generalizing piece with
  | nil =>
      rw [List.mem_singleton.1 h]
      exact List.nil_subset _
  | cons c text ih =>
      rw [splitAll] at h
      split at h
      · rcases List.mem_cons.1 h with rfl | h
        · exact List.nil_subset _
        · exact List.subset_cons_of_subset c (ih h)
      · split at h
        · exact List.mem_singleton.1 h ▸ List.cons_subset_cons c (List.nil_subset _)
        · rename_i first rest hpieces
          -- Where the text is not cut, the first piece begins with its first character.
          rw [hpieces] at ih
          rcases List.mem_cons.1 h with rfl | h
          · exact List.cons_subset_cons c (ih List.mem_cons_self)
          · exact List.subset_cons_of_subset c (ih (List.mem_cons_of_mem first h))

end Text

variable {C : Char → Prop}

/-! ## Tokens -/

/-- The texts of an annotation, and the family of its font, are over an alphabet. -/
def TextMarkup.Over (C : Char → Prop) : TextMarkup → Prop
  | plain text => Text.Over C text.toList
  | withFont font text => Text.Over C font.family.toList ∧ Text.Over C text.toList
  | styled _ text => Text.Over C text.toList

/-- The texts of a token are over an alphabet. -/
def Markup.Over (C : Char → Prop) : Markup → Prop
  | articulation code _ => Text.Over C code.toList
  | stroke _ => True
  | fingering marks => ∀ m ∈ marks, Text.Over C m.label.toList
  | label text => text.Over C

theorem Font.family_of_ofParts {family size style : List Char} {font : Font}
    (h : ofParts family size style = .ok font) : font.family = String.ofList family := by
  unfold ofParts at h
  split at h <;> cases h
  rfl

namespace Markup

variable {token : List Char}

theorem label_subset_of_readBody {body : List Char} {marks : List FingerMark}
    (h : FingerMark.readBody body = .ok marks) : ∀ m ∈ marks, m.label.toList ⊆ body := by
  intro m hm
  obtain ⟨piece, hpiece, hspelled⟩ :=
    exists_of_mem_forall₂ (FingerMark.readBody_eq_ok_iff.1 h).flip hm
  obtain ⟨numeral, -, htrim⟩ := hspelled.spelling
  refine fun c hc => Text.subset_of_mem_splitAll hpiece (Text.trim_subset piece ?_)
  rw [htrim]
  simp [FingerMark.afterNumber, hc]

theorem subset_of_articulationParts? {code : List Char} {position : Position}
    (h : articulationParts? token = some (code, position)) : code ⊆ token := by
  have started {code tail rest : List Char}
      (hsplit : Text.splitFirst '/' rest = some (code, tail)) :
      'a' :: code ⊆ '.' :: 'a' :: rest :=
    List.subset_cons_of_subset '.'
      (List.cons_subset_cons 'a' (Text.subset_of_splitFirst hsplit).1)
  unfold articulationParts? at h
  split at h
  · split at h
    · rename_i hsplit
      split at h <;> cases h
      exact started hsplit
    · rename_i hsplit
      split at h <;> cases h
      exact started hsplit
    · cases h
  · cases h

theorem subset_of_fontParts? {family size style text : List Char}
    (h : fontParts? token = some (family, size, style, text)) : family ⊆ token ∧ text ⊆ token := by
  unfold fontParts? at h
  split at h
  · simp only [Font.splitDashes, Option.bind_eq_bind, Option.bind_eq_some_iff] at h
    obtain ⟨_, ⟨first, hfirst, second, hsecond, hparts⟩, third, hthird, hline⟩ := h
    cases hparts
    split at hline <;> cases hline
    have hrest := (Text.subset_of_splitFirst hthird).2
    exact ⟨List.subset_cons_of_subset _ (Text.subset_of_splitFirst hfirst).1,
      List.subset_cons_of_subset _ <| List.Subset.trans hrest <|
        List.Subset.trans (Text.subset_of_splitFirst hsecond).2
          (Text.subset_of_splitFirst hfirst).2⟩
  · cases h

theorem subset_of_shortcutParts? {name text : List Char}
    (h : shortcutParts? token = some (name, text)) : text ⊆ token := by
  unfold shortcutParts? at h
  split at h
  · simp only [Option.bind_eq_bind, Option.bind_eq_some_iff] at h
    obtain ⟨parts, hparts, hline⟩ := h
    split at hline <;> cases hline
    exact List.subset_cons_of_subset _ (Text.subset_of_splitFirst hparts).2
  · cases h

theorem subset_of_bodyAfter? {opening : String} {body : List Char}
    (h : bodyAfter? opening token = some body) : body ⊆ token := by
  unfold bodyAfter? at h
  split at h
  · cases h
  · rename_i rest hrest
    split at h <;> cases h
    rename_i hsplit
    exact List.Subset.trans (Text.subset_of_splitFirst hsplit).1
      (Text.subset_of_afterStart? hrest)

theorem over_of_readText {markup : TextMarkup} (h : readText token = .ok markup)
    (htoken : Text.Over C token) : markup.Over C := by
  unfold readText at h
  split at h
  · rename_i family size style text hparts
    obtain ⟨hfamily, htext⟩ := subset_of_fontParts? hparts
    cases hfont : Font.ofParts family size style with
    | error cause => simp [hfont, Except.map] at h
    | ok font =>
        rw [hfont] at h
        cases h
        rw [TextMarkup.Over, Font.family_of_ofParts hfont, String.toList_ofList,
          String.toList_ofList]
        exact ⟨htoken.of_subset hfamily, htoken.of_subset htext⟩
  · split at h
    · rename_i hparts
      cases h
      rw [TextMarkup.Over, String.toList_ofList]
      exact htoken.of_subset (subset_of_shortcutParts? hparts)
    · cases h
      rwa [TextMarkup.Over, String.toList_ofList]

/-- A token that can be read is over the alphabet it is written in. -/
theorem over_of_read {token : String} {markup : Markup} (h : read token = .ok markup)
    (htoken : Text.Over C token.toList) : markup.Over C := by
  unfold read ofChars at h
  split at h
  · rename_i hparts
    cases h
    rw [Markup.Over, String.toList_ofList]
    exact htoken.of_subset (subset_of_articulationParts? hparts)
  split at h
  · rename_i code _
    cases hcode : Stroke.read code <;> rw [hcode] at h <;> cases h
    trivial
  split at h
  · rename_i body hbody
    cases hmarks : FingerMark.readBody body <;> rw [hmarks] at h <;> cases h
    intro m hm
    exact htoken.of_subset
      (List.Subset.trans (label_subset_of_readBody hmarks m hm) (subset_of_bodyAfter? hbody))
  · cases htext : readText token.toList <;> rw [htext] at h <;> cases h
    exact over_of_readText htext htoken

end Markup

/-- The text of a token, if it is one, and the font that it names are over an alphabet. -/
def TextCommand.Over (C : Char → Prop) : TextCommand → Prop
  | font spec => Text.Over C spec.toList
  | text words _ => Text.Over C words.toList
  | _ => True

theorem TextCommand.over_read {token : String} (h : Text.Over C token.toList) :
    (read token).Over C := by
  have htoken : Text.Over C (Text.trim token.toList) := h.of_subset (Text.trim_subset _)
  have setting (token setting : List Char) : (ofSetting token setting).Over C := by
    unfold ofSetting
    dsimp only
    repeat' split
    all_goals trivial
  unfold read ofChars
  split
  · rename_i hspec
    rw [TextCommand.Over, String.toList_ofList]
    exact htoken.of_subset (Text.subset_of_afterStart? hspec)
  split
  · trivial
  · exact setting _ _
  · trivial
  · trivial
  · rename_i words _ heq
    rw [TextCommand.Over, String.toList_ofList]
    exact htoken.of_subset (heq ▸ List.subset_cons_self _ _)
  · rw [TextCommand.Over, String.toList_ofList]
    exact htoken

theorem Font.over_of_read {spec : String} {font : Font} (h : Font.read spec = .ok (some font))
    (hspec : Text.Over C spec.toList) : Text.Over C font.family.toList := by
  unfold Font.read at h
  split at h
  · cases h
  · rename_i family size rest hparts
    simp only [splitDashes, Option.bind_eq_bind, Option.bind_eq_some_iff] at hparts
    obtain ⟨first, hfirst, second, hsecond, hparts⟩ := hparts
    cases hparts
    cases hfont : ofParts first.1 second.1 (second.2.takeWhile (· ≠ '.')) with
    | error cause =>
        rw [hfont] at h
        cases h
    | ok found =>
        rw [hfont] at h
        cases h
        rw [family_of_ofParts hfont, String.toList_ofList]
        exact hspec.of_subset (Text.subset_of_splitFirst hfirst).1

/-! ## Objects -/

/-- The texts of a mark are over an alphabet. -/
def Modifier.Over (C : Char → Prop) : Modifier → Prop
  | bend phrase => ∀ step ∈ phrase, Text.Over C step.label.toList
  | articulation code _ => Text.Over C code.toList
  | caption c => Text.Over C c.text.toList ∧ Text.Over C c.font.family.toList
  | fingering label _ => Text.Over C label.toList
  | stringNumber label _ => Text.Over C label.toList
  | vibrato _ => True
  | stroke _ => True
  | accidental _ _ => True

/-- The texts of the marks of an object are over an alphabet. -/
def Tickable.Over (C : Char → Prop) (t : Tickable) : Prop := ∀ m ∈ t.modifiers, m.modifier.Over C

namespace Tickable.Over

variable {t : Tickable}

theorem mark (ht : t.Over C) (index : Nat) {m : Modifier} (hm : m.Over C) :
    (t.mark index m).Over C := by
  cases t with
  | tab n => exact List.forall_mem_append.2 ⟨ht, List.forall_mem_singleton.2 hm⟩
  | staff n => exact List.forall_mem_append.2 ⟨ht, List.forall_mem_singleton.2 hm⟩
  | _ => exact ht

theorem hide (ht : t.Over C) : t.hide.Over C := by
  cases t <;> exact ht

theorem scaleTicks (ht : t.Over C) (factor : Ticks) : (t.scaleTicks factor).Over C := by
  cases t <;> exact ht

theorem markAnchor {phrases : List (Nat × List BendStep)} (ht : t.Over C)
    (h : ∀ p ∈ phrases, (Modifier.bend p.2).Over C) :
    (BendChain.markAnchor phrases t).Over C := by
  induction phrases generalizing t with
  | nil => exact ht
  | cons p phrases ih =>
      obtain ⟨hp, hrest⟩ := List.forall_mem_cons.1 h
      exact ih (ht.mark p.1 hp) hrest

theorem bar (type : BarType) : (Tickable.bar type).Over C := List.forall_mem_nil _

theorem restNote (s : Session) (key : Pitch) : (s.restNote key).Over C := List.forall_mem_nil _

theorem tabRest (s : Session) (key : Pitch) : (s.tabRest key).Over C := by
  unfold Session.tabRest
  split <;> exact List.forall_mem_nil _

theorem tabNote (s : Session) (entries : List ResolvedEntry) :
    (Tickable.tab (s.tabNote entries)).Over C := List.forall_mem_nil _

theorem staffNote (s : Session) (entries : List ResolvedEntry) :
    (Tickable.staff (s.staffNote entries)).Over C := by
  intro m hm
  obtain ⟨-, -, a, cautionary, heq⟩ := Chord.mem_accidentalMarks hm
  rw [heq]
  trivial

end Tickable.Over

/-- The text of a text note, the name of its glyph and the family of its font are over an
alphabet. -/
structure TextNote.Over (C : Char → Prop) (n : TextNote) : Prop where
  text : Text.Over C n.text.toList
  glyph : ∀ name ∈ n.glyph, Text.Over C name.toList
  family : Text.Over C n.font.family.toList

/-- The texts of a stave are over an alphabet. -/
structure Stave.Over (C : Char → Prop) (a : Stave) : Prop where
  objects : a.Every (Tickable.Over C) (Tickable.Over C)
  texts : ∀ voice ∈ a.textVoices, ∀ n ∈ voice, n.Over C

theorem Stave.Over.finish {a : Stave} (ha : a.Over C) : a.finish.Over C :=
  ⟨ha.objects.finish, a.textVoices_finish ▸ ha.texts⟩

/-- The label of a link is over an alphabet. -/
def TabLink.Over (C : Char → Prop) : TabLink → Prop
  | tie _ label => Text.Over C label.toList
  | _ => True

/-! ## What is drawn -/

/-- The texts of a stave with its voices are over an alphabet. -/
structure StaveGroup.Over (C : Char → Prop) (g : StaveGroup) : Prop where
  tab : ∀ view ∈ g.tab, ∀ voice ∈ view.2, ∀ t ∈ voice, t.Over C
  staff : ∀ view ∈ g.staff, ∀ voice ∈ view.2, ∀ t ∈ voice, t.Over C
  texts : ∀ voice ∈ g.textVoices, ∀ n ∈ voice, n.Over C

theorem Stave.Over.group {a : Stave} (ha : a.Over C) (settings : Settings) (index : Nat) :
    (StaveGroup.of settings index a).Over C where
  tab := by
    rintro view hview
    obtain ⟨_, -, rfl⟩ := Option.map_eq_some_iff.1 hview
    exact ha.objects.tabVoices
  staff := by
    rintro view hview
    obtain ⟨_, -, rfl⟩ := Option.map_eq_some_iff.1 hview
    exact ha.objects.staffVoices
  texts := ha.texts

/-- The texts that a call hands to a layout engine are over an alphabet. -/
def LayoutCall.Over (C : Char → Prop) : LayoutCall → Prop
  | prepare _ _ _ => True
  | stave group => group.Over C
  | links tab _ => ∀ l ∈ tab, l.Over C

theorem Modifier.over_all (m : Modifier) : m.Over fun _ => True := by
  cases m <;> simp [Modifier.Over, Text.Over]

theorem TextNote.over_all (n : TextNote) : n.Over fun _ => True :=
  ⟨fun _ _ => trivial, fun _ _ _ _ => trivial, fun _ _ => trivial⟩

theorem LayoutCall.over_all (call : LayoutCall) : call.Over fun _ => True := by
  cases call with
  | prepare width height scale => trivial
  | stave group =>
      exact ⟨fun _ _ _ _ _ _ m _ => m.modifier.over_all, fun _ _ _ _ _ _ m _ => m.modifier.over_all,
        fun _ _ n _ => n.over_all⟩
  | links tab staff =>
      intro l _
      cases l <;> simp [TabLink.Over, Text.Over]

end Tablature
