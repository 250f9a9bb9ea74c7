/-
# Tablature.Proofs.Wording — where the texts of a score come from.

Every operation of a session writes texts of its arguments, texts that the session has already, or
texts of its own, and so does every event (`Session.Over.handle`). Of a list of directives three
kinds of texts matter: the values of options of the score, annotation tokens and the tokens of text
lines (`Directive.Over`). What can be written in their letters is all that their score says
(`compileDirectives_over`).
-/
import Tablature.Proofs.Letters
import Tablature.Proofs.Marking
import Tablature.Proofs.Options

namespace Tablature

variable {C : Char → Prop}

/-! ## Bends -/

/-- The labels of a chain are over an alphabet. -/
def BendChain.Over (C : Char → Prop) (chain : BendChain) : Prop :=
  ∀ p ∈ chain.phrases, (Modifier.bend p.2).Over C

namespace BendChain

theorem over_between (h : Text.Alphabet C) (source target : Nat) :
    Text.Over C (BendStep.between source target).label.toList := by
  unfold BendStep.between
  split
  · exact .nil
  show Text.Over C (BendStep.upLabel _ _).toList
  unfold BendStep.upLabel
  split
  · exact h.own "1/2" (by decide)
  · exact h.own "Full" (by decide)
  · exact h.own "1 1/2" (by decide)
  · rw [String.toList_append]
    exact (h.own "Bend to " (by decide)).append (h.natText _)

theorem over_transitions (h : Text.Alphabet C) {first last : TabNote}
    {anchors sources targets : List Nat} :
    ∀ step ∈ transitions first last anchors sources targets,
      Text.Over C step.2.label.toList := by
  induction anchors generalizing sources targets with
  | nil => exact List.forall_mem_nil _
  | cons anchor anchors ih =>
      cases sources with
      | nil => exact List.forall_mem_nil _
      | cons source sources =>
          cases targets with
          | nil => exact List.forall_mem_nil _
          | cons target targets =>
              rw [transitions]
              split
              · rename_i step hstep
                refine List.forall_mem_cons.2 ⟨?_, ih⟩
                unfold transition? at hstep
                split at hstep <;> cases hstep
                exact over_between h _ _
              · exact ih

theorem Over.addStep {chain : BendChain} (hchain : chain.Over C) {step : Nat × BendStep}
    (hstep : Text.Over C step.2.label.toList) : (chain.addStep step).Over C := by
  have hsingle : (Modifier.bend [step.2]).Over C := List.forall_mem_singleton.2 hstep
  have inserted {phrases : List (Nat × List BendStep)}
      (hphrases : ∀ p ∈ phrases, (Modifier.bend p.2).Over C) :
      ∀ p ∈ insertStep step.1 step.2 phrases, (Modifier.bend p.2).Over C := by
    induction phrases with
    | nil => exact List.forall_mem_singleton.2 hsingle
    | cons phrase phrases ih =>
        obtain ⟨hfirst, hrest⟩ := List.forall_mem_cons.1 hphrases
        rw [insertStep]
        split
        · exact List.forall_mem_cons.2 ⟨hsingle, hphrases⟩
        split
        · exact List.forall_mem_cons.2 ⟨List.forall_mem_append.2 ⟨hfirst, hsingle⟩, hrest⟩
        · exact List.forall_mem_cons.2 ⟨hfirst, ih hrest⟩
  exact inserted hchain

theorem Over.addSteps {steps : List (Nat × BendStep)} {chain : BendChain} (hchain : chain.Over C)
    (hsteps : ∀ step ∈ steps, Text.Over C step.2.label.toList) :
    (steps.foldl BendChain.addStep chain).Over C := by
  induction steps generalizing chain with
  | nil => exact hchain
  | cons step steps ih =>
      obtain ⟨hfirst, hrest⟩ := List.forall_mem_cons.1 hsteps
      exact ih (hchain.addStep hfirst) hrest

end BendChain

/-! ## Annotations -/

namespace PlacedToken

/-- The texts of a token and of its caption are over an alphabet. -/
structure Over (C : Char → Prop) (t : PlacedToken) : Prop where
  markup : t.markup.Over C
  caption : ∀ c ∈ t.caption, (Modifier.caption c).Over C

variable {P : Tickable → Prop} {tokens : List PlacedToken} {notes : List Tickable}

theorem forall_mem_applyLast {f : PlacedToken → Tickable → Tickable}
    (h : ∀ t ∈ tokens, ∀ note, P note → P (f t note)) (hnotes : ∀ note ∈ notes, P note) :
    ∀ note ∈ applyLast f tokens notes, P note := by
  have applied {tokens : List PlacedToken} {notes : List Tickable}
      (h : ∀ t ∈ tokens, ∀ note, P note → P (f t note)) (hnotes : ∀ note ∈ notes, P note) :
      ∀ note ∈ applyTo f tokens notes, P note := by
    induction tokens generalizing notes with
    | nil => exact hnotes
    | cons t tokens ih =>
        cases notes with
        | nil => exact hnotes
        | cons note notes =>
            obtain ⟨ht, hrest⟩ := List.forall_mem_cons.1 h
            obtain ⟨hnote, hnotes⟩ := List.forall_mem_cons.1 hnotes
            exact List.forall_mem_cons.2 ⟨ht note hnote, ih hrest hnotes⟩
  exact List.forall_mem_append.2 ⟨fun note hnote => hnotes note (List.mem_of_mem_take hnote),
    applied h fun note hnote => hnotes note (List.mem_of_mem_drop hnote)⟩

theorem forall_mem_applyLastUntil {f : PlacedToken → Tickable → Outcome Cause Tickable}
    (h : ∀ t ∈ tokens, ∀ note, P note → P (f t note).state) (hnotes : ∀ note ∈ notes, P note) :
    ∀ note ∈ (applyLastUntil f tokens notes).state, P note := by
  have applied {tokens : List PlacedToken} {notes : List Tickable}
      (h : ∀ t ∈ tokens, ∀ note, P note → P (f t note).state) (hnotes : ∀ note ∈ notes, P note) :
      ∀ note ∈ (applyUntil f tokens notes).state, P note := by
    induction tokens generalizing notes with
    | nil => exact hnotes
    | cons t tokens ih =>
        cases notes with
        | nil => exact hnotes
        | cons note notes =>
            obtain ⟨ht, hrest⟩ := List.forall_mem_cons.1 h
            obtain ⟨hnote, hnotes⟩ := List.forall_mem_cons.1 hnotes
            simp only [applyUntil]
            split
            · exact List.forall_mem_cons.2 ⟨ht note hnote, hnotes⟩
            · exact List.forall_mem_cons.2 ⟨ht note hnote, ih hrest hnotes⟩
  exact List.forall_mem_append.2 ⟨fun note hnote => hnotes note (List.mem_of_mem_take hnote),
    applied h fun note hnote => hnotes note (List.mem_of_mem_drop hnote)⟩

theorem Over.sharedMark {markup : Markup} (hmarkup : markup.Over C) {m : Modifier}
    (h : markup.sharedMark? = some m) : m.Over C := by
  cases markup <;> cases h
  · exact hmarkup
  · exact trivial

namespace Over

variable {t : PlacedToken} {note : Tickable}

theorem onTab (h : t.Over C) (hnote : note.Over C) : (t.onTab note).Over C := by
  unfold PlacedToken.onTab
  split
  · rename_i m hm
    refine hnote.mark 0 ?_
    unfold tabMark? at hm
    split at hm
    · rename_i caption hcaption
      cases hm
      exact h.caption caption hcaption
    · exact sharedMark h.markup hm
  · exact hnote

theorem captionOnStaff (h : t.Over C) (hnote : note.Over C) : (t.captionOnStaff note).Over C := by
  unfold PlacedToken.captionOnStaff
  split
  · rename_i caption hcaption
    exact hnote.mark 0 (h.caption caption hcaption)
  · exact hnote

theorem addFingers {token : String} {keys : Nat} {marks : List FingerMark}
    (hmarks : ∀ m ∈ marks, Text.Over C m.label.toList) (hnote : note.Over C) :
    (PlacedToken.addFingers token keys marks note).state.Over C := by
  induction marks generalizing note with
  | nil => exact hnote
  | cons m marks ih =>
      obtain ⟨hm, hrest⟩ := List.forall_mem_cons.1 hmarks
      have hmodifier : m.modifier.Over C := by
        unfold FingerMark.modifier
        split <;> exact hm
      rw [PlacedToken.addFingers]
      split
      · exact hnote
      · exact ih hrest (hnote.mark _ hmodifier)

theorem onStaff (h : t.Over C) (hnote : note.Over C) : (t.onStaff note).state.Over C := by
  have hmarkup := h.markup
  unfold PlacedToken.onStaff
  split
  · rename_i marks heq
    rw [heq] at hmarkup
    exact addFingers hmarkup hnote
  · split
    · rename_i hm
      exact hnote.mark 0 (sharedMark hmarkup hm)
    · exact hnote

end Over

end PlacedToken

theorem Caption.over_fontOf (h : Text.Alphabet C) {font : Font} {markup : TextMarkup}
    (hfont : Text.Over C font.family.toList) (hmarkup : markup.Over C) :
    Text.Over C (fontOf font markup).family.toList := by
  unfold fontOf
  split
  · exact hfont
  · exact hmarkup.1
  · exact hfont
  · exact h.own "Times" (by decide)
  · exact hfont
  · exact hfont

theorem TextMarkup.Over.text {markup : TextMarkup} (h : markup.Over C) :
    Text.Over C markup.text.toList := by
  cases markup with
  | plain text => exact h
  | withFont font text => exact h.2
  | styled shortcut text => exact h

/-- The family of a caption is the one in force, one that its token names, or that of italics. -/
theorem Caption.over_ofMarkups (h : Text.Alphabet C) {font : Font} {markups : List Markup}
    (hfont : Text.Over C font.family.toList) (hmarkups : ∀ markup ∈ markups, markup.Over C)
    (side : Side) :
    ∀ caption ∈ (ofMarkups font side markups).1, ∀ c ∈ caption, (Modifier.caption c).Over C := by
  induction markups generalizing side with
  | nil => exact List.forall_mem_nil _
  | cons markup markups ih =>
      obtain ⟨hmarkup, hrest⟩ := List.forall_mem_cons.1 hmarkups
      cases markup with
      | label t =>
          refine List.forall_mem_cons.2 ⟨fun c hc => ?_, ih hrest _⟩
          unfold ofMarkup? at hc
          split at hc <;> cases hc
          exact ⟨hmarkup.text, over_fontOf h hfont hmarkup⟩
      -- Only labels make captions.
      | _ => exact List.forall_mem_cons.2 ⟨fun c hc => (nomatch hc), ih hrest _⟩

/-- Tokens are read in the letters that they are written in. -/
theorem PlacedToken.over_placed (h : Text.Alphabet C) {tokens : List String} {markups : List Markup}
    (font : Font) (side : Side) (hread : Markup.readAll tokens = .ok markups)
    (htokens : ∀ t ∈ tokens, Text.Over C t.toList) (hfont : Text.Over C font.family.toList) :
    ∀ t ∈ ofLists tokens markups (Caption.ofMarkups font side markups).1, t.Over C := by
  have hmarkups : ∀ markup ∈ markups, markup.Over C := by
    intro markup hmarkup
    obtain ⟨token, htoken, hmarkup⟩ :=
      exists_of_mem_forall₂ (Markup.readAll_eq_ok_iff.1 hread).flip hmarkup
    exact Markup.over_of_read hmarkup (htokens token htoken)
  intro t ht
  obtain ⟨i, hi⟩ := List.mem_iff_getElem?.1 ht
  obtain ⟨hmarkup, hcaption⟩ := getElem?_ofLists hi
  exact ⟨hmarkups _ (List.mem_of_getElem? hmarkup),
    Caption.over_ofMarkups h hfont hmarkups side _ (List.mem_of_getElem? hcaption)⟩

/-! ## Sessions -/

/-- Of all settings only the family of the font is a text that is drawn. -/
theorem Settings.over_assign {settings : Settings} {key value : String} {c : Setting}
    (hfamily : Text.Over C settings.fontFace.toList) (hvalue : Text.Over C value.toList)
    (hread : Setting.read key value = .ok c) :
    Text.Over C (settings.assign c).fontFace.toList := by
  cases c with
  | fontFace family =>
      cases Setting.key_of_read hread
      cases hread
      exact hvalue
  | _ => exact hfamily

/-- All texts of a session are over an alphabet: those of its score, the labels of the open chain,
and the families of fonts that are in force. -/
structure Session.Over (C : Char → Prop) (s : Session) : Prop where
  setup : Text.Over C s.setup.fontFace.toList
  family : Text.Over C s.settings.fontFace.toList
  staves : ∀ a ∈ s.score.staves, a.Over C
  links : ∀ l ∈ s.score.tabLinks, l.Over C
  chain : ∀ chain, s.bend = some chain → chain.Over C

namespace Session.Over

variable {s t : Session}

theorem start {setup : PageSetup} (h : Text.Over C setup.fontFace.toList) :
    (Session.start setup).Over C where
  setup := h
  family := h
  staves := fun _ hmem => nomatch hmem
  links := fun _ hmem => nomatch hmem
  chain := fun _ hchain => nomatch hchain

theorem quiet (hs : s.Over C) (h : Quiet s t) (hfamily : Text.Over C t.settings.fontFace.toList) :
    t.Over C where
  setup := h.setup ▸ hs.setup
  family := hfamily
  staves := by
    rw [Score.staves, h.earlier, h.active]
    exact hs.staves
  links := h.tabLinks ▸ hs.links
  chain := h.bend ▸ hs.chain

theorem onActive (hs : s.Over C) {f : Stave → Stave} (hf : ∀ a : Stave, a.Over C → (f a).Over C) :
    (s.onActive f).Over C where
  setup := hs.setup
  family := hs.family
  staves := by
    cases ha : s.score.active with
    | none =>
        rw [onActive_eq_self ha]
        exact hs.staves
    | some a =>
        rw [onActive_eq ha]
        exact Score.forall_active ha (hf a) hs.staves
  links := hs.links
  chain := hs.chain

theorem onTabNotes (hs : s.Over C) {f : List Tickable → List Tickable}
    (hf : ∀ notes, (∀ n ∈ notes, n.Over C) → ∀ n ∈ f notes, n.Over C) : (s.onTabNotes f).Over C :=
  hs.onActive fun _ ha => ⟨ha.objects.withTabNotes (hf _ ha.objects.tabNotes), ha.texts⟩

theorem onStaffNotes (hs : s.Over C) {f : List Tickable → List Tickable}
    (hf : ∀ notes, (∀ n ∈ notes, n.Over C) → ∀ n ∈ f notes, n.Over C) : (s.onStaffNotes f).Over C :=
  hs.onActive fun _ ha => ⟨ha.objects.withStaffNotes (hf _ ha.objects.staffNotes), ha.texts⟩

theorem push (hs : s.Over C) {onTab onStaff : Tickable} (htab : onTab.Over C)
    (hstaff : onStaff.Over C) : (s.onActive (·.push onTab onStaff)).Over C :=
  hs.onActive fun _ ha => ⟨ha.objects.push htab hstaff, ha.texts⟩

/-! ### Bends and articulations -/

theorem markLastTab (hs : s.Over C) (index : Nat) {m : Modifier} (hm : m.Over C) :
    (s.markLastTab index m).Over C :=
  hs.onTabNotes fun _ h => forall_mem_modify (fun _ ht => ht.mark index hm) h _

theorem markLastStaff (hs : s.Over C) (index : Nat) {m : Modifier} (hm : m.Over C) :
    (s.markLastStaff index m).Over C :=
  hs.onStaffNotes fun _ h => forall_mem_modify (fun _ ht => ht.mark index hm) h _

theorem closeBends (hs : s.Over C) (through : Bool) : (s.closeBends through).Over C := by
  unfold Session.closeBends
  split
  · exact hs
  · rename_i chain hchain
    have hclosed : ({ s with bend := none } : Session).Over C :=
      ⟨hs.setup, hs.family, hs.staves, hs.links, fun _ h => nomatch h⟩
    exact hclosed.onTabNotes fun _ h => chain.forall_mem_close (fun _ ht => ht.hide)
      (fun _ _ ht => ht.markAnchor (hs.chain chain hchain)) h through

theorem openBends (own : Text.Alphabet C) (hs : s.Over C) (earlier : Nat)
    (firstIndices lastIndices : List Nat) :
    (s.openBends earlier firstIndices lastIndices).Over C := by
  have hopened : (s.openChain earlier firstIndices).Over C := by
    unfold openChain
    split
    · rename_i chain hchain
      split
      · exact List.forall_mem_nil _
      · exact hs.chain chain hchain
    · exact List.forall_mem_nil _
  have chained (chain : BendChain) (hchain : chain.Over C) :
      ({ s with bend := some chain } : Session).Over C :=
    ⟨hs.setup, hs.family, hs.staves, hs.links, fun _ h => Option.some.inj h ▸ hchain⟩
  unfold Session.openBends
  dsimp only
  split
  · exact chained _ (hopened.addSteps (BendChain.over_transitions own))
  · exact chained _ hopened

theorem addTabLink (hs : s.Over C) {link : TabLink} (hlink : link.Over C) :
    (s.addTabLink link).Over C :=
  ⟨hs.setup, hs.family, hs.staves,
    List.forall_mem_append.2 ⟨hs.links, List.forall_mem_singleton.2 hlink⟩, hs.chain⟩

theorem addStaffLink (hs : s.Over C) (link : StaffLink) : (s.addStaffLink link).Over C :=
  ⟨hs.setup, hs.family, hs.staves, hs.links, hs.chain⟩

theorem articulateTab (own : Text.Alphabet C) (hs : s.Over C) (a : Stave) (tag : Articulation)
    (span : Span) : (s.articulateTab a tag span).Over C := by
  have tied (label : String) (hlabel : label ∈ Text.ownTexts) :
      (s.addTabLink (.tie (s.tabLinkOf a span) label)).Over C :=
    hs.addTabLink (own.own label hlabel)
  cases tag with
  | bend => exact hs.openBends own _ _ _
  | slide => exact hs.addTabLink trivial
  | hammerOn => exact tied "H" (by decide)
  | pullOff => exact tied "P" (by decide)
  | tap => exact tied " " (by decide)
  | tapTie => exact tied " " (by decide)
  | vibrato => exact hs
  | harshVibrato => exact hs

theorem linkSpan (own : Text.Alphabet C) (hs : s.Over C) (a : Stave) (tag : Articulation)
    (span : Option Span) : (s.linkSpan a tag span).Over C := by
  cases span with
  | none => exact hs
  | some span =>
      have onTab : (if a.tab.isSome then s.articulateTab a tag span else s).Over C := by
        split
        · exact hs.articulateTab own a tag span
        · exact hs
      simp only [Session.linkSpan]
      split
      · exact hs
      split
      · exact onTab.addStaffLink _
      · exact onTab

theorem articulate (own : Text.Alphabet C) (hs : s.Over C) (a : Stave) (tag : Articulation)
    (indices : List Nat) : (s.articulate a tag indices).Over C := by
  have hcaption : s.tapCaption.Over C := ⟨own.own "T" (by decide), hs.family⟩
  have tapped : (if a.tab.isSome then s.markLastTab 0 s.tapCaption else s).Over C := by
    split
    · exact hs.markLastTab 0 hcaption
    · exact hs
  cases tag with
  | vibrato => exact hs.markLastTab 0 trivial
  | harshVibrato => exact hs.markLastTab 0 trivial
  | tap => exact tapped.linkSpan own a .tap _
  | _ => exact hs.linkSpan own a _ _

theorem applyTags (own : Text.Alphabet C) (hs : s.Over C) (tags : List (Option Articulation)) :
    (s.applyTags tags).Over C := by
  have tagged (t : Session) (ht : t.Over C) (tag : Articulation) :
      (articulateTagged tags t tag).Over C := by
    simp only [articulateTagged]
    split
    · exact ht.articulate own _ _ _
    · exact ht
  have folded : (Articulation.all.foldl (articulateTagged tags) s).Over C :=
    List.foldlRecOn Articulation.all _ hs fun t ht tag _ => tagged t ht tag
  simp only [Session.applyTags]
  split
  · exact hs.closeBends false
  split
  · exact folded
  · exact folded.closeBends false

theorem decorate (own : Text.Alphabet C) (hs : s.Over C) (decorator : Decorator) :
    (s.decorate decorator).Over C := by
  have up : (strokeMark "a|").Over C := own.own "a|" (by decide)
  have down : (strokeMark "am").Over C := own.own "am" (by decide)
  cases decorator with
  | vibrato => exact hs.markLastTab 0 trivial
  | harshVibrato => exact hs.markLastTab 0 trivial
  | upStroke => exact (hs.markLastTab 0 up).markLastStaff 0 up
  | downStroke => exact (hs.markLastTab 0 down).markLastStaff 0 down

theorem decorateWith (own : Text.Alphabet C) (hs : s.Over C) (decorator : Option Decorator) :
    (s.decorateWith decorator).Over C := by
  cases decorator with
  | none => exact hs
  | some decorator => exact hs.decorate own decorator

/-! ### Settings, staves and notes -/

theorem setOptions (hs : s.Over C) {entries : List (String × String)}
    (hentries : ∀ entry ∈ entries, Text.Over C entry.2.toList) :
    (s.setOptions entries).state.Over C := by
  have set (entry : String × String) (hentry : entry ∈ entries) (t : Session) (ht : t.Over C) :
      (setOption entry t).state.Over C := by
    refine Outcome.needing_kept (P := Session.Over C) ht fun settings hsettings => ?_
    refine ht.quiet (quiet_withSettings settings) ?_
    cases hread : Setting.read entry.1 entry.2 with
    | error cause => simp [Settings.set, hread, Except.map] at hsettings
    | ok c =>
        rw [Settings.set, hread] at hsettings
        cases hsettings
        exact Settings.over_assign ht.family (hentries entry hentry) hread
  have hset := Outcome.forEach_kept (P := Session.Over C) set hs
  exact Outcome.andThen_kept (P := Session.Over C) hset
    (hset.quiet ⟨rfl, rfl, rfl, rfl, rfl, rfl⟩ hset.family)

theorem runCommand (hs : s.Over C) (line : String) : (s.runCommand line).state.Over C := by
  simp only [Session.runCommand]
  split
  · split
    · exact hs.quiet ⟨rfl, rfl, rfl, rfl, rfl, rfl⟩ hs.family
    · exact hs
  · exact hs

theorem addStave (hs : s.Over C) (d : StaveDeclaration) : (s.addStave d).state.Over C := by
  have hclosed := hs.closeBends true
  have blank (tab : Option TabView) (staff : Option StaffView) (beamGroups : List BeamGroup) :
      (Stave.blank tab staff beamGroups).Over C :=
    ⟨.blank tab staff beamGroups, List.forall_mem_nil _⟩
  have placed : ((s.closeBends true).placeStave d).Over C := by
    unfold placeStave
    cases d.staff <;> cases d.tablature <;>
      exact ⟨hclosed.setup, hclosed.family, Score.forall_addStave (blank _ _ _) hclosed.staves,
        hclosed.links, hclosed.chain⟩
  exact placed.quiet (quiet_setKey _) placed.family

theorem addVoice (hs : s.Over C) (d : StaveDeclaration) : (s.addVoice d).state.Over C := by
  unfold Session.addVoice
  split
  · exact hs.addStave d
  · exact (hs.closeBends true).onActive fun _ ha => ⟨ha.objects.closeVoice, ha.texts⟩

theorem addBar (hs : s.Over C) (type : BarType) : (s.addBar type).state.Over C := by
  have hclosed := hs.closeBends true
  have hreset : (s.closeBends true).resetMemory.state.Over C :=
    hclosed.quiet quiet_resetMemory hclosed.family
  refine Outcome.andThen_kept (P := Session.Over C) hreset ?_
  exact withStave_kept hreset fun _ _ => hreset.push (.bar type) (.bar type)

theorem addRest (hs : s.Over C) (position : Int) : (s.addRest position).state.Over C := by
  have hclosed := hs.closeBends true
  refine Outcome.needing_kept (P := Session.Over C) hclosed fun key _ => ?_
  exact withStave_kept hclosed fun _ _ => hclosed.push (.tabRest _ key) (.restNote _ key)

theorem writeChord (own : Text.Alphabet C) (hs : s.Over C) (chord : List NoteEntry)
    (entries : List ResolvedEntry) (articulation : Option Articulation)
    (decorator : Option Decorator) :
    (s.writeChord chord entries articulation decorator).Over C := by
  have emitted (t : Session) (ht : t.Over C) (slot : List ResolvedEntry) : (t.emit slot).Over C :=
    ((ht.push (.tabNote t slot) (.staffNote t slot)).applyTags own _).decorateWith own _
  have folded : ((Chord.slots (Chord.placesOf chord) entries).foldl emit s).Over C :=
    List.foldlRecOn _ _ hs fun t ht slot _ => emitted t ht slot
  refine decorateWith own ?_ decorator
  cases articulation with
  | none => exact folded
  | some tag => exact folded.applyTags own _

theorem addChord (own : Text.Alphabet C) (hs : s.Over C) (chord : List NoteEntry)
    (articulation : Option Articulation) (decorator : Option Decorator) :
    (s.addChord chord articulation decorator).state.Over C := by
  have remembered (memory : SpellingMemory) : ({ s with memory := memory } : Session).Over C :=
    hs.quiet ⟨rfl, rfl, rfl, rfl, rfl, rfl⟩ hs.family
  unfold Session.addChord
  split
  · exact hs
  refine withStave_kept hs fun _ _ => ?_
  split
  · exact remembered _
  · exact (remembered _).writeChord own chord _ articulation decorator

/-! ### Annotations, texts and tuplets -/

theorem withSide (hs : s.Over C) (side : Side) : (s.withSide side).Over C :=
  hs.quiet (quiet_withSettings _) hs.family

theorem annotateTexts (hs : s.Over C) (a : Stave) {tokens : List PlacedToken}
    (htokens : ∀ t ∈ tokens, t.Over C) (side : Side) :
    (s.annotateTexts a tokens side).state.Over C := by
  have hside := hs.withSide side
  unfold Session.annotateTexts
  split
  · exact hside.onTabNotes fun _ h =>
      PlacedToken.forall_mem_applyLast (fun t ht _ hn => (htokens t ht).onTab hn) h
  split
  · exact hs
  · exact hside.onStaffNotes fun _ h =>
      PlacedToken.forall_mem_applyLast (fun t ht _ hn => (htokens t ht).captionOnStaff hn) h

theorem annotateStaff (hs : s.Over C) (a : Stave) {tokens : List PlacedToken}
    (htokens : ∀ t ∈ tokens, t.Over C) : (Session.annotateStaff a tokens s).state.Over C := by
  have hstaff : ∀ n ∈ s.staffNotes, n.Over C := by
    cases ha : s.score.active with
    | none => simp [staffNotes, ha]
    | some b =>
        rw [staffNotes_eq ha]
        exact (hs.staves b (Score.mem_staves.2 (.inr ha))).objects.staffNotes
  unfold Session.annotateStaff
  split
  · exact hs
  split
  · exact hs
  · exact hs.onStaffNotes fun _ _ =>
      PlacedToken.forall_mem_applyLastUntil (fun t ht _ hn => (htokens t ht).onStaff hn) hstaff

theorem addAnnotations (own : Text.Alphabet C) (hs : s.Over C) {tokens : List String}
    (htokens : ∀ token ∈ tokens, Text.Over C token.toList) :
    (s.addAnnotations tokens).state.Over C := by
  refine Outcome.needing_kept (P := Session.Over C) hs fun markups hread => ?_
  refine withStave_kept hs fun a ha => ?_
  dsimp only
  split
  · exact hs
  have hplaced := PlacedToken.over_placed own s.captionFont s.settings.annotationSide hread htokens
    hs.family
  exact Outcome.andThen_kept (P := Session.Over C) (hs.annotateTexts a hplaced _)
    ((hs.annotateTexts a hplaced _).annotateStaff a hplaced)

theorem addTextVoice (hs : s.Over C) : s.addTextVoice.state.Over C :=
  withStave_kept hs fun _ _ => hs.onActive fun _ ha => ⟨ha.objects.texts _,
    List.forall_mem_append.2 ⟨ha.texts, List.forall_mem_singleton.2 (List.forall_mem_nil _)⟩⟩

theorem setTextFont (hs : s.Over C) {spec : String} (hspec : Text.Over C spec.toList) :
    (s.setTextFont spec).state.Over C := by
  refine Outcome.needing_kept (P := Session.Over C) hs fun font hfont => ?_
  cases font with
  | none => exact hs
  | some font => exact hs.quiet (quiet_withSettings _) (Font.over_of_read hfont hspec)

theorem addTextNote (hs : s.Over C) {text : String} (htext : Text.Over C text.toList)
    (style : TextStyle) : (s.addTextNote text style).state.Over C := by
  have hnote : (s.textNote text style).Over C := by
    refine ⟨htext, fun name hname => ?_, hs.family⟩
    -- The name of a glyph is the rest of the text after the sign for glyphs.
    obtain ⟨rest, hrest, rfl⟩ := Option.map_eq_some_iff.1 hname
    rw [String.toList_ofList]
    exact htext.of_subset (Text.subset_of_afterStart? hrest)
  refine withStave_kept hs fun _ _ => ?_
  split
  · exact hs
  · refine hs.onActive fun a ha => ⟨ha.objects.texts _, ?_⟩
    exact forall_mem_modify (P := fun voice => ∀ n ∈ voice, TextNote.Over C n) (fun _ hvoice =>
      List.forall_mem_append.2 ⟨hvoice, List.forall_mem_singleton.2 hnote⟩) ha.texts _

theorem bracket (hs : s.Over C) (a : Stave) (tuplets count : Nat) :
    (s.bracket a tuplets count).Over C := by
  let factor : Ticks := (tupletOccupies : Ticks) / (tuplets : Ticks)
  have scaled (notes : List Tickable) (h : ∀ n ∈ notes, n.Over C) :
      ∀ n ∈ scaleLast count factor notes, n.Over C :=
    forall_mem_scaleLast (fun _ ht => ht.scaleTicks factor) h count
  have hscaled := (hs.onTabNotes scaled).onStaffNotes scaled
  have linked {t : Session} (ht : t.Over C) : (if a.staff.isSome then
      t.addStaffLink (.tuplet (s.staffTuplet a tuplets count)) else t).Over C := by
    split
    · exact ht.addStaffLink _
    · exact ht
  simp only [Session.bracket]
  split
  · exact (linked hscaled).addTabLink trivial
  · exact linked hscaled

theorem makeTuplets (hs : s.Over C) (tuplets : Nat) (notes : Option Nat) :
    (s.makeTuplets tuplets notes).state.Over C := by
  simp only [Session.makeTuplets]
  split
  · exact hs
  refine withStave_kept hs fun a _ => ?_
  split
  · exact hs
  · exact hs.bracket a tuplets _

theorem render (hs : s.Over C) : s.render.1.Over C := by
  have hclosed := hs.closeBends true
  exact ⟨hclosed.setup, hclosed.family,
    Score.forall_onEvery (fun _ ha => ha.finish) hclosed.staves, hclosed.links, hclosed.chain⟩

/-- A layout engine is handed the texts of the score. -/
theorem layoutCalls (hs : s.Over C) : ∀ call ∈ s.layoutCalls, call.Over C := by
  refine List.forall_mem_append.2 ⟨List.forall_mem_cons.2 ⟨trivial, ?_⟩,
    List.forall_mem_singleton.2 hs.links⟩
  intro call hcall
  obtain ⟨index, hindex, rfl⟩ := List.mem_mapIdx.1 hcall
  exact (hs.staves _ (List.getElem_mem hindex)).group s.settings index

/-! ### Events -/

end Session.Over

/-- The texts of an event are over an alphabet: the values of options, the tokens of annotations,
fonts and texts. Other texts in events are read as numbers, names or marks. -/
def Event.Over (C : Char → Prop) : Event → Prop
  | options entries => ∀ entry ∈ entries, Text.Over C entry.2.toList
  | annotations tokens => ∀ token ∈ tokens, Text.Over C token.toList
  | textFont spec => Text.Over C spec.toList
  | text words _ => Text.Over C words.toList
  | _ => True

namespace Session

variable {s : Session}

/-- **An event makes no letters up.** Whether it is carried out or not, the texts of the session
afterwards are written in the letters of its texts before, of the event, and of the fixed texts. -/
theorem Over.handle (own : Text.Alphabet C) (hs : s.Over C) {event : Event} (h : event.Over C) :
    (s.handle event).state.Over C := by
  cases event with
  | options entries => exact hs.setOptions h
  | duration time dot =>
      exact Outcome.needing_kept (P := Session.Over C) hs fun _ _ =>
        hs.quiet ⟨rfl, rfl, rfl, rfl, rfl, rfl⟩ hs.family
  | stave declaration => exact hs.addStave declaration
  | voice declaration => exact hs.addVoice declaration
  | bar type => exact hs.addBar type
  | rest position => exact hs.addRest position
  | chord entries articulation decorator =>
      exact hs.addChord own entries articulation decorator
  | note entry => exact hs.addChord own [entry] none none
  | articulations tags => exact withStave_kept hs fun _ _ => hs.applyTags own tags
  | decorator decorator => exact withStave_kept hs fun _ _ => hs.decorate own decorator
  | annotations tokens => exact hs.addAnnotations own h
  | tuplet tuplets notes => exact hs.makeTuplets tuplets notes
  | command line => exact hs.runCommand line
  | textVoice => exact hs.addTextVoice
  | textFont spec => exact hs.setTextFont h
  | text words style => exact hs.addTextNote h style
  | fret fret string =>
      -- A fret that is only looked up changes the spelling memory and nothing else.
      have hresolved : (s.resolveFret fret string).1.Over C :=
        hs.quiet (quiet_resolveFret fret string) hs.family
      simp only [Session.handle]
      split <;> rename_i heq <;> rw [heq] at hresolved <;> exact hresolved
  | render => exact hs.render
  | reset => exact .start hs.setup

/-- **No event of a run makes letters up.** -/
theorem follow_over (own : Text.Alphabet C) (hs : s.Over C) {events : List Event}
    (h : ∀ event ∈ events, event.Over C) : (follow events s).Over C :=
  List.foldlRecOn events _ hs fun _ ht event hevent => ht.handle own (h event hevent)

end Session

/-! ## Directives -/

/-- The texts among the parameters of a command are over an alphabet. -/
def Parameters.Over (C : Char → Prop) : Parameters → Prop
  | tokens words => ∀ word ∈ words, Text.Over C word.toList
  | line text => Text.Over C text.toList
  | _ => True

/-- The texts of a directive are over an alphabet: the values of options of the score, the
parameters of commands and the tokens of its text line. -/
structure Directive.Over (C : Char → Prop) (d : Directive) : Prop where
  settings : ∀ o ∈ d.settings, Text.Over C o.value.toList
  parameters : ∀ e ∈ d.notes, ∀ p ∈ e.parameters, p.Over C
  text : ∀ token ∈ d.text, Text.Over C token.toList

theorem TextLine.over_of_mem_script {tokens : List String} {style : Session.TextStyle}
    {event : Event} (htokens : ∀ token ∈ tokens, Text.Over C token.toList)
    (h : .ok event ∈ TextLine.script tokens style) : event.Over C := by
  induction tokens generalizing style with
  | nil => cases h
  | cons token tokens ih =>
      obtain ⟨htoken, hrest⟩ := List.forall_mem_cons.1 htokens
      have hcommand := TextCommand.over_read htoken
      have first {e : Event} {style : Session.TextStyle}
          (h : Except.ok event ∈ .ok e :: TextLine.script tokens style) (he : e.Over C) :
          event.Over C := by
        rcases List.mem_cons.1 h with heq | h
        · cases heq
          exact he
        · exact ih hrest h
      rw [TextLine.script] at h
      split at h <;> rename_i hread <;> rw [hread] at hcommand
      · exact first h hcommand
      · exact first h trivial
      · exact ih hrest h
      · exact ih hrest h
      · exact first h Text.Over.nil
      · exact ih hrest h
      · exact first h trivial
      · exact first h hcommand
      · rcases List.mem_cons.1 h with heq | h
        · cases heq
        · exact ih hrest h

theorem NoteElement.over_of_commandEvent {word : String} {e : NoteElement} {event : Event}
    (he : ∀ p ∈ e.parameters, p.Over C) (h : commandEvent word e = .ok event) : event.Over C := by
  unfold commandEvent at h
  split at h <;> cases h
  · trivial
  · trivial
  · rename_i hparameters
    exact he _ hparameters
  · rename_i hparameters
    exact List.forall_mem_singleton.2 (he _ hparameters)
  · trivial
  · trivial

theorem NoteElement.over_of_mem_script {e : NoteElement} {event : Event}
    (he : ∀ p ∈ e.parameters, p.Over C) (h : .ok event ∈ e.script) : event.Over C := by
  simp only [NoteElement.script, List.mem_append, Option.mem_toList, Option.map_eq_some_iff] at h
  obtain ((⟨time, _, heq⟩ | ⟨word, _, heq⟩) | ⟨chord, _, heq⟩) | ⟨note, _, heq⟩ := h
  · cases heq
    trivial
  · exact over_of_commandEvent he heq
  · cases heq
    trivial
  · cases heq
    trivial

namespace Directive.Over

variable {d : Directive}

/-- What a directive stands for is written in its letters. -/
theorem script (hd : d.Over C) {event : Event} (h : .ok event ∈ d.script) : event.Over C := by
  have body (h : .ok event ∈ d.bodyScript) : event.Over C := by
    unfold bodyScript at h
    rcases List.mem_append.1 h with h | h
    · obtain ⟨e, he, h⟩ := List.mem_flatMap.1 h
      exact NoteElement.over_of_mem_script (hd.parameters e he) h
    · split at h
      · cases h
      · rcases List.mem_cons.1 h with heq | h
        · cases heq
          trivial
        · exact TextLine.over_of_mem_script hd.text h
  unfold Directive.script at h
  split at h
  · split at h <;> cases List.mem_singleton.1 h
    exact List.forall_mem_map.2 hd.settings
  · split at h
    · cases List.mem_singleton.1 h
    · rcases List.mem_cons.1 h with heq | h
      · split at heq <;> cases heq <;> trivial
      · exact body h

end Directive.Over

/-- **A score is written in the letters of its directives** and of the family that it starts with,
but for the fixed texts and numerals. -/
theorem compileDirectives_over (own : Text.Alphabet C) {setup : PageSetup} {ds : List Directive}
    {s : Session} (hsetup : Text.Over C setup.fontFace.toList) (hds : ∀ d ∈ ds, d.Over C)
    (h : compileDirectives setup ds = .ok s) : s.Over C := by
  rw [Session.eq_follow_of_playScript (compileDirectives_eq_ok_iff.1 h)]
  refine Session.follow_over own (.start hsetup) fun event hevent => ?_
  obtain ⟨step, hstep, hok⟩ := List.mem_filterMap.1 hevent
  obtain ⟨d, hd, hstep⟩ := List.mem_flatMap.1 hstep
  cases step with
  | error cause => cases hok
  | ok event =>
      cases hok
      exact (hds d hd).script hstep

end Tablature
