/-
# Tablature.Proofs.Hidden — what is drawn in the place of a hidden note.

A note is hidden because a bend from an earlier note covers it. But a chain remembers its anchor
before it is known whether there is anything to draw: between two notes that share the bent strings
there is a transition only where both have frets. A chain without any phrase hides notes like any
other, and marks nothing. So every hidden note comes after a visible note that a bend is drawn from,
or after one from which a bend could not be drawn (`Score.Undrawn`), and closing the open chain
covers what it hides exactly if the chain has a phrase (`Session.Anchored.covered_closeBends`).
-/
import Tablature.Proofs.Anchors

namespace Tablature

open TabPosition (strings placesOn)

/-! ## Bends that cannot be drawn -/

namespace Hop

/-- The notes share bent strings, but there are no two frets to draw a transition between. -/
structure Fretless (h : Hop) : Prop where
  shared : h.reached ≠ []
  silent : h.Silent

/-- Then one of the notes has a position without a fret. -/
theorem Fretless.exists_muted {h : Hop} (hfretless : h.Fretless) :
    ∃ position, (position ∈ h.before ∨ position ∈ h.after) ∧ position.fret = .muted := by
  by_contra hnone
  have hnumber (positions : List TabPosition)
      (hpositions : ∀ q ∈ positions, q ∈ h.before ∨ q ∈ h.after) {place : Nat}
      (hplace : place ∈ placesOn h.linked positions) :
      ∃ fret, fretAt? positions place = some fret := by
    obtain ⟨j, q, hj, hq, _⟩ := mem_indicesWhere.1 hplace
    rw [Nat.zero_add] at hj
    subst hj
    cases hfret : q.fret with
    | muted => exact absurd ⟨q, hpositions q (List.mem_of_getElem? hq), hfret⟩ hnone
    | number fret =>
        refine ⟨fret, ?_⟩
        rw [fretAt?, hq, Option.bind_some, hfret]
        rfl
  have htargets : placesOn h.linked h.after ≠ [] := by
    intro hnil
    apply hfretless.shared
    rw [← List.length_eq_zero_iff, reached, ← TabPosition.length_placesOn, hnil]
    rfl
  have hsources : placesOn h.linked h.before ≠ [] := by
    obtain ⟨string, hstring⟩ := List.exists_mem_of_ne_nil _ hfretless.shared
    have hlinked : string ∈ h.linked := by simpa using (List.mem_filter.1 hstring).2
    intro hnil
    have hlength := TabPosition.length_placesOn h.linked h.before
    rw [hnil, h.filter_linked, List.length_nil] at hlength
    rw [List.length_eq_zero_iff.1 hlength.symm] at hlinked
    cases hlinked
  -- The first two places make a transition, as both have frets.
  obtain ⟨source, sources, hsource⟩ := List.exists_cons_of_ne_nil hsources
  obtain ⟨target, targets, htarget⟩ := List.exists_cons_of_ne_nil htargets
  have hfirst : source ∈ placesOn h.linked h.before := hsource ▸ List.mem_cons_self
  have hlast : target ∈ placesOn h.linked h.after := htarget ▸ List.mem_cons_self
  obtain ⟨fret, hfret⟩ := hnumber h.before (fun _ => .inl) hfirst
  obtain ⟨fret', hfret'⟩ := hnumber h.after (fun _ => .inr) hlast
  have hsilent := hfretless.silent source
  rw [stepAt?, hsource, htarget, pairedStep?, if_pos rfl, hfret, hfret'] at hsilent
  cases hsilent

end Hop

namespace BendChain

theorem phrases_addSteps_ne_nil {chain : BendChain} (h : chain.phrases ≠ [])
    (steps : List (Nat × BendStep)) : (steps.foldl addStep chain).phrases ≠ [] := by
  induction steps generalizing chain with
  | nil => exact h
  | cons step steps ih =>
      refine ih ?_
      show insertStep step.1 step.2 chain.phrases ≠ []
      cases chain.phrases with
      | nil => exact List.cons_ne_nil _ _
      | cons p phrases =>
          rw [insertStep]
          split
          · exact List.cons_ne_nil _ _
          · split <;> exact List.cons_ne_nil _ _

end BendChain

namespace Session

variable {s t : Session}

/-- **A bend that leaves the chain without a phrase** is one that cannot be drawn, from the anchor
to the last note. -/
theorem fretless_openBends {indices : List Nat} {span : Span}
    (hspan : Span.ofNotes? s.tabNotes indices = some span) (hne : span.isEmpty = false)
    {chain : BendChain}
    (hchain :
      (s.openBends span.previous span.previousIndices span.currentIndices).bend = some chain)
    (hnil : chain.phrases = []) :
    chain.anchor = span.previous ∧ ∃ first last bent,
      s.tabNotes[span.previous]? = some (.tab first) ∧
      s.tabNotes[s.tabNotes.length - 1]? = some (.tab last) ∧
      (Hop.mk first.positions last.positions bent).Fretless := by
  rw [Span.ofNotes?] at hspan
  split at hspan
  · cases hspan
  · rename_i k _
    split at hspan
    · rename_i first last hfirst hlast
      cases hspan
      let h : Hop :=
        ⟨first.positions, last.positions, Span.taggedStrings indices last.positions 0⟩
      let sources := placesOn h.linked h.before
      let targets := placesOn h.linked h.after
      have hopened : (s.openBends k sources targets).bend =
          some ((BendChain.transitions first last (s.openChain k sources).indices sources
            targets).foldl BendChain.addStep (s.openChain k sources)) := by
        simp only [openBends, hfirst, hlast]
      replace hchain : (s.openBends k sources targets).bend = some chain := hchain
      rw [hopened] at hchain
      cases hchain
      -- A chain that had a phrase would have kept it.
      have hstart : (s.openChain k sources).phrases = [] := by
        by_contra hphrases
        exact BendChain.phrases_addSteps_ne_nil hphrases _ hnil
      have hnew : s.openChain k sources = ⟨k, sources, []⟩ := by
        refine openChain_of_empty ?_ k sources
        intro before hbefore
        by_contra hphrases
        rw [openChain_of_ne hbefore hphrases] at hstart
        exact hphrases hstart
      rw [hnew] at hnil ⊢
      have hnone : BendChain.Gathers (fun _ => []) [] :=
        ⟨.nil, List.forall_mem_nil _, fun _ => rfl⟩
      have hbefore : first.positions = h.before := rfl
      have hafter : last.positions = h.after := rfl
      obtain ⟨chain', heq, _, _, hgathers⟩ :=
        extended hbefore hafter ⟨k, sources, []⟩ (TabPosition.nodup_placesOn _ _) hnone
      refine ⟨(BendChain.kept_addSteps _ _).1, first, last, h.bent, hfirst, ?_, ?_, ?_⟩
      · rw [← List.getLast?_eq_getElem?, hlast]
      · obtain ⟨_, _, hpicks⟩ := Span.picks_between k first last indices hne
        intro hreached
        apply hpicks.nonempty
        show placesOn h.linked h.after = []
        rw [← List.length_eq_zero_iff, TabPosition.length_placesOn]
        exact List.length_eq_zero_iff.2 hreached
      · intro i
        have hsteps := hgathers.eq_nil_iff.1 (heq ▸ hnil) i
        rwa [List.nil_append, Option.toList_eq_nil_iff] at hsteps
    · cases hspan

end Session

/-! ## Scores -/

namespace Score

/-- A bend is drawn from the note at an address. -/
def Bent (s : Score) (r : NoteRef) : Prop := ∃ n, s.tabNote? r = some (.tab n) ∧ n.Bent

/-- A bend from the note at an address to a later one of its voice cannot be drawn. -/
def Undrawn (s : Score) (r : NoteRef) : Prop :=
  ∃ first i last bent, s.tabNote? r = some (.tab first) ∧ r.index < i ∧
    s.tabNote? { r with index := i } = some (.tab last) ∧
    (Hop.mk first.positions last.positions bent).Fretless

variable {s t : Score} {r : NoteRef}

theorem Bent.continues (h : s.Continues t) (hs : s.Bent r) : t.Bent r := by
  obtain ⟨n, hn, mark, hmem, hbend⟩ := hs
  obtain ⟨y, hy, hlater⟩ := h.tabNote? hn rfl
  cases hlater with
  | tab n _ _ _ added => exact ⟨_, hy, mark, List.mem_append_left added hmem, hbend⟩

theorem Undrawn.continues (h : s.Continues t) (hs : s.Undrawn r) : t.Undrawn r := by
  obtain ⟨first, i, last, bent, hfirst, hlt, hlast, hfretless⟩ := hs
  obtain ⟨first', hfirst', hpositions⟩ := h.tab hfirst
  obtain ⟨last', hlast', hpositions'⟩ := h.tab hlast
  refine ⟨first', i, last', bent, hfirst', hlt, hlast', ?_⟩
  rwa [hpositions, hpositions']

end Score

/-! ## Sessions -/

namespace Session

variable {s t : Session} {r : NoteRef}

/-- A bend is drawn in the place of the note at an address: from a visible note before it in its
voice. -/
def Covered (s : Session) (r : NoteRef) : Prop :=
  ∃ k n, k < r.index ∧ s.score.tabNote? { r with index := k } = some (.tab n) ∧
    n.ghost = false ∧ n.Bent

/-- Why the note at an address is hidden: a safe note before it in its voice is bent, or it should
have been. -/
structure Explains (s : Session) (r : NoteRef) (k : Nat) : Prop where
  before : k < r.index
  safe : s.Safe { r with index := k }
  bend : s.score.Bent { r with index := k } ∨ s.score.Undrawn { r with index := k }

theorem Explains.move {k : Nat} (hs : s.Explains r k) (h : Move s t) : t.Explains r k where
  before := hs.before
  safe := hs.safe.move h
  bend := hs.bend.imp (.continues h.continues) (.continues h.continues)

theorem Safe.covers {k : Nat} (hsafe : s.Safe { r with index := k })
    (hbent : s.score.Bent { r with index := k }) (hk : k < r.index) : s.Covered r := by
  obtain ⟨n, hn, hvisible⟩ := hsafe.visible
  obtain ⟨m, hm, hbent⟩ := hbent
  rw [hn] at hm
  cases hm
  exact ⟨k, n, hk, hn, hvisible, hbent⟩

/-! ### Closing -/

/-- A chain bends its anchor if it has a phrase. -/
theorem Anchored.bent_closeBends (hs : s.Anchored) {chain : BendChain}
    (hchain : s.bend = some chain) (hr : s.Current r) (hne : chain.phrases ≠ [])
    (through : Bool) : (s.closeBends through).score.Bent { r with index := chain.anchor } := by
  obtain ⟨n, hn, _⟩ := (hs.safe_of_current hchain hr).visible
  obtain ⟨n', hn', hcloses⟩ := exists_closes hn through
  refine ⟨n', hn', ?_⟩
  cases hcloses with
  | elsewhere h =>
      rcases h with hnone | helse
      · rw [hchain] at hnone
        cases hnone
      · exact absurd (hr.at chain.anchor) helse
  | current hchain' _ hcloses =>
      rw [hchain] at hchain'
      cases hchain'
      exact hcloses.bent_anchor hne

/-- A note that the open chain hides lies in the voice in progress, after the anchor. -/
theorem current_of_hidden {through : Bool} {n n' : TabNote}
    (hn : s.score.tabNote? r = some (.tab n)) (hvisible : n.ghost = false)
    (hn' : (s.closeBends through).score.tabNote? r = some (.tab n')) (hhidden : n'.ghost) :
    ∃ chain, s.bend = some chain ∧ s.Current r ∧ chain.anchor < r.index := by
  obtain ⟨m, hm, hcloses⟩ := closes_of_closeBends hn'
  rw [hn] at hm
  cases hm
  cases hcloses with
  | elsewhere _ =>
      rw [hvisible] at hhidden
      cases hhidden
  | @current chain _ hchain hr hcloses =>
      exact ⟨chain, hchain, hr, hcloses.anchor_lt hvisible hhidden⟩

/-- **What the open chain hides is covered** if the chain has a phrase, or if it would be covered
without this chain, and otherwise it is not. -/
theorem Anchored.covered_closeBends (hs : s.Anchored) {chain : BendChain} {through : Bool}
    {n n' : TabNote} (hchain : s.bend = some chain) (hn : s.score.tabNote? r = some (.tab n))
    (hvisible : n.ghost = false)
    (hn' : (s.closeBends through).score.tabNote? r = some (.tab n')) (hhidden : n'.ghost) :
    (s.closeBends through).Covered r ↔ s.Covered r ∨ chain.phrases ≠ [] := by
  constructor
  · rintro ⟨k, m', hk, hm', hshown, hbent⟩
    obtain ⟨m, hm, hcloses⟩ := closes_of_closeBends hm'
    cases hcloses with
    | elsewhere _ => exact .inl ⟨k, m', hk, hm, hshown, hbent⟩
    | current hchain' _ hcloses =>
        rcases hcloses.bent_of_bent hbent with hbefore | ⟨_, hne⟩
        · left
          refine ⟨k, m, hk, hm, ?_, hbefore⟩
          by_contra hghost
          rw [Bool.not_eq_false] at hghost
          rw [hcloses.ghost hghost] at hshown
          cases hshown
        · right
          rw [hchain] at hchain'
          cases hchain'
          exact hne
  · rintro (⟨k, m, hk, hm, _, hbent⟩ | hne)
    · have hsafe := (hs.bent _ m hm hbent).closeBends through
      exact hsafe.covers (Score.Bent.continues (s.continues_closeBends through) ⟨m, hm, hbent⟩) hk
    · obtain ⟨chain', hchain', hr, hlt⟩ := current_of_hidden hn hvisible hn' hhidden
      rw [hchain] at hchain'
      cases hchain'
      have hsafe := (hs.safe_of_current hchain hr).closeBends through
      exact hsafe.covers (hs.bent_closeBends hchain hr hne through) hlt

/-! ### All hidden notes -/

/-- Every hidden note is explained, and an open chain without a phrase is anchored at a note from
which a bend could not be drawn. -/
structure Explained (s : Session) : Prop where
  anchored : s.Anchored
  hidden : ∀ r n, s.score.tabNote? r = some (.tab n) → n.ghost → ∃ k, s.Explains r k
  chain : ∀ chain, s.bend = some chain → chain.phrases = [] →
    ∃ a, s.score.active = some a ∧ s.score.Undrawn (s.tabAddress a chain.anchor)

namespace Explained

theorem start (setup : PageSetup) : (Session.start setup).Explained where
  anchored := .start setup
  hidden := fun _ _ hn => nomatch hn
  chain := fun _ hchain => nomatch hchain

theorem calm (hs : s.Explained) (h : s.Calm t) : t.Explained where
  anchored := hs.anchored.calm h
  hidden := by
    intro r n hn hghost
    rcases h.looks r n hn with hnew | ⟨m, hm, hlook⟩
    · -- What is written is visible.
      have hvisible : n.ghost = false := congrArg TabNote.Look.ghost hnew
      rw [hvisible] at hghost
      cases hghost
    · have hm' : m.ghost := (congrArg TabNote.Look.ghost hlook).symm.trans hghost
      obtain ⟨k, hk⟩ := hs.hidden r m hm hm'
      exact ⟨k, hk.move (.calm h)⟩
  chain := by
    intro chain hchain hnil
    rw [h.bend] at hchain
    obtain ⟨a, ha, hundrawn⟩ := hs.chain chain hchain hnil
    obtain ⟨b, hb, haddress⟩ := h.address hchain ha chain.anchor
    refine ⟨b, hb, ?_⟩
    rw [haddress]
    exact hundrawn.continues h.continues

theorem closeBends (hs : s.Explained) (through : Bool) : (s.closeBends through).Explained where
  anchored := hs.anchored.closeBends through
  hidden := by
    intro r n' hn' hghost
    obtain ⟨n, hn, _⟩ := closes_of_closeBends hn'
    cases hbefore : n.ghost with
    | true =>
        obtain ⟨k, hk⟩ := hs.hidden r n hn hbefore
        exact ⟨k, hk.move (.closeBends s through)⟩
    | false =>
        -- Hidden just now: the anchor is bent, or it should have been.
        obtain ⟨chain, hchain, hr, hlt⟩ := current_of_hidden hn hbefore hn' hghost
        have hsafe := hs.anchored.safe_of_current hchain hr
        refine ⟨chain.anchor, hlt, hsafe.closeBends through, ?_⟩
        by_cases hnil : chain.phrases = []
        · right
          obtain ⟨a, ha, hundrawn⟩ := hs.chain chain hchain hnil
          rw [hr.eq_tabAddress ha]
          exact hundrawn.continues (s.continues_closeBends through)
        · left
          exact hs.anchored.bent_closeBends hchain hr hnil through
  chain := by
    intro chain hchain
    rw [bend_closeBends] at hchain
    cases hchain

theorem openBends (hs : s.Explained) {indices : List Nat} {span : Span}
    (hspan : Span.ofNotes? s.tabNotes indices = some span) (hne : span.isEmpty = false)
    (htab : ∃ a, s.score.active = some a ∧ a.tab.isSome) :
    (s.openBends span.previous span.previousIndices span.currentIndices).Explained where
  anchored := hs.anchored.openBends hspan
  hidden := by
    intro r n hn hghost
    rw [score_openBends] at hn
    obtain ⟨k, hk⟩ := hs.hidden r n hn hghost
    exact ⟨k, hk.move (.openBends s hspan hne htab)⟩
  chain := by
    intro chain hchain hnil
    obtain ⟨hanchor, first, last, bent, hfirst, hlast, hfretless⟩ :=
      fretless_openBends hspan hne hchain hnil
    have hlt := (Span.previousLive?_spec (Span.previousLive?_of_ofNotes? hspan)).2
    rw [tabAddress_openBends, score_openBends, hanchor]
    cases ha : s.score.active with
    | none =>
        rw [tabNotes, ha] at hfirst
        cases hfirst
    | some a =>
        rw [tabNotes_eq ha] at hfirst hlast hlt
        refine ⟨a, rfl, first, a.tabNotes.length - 1, last, bent, ?_, ?_, ?_, hfretless⟩
        · rw [tabNote?_tabAddress ha, hfirst]
        · show span.previous < a.tabNotes.length - 1
          omega
        · show s.score.tabNote? (s.tabAddress a (a.tabNotes.length - 1)) = _
          rw [tabNote?_tabAddress ha, hlast]

theorem move (hs : s.Explained) (h : Move s t) : t.Explained := by
  cases h with
  | calm h => exact hs.calm h
  | closeBends through => exact hs.closeBends through
  | openBends hspan hne htab => exact hs.openBends hspan hne htab

theorem follow (setup : PageSetup) (events : List Event) :
    (Session.follow events (.start setup)).Explained :=
  follow_moves_induction (P := Explained) start (fun h hs => hs.move h) setup events

/-- Where no position is muted every hidden note is covered. -/
theorem covered (hs : s.Explained)
    (hfrets : ∀ r n, s.score.tabNote? r = some (.tab n) → ∀ p ∈ n.positions, p.fret ≠ .muted)
    {n : TabNote} (hn : s.score.tabNote? r = some (.tab n)) (hghost : n.ghost) : s.Covered r := by
  obtain ⟨k, hk⟩ := hs.hidden r n hn hghost
  rcases hk.bend with hbent | ⟨first, i, last, bent, hfirst, _, hlast, hfretless⟩
  · exact hk.safe.covers hbent hk.before
  · obtain ⟨p, hp, hmuted⟩ := hfretless.exists_muted
    rcases hp with hp | hp
    · exact absurd hmuted (hfrets _ first hfirst p hp)
    · exact absurd hmuted (hfrets _ last hlast p hp)

end Explained

/-- **What is drawn in the place of a hidden note.** After any events, carried out or refused, a
hidden note comes after a visible note of its voice with a bend, or after a visible one from which a
bend could not be drawn for want of frets; so it does come after a bend where no position is muted.
Whenever the open chain is closed from then on, the notes that this hides come after a bend exactly
if the chain has a phrase or they do so already. -/
theorem covered_or_undrawn (setup : PageSetup) (events : List Event) :
    let s := Session.follow events (.start setup)
    (∀ r n, s.score.tabNote? r = some (.tab n) → n.ghost →
      s.Covered r ∨ ∃ k m, k < r.index ∧ s.score.tabNote? { r with index := k } = some (.tab m) ∧
        m.ghost = false ∧ s.score.Undrawn { r with index := k }) ∧
    ((∀ r n, s.score.tabNote? r = some (.tab n) → ∀ p ∈ n.positions, p.fret ≠ .muted) →
      ∀ r n, s.score.tabNote? r = some (.tab n) → n.ghost → s.Covered r) ∧
    ∀ t, Moves s t → ∀ chain through r n n', t.bend = some chain →
      t.score.tabNote? r = some (.tab n) → n.ghost = false →
      (t.closeBends through).score.tabNote? r = some (.tab n') → n'.ghost →
      ((t.closeBends through).Covered r ↔ t.Covered r ∨ chain.phrases ≠ []) := by
  intro s
  have hs : s.Explained := Explained.follow setup events
  refine ⟨?_, ?_, ?_⟩
  · intro r n hn hghost
    obtain ⟨k, hk⟩ := hs.hidden r n hn hghost
    rcases hk.bend with hbent | hundrawn
    · exact .inl (hk.safe.covers hbent hk.before)
    · obtain ⟨m, hm, hvisible⟩ := hk.safe.visible
      exact .inr ⟨k, m, hk.before, hm, hvisible, hundrawn⟩
  · intro hfrets r n hn hghost
    exact hs.covered hfrets hn hghost
  · intro t hmoves chain through r n n' hchain hn hvisible hn' hhidden
    have ht : t.Anchored :=
      hmoves.keeps (P := Anchored) (fun hmove hbefore => hbefore.move hmove) hs.anchored
    exact ht.covered_closeBends hchain hn hvisible hn' hhidden

/-- The letters C and D without frets on a stave of tablature, with a bend between them, and then a
bar. -/
def bendOfLetters : List Event :=
  let letter (key : String) (tag : Option Articulation) : Event :=
    .note
      { time := none, dot := false, fret := none, string := none
        letterPitch := some { key, accidental := none, accidentalType := none }
        octave := some 4, articulation := tag, decorator := none }
  [.stave (.defaults .tablature), letter "C" none, letter "D" (some .bend), .bar .single]

/-- A letter as it stands on tablature. -/
def letterOnTab (letter : Letter) (ghost : Bool) : TabNote :=
  { positions := [⟨.muted, 0⟩], duration := .quarter, playNotes := [⟨⟨letter, none⟩, 4⟩]
    stem := false, ghost, multiplier := 1, modifiers := [] }

theorem tabNote?_bendOfLetters :
    ((start .standard).follow bendOfLetters).score.tabNote? ⟨0, 0, 0⟩ =
        some (.tab (letterOnTab .c false)) ∧
      ((start .standard).follow bendOfLetters).score.tabNote? ⟨0, 0, 1⟩ =
        some (.tab (letterOnTab .d true)) := by
  decide +kernel

/-- A bend between two frets covers the note that it hides; a bend between two letters leads to the
other case. -/
theorem covered_or_undrawn_secondNote :
    (((start .standard).follow openBend).closeBends true).Covered ⟨0, 0, 1⟩ ∧
      (((start .standard).follow bendOfLetters).Covered ⟨0, 0, 1⟩ ∨
        ∃ k m, k < 1 ∧
          ((start .standard).follow bendOfLetters).score.tabNote? ⟨0, 0, k⟩ = some (.tab m) ∧
          m.ghost = false ∧ ((start .standard).follow bendOfLetters).score.Undrawn ⟨0, 0, k⟩) := by
  constructor
  · obtain ⟨-, -, hclose⟩ := covered_or_undrawn .standard openBend
    exact (hclose _ (.refl _) ⟨0, [0], [(0, [.between 5 7])]⟩ true ⟨0, 0, 1⟩ _ _ rfl rfl rfl rfl
      rfl).2 (.inr (List.cons_ne_nil _ _))
  · obtain ⟨hhidden, -, -⟩ := covered_or_undrawn .standard bendOfLetters
    exact hhidden ⟨0, 0, 1⟩ (letterOnTab .d true) tabNote?_bendOfLetters.2 rfl

/-- After a bend between two letters the second is hidden, and no bend is drawn in its place. -/
theorem not_covered_bendOfLetters :
    ∃ n, ((start .standard).follow bendOfLetters).score.tabNote? ⟨0, 0, 1⟩ = some (.tab n) ∧
      n.ghost ∧ ¬ ((start .standard).follow bendOfLetters).Covered ⟨0, 0, 1⟩ := by
  refine ⟨letterOnTab .d true, tabNote?_bendOfLetters.2, rfl, ?_⟩
  rintro ⟨k, m, hk, hm, _, mark, hmem, _⟩
  have hzero : k = 0 := Nat.lt_one_iff.1 hk
  subst hzero
  have hsame : some (Tickable.tab (letterOnTab .c false)) = some (.tab m) :=
    tabNote?_bendOfLetters.1.symm.trans hm
  cases hsame
  cases hmem

end Session

end Tablature
