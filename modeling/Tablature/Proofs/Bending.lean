/-
# Tablature.Proofs.Bending — what a bend does to the open chain.

The chain of a session is known from the hops since none was open: it is anchored at the first hop
that leads anywhere, and it has gathered the transitions of all hops from there on (`Chained`). A
bend makes one hop more (`chained_openBends`). Everything else that marks or links notes leaves
the chain alone, and the notes as the linker sees them (`Session.Outlined`).
-/
import Tablature.Proofs.Marking
import Tablature.Proofs.Phrases

namespace Tablature

open TabPosition (strings placesOn)

/-! ## What leaves a bend alone -/

/-- Two staves that are alike for the linker. -/
structure Stave.Outlined (a b : Stave) : Prop where
  tab : b.tab.isSome = a.tab.isSome
  tabNotes : List.Forall₂ Tickable.SameOutline a.tabNotes b.tabNotes

namespace Stave.Outlined

theorem refl (a : Stave) : a.Outlined a := ⟨rfl, List.forall₂_same.2 fun _ _ => ⟨rfl, rfl⟩⟩

theorem trans {a b c : Stave} (h : a.Outlined b) (h' : b.Outlined c) : a.Outlined c where
  tab := h'.tab.trans h.tab
  tabNotes := forall₂_comp h.tabNotes h'.tabNotes fun _ _ _ hab hbc =>
    ⟨hab.1.trans hbc.1, hab.2.trans hbc.2⟩

end Stave.Outlined

/-- Two sessions that are alike for an open bend: it is the same, and so are the active staves. -/
structure Session.Outlined (s t : Session) : Prop where
  bend : t.bend = s.bend
  active : Option.Rel Stave.Outlined s.score.active t.score.active

namespace Session

namespace Outlined

theorem of_active {s t : Session} (hbend : t.bend = s.bend)
    (hactive : t.score.active = s.score.active) : s.Outlined t := by
  refine ⟨hbend, ?_⟩
  rw [hactive]
  cases s.score.active with
  | none => exact .none
  | some a => exact .some (.refl a)

theorem refl (s : Session) : s.Outlined s := of_active rfl rfl

theorem trans {s t u : Session} (h : s.Outlined t) (h' : t.Outlined u) : s.Outlined u := by
  refine ⟨h'.bend.trans h.bend, ?_⟩
  have hactive := h.active
  have hactive' := h'.active
  generalize s.score.active = a at hactive ⊢
  generalize t.score.active = b at hactive hactive'
  generalize u.score.active = c at hactive' ⊢
  cases hactive with
  | none =>
      cases hactive'
      exact .none
  | some hab =>
      cases hactive' with
      | some hbc => exact .some (hab.trans hbc)

theorem tabNotes {s t : Session} (h : s.Outlined t) :
    List.Forall₂ Tickable.SameOutline s.tabNotes t.tabNotes := by
  have hactive := h.active
  unfold Session.tabNotes
  generalize s.score.active = a at hactive ⊢
  generalize t.score.active = b at hactive ⊢
  cases hactive with
  | none => exact .nil
  | some hab => exact hab.tabNotes

end Outlined

variable {s : Session}

theorem outlined_onActive {f : Stave → Stave} (h : ∀ a : Stave, a.Outlined (f a)) :
    s.Outlined (s.onActive f) := by
  cases ha : s.score.active with
  | none =>
      rw [onActive_eq_self ha]
      exact .refl s
  | some a =>
      rw [onActive_eq ha]
      refine ⟨rfl, ?_⟩
      rw [ha]
      exact .some (h a)

theorem outlined_markLastTab (index : Nat) (m : Modifier) : s.Outlined (s.markLastTab index m) :=
  outlined_onActive fun a => ⟨rfl, forall₂_modify (fun _ => ⟨rfl, rfl⟩)
    (fun t => t.sameOutline_mark index m) a.tabNotes _⟩

theorem outlined_markLastStaff (index : Nat) (m : Modifier) :
    s.Outlined (s.markLastStaff index m) :=
  outlined_onActive fun _ => ⟨rfl, List.forall₂_same.2 fun _ _ => ⟨rfl, rfl⟩⟩

theorem outlined_decorate (decorator : Decorator) : s.Outlined (s.decorate decorator) := by
  cases decorator with
  | vibrato => exact outlined_markLastTab _ _
  | harshVibrato => exact outlined_markLastTab _ _
  | upStroke => exact (outlined_markLastTab _ _).trans (outlined_markLastStaff _ _)
  | downStroke => exact (outlined_markLastTab _ _).trans (outlined_markLastStaff _ _)

theorem outlined_decorateWith (decorator : Option Decorator) :
    s.Outlined (s.decorateWith decorator) := by
  cases decorator with
  | none => exact .refl s
  | some decorator => exact outlined_decorate decorator

/-- Links of any other articulation leave a bend alone. -/
theorem outlined_linkSpan {tag : Articulation} (htag : tag ≠ .bend) (a : Stave)
    (span : Option Span) : s.Outlined (s.linkSpan a tag span) := by
  have onTab (span : Span) : s.Outlined (s.articulateTab a tag span) := by
    cases tag with
    | bend => exact absurd rfl htag
    | _ => exact .of_active rfl rfl
  cases span with
  | none => exact .refl s
  | some span =>
      simp only [linkSpan]
      cases span.isEmpty with
      | true => exact .refl s
      | false =>
          have linked : s.Outlined (if a.tab.isSome then s.articulateTab a tag span else s) := by
            split
            · exact onTab span
            · exact .refl s
          cases a.staff.isSome with
          | true => exact linked.trans (.of_active rfl rfl)
          | false => exact linked

theorem outlined_articulateTagged {tag : Articulation} (htag : tag ≠ .bend)
    (tags : List (Option Articulation)) : s.Outlined (articulateTagged tags s tag) := by
  unfold articulateTagged
  dsimp only
  split
  · rename_i a _ _
    cases tag with
    | bend => exact absurd rfl htag
    | vibrato => exact outlined_markLastTab _ _
    | harshVibrato => exact outlined_markLastTab _ _
    | tap =>
        simp only [articulate]
        split
        · exact (outlined_markLastTab _ _).trans (outlined_linkSpan htag _ _)
        · exact outlined_linkSpan htag _ _
    | slide => exact outlined_linkSpan htag _ _
    | hammerOn => exact outlined_linkSpan htag _ _
    | pullOff => exact outlined_linkSpan htag _ _
    | tapTie => exact outlined_linkSpan htag _ _
  · exact .refl s

/-- A bend among the tags is applied first, and the others leave it alone. -/
theorem outlined_applyTags {tags : List (Option Articulation)} (hbend : some .bend ∈ tags)
    (hnotes : s.tabNotes ≠ []) : (articulateTagged tags s .bend).Outlined (s.applyTags tags) := by
  have others (all : List Articulation) (hall : .bend ∉ all) (t : Session) :
      t.Outlined (all.foldl (articulateTagged tags) t) := by
    induction all generalizing t with
    | nil => exact .refl t
    | cons tag all ih =>
        have htag : tag ≠ .bend := fun heq => hall (heq ▸ List.mem_cons_self)
        exact (outlined_articulateTagged htag tags).trans
          (ih (fun hmem => hall (List.mem_cons_of_mem tag hmem)) _)
  have hsome : (s.tabNotes.isEmpty || tags.all Option.isNone) = false := by
    rw [Bool.or_eq_false_iff, List.all_eq_false]
    exact ⟨by simpa using hnotes, some .bend, hbend, by simp⟩
  rw [applyTags, hsome, if_neg (by simp), if_pos (by simpa using hbend)]
  exact others _ (by decide) _

end Session

/-! ## Notes that keep their positions -/

/-- Notes that keep their places and their positions; others may be added. -/
def SamePlaces (notes notes' : List Tickable) : Prop :=
  ∀ (i : Nat) (n : TabNote), notes[i]? = some (.tab n) →
    ∃ n' : TabNote, notes'[i]? = some (.tab n') ∧ n'.positions = n.positions

theorem SamePlaces.of_outlines {notes notes' : List Tickable}
    (h : List.Forall₂ Tickable.SameOutline notes notes') : SamePlaces notes notes' := by
  intro i n hn
  obtain ⟨x, hx, hsame⟩ := forall₂_getElem? h hn
  cases x with
  | tab n' => exact ⟨n', hx, (Option.some.inj hsame.2).symm⟩
  | _ => cases hsame.2

theorem SamePlaces.of_continues {notes notes' : List Tickable} (h : Continues notes notes') :
    SamePlaces notes notes' := by
  intro i n hn
  obtain ⟨x, hx, hlater⟩ := h i (.tab n) hn (.here hn rfl)
  cases hlater
  exact ⟨_, hx, rfl⟩

/-! ## The chain after some hops -/

/-- The open chain after some hops. Either none of them has led anywhere, or the chain was opened at
the first that has, and has gathered the transitions of all hops from there on. -/
inductive Chained (hops : List Hop) (notes : List Tickable) : Option BendChain → Prop
  | silent {bend : Option BendChain} (hsilent : ∀ h ∈ hops, h.Silent)
      (hempty : ∀ chain, bend = some chain → chain.phrases = [] ∧
        ∃ n, notes[chain.anchor]? = some (.tab n)) : Chained hops notes bend
  | opened {before after : List Hop} {h : Hop} {chain : BendChain} {n : TabNote}
      (hhops : hops = before ++ h :: after) (hsilent : ∀ g ∈ before, g.Silent) (hopen : ¬ h.Silent)
      (hindices : chain.indices = placesOn h.linked h.before)
      (hanchor : notes[chain.anchor]? = some (.tab n)) (hpositions : n.positions = h.before)
      (hphrases : BendChain.Gathers
        (fun i => (h :: after).filterMap (·.stepAt? chain.indices i)) chain.phrases) :
      Chained hops notes (some chain)

theorem filterMap_singleton {α β : Type} (f : α → Option β) (a : α) :
    [a].filterMap f = (f a).toList := by
  cases h : f a <;> simp [h]

namespace Chained

variable {hops : List Hop} {notes notes' : List Tickable} {bend : Option BendChain}

/-- The chain does not depend on more than the positions of its anchor. -/
theorem keeps (hchained : Chained hops notes bend) (hnotes : SamePlaces notes notes') :
    Chained hops notes' bend := by
  cases hchained with
  | silent hsilent hempty =>
      refine .silent hsilent fun chain hchain => ?_
      obtain ⟨hnil, n, hn⟩ := hempty chain hchain
      obtain ⟨n', hn', -⟩ := hnotes _ n hn
      exact ⟨hnil, n', hn'⟩
  | opened hhops hsilent hopen hindices hanchor hpositions hphrases =>
      obtain ⟨n', hn', heq⟩ := hnotes _ _ hanchor
      exact .opened hhops hsilent hopen hindices hn' (heq.trans hpositions) hphrases

/-- A hop without linked strings changes nothing. -/
theorem unlinked (hchained : Chained hops notes bend) {h : Hop} (hnil : h.linked = []) :
    Chained (hops ++ [h]) notes bend := by
  have hnone := Hop.stepAt?_of_linked_nil hnil
  cases hchained with
  | silent hsilent hempty =>
      refine .silent (fun g hg => ?_) hempty
      rcases List.mem_append.1 hg with hg | hg
      · exact hsilent g hg
      · rw [List.mem_singleton.1 hg]
        exact hnone _
  | @opened before after g chain n hhops hsilent hopen hindices hanchor hpositions hphrases =>
      refine .opened (by rw [hhops, List.append_assoc]; rfl) hsilent hopen hindices hanchor
        hpositions (hphrases.congr fun i => ?_)
      show (g :: after ++ [h]).filterMap (·.stepAt? chain.indices i) = _
      rw [List.filterMap_append, filterMap_singleton, hnone]
      exact List.append_nil _

end Chained

/-- More transitions leave the anchor of a chain alone, and the places that it was opened with. -/
theorem BendChain.kept_addSteps (chain : BendChain) (steps : List (Nat × BendStep)) :
    (steps.foldl addStep chain).anchor = chain.anchor ∧
      (steps.foldl addStep chain).indices = chain.indices := by
  induction steps generalizing chain with
  | nil => exact ⟨rfl, rfl⟩
  | cons step steps ih => exact ih (chain.addStep step)

namespace Session

variable {s : Session}

/-- The places that a chain was opened with stay, and each gets its paired transition. -/
theorem extended {h : Hop} {first last : TabNote} (hbefore : first.positions = h.before)
    (hafter : last.positions = h.after) (chain : BendChain) (hnodup : chain.indices.Nodup)
    {steps : Nat → List BendStep} (hsteps : BendChain.Gathers steps chain.phrases) :
    ∃ chain' : BendChain,
      (BendChain.transitions first last chain.indices (placesOn h.linked h.before)
        (placesOn h.linked h.after)).foldl BendChain.addStep chain = chain' ∧
      chain'.anchor = chain.anchor ∧ chain'.indices = chain.indices ∧
      BendChain.Gathers (fun i => steps i ++ (h.stepAt? chain.indices i).toList)
        chain'.phrases := by
  obtain ⟨hanchor, hindices⟩ := chain.kept_addSteps (BendChain.transitions first last chain.indices
    (placesOn h.linked h.before) (placesOn h.linked h.after))
  exact ⟨_, rfl, hanchor, hindices, h.gathers_transitions hbefore hafter hnodup _ _ hsteps⟩

/-- A chain without a phrase starts again. -/
theorem openChain_of_empty (h : ∀ chain, s.bend = some chain → chain.phrases = []) (k : Nat)
    (sources : List Nat) : s.openChain k sources = ⟨k, sources, []⟩ := by
  unfold openChain
  cases hbend : s.bend with
  | none => rfl
  | some chain =>
      simp only [h chain hbend]
      rfl

/-- A chain with a phrase goes on. -/
theorem openChain_of_ne {chain : BendChain} (hbend : s.bend = some chain)
    (hne : chain.phrases ≠ []) (k : Nat) (sources : List Nat) :
    s.openChain k sources = chain := by
  have hphrase : chain.phrases.isEmpty = false := List.isEmpty_eq_false_iff.2 hne
  unfold openChain
  rw [hbend]
  simp only [hphrase]
  rfl

/-- **What a hop does to the chain.** -/
theorem chained_openBends {hops : List Hop} (hchained : Chained hops s.tabNotes s.bend) {k : Nat}
    {first last : TabNote} (hfirst : s.tabNotes[k]? = some (.tab first))
    (hlast : s.tabNotes.getLast? = some (.tab last)) {h : Hop}
    (hbefore : first.positions = h.before) (hafter : last.positions = h.after) :
    Chained (hops ++ [h]) s.tabNotes
      (s.openBends k (placesOn h.linked h.before) (placesOn h.linked h.after)).bend := by
  let sources := placesOn h.linked h.before
  let targets := placesOn h.linked h.after
  have hopened : (s.openBends k sources targets).bend =
      some ((BendChain.transitions first last (s.openChain k sources).indices sources
        targets).foldl BendChain.addStep (s.openChain k sources)) := by
    simp only [openBends, hfirst, hlast]
  show Chained (hops ++ [h]) s.tabNotes (s.openBends k sources targets).bend
  rw [hopened]
  generalize hbend : s.bend = bend at hchained
  cases hchained with
  | silent hsilent hempty =>
      -- The chain has no phrase yet and starts again at this hop.
      have hchain := openChain_of_empty (fun chain h => (hempty chain (hbend ▸ h)).1) k sources
      have hnil : BendChain.Gathers (fun _ => []) [] :=
        ⟨.nil, List.forall_mem_nil _, fun _ => rfl⟩
      obtain ⟨chain', heq, hanchor, hindices, hgathers⟩ :=
        extended hbefore hafter ⟨k, sources, []⟩ (TabPosition.nodup_placesOn _ _) hnil
      rw [hchain, heq]
      by_cases hlast' : h.Silent
      · refine .silent (fun g hg => ?_) fun chain hchain => ?_
        · rcases List.mem_append.1 hg with hg | hg
          · exact hsilent g hg
          · rw [List.mem_singleton.1 hg]
            exact hlast'
        · cases hchain
          refine ⟨hgathers.eq_nil_iff.2 fun i => ?_, first, hanchor.symm ▸ hfirst⟩
          rw [hlast' i]
          rfl
      · refine .opened rfl hsilent hlast' hindices (hanchor.symm ▸ hfirst) hbefore
          (hgathers.congr fun i => ?_)
        rw [hindices]
        exact filterMap_singleton _ h
  | @opened before after g chain n hhops hsilent hopen hindices hanchor hpositions hphrases =>
      -- The hop that opened the chain has left a phrase in it, so that it goes on.
      have hne : chain.phrases ≠ [] := by
        intro hnil
        refine hopen fun i => ?_
        rw [← hindices]
        exact List.filterMap_eq_nil_iff.1 (hphrases.eq_nil_iff.1 hnil i) g List.mem_cons_self
      have hchain := openChain_of_ne hbend hne k sources
      have hnodup : chain.indices.Nodup := hindices ▸ TabPosition.nodup_placesOn _ _
      obtain ⟨chain', heq, hanchor', hindices', hgathers⟩ :=
        extended hbefore hafter chain hnodup hphrases
      rw [hchain, heq]
      refine .opened (by rw [hhops, List.append_assoc]; rfl) hsilent hopen
        (hindices'.trans hindices) (hanchor'.symm ▸ hanchor) hpositions
        (hgathers.congr fun i => ?_)
      show (g :: after ++ [h]).filterMap (·.stepAt? chain'.indices i) = _
      rw [List.filterMap_append, filterMap_singleton, hindices']

end Session

/-! ## Tags -/

/-- The strings of the positions that are tagged with a bend. -/
def bentStrings (positions : List TabPosition) (tags : List (Option Articulation)) : List Nat :=
  ((positions.zip tags).filter (·.2 == some .bend)).map (·.1.string)

theorem taggedStrings_eq {positions : List TabPosition} {tags : List (Option Articulation)}
    {indices : List Nat} {start : Nat}
    (h : ∀ j, indices.contains (start + j) = (tags[j]?).any (· == some .bend)) :
    Span.taggedStrings indices positions start = bentStrings positions tags := by
  unfold bentStrings
  induction positions generalizing tags start with
  | nil => rfl
  | cons q positions ih =>
      have later (j : Nat) : indices.contains (start + 1 + j) =
          (tags[j + 1]?).any (· == some .bend) := by
        rw [Nat.add_assoc, Nat.add_comm 1, h]
      rw [Span.taggedStrings]
      cases tags with
      | nil =>
          have hstart : indices.contains start = false := h 0
          rw [hstart, if_neg (by simp), @ih [] _ later, List.zip_nil_right]
          rfl
      | cons tag tags =>
          have hstart : indices.contains start = (tag == some .bend) := h 0
          rw [hstart, @ih tags _ later, List.zip_cons_cons]
          split
          · rename_i htag
            rw [List.filter_cons_of_pos (a := (q, tag)) htag]
            rfl
          · rename_i htag
            rw [List.filter_cons_of_neg (a := (q, tag)) htag]

theorem taggedStrings_bend (positions : List TabPosition) (tags : List (Option Articulation)) :
    Span.taggedStrings (indicesWhere (· == some .bend) tags 0) positions 0 =
      bentStrings positions tags := by
  refine taggedStrings_eq fun j => ?_
  rw [Nat.zero_add, Bool.eq_iff_iff, List.contains_iff_mem, mem_indicesWhere, Option.any_eq_true]
  constructor
  · rintro ⟨i, tag, hi, htag, hbend⟩
    exact ⟨tag, by rw [hi, Nat.zero_add, htag], hbend⟩
  · rintro ⟨tag, htag, hbend⟩
    exact ⟨j, tag, (Nat.zero_add j).symm, htag, hbend⟩

namespace Session

variable {s : Session}

/-- The active stave shows tablature and ends with a note of some positions, and the nearest visible
note before it has some others. -/
structure Ends (s : Session) (before after : List TabPosition) : Prop where
  tab : ∃ a, s.score.active = some a ∧ a.tab.isSome
  notes : ∃ k first last, Span.previousLive? s.tabNotes = some k ∧
    s.tabNotes[k]? = some (.tab first) ∧ s.tabNotes.getLast? = some (.tab last) ∧
    first.positions = before ∧ last.positions = after

theorem articulateTagged_bend {a : Stave} (ha : s.score.active = some a)
    {tags : List (Option Articulation)} (hbend : some .bend ∈ tags) :
    articulateTagged tags s .bend =
      s.linkSpan a .bend (Span.ofNotes? s.tabNotes (indicesWhere (· == some .bend) tags 0)) := by
  have hne : indicesWhere (· == some .bend) tags 0 ≠ [] := by
    obtain ⟨i, hi⟩ := List.mem_iff_getElem?.1 hbend
    exact List.ne_nil_of_mem (mem_indicesWhere.2 ⟨i, _, (Nat.zero_add i).symm, hi, by simp⟩)
  unfold articulateTagged
  dsimp only
  rw [tabNotes_eq ha, ha]
  cases hindices : indicesWhere (· == some .bend) tags 0 with
  | nil => exact absurd hindices hne
  | cons i indices => rfl

theorem active_linkSpan (a : Stave) (tag : Articulation) (span : Option Span) :
    (s.linkSpan a tag span).score.active = s.score.active := by
  have onTab (span : Span) : (if a.tab.isSome then s.articulateTab a tag span else s).score.active =
      s.score.active := by
    split
    · exact active_articulateTab a tag span
    · rfl
  cases span with
  | none => rfl
  | some span =>
      simp only [linkSpan]
      split
      · rfl
      · split <;> exact onTab span

theorem Ends.span {before after : List TabPosition} (hends : s.Ends before after)
    (tags : List (Option Articulation)) :
    let h : Hop := ⟨before, after, bentStrings after tags⟩
    ∃ k first last, Span.previousLive? s.tabNotes = some k ∧
      s.tabNotes[k]? = some (.tab first) ∧ s.tabNotes.getLast? = some (.tab last) ∧
      first.positions = before ∧ last.positions = after ∧
      Span.ofNotes? s.tabNotes (indicesWhere (· == some .bend) tags 0) =
        some ⟨k, placesOn h.linked h.before, placesOn h.linked h.after⟩ := by
  intro h
  obtain ⟨k, first, last, hk, hfirst, hlast, rfl, rfl⟩ := hends.notes
  refine ⟨k, first, last, hk, hfirst, hlast, rfl, rfl, ?_⟩
  simp only [Span.ofNotes?, hk, hfirst, hlast, Span.between, taggedStrings_bend]
  rfl

end Session

end Tablature
