/-
# Tablature.Proofs.Anchors — a bend is drawn from a visible note.

Closing a chain hides a whole stretch of the voice in progress, without a look at what stands there.
Still it never hides a note that a bend is drawn from, because of where chains are anchored: at the
nearest visible note before the last object. So a visible note that something has been written after
is never passed over by an anchor again, and out of reach of all chains to come (`Session.Safe`,
`Session.Safe.moves`). An anchor is such a note as soon as its chain is opened, and every note that
a bend is drawn from has been an anchor (`Session.Anchored`).
-/
import Tablature.Proofs.BendRuns

namespace Tablature

/-! ## Bent notes -/

namespace TabNote

/-- A bend is drawn from the note. -/
def Bent (n : TabNote) : Prop := ∃ mark ∈ n.modifiers, mark.modifier.isBend

theorem bent_iff {n : TabNote} : n.Bent ↔ n.bends ≠ [] := by
  rw [Ne, bends, List.filter_eq_nil_iff]
  constructor
  · rintro ⟨mark, hmem, hbend⟩ hnone
    exact hnone mark hmem hbend
  · intro hsome
    by_contra hnone
    apply hsome
    intro mark hmem hbend
    exact hnone ⟨mark, hmem, hbend⟩

theorem Bent.of_look {n m : TabNote} (h : n.Bent) (hlook : n.look = m.look) : m.Bent := by
  have hbends : n.bends = m.bends := congrArg Look.bends hlook
  rw [bent_iff] at h ⊢
  rwa [← hbends]

theorem not_bent_of_new {n : TabNote} (h : n.look = .new) : ¬ n.Bent := by
  rw [bent_iff, not_not]
  exact congrArg Look.bends h

end TabNote

/-! ## What closing a chain does to a note -/

namespace BendChain

variable {chain : BendChain}

/-- What closing a chain makes of the note at a place: the anchor is marked, what comes after it may
be hidden, and any other note stays as it is. -/
inductive Closes (chain : BendChain) : Nat → TabNote → TabNote → Prop
  | anchor (n : TabNote) : Closes chain chain.anchor n
      { n with modifiers := n.modifiers ++ chain.phrases.map fun p => ⟨p.1, .bend p.2⟩ }
  | covered {i : Nat} (n : TabNote) (h : chain.anchor < i) :
      Closes chain i n { n with ghost := true }
  | other {i : Nat} (n : TabNote) (h : i ≠ chain.anchor) : Closes chain i n n

namespace Closes

variable {i : Nat} {n n' : TabNote}

/-- Only notes after the anchor are hidden. -/
theorem anchor_lt (h : chain.Closes i n n') (hn : n.ghost = false) (hn' : n'.ghost) :
    chain.anchor < i := by
  cases h with
  | anchor n =>
      rw [hn] at hn'
      cases hn'
  | covered n hlt => exact hlt
  | other n hne =>
      rw [hn] at hn'
      cases hn'

/-- Hidden notes are not shown again. -/
theorem ghost (h : chain.Closes i n n') (hn : n.ghost) : n'.ghost := by
  cases h with
  | anchor n => exact hn
  | covered n hlt => rfl
  | other n hne => exact hn

/-- Only the anchor is bent, and only by a chain that has a phrase. -/
theorem bent_of_bent (h : chain.Closes i n n') (hn' : n'.Bent) :
    n.Bent ∨ (i = chain.anchor ∧ chain.phrases ≠ []) := by
  cases h with
  | anchor n =>
      obtain ⟨mark, hmem, hbend⟩ := hn'
      rcases List.mem_append.1 hmem with hmem | hmem
      · exact .inl ⟨mark, hmem, hbend⟩
      · right
        refine ⟨rfl, ?_⟩
        intro hnil
        rw [hnil] at hmem
        cases hmem
  | covered n hlt => exact .inl hn'
  | other n hne => exact .inl hn'

/-- A chain that has a phrase bends its anchor. -/
theorem bent_anchor (h : chain.Closes chain.anchor n n') (hne : chain.phrases ≠ []) : n'.Bent := by
  obtain ⟨p, rest, hp⟩ := List.exists_cons_of_ne_nil hne
  generalize hi : chain.anchor = i at h
  cases h with
  | anchor n =>
      refine ⟨⟨p.1, .bend p.2⟩, List.mem_append_right _ ?_, rfl⟩
      rw [hp]
      exact List.mem_cons_self
  | covered n hlt => omega
  | other n hother => exact absurd hi.symm hother

end Closes

theorem isTab_markAnchor (phrases : List (Nat × List BendStep)) (t : Tickable) :
    (markAnchor phrases t).isTab = t.isTab := by
  induction phrases generalizing t with
  | nil => rfl
  | cons p phrases ih =>
      show (markAnchor phrases (t.mark p.1 (.bend p.2))).isTab = t.isTab
      rw [ih]
      cases t <;> rfl

theorem tab_of_markAnchor {phrases : List (Nat × List BendStep)} {t : Tickable} {n' : TabNote}
    (h : markAnchor phrases t = .tab n') : ∃ n, t = .tab n ∧
      n' = { n with modifiers := n.modifiers ++ phrases.map fun p => ⟨p.1, .bend p.2⟩ } := by
  have htab : t.isTab := by
    rw [← isTab_markAnchor phrases, h]
    rfl
  cases t with
  | tab n =>
      rw [markAnchor_tab] at h
      cases h
      exact ⟨n, rfl, rfl⟩
  | _ => cases htab

theorem tab_of_hideRange {start stop i : Nat} {notes : List Tickable} {n' : TabNote}
    (h : (hideRange start stop notes)[i]? = some (.tab n')) :
    ∃ n, notes[i]? = some (.tab n) ∧ (n' = n ∨ (start ≤ i ∧ n' = { n with ghost := true })) := by
  rw [hideRange, List.getElem?_mapIdx, Option.map_eq_some_iff] at h
  obtain ⟨t, ht, heq⟩ := h
  split at heq
  · rename_i hrange
    rw [Bool.and_eq_true, decide_eq_true_eq] at hrange
    cases t with
    | tab n =>
        cases heq
        exact ⟨n, ht, .inr ⟨hrange.1, rfl⟩⟩
    | _ => cases heq
  · subst heq
    exact ⟨n', ht, .inl rfl⟩

/-- A note of the voice after closing is one that was there before. -/
theorem closes_of_close {through : Bool} {notes : List Tickable} {i : Nat} {n' : TabNote}
    (h : (chain.close through notes)[i]? = some (.tab n')) :
    ∃ n, notes[i]? = some (.tab n) ∧ chain.Closes i n n' := by
  obtain ⟨m, hm, hhidden⟩ := tab_of_hideRange h
  rw [List.getElem?_modify, Option.map_eq_map, Option.map_eq_some_iff] at hm
  obtain ⟨t, ht, hmarked⟩ := hm
  by_cases hi : chain.anchor = i
  · rw [if_pos hi] at hmarked
    obtain ⟨n, rfl, rfl⟩ := tab_of_markAnchor hmarked
    refine ⟨n, ht, ?_⟩
    rcases hhidden with rfl | ⟨hlt, _⟩
    · exact hi ▸ .anchor n
    · omega
  · rw [if_neg hi] at hmarked
    subst hmarked
    refine ⟨m, ht, ?_⟩
    rcases hhidden with rfl | ⟨hlt, rfl⟩
    · exact .other _ (Ne.symm hi)
    · exact .covered m (by omega)

end BendChain

namespace Session

variable {s t : Session}

/-- What closing the open bend makes of the note at an address. -/
inductive Closes (s : Session) (r : NoteRef) (n : TabNote) : TabNote → Prop
  | elsewhere (h : s.bend = none ∨ ¬ s.Current r) : Closes s r n n
  | current {chain : BendChain} {n' : TabNote} (hchain : s.bend = some chain) (hr : s.Current r)
      (h : chain.Closes r.index n n') : Closes s r n n'

/-- While a bend is open, a calm change leaves the addresses of the voice in progress alone. -/
theorem Calm.address (h : s.Calm t) {chain : BendChain} (hchain : s.bend = some chain) {a : Stave}
    (ha : s.score.active = some a) (i : Nat) :
    ∃ b, t.score.active = some b ∧ t.tabAddress b i = s.tabAddress a i := by
  have hopen : s.bend ≠ none := by
    rw [hchain]
    exact Option.some_ne_none chain
  obtain ⟨b, hb, haddress⟩ := h.stays hopen (s.tabAddress a i) ⟨a, ha, rfl⟩
  exact ⟨b, hb, haddress.symm⟩

/-- A change of the voice in progress leaves all other voices alone. -/
theorem tabNote?_of_not_current {a b : Stave} (ha : s.score.active = some a)
    (hvoices : b.tabVoices = a.tabVoices) {r : NoteRef} (hr : ¬ s.Current r) {x : Tickable}
    (h : ({ s.score with active := some b } : Score).tabNote? r = some x) :
    s.score.tabNote? r = some x := by
  obtain ⟨c, hc, hx⟩ := Score.tabNote?_eq_some.1 h
  rcases Score.staves_eq_some.1 hc with hearlier | ⟨hstave, hactive⟩
  · exact Score.tabNote?_eq_some.2 ⟨c, Score.staves_eq_some.2 (.inl hearlier), hx⟩
  · cases hactive
    have hne : r.voice ≠ a.tabVoices.length := by
      intro hvoice
      exact hr ⟨a, ha, congrArg₂ (fun stave voice => NoteRef.mk stave voice r.index) hstave hvoice⟩
    have hlt : r.voice < a.tabVoices.length := by
      have hle := Stave.le_of_tabObject? hx
      rw [hvoices] at hle
      omega
    refine Score.tabNote?_eq_some.2 ⟨a, Score.staves_eq_some.2 (.inr ⟨hstave, ha⟩), ?_⟩
    rw [Stave.tabObject?_of_lt (hvoices ▸ hlt), hvoices] at hx
    rw [Stave.tabObject?_of_lt hlt, hx]

/-- A note after closing is one that was there before. -/
theorem closes_of_closeBends {through : Bool} {r : NoteRef} {n' : TabNote}
    (h : (s.closeBends through).score.tabNote? r = some (.tab n')) :
    ∃ n, s.score.tabNote? r = some (.tab n) ∧ s.Closes r n n' := by
  unfold closeBends at h
  split at h
  · exact ⟨n', h, .elsewhere (.inl ‹_›)⟩
  · rename_i chain hchain
    cases ha : s.score.active with
    | none =>
        rw [onTabNotes, onActive_eq_self (s := { s with bend := none }) ha] at h
        refine ⟨n', h, .elsewhere (.inr ?_)⟩
        rintro ⟨a, hactive, _⟩
        rw [ha] at hactive
        cases hactive
    | some a =>
        rw [onTabNotes_eq (s := { s with bend := none }) ha] at h
        let b : Stave := { a with tabNotes := chain.close through a.tabNotes }
        let u : Session := { s with score := { s.score with active := some b } }
        by_cases hr : s.Current r
        · have haddress : r = s.tabAddress a r.index := hr.eq_tabAddress ha r.index
          have hplace : u.score.tabNote? (u.tabAddress b r.index) = b.tabNotes[r.index]? :=
            tabNote?_tabAddress rfl r.index
          have hclosed : b.tabNotes[r.index]? = some (.tab n') := by
            rw [← hplace]
            show u.score.tabNote? (s.tabAddress a r.index) = _
            rw [← haddress]
            exact h
          obtain ⟨n, hn, hcloses⟩ := BendChain.closes_of_close hclosed
          refine ⟨n, ?_, .current hchain hr hcloses⟩
          rw [haddress, tabNote?_tabAddress ha, hn]
        · exact ⟨n', tabNote?_of_not_current (b := b) ha rfl hr h, .elsewhere (.inr hr)⟩

/-- A note stays where it is when the open bend is closed. -/
theorem exists_closes {r : NoteRef} {n : TabNote} (hn : s.score.tabNote? r = some (.tab n))
    (through : Bool) :
    ∃ n', (s.closeBends through).score.tabNote? r = some (.tab n') ∧ s.Closes r n n' := by
  obtain ⟨y, hy, hlater⟩ := (s.continues_closeBends through).tabNote? hn rfl
  cases hlater with
  | tab n ghost hidden multiplier added =>
      obtain ⟨m, hm, hcloses⟩ := closes_of_closeBends hy
      rw [hn] at hm
      cases hm
      exact ⟨_, hy, hcloses⟩

/-! ## Where chains are anchored -/

theorem tabNotes_openBends (earlier : Nat) (firstIndices lastIndices : List Nat) :
    (s.openBends earlier firstIndices lastIndices).tabNotes = s.tabNotes := by
  rw [tabNotes, score_openBends]
  rfl

theorem tabAddress_openBends (earlier : Nat) (firstIndices lastIndices : List Nat) :
    (s.openBends earlier firstIndices lastIndices).tabAddress = s.tabAddress := by
  unfold tabAddress
  rw [score_openBends]

theorem current_openBends {earlier : Nat} {firstIndices lastIndices : List Nat} {r : NoteRef} :
    (s.openBends earlier firstIndices lastIndices).Current r ↔ s.Current r := by
  unfold Current tabAddress
  rw [score_openBends]

/-- A bend keeps the anchor of the open chain or takes the given one. -/
theorem anchor_openBends {earlier : Nat} {firstIndices lastIndices : List Nat} {chain : BendChain}
    (h : (s.openBends earlier firstIndices lastIndices).bend = some chain) :
    chain.anchor = earlier ∨ ∃ before, s.bend = some before ∧ chain.anchor = before.anchor := by
  have hopened : chain.anchor = (s.openChain earlier firstIndices).anchor := by
    simp only [openBends] at h
    split at h
    · cases h
      exact (BendChain.kept_addSteps _ _).1
    · cases h
      rfl
  rw [hopened, openChain]
  split
  · split
    · exact .inl rfl
    · exact .inr ⟨_, ‹_›, rfl⟩
  · exact .inl rfl

end Session

namespace Span

variable {notes : List Tickable} {k : Nat}

/-- The nearest visible note is one, and not the last object. -/
theorem previousLive?_spec (h : previousLive? notes = some k) :
    (∃ n, notes[k]? = some (.tab n) ∧ n.ghost = false) ∧ k + 1 < notes.length := by
  obtain ⟨⟨t, ht, hlive⟩, _⟩ := lastIndex?_eq_some h
  have hlt := (List.getElem?_eq_some_iff.1 ht).1
  rw [List.length_dropLast] at hlt
  rw [List.dropLast_eq_take, List.getElem?_take, if_pos hlt] at ht
  refine ⟨?_, by omega⟩
  cases t with
  | tab n => exact ⟨n, ht, by simpa [Tickable.isLiveTab] using hlive⟩
  | _ => cases hlive

/-- No visible note but the last object comes after the nearest one. -/
theorem le_previousLive? (h : previousLive? notes = some k) {i : Nat} {n : TabNote}
    (hi : i + 1 < notes.length) (hn : notes[i]? = some (.tab n)) (hvisible : n.ghost = false) :
    i ≤ k := by
  by_contra hlt
  have hdrop : notes.dropLast[i]? = some (.tab n) := by
    rw [List.dropLast_eq_take, List.getElem?_take, if_pos (by omega), hn]
  have hdead := (lastIndex?_eq_some h).2 i (.tab n) (by omega) hdrop
  rw [Tickable.isLiveTab, hvisible] at hdead
  cases hdead

theorem previousLive?_of_ofNotes? {indices : List Nat} {span : Span}
    (h : ofNotes? notes indices = some span) : previousLive? notes = some span.previous := by
  unfold ofNotes? at h
  split at h
  · cases h
  · rename_i previous hprevious
    split at h
    · cases h
      exact hprevious
    · cases h

end Span

/-! ## Notes that no chain will hide -/

namespace Session

/-- A note that no chain hides, now or later: it is visible, and if it lies in the voice in progress
then something has been written after it and the open chain is not anchored before it. -/
structure Safe (s : Session) (r : NoteRef) : Prop where
  visible : ∃ n, s.score.tabNote? r = some (.tab n) ∧ n.ghost = false
  passed : s.Current r → r.index + 1 < s.tabNotes.length
  anchored : s.Current r → ∀ chain, s.bend = some chain → r.index ≤ chain.anchor

variable {s t : Session} {r : NoteRef}

theorem Marked.current (h : s.Marked t) (hr : t.Current r) :
    s.Current r ∧ s.tabNotes.length = t.tabNotes.length := by
  obtain ⟨b, hb, haddress⟩ := hr
  have hactive := h.active
  rw [hb] at hactive
  generalize ha : s.score.active = x at hactive
  cases hactive with
  | @some a _ hab =>
      have hvoices : b.tabVoices = a.tabVoices := by rw [hab.frame]
      refine ⟨⟨a, ha, ?_⟩, ?_⟩
      · rw [tabAddress, ← h.earlier, ← hvoices]
        exact haddress
      · rw [tabNotes_eq ha, tabNotes_eq hb, hab.tabNotes.length_eq]

namespace Safe

theorem calm (hsafe : s.Safe r) (h : s.Calm t) : t.Safe r := by
  obtain ⟨n, hn, hvisible⟩ := hsafe.visible
  obtain ⟨n', hn', hlook⟩ := h.look_eq hn
  refine ⟨⟨n', hn', ?_⟩, ?_, ?_⟩
  · exact (congrArg TabNote.Look.ghost hlook).trans hvisible
  · intro hr
    obtain ⟨hcurrent, hlength⟩ := h.current r n hn hr
    exact Nat.lt_of_lt_of_le (hsafe.passed hcurrent) hlength
  · intro hr chain hchain
    rw [h.bend] at hchain
    exact hsafe.anchored (h.current r n hn hr).1 chain hchain

theorem closeBends (hsafe : s.Safe r) (through : Bool) : (s.closeBends through).Safe r := by
  obtain ⟨n, hn, hvisible⟩ := hsafe.visible
  obtain ⟨n', hn', hcloses⟩ := exists_closes hn through
  refine ⟨⟨n', hn', ?_⟩, ?_, ?_⟩
  · cases hcloses with
    | elsewhere _ => exact hvisible
    | current hchain hcurrent hcloses =>
        -- Only a note after the anchor would be hidden, and this one is not.
        have hle := hsafe.anchored hcurrent _ hchain
        by_contra hhidden
        rw [Bool.not_eq_false] at hhidden
        have hlt := hcloses.anchor_lt hvisible hhidden
        omega
  · intro hr
    obtain ⟨hcurrent, hlength⟩ := (s.marked_closeBends through).current hr
    rw [← hlength]
    exact hsafe.passed hcurrent
  · intro _ chain hchain
    rw [bend_closeBends] at hchain
    cases hchain

theorem openBends (hsafe : s.Safe r) {indices : List Nat} {span : Span}
    (hspan : Span.ofNotes? s.tabNotes indices = some span) :
    (s.openBends span.previous span.previousIndices span.currentIndices).Safe r := by
  refine ⟨?_, ?_, ?_⟩
  · rw [score_openBends]
    exact hsafe.visible
  · intro hr
    rw [tabNotes_openBends]
    exact hsafe.passed (current_openBends.1 hr)
  · intro hr chain hchain
    rw [current_openBends] at hr
    rcases anchor_openBends hchain with heq | ⟨before, hbefore, heq⟩
    · -- The new anchor is the nearest visible note, so it is not before this one.
      rw [heq]
      obtain ⟨n, hn, hvisible⟩ := hsafe.visible
      obtain ⟨a, ha, haddress⟩ := hr
      rw [haddress, tabNote?_tabAddress ha, ← tabNotes_eq ha] at hn
      exact Span.le_previousLive? (Span.previousLive?_of_ofNotes? hspan)
        (hsafe.passed ⟨a, ha, haddress⟩) hn hvisible
    · rw [heq]
      exact hsafe.anchored hr before hbefore

theorem move (hsafe : s.Safe r) (h : Move s t) : t.Safe r := by
  cases h with
  | calm h => exact hsafe.calm h
  | closeBends through => exact hsafe.closeBends through
  | openBends hspan _ _ => exact hsafe.openBends hspan

/-- **A safe note is never hidden.** -/
theorem moves (hsafe : s.Safe r) (h : Moves s t) : t.Safe r :=
  h.keeps (P := fun t => t.Safe r) (fun hmove hsafe => hsafe.move hmove) hsafe

end Safe

/-! ## Anchors -/

/-- Bends are drawn from safe notes, and the open chain is anchored at one. -/
structure Anchored (s : Session) : Prop where
  bent : ∀ r n, s.score.tabNote? r = some (.tab n) → n.Bent → s.Safe r
  anchor : ∀ chain, s.bend = some chain →
    ∃ a, s.score.active = some a ∧ s.Safe (s.tabAddress a chain.anchor)

namespace Anchored

theorem start (setup : PageSetup) : (Session.start setup).Anchored where
  bent := fun _ _ hn => nomatch hn
  anchor := fun _ hchain => nomatch hchain

/-- The anchor of the open chain, found from any address in the voice in progress. -/
theorem safe_of_current (hs : s.Anchored) {chain : BendChain} (hchain : s.bend = some chain)
    (hr : s.Current r) : s.Safe { r with index := chain.anchor } := by
  obtain ⟨a, ha, hsafe⟩ := hs.anchor chain hchain
  rwa [hr.eq_tabAddress ha]

theorem calm (hs : s.Anchored) (h : s.Calm t) : t.Anchored where
  bent := by
    intro r n hn hbent
    rcases h.looks r n hn with hnew | ⟨m, hm, hlook⟩
    · exact absurd hbent (TabNote.not_bent_of_new hnew)
    · exact (hs.bent r m hm (hbent.of_look hlook)).calm h
  anchor := by
    intro chain hchain
    rw [h.bend] at hchain
    obtain ⟨a, ha, hsafe⟩ := hs.anchor chain hchain
    obtain ⟨b, hb, haddress⟩ := h.address hchain ha chain.anchor
    refine ⟨b, hb, ?_⟩
    rw [haddress]
    exact hsafe.calm h

theorem closeBends (hs : s.Anchored) (through : Bool) : (s.closeBends through).Anchored where
  bent := by
    intro r n' hn' hbent
    obtain ⟨n, hn, hcloses⟩ := closes_of_closeBends hn'
    cases hcloses with
    | elsewhere _ => exact (hs.bent r n' hn hbent).closeBends through
    | current hchain hcurrent hcloses =>
        rcases hcloses.bent_of_bent hbent with hbefore | ⟨hindex, _⟩
        · exact (hs.bent r n hn hbefore).closeBends through
        · have hanchor := hs.safe_of_current hchain hcurrent
          rw [← hindex] at hanchor
          exact hanchor.closeBends through
  anchor := by
    intro chain hchain
    rw [bend_closeBends] at hchain
    cases hchain

theorem openBends (hs : s.Anchored) {indices : List Nat} {span : Span}
    (hspan : Span.ofNotes? s.tabNotes indices = some span) :
    (s.openBends span.previous span.previousIndices span.currentIndices).Anchored where
  bent := by
    intro r n hn hbent
    rw [score_openBends] at hn
    exact (hs.bent r n hn hbent).openBends hspan
  anchor := by
    intro chain hchain
    rw [tabAddress_openBends, score_openBends]
    rcases anchor_openBends hchain with heq | ⟨before, hbefore, heq⟩
    · obtain ⟨⟨n, hn, hvisible⟩, hpassed⟩ :=
        Span.previousLive?_spec (Span.previousLive?_of_ofNotes? hspan)
      cases ha : s.score.active with
      | none =>
          rw [tabNotes, ha] at hn
          cases hn
      | some a =>
          have hat := tabNote?_tabAddress ha span.previous
          rw [← tabNotes_eq ha, hn] at hat
          refine ⟨a, rfl, ?_⟩
          rw [heq]
          refine ⟨⟨n, ?_, hvisible⟩, ?_, ?_⟩
          · rw [score_openBends, hat]
          · intro _
            rw [tabNotes_openBends]
            exact hpassed
          · intro _ chain' hchain'
            rw [hchain] at hchain'
            cases hchain'
            exact Nat.le_of_eq heq.symm
    · obtain ⟨a, ha, hsafe⟩ := hs.anchor before hbefore
      rw [heq]
      exact ⟨a, ha, hsafe.openBends hspan⟩

theorem move (hs : s.Anchored) (h : Move s t) : t.Anchored := by
  cases h with
  | calm h => exact hs.calm h
  | closeBends through => exact hs.closeBends through
  | openBends hspan _ _ => exact hs.openBends hspan

theorem follow (setup : PageSetup) (events : List Event) :
    (Session.follow events (.start setup)).Anchored :=
  follow_moves_induction (P := Anchored) start (fun h hs => hs.move h) setup events

end Anchored

/-- The note at an address is visible after whatever happens later, short of a reset. -/
def StaysVisible (s : Session) (r : NoteRef) : Prop :=
  ∀ later : List Event, .reset ∉ later →
    ∃ n, (s.follow later).score.tabNote? r = some (.tab n) ∧ n.ghost = false

theorem Safe.staysVisible (hsafe : s.Safe r) : s.StaysVisible r := by
  intro later hlater
  exact (hsafe.moves (moves_follow hlater s)).visible

/-- **Bends are drawn from visible notes.** After any events, carried out or refused, no note with a
bend is hidden, and none will be. The open chain is anchored at a visible note of the voice in
progress, and this note will not be hidden either, whether the chain gets a phrase or not. -/
theorem anchors_stay_visible (setup : PageSetup) (events : List Event) :
    let s := Session.follow events (.start setup)
    (∀ r n, s.score.tabNote? r = some (.tab n) → n.Bent → n.ghost = false ∧ s.StaysVisible r) ∧
    ∀ chain, s.bend = some chain → ∃ a n, s.score.active = some a ∧
      a.tabNotes[chain.anchor]? = some (.tab n) ∧ n.ghost = false ∧
      s.StaysVisible (s.tabAddress a chain.anchor) := by
  intro s
  have hs : s.Anchored := Anchored.follow setup events
  refine ⟨?_, ?_⟩
  · intro r n hn hbent
    have hsafe := hs.bent r n hn hbent
    obtain ⟨m, hm, hvisible⟩ := hsafe.visible
    rw [hn] at hm
    cases hm
    exact ⟨hvisible, hsafe.staysVisible⟩
  · intro chain hchain
    obtain ⟨a, ha, hsafe⟩ := hs.anchor chain hchain
    obtain ⟨n, hn, hvisible⟩ := hsafe.visible
    rw [tabNote?_tabAddress ha] at hn
    exact ⟨a, n, ha, hn, hvisible, hsafe.staysVisible⟩

/-- A stave of tablature with notes on its first string, each bent or not. -/
def onFirstString (notes : List (Fret × Bool)) : List Event :=
  .stave (StaveDeclaration.defaults .tablature) :: notes.map fun (fret, bent) =>
    .note
      { time := none, dot := false, fret := some fret, string := some 1, letterPitch := none
        octave := none, articulation := if bent then some .bend else none, decorator := none }

/-- A bend on the first string that is not finished. -/
def openBend : List Event := onFirstString [(.number 5, false), (.number 7, true)]

/-- The anchor of an open bend will not be hidden; after a bar the bend is drawn from it. -/
theorem anchors_stay_visible_openBend :
    ((start .standard).follow openBend).bend = some ⟨0, [0], [(0, [.between 5 7])]⟩ ∧
      ((start .standard).follow openBend).StaysVisible ⟨0, 0, 0⟩ ∧
      ∃ n, ((start .standard).follow (openBend ++ [.bar .single])).score.tabNote? ⟨0, 0, 0⟩ =
        some (.tab n) ∧ n.Bent ∧ n.ghost = false := by
  refine ⟨rfl, ?_, ?_⟩
  · obtain ⟨-, hanchor⟩ := anchors_stay_visible .standard openBend
    obtain ⟨a, n, ha, -, -, hstays⟩ := hanchor ⟨0, [0], [(0, [.between 5 7])]⟩ rfl
    cases ha
    exact hstays
  · obtain ⟨hbent, -⟩ := anchors_stay_visible .standard (openBend ++ [.bar .single])
    have hmark : ∀ n : TabNote, n.modifiers = [⟨0, .bend [.between 5 7]⟩] → n.Bent := by
      intro n hn
      rw [TabNote.Bent, hn]
      exact ⟨_, List.mem_cons_self, rfl⟩
    exact ⟨_, rfl, hmark _ rfl, (hbent ⟨0, 0, 0⟩ _ rfl (hmark _ rfl)).1⟩

end Session

end Tablature
