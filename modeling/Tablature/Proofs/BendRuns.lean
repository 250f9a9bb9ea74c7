/-
# Tablature.Proofs.BendRuns — sessions that bend notes.

While a bend is open notes are written and bent, and nothing closes the chain. Such a stretch of a
session is a run (`Session.BendRun`), and every tag that bends strings is a hop of it. Every
session is at the end of a run that starts where no bend was open (`Steps.exists_bendRun`), so its
open chain is known from the hops of this run (`Session.BendRun.chained`). When the chain is
closed its anchor receives the phrases, and they are right if all hops follow one order of strings
(`Session.bendsRight_of_follows`).
-/
import Tablature.Proofs.Bending

namespace Tablature

open TabPosition (strings placesOn)

/-! ## Runs of hops -/

/-- A change that leaves an open bend alone: it stays as it is, and so do the positions of all
notes. -/
structure Session.Keeps (s t : Session) : Prop where
  bend : t.bend = s.bend
  tabNotes : SamePlaces s.tabNotes t.tabNotes

namespace Session

theorem Keeps.of_active {s t : Session} (hbend : t.bend = s.bend)
    (hactive : t.score.active = s.score.active) : s.Keeps t := by
  refine ⟨hbend, fun i n hn => ⟨n, ?_, rfl⟩⟩
  rwa [Session.tabNotes, hactive]

theorem Keeps.of_continues {s t : Session} {a b : Stave} (ha : s.score.active = some a)
    (hb : t.score.active = some b) (hbend : t.bend = s.bend)
    (h : Continues a.tabNotes b.tabNotes) : s.Keeps t := by
  refine ⟨hbend, ?_⟩
  rw [tabNotes_eq ha, tabNotes_eq hb]
  exact .of_continues h

theorem keeps_push (s : Session) (onTab onStaff : Tickable) :
    s.Keeps (s.onActive (·.push onTab onStaff)) := by
  cases ha : s.score.active with
  | none =>
      rw [onActive_eq_self ha]
      exact .of_active rfl rfl
  | some a =>
      rw [onActive_eq ha]
      exact .of_continues ha rfl rfl (.append _ _)

theorem Outlined.keeps {s t : Session} (h : s.Outlined t) : s.Keeps t :=
  ⟨h.bend, .of_outlines h.tabNotes⟩

/-- Notes are written and bent, and nothing closes the chain. A run has the hops that its tags make;
a tag on strings that the two notes do not share is a hop that does nothing. -/
inductive BendRun (s : Session) : List Hop → Session → Prop
  | start : BendRun s [] s
  | other {hops : List Hop} {t u : Session} (run : BendRun s hops t) (h : t.Keeps u) :
      BendRun s hops u
  | bend {hops : List Hop} {t : Session} {k : Nat} {first last : TabNote} {h : Hop}
      (run : BendRun s hops t) (hk : Span.previousLive? t.tabNotes = some k)
      (hfirst : t.tabNotes[k]? = some (.tab first))
      (hlast : t.tabNotes.getLast? = some (.tab last)) (hbefore : first.positions = h.before)
      (hafter : last.positions = h.after) :
      BendRun s (hops ++ [h])
        (t.openBends k (placesOn h.linked h.before) (placesOn h.linked h.after))
  | missed {hops : List Hop} {t : Session} {h : Hop} (run : BendRun s hops t)
      (hnil : h.linked = []) : BendRun s (hops ++ [h]) t

variable {s t : Session} {hops : List Hop}

/-- **The chain of a run.** From an idle session on, the chain is what the hops have made. -/
theorem BendRun.chained (hidle : s.bend = none) (run : BendRun s hops t) :
    Chained hops t.tabNotes t.bend := by
  induction run with
  | start =>
      refine .silent (fun _ h => nomatch h) fun chain hchain => ?_
      rw [hidle] at hchain
      cases hchain
  | other _ h ih =>
      rw [h.bend]
      exact ih.keeps h.tabNotes
  | bend _ _ hfirst hlast hbefore hafter ih =>
      rw [Session.tabNotes, score_openBends]
      exact chained_openBends ih hfirst hlast hbefore hafter
  | missed _ hnil ih => exact ih.unlinked hnil

end Session

/-! ## Every session is in a run -/

/-- A change of a stave that does not need a closed bend only adds notes or marks them. -/
theorem StaveStep.continues_tabNotes {idle : Prop} {a b : Stave} (h : StaveStep idle a b) :
    idle ∨ Continues a.tabNotes b.tabNotes := by
  cases h with
  | texts voices => exact .inr (.refl _)
  | bar type h => exact .inl h
  | rest session key h => exact .inl h
  | note session entries _ => exact .inr (.append _ _)
  | markTab h => exact .inr (.marked h)
  | markStaff h => exact .inr (.refl _)
  | scale count factor _ _ => exact .inr (.scaled count factor _)
  | closeChain chain through => exact .inr (.closed chain through _)
  | closeVoice h => exact .inl h
  | finish h => exact .inl h

/-- A step goes on with a run, or no bend is open after it. -/
theorem Step.bendRun {s t u : Session} {hops : List Hop} (h : Step t u) (run : s.BendRun hops t) :
    u.bend = none ∨ ∃ hops', s.BendRun hops' u := by
  have others (hkeeps : t.Keeps u) : u.bend = none ∨ ∃ hops', s.BendRun hops' u :=
    .inr ⟨hops, run.other hkeeps⟩
  cases h with
  | quiet h => exact others (.of_active h.bend h.active)
  | stave ha h =>
      rcases h.continues_tabNotes with hidle | hcont
      · exact .inl hidle
      · exact others (.of_continues ha rfl rfl hcont)
  | openStave tab staff beamGroups h => exact .inl h
  | closeBends through => exact .inl (Session.bend_closeBends through)
  | @openBends indices span hspan hne =>
      rw [Span.ofNotes?] at hspan
      split at hspan
      · cases hspan
      · rename_i k hk
        split at hspan
        · rename_i first last hfirst hlast
          cases hspan
          let h : Hop :=
            ⟨first.positions, last.positions, Span.taggedStrings indices last.positions 0⟩
          exact .inr ⟨hops ++ [h], run.bend hk hfirst hlast rfl rfl⟩
        · cases hspan
  | linkTab => exact others (.of_active rfl rfl)
  | linkStaff => exact others (.of_active rfl rfl)
  | bracketTab => exact others (.of_active rfl rfl)
  | bracketStaff => exact others (.of_active rfl rfl)
  | finish h => exact .inl h
  | reset => exact .inl rfl

/-- **Every session is in a run** that starts where no bend was open. -/
theorem Steps.exists_bendRun {r t : Session} (h : Steps r t) (hidle : r.bend = none) :
    ∃ s hops, Steps r s ∧ s.bend = none ∧ s.BendRun hops t := by
  induction h with
  | refl => exact ⟨r, [], .refl r, hidle, .start⟩
  | tail hsteps hstep ih =>
      obtain ⟨s, hops, hs, hnone, run⟩ := ih
      rcases hstep.bendRun run with hclosed | ⟨hops', run'⟩
      · exact ⟨_, [], Steps.trans hsteps (.step hstep), hclosed, .start⟩
      · exact ⟨s, hops', hs, hnone, run'⟩

namespace Session

variable {s t : Session} {hops : List Hop}

/-- **Tags with a bend among them are a hop.** -/
theorem BendRun.applyTags (run : BendRun s hops t) {before after : List TabPosition}
    (hends : t.Ends before after) {tags : List (Option Articulation)} (hbend : some .bend ∈ tags) :
    BendRun s (hops ++ [⟨before, after, bentStrings after tags⟩]) (t.applyTags tags) := by
  let h : Hop := ⟨before, after, bentStrings after tags⟩
  obtain ⟨a, ha, htab⟩ := hends.tab
  obtain ⟨k, first, last, hk, hfirst, hlast, hbefore, hafter, hspan⟩ := hends.span tags
  have hne : t.tabNotes ≠ [] := by
    intro hnil
    rw [hnil] at hlast
    cases hlast
  have houtlined := outlined_applyTags hbend hne
  rw [articulateTagged_bend ha hbend, hspan] at houtlined
  -- The other tags come after the bend and leave the chain and the positions as they are.
  refine BendRun.other ?_ houtlined.keeps
  simp only [linkSpan, htab, if_true]
  split
  · rename_i hempty
    refine run.missed ?_
    have hplaces : (placesOn h.linked h.before).length = 0 := by
      simp only [Span.isEmpty, Bool.and_eq_true, List.isEmpty_iff] at hempty
      rw [hempty.1]
      rfl
    rwa [TabPosition.length_placesOn, h.filter_linked, List.length_eq_zero_iff] at hplaces
  · have hopened := run.bend hk hfirst hlast (h := h) hbefore hafter
    split
    · exact hopened.other (.of_active rfl rfl)
    · exact hopened

end Session

/-! ## Closing -/

namespace Session

/-- **What is attached when the open bend is closed is right**: the anchor gets the phrases of the
chain, and each holds the transitions of the string of its position. -/
def BendsRight (t : Session) (hops : List Hop) : Prop :=
  ∀ chain, t.bend = some chain → ∃ n, t.tabNotes[chain.anchor]? = some (.tab n) ∧
    (∀ through, (t.closeBends through).tabNotes[chain.anchor]? = some (.tab
      { n with modifiers := n.modifiers ++ chain.phrases.map fun p => ⟨p.1, .bend p.2⟩ })) ∧
    ∀ p ∈ chain.phrases, ∃ string, (strings n.positions)[p.1]? = some string ∧
      p.2 = hops.filterMap (·.bend? string)

end Session

theorem BendChain.markAnchor_tab (phrases : List (Nat × List BendStep)) (n : TabNote) :
    markAnchor phrases (.tab n) = .tab
      { n with modifiers := n.modifiers ++ phrases.map fun p => ⟨p.1, .bend p.2⟩ } := by
  induction phrases generalizing n with
  | nil => simp [markAnchor]
  | cons p phrases ih =>
      show markAnchor phrases (.tab { n with modifiers := n.modifiers ++ [⟨p.1, .bend p.2⟩] }) = _
      rw [ih]
      simp

/-- A chain that is closed marks its anchor and leaves it visible. -/
theorem BendChain.close_anchor (chain : BendChain) (through : Bool) {notes : List Tickable}
    {n : TabNote} (hn : notes[chain.anchor]? = some (.tab n)) :
    (chain.close through notes)[chain.anchor]? = some (.tab
      { n with modifiers := n.modifiers ++ chain.phrases.map fun p => ⟨p.1, .bend p.2⟩ }) := by
  rw [close, hideRange, List.getElem?_mapIdx, List.getElem?_modify_eq, hn]
  have hshown (stop : Nat) (t : Tickable) :
      (if chain.anchor + 1 ≤ chain.anchor && chain.anchor ≤ stop then t.hide else t) = t :=
    if_neg (by simp)
  exact congrArg some ((hshown _ _).trans (markAnchor_tab chain.phrases n))

namespace Session

variable {s t : Session} {hops : List Hop}

theorem tabNotes_closeBends {chain : BendChain} (hchain : t.bend = some chain) {n : TabNote}
    (hn : t.tabNotes[chain.anchor]? = some (.tab n)) (through : Bool) :
    (t.closeBends through).tabNotes[chain.anchor]? = some (.tab
      { n with modifiers := n.modifiers ++ chain.phrases.map fun p => ⟨p.1, .bend p.2⟩ }) := by
  cases ha : t.score.active with
  | none =>
      rw [Session.tabNotes, ha] at hn
      cases hn
  | some a =>
      rw [tabNotes_eq ha] at hn
      simp only [closeBends, hchain]
      rw [onTabNotes_eq (s := { t with bend := none }) ha]
      exact chain.close_anchor through hn

/-- **Runs that follow an order of strings are right.** If the bent strings of every hop are the
first ones of one list, on both notes in the order of this list, then whatever closes the chain
attaches to each position the transitions of its string. -/
theorem bendsRight_of_follows (hidle : s.bend = none) (run : BendRun s hops t) {order : List Nat}
    (horder : order.Nodup) (hclear : ∀ h ∈ hops, h.Clear) (hfollows : ∀ h ∈ hops, h.Follows order) :
    t.BendsRight hops := by
  intro chain hchain
  have hchained := run.chained hidle
  rw [hchain] at hchained
  generalize hbend : some chain = bend at hchained
  cases hchained with
  | silent hsilent hempty =>
      obtain ⟨hnil, n, hn⟩ := hempty chain hbend.symm
      refine ⟨n, hn, tabNotes_closeBends hchain hn, fun p hp => ?_⟩
      rw [hnil] at hp
      cases hp
  | @opened before after h chain n hhops hsilent hopen hindices hanchor hpositions hphrases =>
      cases hbend
      refine ⟨n, hanchor, tabNotes_closeBends hchain hanchor, fun p hp => ?_⟩
      have hh : h ∈ hops := hhops ▸ List.mem_append_right _ List.mem_cons_self
      have hphrase := hphrases.eq_of_mem hp
      -- A position with a phrase is one of those that the chain was opened with.
      have hmem : p.1 ∈ chain.indices := by
        by_contra hnot
        refine hphrases.nonempty p hp (hphrase.trans (List.filterMap_eq_nil_iff.2 fun g _ => ?_))
        exact Hop.pairedStep?_of_not_mem hnot
      obtain ⟨k, hk⟩ := List.mem_iff_getElem?.1 hmem
      have hplace : (placesOn h.linked h.before)[k]? = some p.1 := hindices ▸ hk
      have hlt : k < h.linked.length := by
        rw [← h.filter_linked, ← TabPosition.length_placesOn]
        exact (List.getElem?_eq_some_iff.1 hplace).1
      have hlinked : h.linked[k]? = some h.linked[k] := List.getElem?_eq_getElem hlt
      have hstring := TabPosition.string_placesOn hplace
      rw [h.filter_linked, hlinked, ← hpositions] at hstring
      refine ⟨h.linked[k], hstring, ?_⟩
      have hlater : (h :: after).filterMap (·.stepAt? chain.indices p.1) =
          (h :: after).filterMap (·.bend? h.linked[k]) := by
        refine List.filterMap_congr fun g hg => ?_
        have hmem : g ∈ hops := hhops ▸ List.mem_append_right before hg
        exact Hop.stepAt?_eq_bend? (hclear g hmem) horder (hfollows h hh).linked (hfollows g hmem)
          (hindices ▸ TabPosition.nodup_placesOn _ _) hk hlinked
      have hearlier : before.filterMap (·.bend? h.linked[k]) = [] := by
        refine List.filterMap_eq_nil_iff.2 fun g hg => ?_
        have hmem : g ∈ hops := hhops ▸ List.mem_append_left _ hg
        exact Hop.bend?_of_silent (hclear g hmem) (hfollows g hmem).reached (hsilent g hg) _
      rw [hphrase, hlater, hhops, List.filterMap_append, hearlier, List.nil_append]

/-! ## Chords -/

/-- The active stave shows tablature, and its nearest visible note has some positions. -/
structure Shows (s : Session) (positions : List TabPosition) : Prop where
  tab : ∃ a, s.score.active = some a ∧ a.tab.isSome
  note : ∃ k n, lastIndex? Tickable.isLiveTab s.tabNotes = some k ∧
    s.tabNotes[k]? = some (.tab n) ∧ n.positions = positions

theorem Shows.of_active {positions : List TabPosition} (h : s.Shows positions)
    (hactive : t.score.active = s.score.active) : t.Shows positions := by
  have hnotes : t.tabNotes = s.tabNotes := by rw [Session.tabNotes, hactive]; rfl
  exact ⟨hactive ▸ h.tab, hnotes ▸ h.note⟩

theorem Shows.outlined {positions : List TabPosition} (h : s.Shows positions)
    (houtlined : s.Outlined t) : t.Shows positions := by
  obtain ⟨k, n, hk, hn, rfl⟩ := h.note
  obtain ⟨a, ha, htab⟩ := h.tab
  refine ⟨?_, ?_⟩
  · have hactive := houtlined.active
    rw [ha] at hactive
    generalize t.score.active = b at hactive ⊢
    cases hactive with
    | some hab => exact ⟨_, rfl, hab.tab.trans htab⟩
  · obtain ⟨x, hx, hsame⟩ := forall₂_getElem? houtlined.tabNotes hn
    cases x with
    | tab n' =>
        refine ⟨k, n', ?_, hx, (Option.some.inj hsame.2).symm⟩
        rw [← hk]
        exact (lastIndex?_congr (houtlined.tabNotes.imp fun _ _ h => h.1)).symm
    | _ => cases hsame.2

theorem lastIndex?_append_singleton {α : Type} {p : α → Bool} (xs : List α) {a : α} (ha : p a) :
    lastIndex? p (xs ++ [a]) = some xs.length := by
  induction xs with
  | nil => exact if_pos ha
  | cons x xs ih => rw [List.cons_append, lastIndex?, ih]; rfl

/-- A slot as it is written, before it is tagged. -/
theorem Shows.push {positions : List TabPosition} (h : s.Shows positions)
    (entries : List ResolvedEntry) :
    (s.onActive (·.push (.tab (s.tabNote entries)) (.staff (s.staffNote entries)))).Shows
        (entries.map (·.position)) ∧
      (s.onActive (·.push (.tab (s.tabNote entries)) (.staff (s.staffNote entries)))).Ends
        positions (entries.map (·.position)) := by
  obtain ⟨a, ha, htab⟩ := h.tab
  obtain ⟨k, n, hk, hn, hpositions⟩ := h.note
  have htab' : ∃ b, (s.onActive (·.push (.tab (s.tabNote entries))
      (.staff (s.staffNote entries)))).score.active = some b ∧ b.tab.isSome := by
    rw [onActive_eq ha]
    exact ⟨_, rfl, htab⟩
  have hnotes : (s.onActive (·.push (.tab (s.tabNote entries))
      (.staff (s.staffNote entries)))).tabNotes = s.tabNotes ++ [.tab (s.tabNote entries)] := by
    rw [onActive_eq ha, tabNotes_eq ha]
    rfl
  refine ⟨⟨htab', s.tabNotes.length, s.tabNote entries, ?_, ?_, rfl⟩,
    ⟨htab', k, n, s.tabNote entries, ?_, ?_, ?_, hpositions, rfl⟩⟩
  · rw [hnotes]
    exact lastIndex?_append_singleton _ rfl
  · rw [hnotes, List.getElem?_append_right (Nat.le_refl _), Nat.sub_self]
    rfl
  · rw [hnotes, Span.previousLive?, List.dropLast_concat, hk]
  · rw [hnotes]
    exact getElem?_of_prefix (List.prefix_append _ _) hn
  · rw [hnotes, List.getLast?_concat]

end Session

/-- The hop from a note to the slot that follows it. -/
def Hop.ofSlot (before : List TabPosition) (slot : List ResolvedEntry) : Hop :=
  ⟨before, slot.map (·.position),
    bentStrings (slot.map (·.position)) (slot.map (·.articulation))⟩

/-- The hops of slots that follow a note and each other. -/
def hopsOf : List TabPosition → List (List ResolvedEntry) → List Hop
  | _, [] => []
  | before, slot :: slots => Hop.ofSlot before slot :: hopsOf (slot.map (·.position)) slots

namespace Session

variable {s t : Session} {hops : List Hop}

/-- Does a slot bend a string? -/
def Bends (slot : List ResolvedEntry) : Prop := some .bend ∈ slot.map (·.articulation)

instance (slot : List ResolvedEntry) : Decidable (Bends slot) :=
  inferInstanceAs (Decidable (some .bend ∈ slot.map (·.articulation)))

/-- A slot with a bend goes on with a run. -/
theorem BendRun.emit (run : BendRun s hops t) {before : List TabPosition} (hshows : t.Shows before)
    {slot : List ResolvedEntry} (hslot : Bends slot) :
    BendRun s (hops ++ [Hop.ofSlot before slot]) (t.emit slot) ∧
      (t.emit slot).Shows (slot.map (·.position)) := by
  obtain ⟨hshows', hends⟩ := hshows.push slot
  let u := t.onActive (·.push (.tab (t.tabNote slot)) (.staff (t.staffNote slot)))
  have htagged : BendRun s (hops ++ [Hop.ofSlot before slot])
      (u.applyTags (slot.map (·.articulation))) :=
    (run.other (t.keeps_push _ _)).applyTags hends hslot
  refine ⟨htagged.other (outlined_decorateWith _).keeps, ?_⟩
  refine Shows.outlined ?_ (outlined_decorateWith _)
  obtain ⟨a, ha, -⟩ := hshows'.tab
  obtain ⟨_, _, _, _, _, hlast, _⟩ := hends.notes
  have hne : u.tabNotes ≠ [] := by
    intro hnil
    rw [hnil] at hlast
    cases hlast
  refine Shows.outlined ?_ (outlined_applyTags hslot hne)
  rw [articulateTagged_bend ha hslot]
  exact hshows'.of_active (active_linkSpan _ _ _)

theorem BendRun.foldl_emit (run : BendRun s hops t) {before : List TabPosition}
    (hshows : t.Shows before) {slots : List (List ResolvedEntry)}
    (hslots : ∀ slot ∈ slots, Bends slot) :
    BendRun s (hops ++ hopsOf before slots) (slots.foldl Session.emit t) := by
  induction slots generalizing t hops before with
  | nil => simpa [hopsOf] using run
  | cons slot slots ih =>
      obtain ⟨hrun, hshows'⟩ := run.emit hshows (hslots slot List.mem_cons_self)
      have hrest := ih hrun hshows' fun other hother =>
        hslots other (List.mem_cons_of_mem slot hother)
      rw [List.append_assoc] at hrest
      exact hrest

end Session

end Tablature
