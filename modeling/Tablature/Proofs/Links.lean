/-
# Tablature.Proofs.Links — links join neighbouring visible notes.

A slide or a tie is drawn from the nearest visible note to the last one, at the positions on strings
that both have. `Joins` says that a link is drawn so: it is true of a link when it is made, because
the linker looks for exactly such notes (`Span.ofNotes?_spec`), and it stays true whatever happens
afterwards, because notes stay where they are and hidden notes stay hidden (`Joins.continues`). On a
staff a tie repeats the places found on tablature; that they are notes of the staff too is the
alignment of the two views.
-/
import Mathlib.Data.Set.Basic
import Tablature.Proofs.Facing
import Tablature.Proofs.History

namespace Tablature

/-! ## Searches -/

theorem lastIndex?_eq_none {α : Type} {p : α → Bool} {xs : List α} (h : lastIndex? p xs = none)
    {a : α} (ha : a ∈ xs) : p a = false := by
  induction xs with
  | nil => cases ha
  | cons x xs ih =>
      rw [lastIndex?] at h
      split at h
      · cases h
      · rename_i hrest
        split at h
        · cases h
        · rename_i hx
          rcases List.mem_cons.1 ha with rfl | ha
          · simpa using hx
          · exact ih hrest ha

theorem lastIndex?_eq_some {α : Type} {p : α → Bool} {xs : List α} {i : Nat}
    (h : lastIndex? p xs = some i) :
    (∃ a, xs[i]? = some a ∧ p a) ∧ ∀ j a, i < j → xs[j]? = some a → p a = false := by
  induction xs generalizing i with
  | nil => cases h
  | cons x xs ih =>
      rw [lastIndex?] at h
      split at h
      · rename_i k hk
        cases h
        obtain ⟨⟨a, ha, hp⟩, hafter⟩ := ih hk
        refine ⟨⟨a, by simpa using ha, hp⟩, fun j b hj hb => ?_⟩
        cases j with
        | zero => omega
        | succ j => exact hafter j b (by omega) (by simpa using hb)
      · rename_i hnone
        split at h
        · rename_i hp
          cases h
          refine ⟨⟨x, rfl, hp⟩, fun j b hj hb => ?_⟩
          cases j with
          | zero => omega
          | succ j => exact lastIndex?_eq_none hnone (List.mem_of_getElem? (by simpa using hb))
        · cases h

theorem mem_indicesWhere {α : Type} {p : α → Bool} {xs : List α} {start i : Nat} :
    i ∈ indicesWhere p xs start ↔ ∃ j a, i = start + j ∧ xs[j]? = some a ∧ p a := by
  induction xs generalizing start with
  | nil => simp [indicesWhere]
  | cons x xs ih =>
      have hrest : i ∈ indicesWhere p xs (start + 1) ↔
          ∃ j a, i = start + (j + 1) ∧ (x :: xs)[j + 1]? = some a ∧ p a := by
        rw [ih]
        simp only [List.getElem?_cons_succ, Nat.add_assoc, Nat.add_comm 1]
      constructor
      · intro h
        rw [indicesWhere] at h
        split at h
        · rcases List.mem_cons.1 h with rfl | h
          · exact ⟨0, x, rfl, rfl, ‹_›⟩
          · obtain ⟨j, a, hj⟩ := hrest.1 h
            exact ⟨j + 1, a, hj⟩
        · obtain ⟨j, a, hj⟩ := hrest.1 h
          exact ⟨j + 1, a, hj⟩
      · rintro ⟨j, a, hi, ha, hp⟩
        rw [indicesWhere]
        cases j with
        | zero =>
            cases ha
            rw [if_pos hp, hi]
            exact List.mem_cons_self
        | succ j =>
            have hmem := hrest.2 ⟨j, a, hi, ha, hp⟩
            split
            · exact List.mem_cons_of_mem start hmem
            · exact hmem

theorem pairwise_indicesWhere {α : Type} (p : α → Bool) (xs : List α) (start : Nat) :
    (indicesWhere p xs start).Pairwise (· < ·) := by
  induction xs generalizing start with
  | nil => exact .nil
  | cons x xs ih =>
      rw [indicesWhere]
      split
      · refine .cons (fun i hi => ?_) (ih _)
        obtain ⟨j, a, rfl, _⟩ := mem_indicesWhere.1 hi
        omega
      · exact ih _

theorem mem_taggedStrings {indices : List Nat} {positions : List TabPosition} {start string : Nat}
    (h : string ∈ Span.taggedStrings indices positions start) :
    ∃ q ∈ positions, q.string = string := by
  induction positions generalizing start with
  | nil => cases h
  | cons q positions ih =>
      have later (h : string ∈ Span.taggedStrings indices positions (start + 1)) :
          ∃ r ∈ q :: positions, r.string = string := by
        obtain ⟨r, hr, hstring⟩ := ih h
        exact ⟨r, List.mem_cons_of_mem q hr, hstring⟩
      rw [Span.taggedStrings] at h
      split at h
      · rcases List.mem_cons.1 h with rfl | h
        · exact ⟨q, List.mem_cons_self, rfl⟩
        · exact later h
      · exact later h

/-! ## Positions that a link joins -/

/-- The places of a note's positions that lie on some strings: there are some, they rise, and they
are all of them. -/
structure Picks (strings : Set Nat) (positions : List TabPosition) (indices : List Nat) : Prop where
  nonempty : indices ≠ []
  rising : indices.Pairwise (· < ·)
  inRange : ∀ i ∈ indices, i < positions.length
  exactly : ∀ i (h : i < positions.length), i ∈ indices ↔ positions[i].string ∈ strings

theorem picks_indicesWhere {p : TabPosition → Bool} {strings : Set Nat}
    {positions : List TabPosition} (hp : ∀ q, p q ↔ q.string ∈ strings)
    (hne : indicesWhere p positions 0 ≠ []) :
    Picks strings positions (indicesWhere p positions 0) where
  nonempty := hne
  rising := pairwise_indicesWhere p positions 0
  inRange := fun i hi => by
    obtain ⟨j, q, rfl, hq, _⟩ := mem_indicesWhere.1 hi
    have hlt := (List.getElem?_eq_some_iff.1 hq).1
    omega
  exactly := fun i h => by
    rw [mem_indicesWhere, ← hp]
    constructor
    · rintro ⟨j, q, rfl, hq, hpq⟩
      rw [List.getElem?_eq_some_iff] at hq
      obtain ⟨_, hq⟩ := hq
      simpa [hq] using hpq
    · intro hpq
      exact ⟨i, positions[i], by omega, List.getElem?_eq_getElem h, hpq⟩

theorem indicesWhere_ne_nil {p : TabPosition → Bool} {positions : List TabPosition}
    (h : ∃ q ∈ positions, p q) : indicesWhere p positions 0 ≠ [] := by
  obtain ⟨q, hq, hp⟩ := h
  obtain ⟨i, hi⟩ := List.mem_iff_getElem?.1 hq
  exact List.ne_nil_of_mem (mem_indicesWhere.2 ⟨i, q, (Nat.zero_add i).symm, hi, hp⟩)

/-- A span that is not empty picks the positions of both notes on the same strings. -/
theorem Span.picks_between (previous : Nat) (first last : TabNote) (indices : List Nat)
    (h : (between previous first last indices).isEmpty = false) : ∃ strings : Set Nat,
      Picks strings first.positions (between previous first last indices).previousIndices ∧
      Picks strings last.positions (between previous first last indices).currentIndices := by
  let shared := (first.positions.map (·.string)).filter
    (taggedStrings indices last.positions 0).contains
  have onShared (q : TabPosition) : shared.contains q.string = true ↔ q.string ∈ {x | x ∈ shared} :=
    List.contains_iff_mem
  -- Without a shared string neither note would have a place in the span.
  have present : ∃ string, string ∈ shared := by
    by_contra hnone
    have hnot (q : TabPosition) : ¬ shared.contains q.string = true := fun hq =>
      hnone ⟨q.string, (onShared q).1 hq⟩
    have hnil (positions : List TabPosition) :
        indicesWhere (fun q : TabPosition => shared.contains q.string) positions 0 = [] := by
      refine List.eq_nil_iff_forall_not_mem.2 fun i hi => ?_
      obtain ⟨_, q, _, _, hq⟩ := mem_indicesWhere.1 hi
      exact hnot q hq
    have hempty : (between previous first last indices).isEmpty = true := by
      simp only [isEmpty, Bool.and_eq_true, List.isEmpty_iff]
      exact ⟨hnil first.positions, hnil last.positions⟩
    rw [h] at hempty
    cases hempty
  obtain ⟨string, hstring⟩ := present
  have hboth := List.mem_filter.1 hstring
  obtain ⟨q, hq, hqs⟩ := List.mem_map.1 hboth.1
  obtain ⟨r, hr, hrs⟩ := mem_taggedStrings (List.contains_iff_mem.1 hboth.2)
  refine ⟨{x | x ∈ shared}, picks_indicesWhere onShared (indicesWhere_ne_nil ⟨q, hq, ?_⟩),
    picks_indicesWhere onShared (indicesWhere_ne_nil ⟨r, hr, ?_⟩)⟩
  · exact (onShared q).2 (hqs.symm ▸ hstring)
  · exact (onShared r).2 (hrs.symm ▸ hstring)

/-- What the linker finds: the last object is a note, the other end is the nearest visible note
before it, and the positions picked are those on strings that both have. -/
theorem Span.ofNotes?_spec {notes : List Tickable} {indices : List Nat} {span : Span}
    (h : ofNotes? notes indices = some span) (hne : span.isEmpty = false) :
    ∃ first last, notes[span.previous]? = some (.tab first) ∧
      notes[notes.length - 1]? = some (.tab last) ∧ span.previous < notes.length - 1 ∧
      (∀ i n, span.previous < i → i < notes.length - 1 → notes[i]? = some (.tab n) → n.ghost) ∧
      ∃ strings : Set Nat, Picks strings first.positions span.previousIndices ∧
        Picks strings last.positions span.currentIndices := by
  rw [ofNotes?] at h
  split at h
  · cases h
  · rename_i previous hprevious
    split at h
    · rename_i first last hfirst hlast
      cases h
      obtain ⟨⟨a, ha, _⟩, hafter⟩ := lastIndex?_eq_some hprevious
      rw [List.getLast?_eq_getElem?] at hlast
      have hlt : previous < notes.length - 1 := by
        have hlen := (List.getElem?_eq_some_iff.1 ha).1
        rwa [List.length_dropLast] at hlen
      refine ⟨first, last, hfirst, hlast, hlt, fun i n hi hilast hn => ?_,
        picks_between previous first last indices hne⟩
      -- A visible note in between would have been nearer.
      have hdrop : notes.dropLast[i]? = some (.tab n) := by
        rw [List.dropLast_eq_take, List.getElem?_take, if_pos hilast, hn]
      have hdead := hafter i (.tab n) hi hdrop
      simpa [Tickable.isLiveTab] using hdead
    · cases h

/-! ## Links -/

/-- **A link as it has to be drawn.** Its ends are two notes of one voice; every note between is
hidden, and it joins exactly the positions of both that lie on some set of strings. -/
structure Joins (score : Score) (link : Link) : Prop where
  stave : link.last.stave = link.first.stave
  voice : link.last.voice = link.first.voice
  before : link.first.index < link.last.index
  notes : ∃ first last, score.tabNote? link.first = some (.tab first) ∧
    score.tabNote? link.last = some (.tab last) ∧
    ∃ strings : Set Nat, Picks strings first.positions link.firstIndices ∧
      Picks strings last.positions link.lastIndices
  between : ∀ i n, link.first.index < i → i < link.last.index →
    score.tabNote? { link.first with index := i } = some (.tab n) → n.ghost

/-- An end of a tie on the staff: a note that sounds and has all the keys that the tie names. -/
def StaffEnd (score : Score) (address : NoteRef) (indices : List Nat) : Prop :=
  ∃ n, score.staffNote? address = some (.staff n) ∧ n.rest = false ∧
    ∀ i ∈ indices, i < n.keys.length

/-- A tie on the staff: it joins notes on tablature, and both ends are notes of the staff. -/
structure JoinsStaff (score : Score) (link : Link) : Prop extends Joins score link where
  firstKeys : StaffEnd score link.first link.firstIndices
  lastKeys : StaffEnd score link.last link.lastIndices

/-- The two ends that a link on tablature joins, if it is not a tuplet. -/
def TabLink.link? : TabLink → Option Link
  | slide link => some link
  | tie link _ => some link
  | tuplet _ => none

/-- The two ends that a link on a staff joins, if it is not a tuplet. -/
def StaffLink.link? : StaffLink → Option Link
  | tie link => some link
  | tuplet _ => none

theorem Picks.of_eq {strings : Set Nat} {positions positions' : List TabPosition}
    {indices : List Nat} (h : Picks strings positions indices) (heq : positions' = positions) :
    Picks strings positions' indices := by
  rwa [heq]

/-- A note stays a note with its positions. -/
theorem Score.Continues.tab {s t : Score} (h : s.Continues t) {r : NoteRef} {n : TabNote}
    (hn : s.tabNote? r = some (.tab n)) :
    ∃ n', t.tabNote? r = some (.tab n') ∧ n'.positions = n.positions := by
  obtain ⟨y, hy, hlater⟩ := h.tabNote? hn rfl
  cases hlater with
  | tab n _ hidden multiplier added => exact ⟨_, hy, rfl⟩

theorem StaffEnd.continues {s t : Score} (h : s.Continues t) {r : NoteRef} {indices : List Nat}
    (hend : StaffEnd s r indices) : StaffEnd t r indices := by
  obtain ⟨n, hn, hrest, hkeys⟩ := hend
  obtain ⟨y, hy, hlater⟩ := h.staffNote? hn rfl
  cases hlater with
  | staff n multiplier added => exact ⟨_, hy, hrest, hkeys⟩

/-- A link stays a link while the score grows. -/
theorem Joins.continues {s t : Score} (h : s.Continues t) {link : Link} (hl : Joins s link) :
    Joins t link where
  stave := hl.stave
  voice := hl.voice
  before := hl.before
  notes := by
    obtain ⟨first, last, hfirst, hlast, strings, hpicks, hpicks'⟩ := hl.notes
    obtain ⟨first', hfirst', hpos⟩ := h.tab hfirst
    obtain ⟨last', hlast', hpos'⟩ := h.tab hlast
    exact ⟨first', last', hfirst', hlast', strings, hpicks.of_eq hpos, hpicks'.of_eq hpos'⟩
  between := fun i n hi hilast hn => by
    -- What stands between the ends now stood there before, and hidden notes stay hidden.
    obtain ⟨_, last, _, hlast, _⟩ := hl.notes
    have hlink : ({ link.first with index := i } : NoteRef) = { link.last with index := i } := by
      rw [NoteRef.mk.injEq]
      exact ⟨hl.stave.symm, hl.voice.symm, rfl⟩
    rw [hlink] at hn
    obtain ⟨z, hz, hlater⟩ := h.tabNote?_before hlast rfl hilast hn
    cases hlater with
    | tab n _ hidden multiplier added =>
        rw [← hlink] at hz
        exact hidden (hl.between i n hi hilast hz)

theorem JoinsStaff.continues {s t : Score} (h : s.Continues t) {link : Link}
    (hl : JoinsStaff s link) : JoinsStaff t link :=
  ⟨hl.toJoins.continues h, hl.firstKeys.continues h, hl.lastKeys.continues h⟩

/-! ## New links -/

namespace Session

variable {s : Session} {a : Stave}

theorem staffNote?_staffAddress (ha : s.score.active = some a) (i : Nat) :
    s.score.staffNote? (s.staffAddress a i) = a.staffNotes[i]? := by
  simp [Score.staffNote?, staffAddress, Score.staves, ha, Stave.staffVoice?]

/-- A span makes a link that is drawn as it has to be. -/
theorem joins_tabLinkOf (ha : s.score.active = some a) {indices : List Nat} {span : Span}
    (hspan : Span.ofNotes? a.tabNotes indices = some span) (hne : span.isEmpty = false) :
    Joins s.score (s.tabLinkOf a span) := by
  obtain ⟨first, last, hfirst, hlast, hlt, hbetween, hpicks⟩ := Span.ofNotes?_spec hspan hne
  refine ⟨rfl, rfl, hlt, ⟨first, last, ?_, ?_, hpicks⟩, fun i n hi hilast hn => ?_⟩
  · exact (tabNote?_tabAddress ha span.previous).trans hfirst
  · exact (tabNote?_tabAddress ha (a.tabNotes.length - 1)).trans hlast
  · exact hbetween i n hi hilast ((tabNote?_tabAddress ha i).symm.trans hn)

/-- Where tablature and staff are aligned, a place means the same on both. -/
theorem staffAddress_eq (h : a.Aligned) (hstaff : a.staff.isSome) (i : Nat) :
    s.staffAddress a i = s.tabAddress a i := by
  rw [staffAddress, tabAddress, (h.voices hstaff).length_eq]

theorem staffLinkOf_eq (h : a.Aligned) (hstaff : a.staff.isSome) (span : Span) :
    s.staffLinkOf a span = s.tabLinkOf a span := by
  rw [staffLinkOf, tabLinkOf, staffAddress_eq h hstaff, staffAddress_eq h hstaff,
    (h.notes hstaff).length_eq]

theorem staffEnd_of_aligned (ha : s.score.active = some a) (h : a.Aligned)
    (hstaff : a.staff.isSome) {i : Nat} {n : TabNote} (hn : a.tabNotes[i]? = some (.tab n))
    {strings : Set Nat} {indices : List Nat} (hpicks : Picks strings n.positions indices) :
    StaffEnd s.score (s.tabAddress a i) indices := by
  obtain ⟨b, hb, hface⟩ := forall₂_getElem? (h.notes hstaff) hn
  cases hface with
  | @note _ m _ sounds keys _ _ _ =>
      refine ⟨m, ?_, sounds, fun j hj => keys ▸ hpicks.inRange j hj⟩
      rw [← staffAddress_eq h hstaff, staffNote?_staffAddress ha, hb]

theorem joinsStaff_staffLinkOf (ha : s.score.active = some a) (h : a.Aligned)
    (hstaff : a.staff.isSome) {indices : List Nat} {span : Span}
    (hspan : Span.ofNotes? a.tabNotes indices = some span) (hne : span.isEmpty = false) :
    JoinsStaff s.score (s.staffLinkOf a span) := by
  obtain ⟨first, last, hfirst, hlast, _, _, strings, hpicks, hpicks'⟩ :=
    Span.ofNotes?_spec hspan hne
  rw [staffLinkOf_eq h hstaff]
  exact ⟨joins_tabLinkOf ha hspan hne, staffEnd_of_aligned ha h hstaff hfirst hpicks,
    staffEnd_of_aligned ha h hstaff hlast hpicks'⟩

end Session

/-! ## Sessions -/

/-- All links of a score are drawn as they have to be. -/
structure Score.Linked (score : Score) : Prop where
  tab : ∀ l ∈ score.tabLinks, ∀ link, l.link? = some link → Joins score link
  staff : ∀ l ∈ score.staffLinks, ∀ link, l.link? = some link → JoinsStaff score link

namespace Score.Linked

variable {s t : Score}

/-- A score that continues another and has no more links. -/
theorem continues (hs : s.Linked) (h : s.Continues t) (htab : t.tabLinks = s.tabLinks)
    (hstaff : t.staffLinks = s.staffLinks) : t.Linked where
  tab := fun l hl link hlink => by
    rw [htab] at hl
    exact (hs.tab l hl link hlink).continues h
  staff := fun l hl link hlink => by
    rw [hstaff] at hl
    exact (hs.staff l hl link hlink).continues h

theorem addTab (hs : s.Linked) {new : TabLink}
    (hnew : ∀ link, new.link? = some link → Joins s link) :
    ({ s with tabLinks := s.tabLinks ++ [new] } : Score).Linked := by
  have hcont : s.Continues { s with tabLinks := s.tabLinks ++ [new] } := .of_staves rfl
  refine ⟨fun l hl link hlink => ?_, fun l hl link hlink =>
    (hs.staff l hl link hlink).continues hcont⟩
  rcases List.mem_append.1 hl with hl | hl
  · exact (hs.tab l hl link hlink).continues hcont
  · rw [List.mem_singleton.1 hl] at hlink
    exact (hnew link hlink).continues hcont

theorem addStaff (hs : s.Linked) {new : StaffLink}
    (hnew : ∀ link, new.link? = some link → JoinsStaff s link) :
    ({ s with staffLinks := s.staffLinks ++ [new] } : Score).Linked := by
  have hcont : s.Continues { s with staffLinks := s.staffLinks ++ [new] } := .of_staves rfl
  refine ⟨fun l hl link hlink => (hs.tab l hl link hlink).continues hcont,
    fun l hl link hlink => ?_⟩
  rcases List.mem_append.1 hl with hl | hl
  · exact (hs.staff l hl link hlink).continues hcont
  · rw [List.mem_singleton.1 hl] at hlink
    exact (hnew link hlink).continues hcont

end Score.Linked

/-- The staves are aligned and the links are drawn as they have to be. -/
structure Session.Linked (s : Session) : Prop where
  aligned : s.Aligned
  linked : s.score.Linked

namespace Session.Linked

variable {s t : Session}

theorem start (setup : PageSetup) : (Session.start setup).Linked :=
  ⟨.start setup, ⟨fun _ hl => (nomatch hl), fun _ hl => (nomatch hl)⟩⟩

/-- Every step keeps the links that there are, and adds none but good ones. -/
theorem step (h : Step s t) (hs : s.Linked) : t.Linked := by
  refine ⟨.step h hs.aligned, ?_⟩
  rcases h.continues with rfl | hcont
  · exact (start s.setup).linked
  · -- Links that are there stay links; the four steps that add one say what they add.
    cases h with
    | quiet h => exact hs.linked.continues hcont h.tabLinks h.staffLinks
    | stave ha h => exact hs.linked.continues hcont rfl rfl
    | openStave tab staff beamGroups _ => exact hs.linked.continues hcont rfl rfl
    | closeBends through =>
        refine hs.linked.continues hcont ?_ ?_ <;>
        · unfold Session.closeBends
          split <;> rfl
    | openBends hspan hne =>
        refine hs.linked.continues hcont ?_ ?_ <;>
        · rw [Session.score_openBends]
    | linkTab ha hspan hne hlink =>
        refine hs.linked.addTab fun link heq => ?_
        cases hlink <;>
        · cases heq
          exact s.joins_tabLinkOf ha hspan hne
    | linkStaff ha hspan hne hstaff =>
        refine hs.linked.addStaff fun link heq => ?_
        cases heq
        refine s.joinsStaff_staffLinkOf ha (hs.aligned _ ?_) hstaff hspan hne
        simp [Score.staves, ha]
    | bracketTab ha tuplets count h => exact hs.linked.addTab fun _ heq => by cases heq
    | bracketStaff ha tuplets count h hstaff => exact hs.linked.addStaff fun _ heq => by cases heq
    | finish h => exact hs.linked.continues hcont rfl rfl
    | reset => exact (start s.setup).linked

end Session.Linked

/-- **Links are well formed for ever.** After any events, carried out or refused, every slide and
every tie joins two notes of one voice, with nothing but hidden notes between them, at the positions
of both on a common set of strings; and the ends of a tie on a staff are notes of the staff with the
keys that it names. -/
theorem follow_linked (setup : PageSetup) (events : List Event) :
    (Session.follow events (.start setup)).score.Linked :=
  (follow_induction (P := Session.Linked) .start .step setup events).linked

end Tablature
