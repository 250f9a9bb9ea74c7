/-
# Tablature.Proofs.Pairing — which positions a link pairs.

A link names places of two notes, and whoever draws it joins the first place with the first one,
the second with the second one, and so on. But the places are looked for on either note by itself,
in the order in which that note lists its positions. So a link connects every string with itself
exactly if both notes list the linked strings in the same order (`Link.Picked.pairs_iff`).
-/
import Tablature.Proofs.Links

namespace Tablature

/-! ## The strings of positions -/

theorem map_indicesWhere {α β : Type} {p : α → Bool} {xs : List α} {start : Nat} {f : Nat → β}
    {g : α → β} (h : ∀ j a, xs[j]? = some a → f (start + j) = g a) :
    (indicesWhere p xs start).map f = (xs.filter p).map g := by
  induction xs generalizing start with
  | nil => rfl
  | cons x xs ih =>
      have hrest : (indicesWhere p xs (start + 1)).map f = (xs.filter p).map g := by
        refine ih fun j a ha => ?_
        rw [Nat.add_assoc, Nat.add_comm 1]
        exact h (j + 1) a ha
      rw [indicesWhere]
      split
      · rename_i hx
        rw [List.filter_cons_of_pos hx, List.map_cons, List.map_cons, hrest]
        exact congrArg (· :: _) (h 0 x rfl)
      · rename_i hx
        rw [List.filter_cons_of_neg hx, hrest]

namespace TabPosition

/-- The strings of some positions, in their order. -/
def strings (positions : List TabPosition) : List Nat := positions.map (·.string)

/-- The places of the positions that lie on some strings. -/
def placesOn (linked : List Nat) (positions : List TabPosition) : List Nat :=
  indicesWhere (fun position => linked.contains position.string) positions 0

variable {linked : List Nat} {positions : List TabPosition}

/-- At the places on some strings there are these strings, in the order of the positions. -/
theorem map_placesOn (linked : List Nat) (positions : List TabPosition) :
    (placesOn linked positions).map ((strings positions)[·]?) =
      ((strings positions).filter linked.contains).map some := by
  have hmap : (placesOn linked positions).map ((strings positions)[·]?) =
      (positions.filter fun position => linked.contains position.string).map
        fun position => some position.string := by
    refine map_indicesWhere fun j position hposition => ?_
    rw [Nat.zero_add, strings, List.getElem?_map, hposition]
    rfl
  rw [hmap, strings, List.filter_map, List.map_map]
  rfl

theorem length_placesOn (linked : List Nat) (positions : List TabPosition) :
    (placesOn linked positions).length = ((strings positions).filter linked.contains).length := by
  simpa using congrArg List.length (map_placesOn linked positions)

theorem string_placesOn {k i : Nat} (h : (placesOn linked positions)[k]? = some i) :
    (strings positions)[i]? = ((strings positions).filter linked.contains)[k]? := by
  have hk := congrArg (·[k]?) (map_placesOn linked positions)
  simp only [List.getElem?_map, h, Option.map_some] at hk
  cases hstring : ((strings positions).filter linked.contains)[k]? with
  | none =>
      rw [hstring] at hk
      cases hk
  | some string =>
      rw [hstring] at hk
      exact Option.some.inj hk

end TabPosition

/-! ## Links -/

open TabPosition (strings placesOn)

namespace Link

/-- **A link that connects every string with itself**: it has as many places on either note, and two
places that have the same number in the two lists are places of one string. -/
structure Pairs (link : Link) (first last : TabNote) : Prop where
  length : link.firstIndices.length = link.lastIndices.length
  strings : ∀ k i j : Nat, link.firstIndices[k]? = some i → link.lastIndices[k]? = some j →
    ∃ string, (strings first.positions)[i]? = some string ∧
      (strings last.positions)[j]? = some string

/-- The places of a link: those of its two notes on some strings that both have. -/
structure Picked (score : Score) (link : Link) (first last : TabNote) (linked : List Nat) :
    Prop where
  firstNote : score.tabNote? link.first = some (.tab first)
  lastNote : score.tabNote? link.last = some (.tab last)
  onBoth : ∀ string ∈ linked, string ∈ strings first.positions ∧ string ∈ strings last.positions
  firstIndices : link.firstIndices = placesOn linked first.positions
  lastIndices : link.lastIndices = placesOn linked last.positions

namespace Picked

variable {score : Score} {link : Link} {first last : TabNote} {linked : List Nat}

/-- **Where a link connects every string with itself**: both notes list the linked strings in the
same order. -/
theorem pairs_iff (h : Picked score link first last linked) :
    link.Pairs first last ↔
      (strings first.positions).filter linked.contains =
        (strings last.positions).filter linked.contains := by
  constructor
  · intro hpairs
    have hlength := hpairs.length
    rw [h.firstIndices, h.lastIndices] at hlength
    refine List.ext_getElem? fun k => ?_
    cases hi : (placesOn linked first.positions)[k]? with
    | none =>
        -- Behind the end of one list is behind the end of the other.
        rw [List.getElem?_eq_none_iff] at hi
        rw [List.getElem?_eq_none (by rwa [← TabPosition.length_placesOn]),
          List.getElem?_eq_none (by rwa [← TabPosition.length_placesOn, ← hlength])]
    | some i =>
        have hk : k < (placesOn linked last.positions).length :=
          hlength ▸ (List.getElem?_eq_some_iff.1 hi).1
        have hj : (placesOn linked last.positions)[k]? = some _ := List.getElem?_eq_getElem hk
        obtain ⟨string, hfirst, hlast⟩ :=
          hpairs.strings k i _ (by rw [h.firstIndices, hi]) (by rw [h.lastIndices, hj])
        rw [← TabPosition.string_placesOn hi, ← TabPosition.string_placesOn hj, hfirst, hlast]
  · intro hsame
    refine ⟨?_, fun k i j hi hj => ?_⟩
    · rw [h.firstIndices, h.lastIndices, TabPosition.length_placesOn, TabPosition.length_placesOn,
        hsame]
    · rw [h.firstIndices] at hi
      rw [h.lastIndices] at hj
      have hboth : (strings first.positions)[i]? = (strings last.positions)[j]? := by
        rw [TabPosition.string_placesOn hi, TabPosition.string_placesOn hj, hsame]
      have hlt : k < ((strings first.positions).filter linked.contains).length := by
        rw [← TabPosition.length_placesOn]
        exact (List.getElem?_eq_some_iff.1 hi).1
      have hstring : (strings first.positions)[i]? = some _ :=
        (TabPosition.string_placesOn hi).trans (List.getElem?_eq_getElem hlt)
      exact ⟨_, hstring, hboth ▸ hstring⟩

theorem continues {t : Score} (hcont : score.Continues t)
    (h : Picked score link first last linked) :
    ∃ first' last', Picked t link first' last' linked := by
  obtain ⟨first', hfirst, hpos⟩ := hcont.tab h.firstNote
  obtain ⟨last', hlast, hpos'⟩ := hcont.tab h.lastNote
  refine ⟨first', last', hfirst, hlast, ?_, ?_, ?_⟩
  · rw [hpos, hpos']
    exact h.onBoth
  · rw [hpos, h.firstIndices]
  · rw [hpos', h.lastIndices]

end Picked

end Link

/-- The links that a session makes have the places of its last note and the nearest visible one. -/
theorem Session.picked_tabLinkOf {s : Session} {a : Stave} (ha : s.score.active = some a)
    {indices : List Nat} {span : Span} (hspan : Span.ofNotes? a.tabNotes indices = some span) :
    ∃ first last linked, (s.tabLinkOf a span).Picked s.score first last linked := by
  rw [Span.ofNotes?] at hspan
  split at hspan
  · cases hspan
  · rename_i previous hprevious
    split at hspan
    · rename_i first last hfirst hlast
      cases hspan
      rw [List.getLast?_eq_getElem?] at hlast
      let tagged := Span.taggedStrings indices last.positions 0
      refine ⟨first, last, (strings first.positions).filter tagged.contains, ?_, ?_,
        fun string hstring => ?_, rfl, rfl⟩
      · exact (tabNote?_tabAddress ha previous).trans hfirst
      · exact (tabNote?_tabAddress ha (a.tabNotes.length - 1)).trans hlast
      · obtain ⟨hon, htagged⟩ := List.mem_filter.1 hstring
        obtain ⟨q, hq, rfl⟩ := mem_taggedStrings (List.contains_iff_mem.1 htagged)
        exact ⟨hon, List.mem_map.2 ⟨q, hq, rfl⟩⟩
    · cases hspan

/-! ## Sessions -/

/-- All links of a score on tablature have places of their two notes on common strings. -/
def Score.LinksPicked (score : Score) : Prop :=
  ∀ l ∈ score.tabLinks, ∀ link, l.link? = some link →
    ∃ first last linked, link.Picked score first last linked

namespace Score.LinksPicked

variable {s t : Score}

/-- A score that continues another, with the same links and perhaps one that was made well. -/
theorem continues (hs : s.LinksPicked) (hcont : s.Continues t)
    (htab : ∀ l ∈ t.tabLinks, l ∈ s.tabLinks ∨
      ∀ link, l.link? = some link → ∃ first last linked, link.Picked s first last linked) :
    t.LinksPicked := by
  intro l hl link hlink
  have hpicked : ∃ first last linked, link.Picked s first last linked := by
    rcases htab l hl with hold | hnew
    · exact hs l hold link hlink
    · exact hnew link hlink
  obtain ⟨first, last, linked, hpicked⟩ := hpicked
  obtain ⟨first', last', hlater⟩ := hpicked.continues hcont
  exact ⟨first', last', linked, hlater⟩

/-- The same links as before. -/
theorem same (hs : s.LinksPicked) (hcont : s.Continues t) (htab : t.tabLinks = s.tabLinks) :
    t.LinksPicked :=
  hs.continues hcont fun _ hl => .inl (htab ▸ hl)

theorem step {s t : Session} (h : Step s t) (hs : s.score.LinksPicked) : t.score.LinksPicked := by
  have hreset : s.reset.score.LinksPicked := fun _ hl => nomatch hl
  rcases h.continues with rfl | hcont
  · exact hreset
  · cases h with
    | quiet h => exact hs.same hcont h.tabLinks
    | stave ha h => exact hs.same hcont rfl
    | openStave tab staff beamGroups _ => exact hs.same hcont rfl
    | closeBends through =>
        refine hs.same hcont ?_
        unfold Session.closeBends
        split <;> rfl
    | openBends hspan hne => exact hs.same hcont (by rw [Session.score_openBends])
    | linkTab ha hspan hne hlink =>
        refine hs.continues hcont fun l hl => ?_
        rcases List.mem_append.1 hl with hl | hl
        · exact .inl hl
        · refine .inr fun link heq => ?_
          rw [List.mem_singleton.1 hl] at heq
          cases hlink <;>
          · cases heq
            exact Session.picked_tabLinkOf ha hspan
    | linkStaff ha hspan hne hstaff => exact hs.same hcont rfl
    | bracketTab ha tuplets count h =>
        refine hs.continues hcont fun l hl => ?_
        rcases List.mem_append.1 hl with hl | hl
        · exact .inl hl
        · rw [List.mem_singleton.1 hl]
          exact .inr fun _ heq => nomatch heq
    | bracketStaff ha tuplets count h hstaff => exact hs.same hcont rfl
    | finish h => exact hs.same hcont rfl
    | reset => exact hreset

end Score.LinksPicked

/-- **Which links connect every string with itself.** In the score of any directives, a slide or a
tie has places on the strings that its two notes share and that are linked, and it pairs them string
by string exactly if both notes list these strings in the same order. -/
theorem pairs_iff_of_compile {setup : PageSetup} {directives : List Directive} {s : Session}
    (hs : compileDirectives setup directives = .ok s) {l : TabLink} (hl : l ∈ s.score.tabLinks)
    {link : Link} (hlink : l.link? = some link) :
    ∃ first last linked, link.Picked s.score first last linked ∧
      (link.Pairs first last ↔
        (strings first.positions).filter linked.contains =
        (strings last.positions).filter linked.contains) := by
  have hpicked : s.score.LinksPicked := (compileDirectives_eq_ok hs).2 ▸
    compile_induction (P := fun s => s.score.LinksPicked) (fun _ _ hl => nomatch hl)
      Score.LinksPicked.step setup directives
  obtain ⟨first, last, linked, h⟩ := hpicked l hl link hlink
  exact ⟨first, last, linked, h, h.pairs_iff⟩

/-- A chord of the frets 5 and 7 on the first two strings, and a slide from it to a chord of some
frets on some strings. -/
def slideOnto (chord : List (Nat × Nat)) : List Directive :=
  let entry (tag : Option Articulation) (place : Nat × Nat) : NoteEntry :=
    { time := none, dot := false, fret := some (.number place.1), string := some place.2
      letterPitch := none, octave := none, articulation := tag, decorator := none }
  let element (entries : List NoteEntry) : NoteElement :=
    { time := none, dot := false, command := none, barName := none, parameters := none
      chord := some entries, articulation := none, decorator := none, fret := none, string := none
      letterPitch := none, octave := none, line := none, column := none }
  [{ keyword := "tabstave", options := [], settings := []
     notes :=
      [element ([(5, 1), (7, 2)].map (entry none)), element (chord.map (entry (some .slide)))]
     text := [], line := none, column := none }]

/-- Both strings slide to themselves when the second chord lists them in the order of the first. -/
theorem pairs_slideOnto_sameOrder :
    ∃ s link first last, compileDirectives .standard (slideOnto [(8, 1), (9, 2)]) = .ok s ∧
      s.score.tabLinks = [.slide link] ∧ s.score.tabNote? link.first = some (.tab first) ∧
      s.score.tabNote? link.last = some (.tab last) ∧ link.Pairs first last := by
  have compiles : compileDirectives .standard (slideOnto [(8, 1), (9, 2)]) = .ok _ := rfl
  obtain ⟨first, last, linked, hpicked, hiff⟩ :=
    pairs_iff_of_compile compiles List.mem_cons_self (TabLink.link?.eq_1 _)
  refine ⟨_, _, first, last, compiles, rfl, hpicked.firstNote, hpicked.lastNote, hiff.2 ?_⟩
  have hfirst : strings first.positions = [1, 2] := by
    cases hpicked.firstNote
    rfl
  have hlast : strings last.positions = [1, 2] := by
    cases hpicked.lastNote
    rfl
  rw [hfirst, hlast]

/-- When the second chord lists its strings the other way round, the first string slides to the
second and the second to the first. -/
theorem not_pairs_slideOnto_otherOrder :
    ∃ s link first last, compileDirectives .standard (slideOnto [(9, 2), (8, 1)]) = .ok s ∧
      s.score.tabLinks = [.slide link] ∧ s.score.tabNote? link.first = some (.tab first) ∧
      s.score.tabNote? link.last = some (.tab last) ∧ ¬ link.Pairs first last := by
  have compiles : compileDirectives .standard (slideOnto [(9, 2), (8, 1)]) = .ok _ := rfl
  refine ⟨_, _, _, _, compiles, rfl, rfl, rfl, fun hpairs => ?_⟩
  obtain ⟨string, hfirst, hlast⟩ := hpairs.strings 0 0 0 rfl rfl
  cases hfirst.trans hlast.symm

end Tablature
