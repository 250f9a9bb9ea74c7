/-
# Tablature.Proofs.ChordTags — when a tag on a chord is the same as on all its entries.

A slot that is tagged with nothing closes the open bend, and this is how a chord tag finds it. So it
sees the anchor of the bend as the nearest visible note, where the tags of entries see the last
note. `chordTag_eq_entryTags_iff` says for which sessions and chords both lead to the same session.
Without an open bend they do, unless the tag and a decoration draw different marks, which change
places. With an open bend they do only if it makes no difference that the bend is closed
(`BendChain.Indifferent`); a bend is never among the tags that go on with it.
-/
import Tablature.Proofs.Drafts

namespace Tablature

/-! ## Marks of the last object -/

namespace Tickable

/-- The object with a mark, if there is one. -/
def markOn (mark : Option Modifier) (t : Tickable) : Tickable :=
  match mark with
  | some mark => t.mark 0 mark
  | none => t

/-- Two marks change places without a trace if they are equal or one is missing. -/
theorem markOn_comm_iff {n : TabNote} {first second : Option Modifier} :
    ((tab n).markOn first).markOn second = ((tab n).markOn second).markOn first ↔
      ∀ m ∈ first, ∀ m' ∈ second, m' = m := by
  cases first with
  | none => simp [markOn]
  | some m =>
      cases second with
      | none => simp [markOn]
      | some m' => simp [markOn, Tickable.mark, eq_comm]

end Tickable

theorem markLast_append (mark : Option Modifier) (notes : List Tickable) (t : Tickable) :
    markLast mark (notes ++ [t]) = notes ++ [t.markOn mark] := by
  cases mark with
  | none => rfl
  | some mark =>
      rw [markLast, List.length_append, List.length_singleton, Nat.add_sub_cancel,
        modify_append_singleton]
      rfl

theorem Tickable.mark_injective (index : Nat) (m : Modifier) :
    Function.Injective (Tickable.mark index m) := by
  intro t u h
  cases t with
  | tab n =>
      cases u with
      | tab n' =>
          cases n
          cases n'
          simpa [Tickable.mark] using h
      | _ => cases h
  | staff n =>
      cases u with
      | staff n' =>
          cases n
          cases n'
          simpa [Tickable.mark] using h
      | _ => cases h
  | _ => cases u <;> first | cases h; done | exact h

theorem markLast_injective (mark : Option Modifier) : Function.Injective (markLast mark) := by
  cases mark with
  | none => exact Function.injective_id
  | some m =>
      intro xs ys h
      have hlen : xs.length = ys.length := by
        simpa using congrArg List.length h
      refine List.ext_getElem? fun i => ?_
      have hi : (markLast (some m) xs)[i]? = (markLast (some m) ys)[i]? := by rw [h]
      simp only [markLast, List.getElem?_modify, hlen] at hi
      by_cases hlast : ys.length - 1 = i
      · simp only [hlast, if_true] at hi
        exact Option.map_injective (Tickable.mark_injective 0 m) hi
      · simpa [hlast] using hi

/-! ## Closing a bend before a new note -/

theorem lastIndex?_eq_some_iff {α : Type} {p : α → Bool} {xs : List α} {i : Nat} :
    lastIndex? p xs = some i ↔
      (∃ a, xs[i]? = some a ∧ p a) ∧ ∀ j a, i < j → xs[j]? = some a → p a = false := by
  refine ⟨lastIndex?_eq_some, fun ⟨⟨a, ha, hp⟩, hafter⟩ => ?_⟩
  cases hlast : lastIndex? p xs with
  | none =>
      rw [lastIndex?_eq_none hlast (List.mem_of_getElem? ha)] at hp
      cases hp
  | some j =>
      obtain ⟨⟨b, hb, hq⟩, hafter'⟩ := lastIndex?_eq_some hlast
      rcases Nat.lt_trichotomy i j with hlt | rfl | hlt
      · rw [hafter j b hlt hb] at hq
        cases hq
      · rfl
      · rw [hafter' i a hlt ha] at hp
        cases hp

namespace BendChain

variable {chain : BendChain} {notes : List Tickable}

/-- A chain that is closed before a new note is closed through the last one before it. -/
theorem close_append (hanchor : chain.anchor < notes.length) (t : Tickable) :
    chain.close false (notes ++ [t]) = chain.close true notes ++ [t] := by
  have hstop : (notes ++ [t]).length + 0 - 2 = notes.length + 1 - 2 := by simp
  have hmodify (f : Tickable → Tickable) :
      (notes ++ [t]).modify chain.anchor f = notes.modify chain.anchor f ++ [t] := by
    refine List.ext_getElem? fun i => ?_
    by_cases hi : i < notes.length
    · simp [List.getElem?_modify, List.getElem_modify, List.getElem?_append, hi]
    · have hne : chain.anchor ≠ i := by omega
      simp [List.getElem?_append, hi, hne]
  show hideRange _ ((notes ++ [t]).length + 0 - 2) _ = hideRange _ (notes.length + 1 - 2) _ ++ [t]
  rw [hstop, hmodify, hideRange, List.mapIdx_concat, List.length_modify]
  congr 2
  exact if_neg (by simp; omega)

theorem isLiveTab_hide (t : Tickable) : t.hide.isLiveTab = false := by
  cases t <;> rfl

theorem hide_of_not_live {t : Tickable} (h : t.isLiveTab = false) : t.hide = t := by
  cases t with
  | tab n =>
      have hghost : n.ghost = true := by simpa [Tickable.isLiveTab] using h
      simp only [Tickable.hide, ← hghost]
  | _ => rfl

/-- The anchor is the nearest visible note once its chain is closed. -/
theorem lastIndex?_close {m : TabNote} (hm : notes[chain.anchor]? = some (.tab m))
    (hvisible : m.ghost = false) :
    lastIndex? Tickable.isLiveTab (chain.close true notes) = some chain.anchor := by
  refine lastIndex?_eq_some_iff.2 ⟨⟨_, chain.close_anchor true hm, ?_⟩, fun j t hj ht => ?_⟩
  · simp [Tickable.isLiveTab, hvisible]
  · have hlt : j < notes.length := by
      have hlt := (List.getElem?_eq_some_iff.1 ht).1
      simpa [close, hideRange] using hlt
    rw [close, hideRange, List.getElem?_mapIdx, Option.map_eq_some_iff] at ht
    obtain ⟨u, -, rfl⟩ := ht
    rw [if_pos (by simp; omega), isLiveTab_hide]

/-- Closing a chain leaves no trace in the voice if there is nothing to draw and nothing to hide. -/
theorem close_eq_self_iff {m : TabNote} (hm : notes[chain.anchor]? = some (.tab m))
    (hvisible : m.ghost = false) : chain.close true notes = notes ↔
      chain.phrases = [] ∧ lastIndex? Tickable.isLiveTab notes = some chain.anchor := by
  constructor
  · intro h
    refine ⟨?_, h ▸ lastIndex?_close hm hvisible⟩
    have hanchor := chain.close_anchor true hm
    rw [h, hm, Option.some.injEq, Tickable.tab.injEq] at hanchor
    simpa using congrArg TabNote.modifiers hanchor
  · rintro ⟨hphrases, hlast⟩
    obtain ⟨-, hdead⟩ := lastIndex?_eq_some hlast
    have hmarked : notes.modify chain.anchor (markAnchor chain.phrases) = notes := by
      rw [hphrases]
      exact List.modify_id _ _
    show hideRange (chain.anchor + 1) (notes.length + 1 - 2) (notes.modify _ _) = notes
    rw [hmarked]
    refine List.ext_getElem? fun i => ?_
    rw [hideRange, List.getElem?_mapIdx]
    cases ht : notes[i]? with
    | none => rfl
    | some t =>
        refine congrArg some ?_
        dsimp only
        split
        · rename_i hrange
          rw [Bool.and_eq_true, decide_eq_true_eq] at hrange
          exact hide_of_not_live (hdead i t (by omega) ht)
        · rfl

end BendChain

/-! ## What a tag joins -/

/-- The note has a string that an entry of the chord is on. -/
def TabNote.SharesString (chord : List NoteEntry) (n : TabNote) : Prop :=
  ∃ p ∈ n.positions, ∃ e ∈ chord, e.string.getD 0 = p.string

namespace Span

/-- The span from the note at a place to a last note with all its positions tagged, if it joins
anything. -/
def from? (notes : List Tickable) (last : TabNote) (size place : Nat) : Option Span :=
  match notes[place]? with
  | some (.tab first) =>
      (some (between place first last (List.range size))).filter fun span => !span.isEmpty
  | _ => none

theorem drawn?_append {tag : Articulation} (htag : tag.joins) (notes : List Tickable)
    (last : TabNote) (size : Nat) : drawn? tag (notes ++ [.tab last]) size =
      (lastIndex? Tickable.isLiveTab notes).bind (from? notes last size) := by
  rw [drawn?, if_pos htag, ofNotes?, previousLive?, List.dropLast_concat, List.getLast?_concat]
  cases hk : lastIndex? Tickable.isLiveTab notes with
  | none => rfl
  | some k =>
      obtain ⟨⟨t, ht, hlive⟩, -⟩ := lastIndex?_eq_some hk
      have hlt := (List.getElem?_eq_some_iff.1 ht).1
      have hat : (notes ++ [Tickable.tab last])[k]? = some t := by
        rw [List.getElem?_append_left hlt, ht]
      cases t with
      | tab first => simp only [Option.bind_some, from?, hat, ht]
      | _ => cases hlive

theorem previous_of_from? {notes : List Tickable} {last : TabNote} {size place : Nat} {span : Span}
    (h : from? notes last size place = some span) : span.previous = place := by
  unfold from? at h
  split at h
  · obtain ⟨h, -⟩ := Option.filter_eq_some_iff.1 h
    cases h
    rfl
  · cases h

/-- Only the positions of the two notes count. -/
theorem from?_congr {notes notes' : List Tickable} {first first' last last' : TabNote}
    {place : Nat} (hfirst : notes[place]? = some (.tab first))
    (hfirst' : notes'[place]? = some (.tab first')) (h : first'.positions = first.positions)
    (h' : last'.positions = last.positions) (size : Nat) :
    from? notes' last' size place = from? notes last size place := by
  simp only [from?, hfirst, hfirst', between, h, h']

theorem taggedStrings_of_all {indices : List Nat} {positions : List TabPosition} {start : Nat}
    (h : ∀ j < positions.length, start + j ∈ indices) :
    taggedStrings indices positions start = positions.map (·.string) := by
  induction positions generalizing start with
  | nil => rfl
  | cons p positions ih =>
      have hstart : start ∈ indices := h 0 (Nat.zero_lt_succ _)
      rw [taggedStrings, if_pos (List.contains_iff_mem.2 hstart), ih]
      · rfl
      · intro j hj
        rw [Nat.add_assoc, Nat.add_comm 1]
        exact h (j + 1) (Nat.succ_lt_succ hj)

theorem isEmpty_between_iff (previous : Nat) (first last : TabNote) (indices : List Nat) :
    (between previous first last indices).isEmpty = true ↔
      ∀ p ∈ first.positions, p.string ∉ taggedStrings indices last.positions 0 := by
  let shared := (first.positions.map (·.string)).filter
    (taggedStrings indices last.positions 0).contains
  let places (positions : List TabPosition) : List Nat :=
    indicesWhere (fun q => shared.contains q.string) positions 0
  have hempty : (between previous first last indices).isEmpty = true ↔
      places first.positions = [] ∧ places last.positions = [] := by
    simp only [isEmpty, Bool.and_eq_true, List.isEmpty_iff]
    rfl
  rw [hempty]
  constructor
  · rintro ⟨hfirst, -⟩ p hp htagged
    refine indicesWhere_ne_nil ⟨p, hp, ?_⟩ hfirst
    rw [List.contains_iff_mem, List.mem_filter]
    exact ⟨List.mem_map_of_mem hp, List.contains_iff_mem.2 htagged⟩
  · intro hnot
    have hshared : shared = [] := by
      rw [List.filter_eq_nil_iff]
      rintro string hstring htagged
      obtain ⟨p, hp, rfl⟩ := List.mem_map.1 hstring
      exact hnot p hp (List.contains_iff_mem.1 htagged)
    have hnone (positions : List TabPosition) : places positions = [] := by
      refine List.eq_nil_iff_forall_not_mem.2 fun i hi => ?_
      obtain ⟨_, q, _, _, hq⟩ := mem_indicesWhere.1 hi
      rw [hshared] at hq
      cases hq
    exact ⟨hnone _, hnone _⟩

/-- A tag on all positions joins nothing exactly if no string is shared. -/
theorem from?_eq_none_iff {notes : List Tickable} {first last : TabNote} {place : Nat}
    {chord : List NoteEntry} (hfirst : notes[place]? = some (.tab first))
    (hlast : last.positions.map (·.string) = chord.map (·.string.getD 0)) :
    from? notes last chord.length place = none ↔ ¬ first.SharesString chord := by
  have hlen : last.positions.length = chord.length := by
    simpa using congrArg List.length hlast
  have htagged : taggedStrings (List.range chord.length) last.positions 0 =
      chord.map (·.string.getD 0) := by
    rw [taggedStrings_of_all, hlast]
    intro j hj
    rwa [Nat.zero_add, List.mem_range, ← hlen]
  simp only [from?, hfirst]
  rw [Option.filter_some_eq_none, Bool.not_eq_true, Bool.not_eq_false', isEmpty_between_iff,
    htagged]
  simp only [List.mem_map, TabNote.SharesString, not_exists, not_and]

theorem drawn?_markLast (tag : Articulation) (mark : Option Modifier) (notes : List Tickable)
    (size : Nat) : drawn? tag (markLast mark notes) size = drawn? tag notes size := by
  cases mark with
  | none => rfl
  | some mark => rw [drawn?, drawn?, markLast, ofNotes?_modify_mark]

end Span

/-! ## What a bend adds to its chain -/

theorem BendChain.transitions_congr {first first' last last' : TabNote}
    (h : first'.positions = first.positions) (h' : last'.positions = last.positions)
    (anchors sources targets : List Nat) :
    transitions first' last' anchors sources targets =
      transitions first last anchors sources targets := by
  have hstep (source target : Nat) :
      transition? first' last' source target = transition? first last source target := by
    simp only [transition?, fretAt?, h, h']
  induction anchors generalizing sources targets with
  | nil => rfl
  | cons anchor anchors ih =>
      cases sources with
      | nil => rfl
      | cons source sources =>
          cases targets with
          | nil => rfl
          | cons target targets => simp only [transitions, hstep, ih]

namespace Session

variable {t u : Session}

/-- The chain after a bend does not depend on more than the chain before it and the positions of the
notes. -/
theorem bend_openBends_congr
    (hchain : ∀ earlier indices, u.openChain earlier indices = t.openChain earlier indices)
    (hnotes : List.Forall₂ Tickable.SameOutline t.tabNotes u.tabNotes) (earlier : Nat)
    (firstIndices lastIndices : List Nat) :
    (u.openBends earlier firstIndices lastIndices).bend =
      (t.openBends earlier firstIndices lastIndices).bend := by
  have hfirst := forall₂_iff_getElem?.1 hnotes earlier
  have hlast := forall₂_getLast? hnotes
  simp only [openBends, hchain]
  generalize t.tabNotes[earlier]? = x at hfirst ⊢
  generalize u.tabNotes[earlier]? = x' at hfirst ⊢
  generalize t.tabNotes.getLast? = y at hlast ⊢
  generalize u.tabNotes.getLast? = y' at hlast ⊢
  cases hfirst with
  | none => rfl
  | @some p p' hpp =>
      cases hlast with
      | none => cases p <;> cases p' <;> rfl
      | @some q q' hqq =>
          rcases hpp.tab_or with ⟨m, m', rfl, rfl, hm⟩ | ⟨hnot, hnot'⟩
          · rcases hqq.tab_or with ⟨k, k', rfl, rfl, hk⟩ | ⟨hnot, hnot'⟩
            · simp only [BendChain.transitions_congr hm.symm hk.symm]
            · cases q with
              | tab n => exact absurd rfl (hnot n)
              | _ =>
                  cases q' with
                  | tab n => exact absurd rfl (hnot' n)
                  | _ => rfl
          · cases p with
            | tab n => exact absurd rfl (hnot n)
            | _ =>
                cases p' with
                | tab n => exact absurd rfl (hnot' n)
                | _ => rfl

theorem openChain_congr (h : u.bend = t.bend) (earlier : Nat) (indices : List Nat) :
    u.openChain earlier indices = t.openChain earlier indices := by
  rw [openChain, openChain, h]

end Session

/-! ## Drafts tagged and decorated -/

theorem sameOutline_markLast (mark : Option Modifier) (notes : List Tickable) :
    List.Forall₂ Tickable.SameOutline notes (markLast mark notes) := by
  cases mark with
  | none => exact List.forall₂_same.2 fun _ _ => ⟨rfl, rfl⟩
  | some mark =>
      exact forall₂_modify (fun _ => ⟨rfl, rfl⟩) (fun t => t.sameOutline_mark 0 mark) notes _

namespace Draft

variable {s : Session} {a : Stave} {tag : Articulation} {d d' : Draft}

/-- What is drawn for a span depends on the notes as the linker sees them. -/
theorem draw_outlined {tabNotes staffNotes : List Tickable}
    (hnotes : List.Forall₂ Tickable.SameOutline d.tabNotes tabNotes)
    (hstaff : staffNotes.length = d.staffNotes.length) (span : Option Span) :
    draw s a tag { d with tabNotes := tabNotes, staffNotes := staffNotes } span =
      { draw s a tag d span with tabNotes := tabNotes, staffNotes := staffNotes } := by
  cases span with
  | none => simp
  | some span =>
      have hbend := Session.bend_openBends_congr (t := s.withDraft a d)
        (u := s.withDraft a { d with tabNotes := tabNotes, staffNotes := staffNotes })
        (Session.openChain_congr rfl) hnotes span.previous span.previousIndices span.currentIndices
      simp only [draw, hbend, Session.tabLinkOf, Session.staffLinkOf, Stave.withDraft,
        ← hnotes.length_eq, hstaff]
      rfl

/-- Every tag but a bend leaves the open bend alone and does not look at it. -/
theorem draw_beside (htag : tag ≠ .bend) {tabNotes : List Tickable}
    (hlen : tabNotes.length = d.tabNotes.length) (bend : Option BendChain) (span : Option Span) :
    draw s a tag { d with tabNotes := tabNotes, bend := bend } span =
      { draw s a tag d span with tabNotes := tabNotes, bend := bend } := by
  cases span with
  | none => simp
  | some span =>
      simp only [draw, htag, false_and, if_false, Session.tabLinkOf, Session.staffLinkOf,
        Stave.withDraft, hlen]
      rfl

/-- A tag draws for the notes without its mark. -/
theorem tag_eq (d : Draft) (size : Nat) : d.tag s a tag size =
    { draw s a tag d (Span.drawn? tag d.tabNotes size) with
      tabNotes := markLast (s.tagMark? a tag) d.tabNotes } :=
  draw_outlined (sameOutline_markLast _ _) rfl _

/-- A tag and a decoration change places if their marks do. -/
theorem tag_decorate {notes : List Tickable} {n : TabNote} (hnotes : d.tabNotes = notes ++ [.tab n])
    {decorator : Option Decorator}
    (h : ∀ m ∈ decorator.map Decorator.mark, ∀ m' ∈ s.tagMark? a tag, m' = m) (size : Nat) :
    (d.decorate decorator).tag s a tag size = (d.tag s a tag size).decorate decorator := by
  have hmarks : markLast (s.tagMark? a tag) (markLast (decorator.map Decorator.mark) d.tabNotes) =
      markLast (decorator.map Decorator.mark) (markLast (s.tagMark? a tag) d.tabNotes) := by
    simp only [hnotes, markLast_append, Tickable.markOn_comm_iff.2 h]
  rw [tag_eq, tag_eq, decorate, Span.drawn?_markLast, hmarks,
    draw_outlined (sameOutline_markLast _ _) (length_markLast _ _)]
  rfl

theorem decorate_injective (decorator : Option Decorator) :
    Function.Injective (decorate decorator) := by
  intro d d' h
  simp only [decorate, Draft.mk.injEq] at h
  obtain ⟨htab, hstaff, htabLinks, hstaffLinks, hbend⟩ := h
  exact Draft.ext (markLast_injective _ htab) (markLast_injective _ hstaff) htabLinks hstaffLinks
    hbend

/-- Different spans are drawn as different links. -/
theorem eq_of_tabLinks_draw (htag : tag ≠ .bend) (hjoins : tag.joins) (htab : a.tab.isSome)
    {span span' : Option Span}
    (h : (draw s a tag d span).tabLinks = (draw s a tag d span').tabLinks) : span = span' := by
  have hlinks : (span.bind fun span => TabLink.ofTag? tag (s.tabLinkOf (a.withDraft d) span)) =
      span'.bind fun span => TabLink.ofTag? tag (s.tabLinkOf (a.withDraft d) span) := by
    simpa [draw, htab] using congrArg List.head? (List.append_cancel_left h)
  have hdrawn (link : Link) : ∃ drawn, TabLink.ofTag? tag link = some drawn := by
    cases tag <;> first | exact ⟨_, rfl⟩ | exact absurd rfl htag | cases hjoins
  have hinj {link link' : Link} (h : TabLink.ofTag? tag link = TabLink.ofTag? tag link') :
      link = link' := by
    cases tag <;> first | exact absurd rfl htag | cases hjoins; done | skip
    all_goals simpa [TabLink.ofTag?] using h
  cases span with
  | none =>
      cases span' with
      | none => rfl
      | some span' =>
          obtain ⟨drawn, hdrawn⟩ := hdrawn (s.tabLinkOf (a.withDraft d) span')
          rw [Option.bind_none, Option.bind_some, hdrawn] at hlinks
          cases hlinks
  | some span =>
      cases span' with
      | none =>
          obtain ⟨drawn, hdrawn⟩ := hdrawn (s.tabLinkOf (a.withDraft d) span)
          rw [Option.bind_none, Option.bind_some, hdrawn] at hlinks
          cases hlinks
      | some span' =>
          have hlink := hinj hlinks
          have hprevious : span.previous = span'.previous :=
            congrArg (fun link => link.first.index) hlink
          have hfirst : span.previousIndices = span'.previousIndices :=
            congrArg Link.firstIndices hlink
          have hlast : span.currentIndices = span'.currentIndices :=
            congrArg Link.lastIndices hlink
          cases span
          cases span'
          simp only [Option.some.injEq, Span.mk.injEq]
          exact ⟨hprevious, hfirst, hlast⟩

section OpenChain

variable {chain : BendChain} {notes : List Tickable} {n m : TabNote}
  (hchain : d.bend = some chain) (hnotes : d.tabNotes = notes ++ [.tab n])
  (hm : notes[chain.anchor]? = some (.tab m)) (hvisible : m.ghost = false)
  (htab : a.tab.isSome)

include hchain hnotes hm in
theorem close_eq : d.close =
    { d with tabNotes := chain.close true notes ++ [.tab n], bend := none } := by
  have hanchor := (List.getElem?_eq_some_iff.1 hm).1
  rw [close_of_some hchain, hnotes, BendChain.close_append hanchor]

include hchain hnotes hm htab in
/-- A tag that is no bend closes the open chain in the end; what counts is what it has joined. -/
theorem tag_close_iff (htag : tag ≠ .bend) (size : Nat) :
    d.close.tag s a tag size = (d.tag s a tag size).close ↔
      Span.drawn? tag d.close.tabNotes size = Span.drawn? tag d.tabNotes size := by
  let voice := chain.close true notes ++ [(Tickable.tab n).markOn (s.tagMark? a tag)]
  have hanchor := (List.getElem?_eq_some_iff.1 hm).1
  have hfirst : d.close.tag s a tag size =
      { draw s a tag d (Span.drawn? tag d.close.tabNotes size) with
        tabNotes := voice
        bend := none } := by
    have hlen : (chain.close true notes ++ [Tickable.tab n]).length = d.tabNotes.length := by
      rw [← BendChain.close_append hanchor, ← hnotes]
      simp [BendChain.close, BendChain.hideRange]
    rw [tag_eq, close_eq hchain hnotes hm, draw_beside htag hlen, markLast_append]
  have hsecond : (d.tag s a tag size).close =
      { draw s a tag d (Span.drawn? tag d.tabNotes size) with
        tabNotes := voice
        bend := none } := by
    have hmarked : (d.tag s a tag size).tabNotes =
        notes ++ [(Tickable.tab n).markOn (s.tagMark? a tag)] := by
      rw [tag_eq, hnotes, markLast_append]
    rw [close_of_some ((bend_tag s a htag size d).trans hchain), hmarked,
      BendChain.close_append hanchor, tag_eq]
  rw [hfirst, hsecond]
  refine ⟨fun h => ?_, fun h => by rw [h]⟩
  cases hjoins : tag.joins with
  | true =>
      have htabLinks := congrArg Draft.tabLinks h
      exact eq_of_tabLinks_draw htag hjoins htab htabLinks
  | false => simp [Span.drawn?, hjoins]

include hchain hnotes hm hvisible in
/-- Once its chain is closed the anchor is what a tag joins. -/
theorem drawn?_close (hjoins : tag.joins) (size : Nat) :
    Span.drawn? tag d.close.tabNotes size = Span.from? notes n size chain.anchor := by
  have hclosed := chain.close_anchor true hm
  rw [close_eq hchain hnotes hm, Span.drawn?_append hjoins,
    BendChain.lastIndex?_close hm hvisible, Option.bind_some]
  exact Span.from?_congr hm hclosed rfl rfl size

include hchain hnotes hm hvisible htab in
/-- A bend would have gone on with the open chain. That this has been closed is not seen only if it
had nothing to draw or to hide, and starts again at the same note. -/
theorem tag_bend_iff (size : Nat) : d.close.tag s a .bend size = d.tag s a .bend size ↔
    chain.phrases = [] ∧ lastIndex? Tickable.isLiveTab notes = some chain.anchor ∧
      Span.from? notes n size chain.anchor ≠ none := by
  have hunmarked (d : Draft) : d.tag s a .bend size =
      draw s a .bend d (Span.drawn? .bend d.tabNotes size) := tag_eq d size
  have hopen (hlast : lastIndex? Tickable.isLiveTab notes = some chain.anchor) :
      Span.drawn? .bend d.tabNotes size = Span.from? notes n size chain.anchor := by
    rw [hnotes, Span.drawn?_append rfl, hlast, Option.bind_some]
  rw [hunmarked, hunmarked, drawn?_close hchain hnotes hm hvisible rfl]
  constructor
  · intro h
    have hsame := congrArg Draft.tabNotes h
    replace hsame : d.close.tabNotes = d.tabNotes := hsame
    rw [close_eq hchain hnotes hm, hnotes] at hsame
    obtain ⟨hphrases, hlast⟩ := (BendChain.close_eq_self_iff hm hvisible).1
      (List.append_cancel_right hsame)
    refine ⟨hphrases, hlast, fun hnone => ?_⟩
    have hbend := congrArg Draft.bend h
    rw [hopen hlast, hnone, draw_none, draw_none, bend_close, hchain] at hbend
    cases hbend
  · rintro ⟨hphrases, hlast, hne⟩
    obtain ⟨span, hspan⟩ := Option.ne_none_iff_exists'.1 hne
    have hclosed : d.close = { d with bend := none } := by
      rw [close_eq hchain hnotes hm, (BendChain.close_eq_self_iff hm hvisible).2 ⟨hphrases, hlast⟩,
        ← hnotes]
    -- The chain without a phrase starts again, open or not.
    have hbend := Session.bend_openBends_congr (t := s.withDraft a d)
      (u := s.withDraft a { d with bend := none })
      (fun earlier indices => by
        rw [Session.openChain_of_empty (s := s.withDraft a d) (by
            intro other hother
            cases hchain.symm.trans hother
            exact hphrases)]
        rfl)
      (List.forall₂_same.2 fun _ _ => ⟨rfl, rfl⟩) span.previous span.previousIndices
      span.currentIndices
    rw [hopen hlast, hspan, hclosed]
    simp only [draw, htab, and_self, if_true, hbend]
    rfl

end OpenChain

/-- A bend is closed before the last object. -/
theorem exists_close_append {notes : List Tickable} {t : Tickable}
    (hnotes : d.tabNotes = notes ++ [t])
    (hanchor : ∀ chain, d.bend = some chain → chain.anchor < notes.length) :
    ∃ notes', d.close.tabNotes = notes' ++ [t] := by
  cases hbend : d.bend with
  | none => exact ⟨notes, by rw [close_of_none hbend, hnotes]⟩
  | some chain =>
      refine ⟨chain.close true notes, ?_⟩
      rw [close_of_some hbend, hnotes, BendChain.close_append (hanchor chain hbend)]

/-- Both ways end with the same draft if the marks agree and the decoration makes no difference. -/
theorem decorate_tag_iff {notes : List Tickable} {n : TabNote}
    (hnotes : d.tabNotes = notes ++ [.tab n])
    (hanchor : ∀ chain, d.bend = some chain → chain.anchor < notes.length)
    (decorator : Option Decorator) (size : Nat) :
    (d.close.decorate decorator).tag s a tag size =
        (if tag = .bend then d.tag s a tag size else (d.tag s a tag size).close).decorate
          decorator ↔
      (∀ m ∈ decorator.map Decorator.mark, ∀ m' ∈ s.tagMark? a tag, m' = m) ∧
        d.close.tag s a tag size =
          if tag = .bend then d.tag s a tag size else (d.tag s a tag size).close := by
  obtain ⟨closed, hclosed⟩ := exists_close_append hnotes hanchor
  constructor
  · intro h
    have htagged : (d.tag s a tag size).tabNotes =
        notes ++ [(Tickable.tab n).markOn (s.tagMark? a tag)] := by
      rw [tag_eq, hnotes, markLast_append]
    obtain ⟨before, hbefore⟩ : ∃ before,
        (if tag = .bend then d.tag s a tag size else (d.tag s a tag size).close).tabNotes =
          before ++ [(Tickable.tab n).markOn (s.tagMark? a tag)] := by
      split
      · exact ⟨notes, htagged⟩
      · rename_i htag
        exact exists_close_append htagged (bend_tag s a htag size d ▸ hanchor)
    -- The last objects tell whether the marks agree.
    have hlast := congrArg Draft.tabNotes h
    rw [tag_eq] at hlast
    simp only [decorate, hclosed, hbefore, markLast_append] at hlast
    have hmarks := Tickable.markOn_comm_iff.1
      (List.singleton_inj.1 (List.append_inj' hlast rfl).2)
    refine ⟨hmarks, decorate_injective decorator ?_⟩
    rw [← tag_decorate hclosed hmarks, h]
  · rintro ⟨hmarks, h⟩
    rw [tag_decorate hclosed hmarks, h]

end Draft

/-! ## Bends are opened on tablature -/

theorem StaveStep.tab_isSome {idle : Prop} {a b : Stave} (h : StaveStep idle a b) :
    b.tab.isSome = a.tab.isSome := by
  cases h with
  | finish h =>
      have hstaff (a : Stave) : a.finishStaff.tab = a.tab := by
        unfold Stave.finishStaff
        split <;> rfl
      show a.finishTab.finishStaff.tab.isSome = a.tab.isSome
      rw [hstaff]
      unfold Stave.finishTab
      split
      · exact Option.isSome_map
      · rfl
  | _ => rfl

namespace Session

variable {s t : Session}

/-- An open bend is on a stave with tablature. -/
def BendShown (s : Session) : Prop :=
  s.bend ≠ none → ∃ a, s.score.active = some a ∧ a.tab.isSome

namespace BendShown

theorem step (h : Step s t) (hbend : t.bend = s.bend) (hs : s.BendShown) : t.BendShown := by
  intro hopen
  obtain ⟨a, ha, htab⟩ := hs (hbend ▸ hopen)
  cases h with
  | quiet h => exact ⟨a, h.active.trans ha, htab⟩
  | @stave _ b ha' h =>
      rw [ha] at ha'
      cases ha'
      exact ⟨b, rfl, h.tab_isSome.trans htab⟩
  | openStave _ _ _ h => exact absurd h (hbend ▸ hopen)
  | closeBends through => exact absurd (bend_closeBends through) hopen
  | openBends _ _ => exact ⟨a, by rw [score_openBends, ha], htab⟩
  | linkTab => exact ⟨a, ha, htab⟩
  | linkStaff => exact ⟨a, ha, htab⟩
  | bracketTab => exact ⟨a, ha, htab⟩
  | bracketStaff => exact ⟨a, ha, htab⟩
  | finish h => exact absurd h (hbend ▸ hopen)
  | reset => exact absurd rfl hopen

theorem move (h : Move s t) (hs : s.BendShown) : t.BendShown := by
  cases h with
  | calm h => exact hs.step h.step h.bend
  | closeBends through => exact fun hopen => absurd (bend_closeBends through) hopen
  | openBends _ _ htab =>
      intro _
      rw [score_openBends]
      exact htab

theorem follow (setup : PageSetup) (events : List Event) :
    (Session.follow events (.start setup)).BendShown :=
  follow_moves_induction (P := BendShown) (fun _ hopen => absurd rfl hopen)
    (fun h hs => hs.move h) setup events

end BendShown

/-! ## Both ways compared -/

/-- The decoration of a chord and a tag leave the same marks in either order. -/
def MarksAgree (s : Session) (a : Stave) (chord : List NoteEntry) (tag : Articulation) : Prop :=
  ∀ decorator ∈ Chord.lastSome (chord.map (·.decorator)), ∀ mark ∈ s.tagMark? a tag,
    mark = decorator.mark

/-- The chord has entries, and all of them can be resolved. -/
def Resolves (s : Session) (chord : List NoteEntry) : Prop :=
  chord ≠ [] ∧ ∃ entries, (ResolvedEntry.resolveAll s.resolver s.memory chord).2 = .ok entries

end Session

/-- It makes no difference to a tag on a new chord whether the chain has been closed in the voice
before it. Marks are drawn in any case. A tag that joins notes has to join the chord to the anchor
either way, or to nothing either way; and a bend has to be the first that leads anywhere. -/
def BendChain.Indifferent (chain : BendChain) (notes : List Tickable) (chord : List NoteEntry) :
    Articulation → Prop
  | .vibrato | .harshVibrato => True
  | .bend =>
      chain.phrases = [] ∧ lastIndex? Tickable.isLiveTab notes = some chain.anchor ∧
        ∃ n, notes[chain.anchor]? = some (.tab n) ∧ n.SharesString chord
  | _ =>
      lastIndex? Tickable.isLiveTab notes = some chain.anchor ∨
        ∀ (i : Nat) n, i = chain.anchor ∨ lastIndex? Tickable.isLiveTab notes = some i →
          notes[i]? = some (.tab n) → ¬ n.SharesString chord

namespace Draft

variable {s : Session} {a : Stave} {tag : Articulation} {d : Draft} {chain : BendChain}
  {notes : List Tickable} {n m : TabNote} {chord : List NoteEntry}

/-- What is joined is the same with the chain closed exactly if the chain is indifferent. -/
theorem drawn?_eq_iff (hchain : d.bend = some chain) (hnotes : d.tabNotes = notes ++ [.tab n])
    (hm : notes[chain.anchor]? = some (.tab m)) (hvisible : m.ghost = false)
    (hstrings : n.positions.map (·.string) = chord.map (·.string.getD 0)) (htag : tag ≠ .bend) :
    Span.drawn? tag d.close.tabNotes chord.length = Span.drawn? tag d.tabNotes chord.length ↔
      chain.Indifferent notes chord tag := by
  have joined (hjoins : tag.joins) :
      Span.drawn? tag d.close.tabNotes chord.length = Span.drawn? tag d.tabNotes chord.length ↔
        lastIndex? Tickable.isLiveTab notes = some chain.anchor ∨
          ∀ (i : Nat) n, i = chain.anchor ∨ lastIndex? Tickable.isLiveTab notes = some i →
            notes[i]? = some (.tab n) → ¬ n.SharesString chord := by
    rw [drawn?_close hchain hnotes hm hvisible hjoins, hnotes, Span.drawn?_append hjoins]
    cases hk : lastIndex? Tickable.isLiveTab notes with
    | none =>
        have hdead := lastIndex?_eq_none hk (List.mem_of_getElem? hm)
        rw [Tickable.isLiveTab, hvisible] at hdead
        cases hdead
    | some k =>
        rw [Option.bind_some]
        constructor
        · intro h
          by_cases hanchor : k = chain.anchor
          · exact .inl (congrArg some hanchor)
          · -- A span tells the note that it starts from.
            have hnone : Span.from? notes n chord.length chain.anchor = none := by
              cases hspan : Span.from? notes n chord.length chain.anchor with
              | none => rfl
              | some span =>
                  exact absurd ((Span.previous_of_from? (h ▸ hspan)).symm.trans
                    (Span.previous_of_from? hspan)) hanchor
            refine .inr fun i first hi hfirst => ?_
            rcases hi with rfl | hi
            · exact (Span.from?_eq_none_iff hfirst hstrings).1 hnone
            · cases hi
              exact (Span.from?_eq_none_iff hfirst hstrings).1 (h ▸ hnone)
        · rintro (hanchor | hnone)
          · cases hanchor
            rfl
          · obtain ⟨⟨t, ht, hlive⟩, -⟩ := lastIndex?_eq_some hk
            cases t with
            | tab first =>
                rw [(Span.from?_eq_none_iff hm hstrings).2 (hnone _ m (.inl rfl) hm),
                  (Span.from?_eq_none_iff ht hstrings).2 (hnone k first (.inr rfl) ht)]
            | _ => cases hlive
  cases tag with
  | bend => exact absurd rfl htag
  | vibrato => exact iff_of_true rfl trivial
  | harshVibrato => exact iff_of_true rfl trivial
  | _ => exact joined rfl

/-- How a tag treats the open chain is told by whether the chain is indifferent. -/
theorem close_tag_iff (hchain : d.bend = some chain) (hnotes : d.tabNotes = notes ++ [.tab n])
    (hm : notes[chain.anchor]? = some (.tab m)) (hvisible : m.ghost = false)
    (htab : a.tab.isSome) (hstrings : n.positions.map (·.string) = chord.map (·.string.getD 0)) :
    d.close.tag s a tag chord.length =
        (if tag = .bend then d.tag s a tag chord.length
          else (d.tag s a tag chord.length).close) ↔ chain.Indifferent notes chord tag := by
  by_cases htag : tag = .bend
  · subst htag
    rw [if_pos rfl, tag_bend_iff hchain hnotes hm hvisible htab, Ne,
      Span.from?_eq_none_iff hm hstrings, not_not]
    refine and_congr_right fun _ => and_congr_right fun _ => ?_
    constructor
    · exact fun hshares => ⟨m, hm, hshares⟩
    · rintro ⟨m', hm', hshares⟩
      cases hm.symm.trans hm'
      exact hshares
  · rw [if_neg htag, tag_close_iff hchain hnotes hm htab htag]
    exact drawn?_eq_iff hchain hnotes hm hvisible hstrings htag

/-- The same whether a bend is open or not. -/
theorem close_tag_iff_forall (hnotes : d.tabNotes = notes ++ [.tab n])
    (hanchor : ∀ chain, d.bend = some chain →
      a.tab.isSome ∧ ∃ m, notes[chain.anchor]? = some (.tab m) ∧ m.ghost = false)
    (hstrings : n.positions.map (·.string) = chord.map (·.string.getD 0)) :
    d.close.tag s a tag chord.length =
        (if tag = .bend then d.tag s a tag chord.length
          else (d.tag s a tag chord.length).close) ↔
      ∀ chain, d.bend = some chain → chain.Indifferent notes chord tag := by
  cases hbend : d.bend with
  | none =>
      rw [close_of_none hbend]
      refine iff_of_true ?_ fun _ => nofun
      split
      · rfl
      · rename_i htag
        rw [close_of_none ((bend_tag s a htag _ d).trans hbend)]
  | some chain =>
      obtain ⟨htab, m, hm, hvisible⟩ := hanchor chain hbend
      rw [close_tag_iff hbend hnotes hm hvisible htab hstrings]
      constructor
      · rintro h _ ⟨⟩
        exact h
      · exact fun h => h chain rfl

end Draft

namespace Session

/-- A chord that cannot be resolved fails in the same way with any tags. -/
theorem addChord_of_not_resolves {s : Session} {chord : List NoteEntry} (h : ¬ s.Resolves chord)
    (tag : Articulation) :
    s.addChord chord (some tag) none = s.addChord (chord.map (.tagged tag)) none none := by
  by_cases hne : chord = []
  · subst hne
    rfl
  · unfold addChord
    rw [if_neg (by simpa using hne), if_neg (by simpa using hne)]
    unfold withStave
    split
    · rw [ResolvedEntry.resolveAll_tagged]
      cases hresult : ResolvedEntry.resolveAll s.resolver s.memory chord with
      | mk m result =>
          cases result with
          | error cause => rfl
          | ok entries => exact absurd ⟨hne, entries, by rw [hresult]⟩ h
    · rfl

theorem marksAgree_iff {s : Session} {a : Stave} {chord : List NoteEntry} {tag : Articulation} :
    s.MarksAgree a chord tag ↔
      ∀ mark ∈ (Chord.lastSome (chord.map (·.decorator))).map Decorator.mark,
        ∀ mark' ∈ s.tagMark? a tag, mark' = mark := by
  simp only [Option.mem_def, Option.map_eq_some_iff, forall_exists_index, and_imp,
    forall_apply_eq_imp_iff₂, MarksAgree]

/-- The anchor of an open bend is a visible note of the voice in progress, on tablature that is
shown. -/
theorem exists_anchor (setup : PageSetup) (events : List Event) {a : Stave}
    (ha : (Session.follow events (.start setup)).score.active = some a) {chain : BendChain}
    (hchain : (Session.follow events (.start setup)).bend = some chain) :
    a.tab.isSome ∧ ∃ n, a.tabNotes[chain.anchor]? = some (.tab n) ∧ n.ghost = false := by
  obtain ⟨b, hb, hsafe⟩ := (Anchored.follow setup events).anchor chain hchain
  obtain ⟨c, hc, htab⟩ := BendShown.follow setup events (hchain ▸ Option.some_ne_none chain)
  cases ha.symm.trans hb
  cases ha.symm.trans hc
  obtain ⟨n, hn, hvisible⟩ := hsafe.visible
  rw [tabNote?_tabAddress ha] at hn
  exact ⟨htab, n, hn, hvisible⟩

/-- **When a tag on a chord is the same as on all its entries.** For a chord of one slot whose
entries have no tags, after any events. -/
theorem chordTag_eq_entryTags_iff (setup : PageSetup) (events : List Event) {a : Stave}
    {chord : List NoteEntry} (tag : Articulation) :
    let s := Session.follow events (.start setup)
    s.score.active = some a → (∀ e ∈ chord, e.articulation = none) →
    (∀ place ∈ Chord.placesOf chord, place = 0) →
    (s.addChord chord (some tag) none = s.addChord (chord.map (.tagged tag)) none none ↔
      (s.Resolves chord → s.MarksAgree a chord tag ∧
        ∀ chain, s.bend = some chain → chain.Indifferent a.tabNotes chord tag)) := by
  intro s ha huntagged hzero
  by_cases hresolves : s.Resolves chord
  · obtain ⟨hne, entries, hok⟩ := hresolves
    obtain ⟨m, hm⟩ : ∃ m, ResolvedEntry.resolveAll s.resolver s.memory chord = (m, .ok entries) :=
      ⟨_, Prod.ext rfl hok⟩
    obtain ⟨hchordTag, hentryTags⟩ := addChord_eq_withDraft ha hzero huntagged hne hm tag
    let s' : Session := { s with memory := m }
    let d := s'.draftWith a entries
    have hnotes : d.tabNotes = a.tabNotes ++ [.tab (s'.tabNote entries)] := rfl
    have hstrings : (s'.tabNote entries).positions.map (·.string) =
        chord.map (·.string.getD 0) := by
      rw [← map_eq_of_forall₂ (ResolvedEntry.of_resolveAll hm) fun _ _ hof => hof.string]
      exact List.map_map
    have hanchor (chain : BendChain) (hchain : d.bend = some chain) :
        a.tab.isSome ∧ ∃ n, a.tabNotes[chain.anchor]? = some (.tab n) ∧ n.ghost = false :=
      exists_anchor setup events ha hchain
    have hlt (chain : BendChain) (hchain : d.bend = some chain) :
        chain.anchor < a.tabNotes.length := by
      obtain ⟨-, n, hn, -⟩ := hanchor chain hchain
      exact (List.getElem?_eq_some_iff.1 hn).1
    have hdone (x y : Session) : (Outcome.done x : Outcome Cause Session) = .done y ↔ x = y :=
      ⟨congrArg Outcome.state, congrArg Outcome.done⟩
    rw [hchordTag, hentryTags, hdone, withDraft_inj, Draft.decorate_tag_iff hnotes hlt,
      Draft.close_tag_iff_forall hnotes hanchor hstrings, marksAgree_iff]
    exact ⟨fun h _ => h, fun h => h ⟨hne, entries, hok⟩⟩
  · exact iff_of_true (addChord_of_not_resolves hresolves tag) fun h => absurd h hresolves

/-- A fret on the first string without a tag. -/
def onFirst (fret : Nat) : NoteEntry :=
  { time := none, dot := false, fret := some (.number fret), string := some 1, letterPitch := none
    octave := none, articulation := none, decorator := none }

/-- A slide from an open bend: from its anchor, or from its last note. -/
theorem chordTag_ne_entryTags_slide :
    let s := Session.follow openBend (.start .standard)
    let chord := [onFirst 8]
    (∃ a, s.score.active = some a) ∧ (∀ e ∈ chord, e.articulation = none) ∧
      (∀ place ∈ Chord.placesOf chord, place = 0) ∧
      s.addChord chord (some .slide) none ≠ s.addChord (chord.map (.tagged .slide)) none none := by
  intro s chord
  have huntagged : ∀ e ∈ chord, e.articulation = none := by simp [chord, onFirst]
  have hzero : ∀ place ∈ Chord.placesOf chord, place = 0 := by decide
  refine ⟨⟨_, rfl⟩, huntagged, hzero, fun heq => ?_⟩
  have hagree := (chordTag_eq_entryTags_iff .standard openBend .slide rfl huntagged hzero).1 heq
  obtain ⟨-, hindifferent⟩ := hagree ⟨List.cons_ne_nil _ _, _, rfl⟩
  rcases hindifferent _ rfl with hlast | hnone
  · have hsecond : lastIndex? Tickable.isLiveTab s.tabNotes = some 1 := by decide
    cases hsecond.symm.trans hlast
  · exact hnone 0 _ (.inl rfl) rfl ⟨_, List.mem_cons_self, _, List.mem_cons_self, rfl⟩

/-- A bend that goes on with an open one is drawn in one with it if its entry is tagged, and by
itself if the chord is. -/
theorem chordTag_ne_entryTags_bend :
    let s := Session.follow openBend (.start .standard)
    let chord := [onFirst 8]
    (∃ a, s.score.active = some a) ∧ (∀ e ∈ chord, e.articulation = none) ∧
      (∀ place ∈ Chord.placesOf chord, place = 0) ∧
      (s.addChord chord (some .bend) none).state.bend = some ⟨0, [0], [(0, [.between 5 8])]⟩ ∧
      (s.addChord (chord.map (.tagged .bend)) none none).state.bend =
        some ⟨0, [0], [(0, [.between 5 7, .between 7 8])]⟩ ∧
      s.addChord chord (some .bend) none ≠ s.addChord (chord.map (.tagged .bend)) none none := by
  intro s chord
  have hchordTag : (s.addChord chord (some .bend) none).state.bend =
      some ⟨0, [0], [(0, [.between 5 8])]⟩ := by rfl
  have hentryTags : (s.addChord (chord.map (.tagged .bend)) none none).state.bend =
      some ⟨0, [0], [(0, [.between 5 7, .between 7 8])]⟩ := by rfl
  refine ⟨⟨_, rfl⟩, by simp [chord, onFirst], by decide, hchordTag, hentryTags, fun heq => ?_⟩
  rw [heq, hentryTags] at hchordTag
  revert hchordTag
  decide

end Session

end Tablature
