/-
# Tablature.Proofs.BendOrder — the chords whose bends are right.

A chain pairs strings by place, so it depends on the order in which the chords list their strings.
If the strings that are bent together are always the first ones of one list, every phrase is right
whatever the frets are (`Session.bendsRight_of_follows`). If not, some frets in the same places
make one wrong: the frets tell the strings apart (`BendStep.between_separates`). Together this
says exactly which chords are right for all frets (`alwaysRight_iff_follows`).
-/
import Tablature.Proofs.BendRuns

namespace Tablature

open TabPosition (strings placesOn)

/-! ## Chords with other frets -/

/-- Two frets tell which strings a transition was taken from. -/
theorem BendStep.between_separates {source target string : Nat}
    (h : ∀ f g : Nat → Nat, between (f source) (g target) = between (f string) (g string)) :
    source = string ∧ target = string := by
  constructor
  · by_contra hne
    have hstep := h (fun x => if x = string then 0 else 1) fun _ => 1
    simp only [if_neg hne, if_true] at hstep
    exact absurd hstep (by decide)
  · by_contra hne
    have hstep := h (fun _ => 0) fun x => if x = string then 0 else 1
    simp only [if_neg hne, if_true] at hstep
    exact absurd hstep (by decide)

/-- Positions on the same strings with other frets. -/
def TabPosition.refret (f : Nat → Nat) (positions : List TabPosition) : List TabPosition :=
  positions.map fun position => ⟨.number (f position.string), position.string⟩

/-- A slot on the same strings with other frets. -/
def refretSlot (f : Nat → Nat) (slot : List ResolvedEntry) : List ResolvedEntry :=
  slot.map fun e => { e with position := ⟨.number (f e.position.string), e.position.string⟩ }

namespace Hop

/-- A hop on the same strings with other frets on both notes. -/
def refret (f g : Nat → Nat) (h : Hop) : Hop :=
  ⟨TabPosition.refret f h.before, TabPosition.refret g h.after, h.bent⟩

/-- Two hops on the same strings. -/
structure SameStrings (h h' : Hop) : Prop where
  before : strings h'.before = strings h.before
  after : strings h'.after = strings h.after
  bent : h'.bent = h.bent

end Hop

theorem TabPosition.strings_refret (f : Nat → Nat) (positions : List TabPosition) :
    strings (refret f positions) = strings positions := by
  rw [strings, refret, List.map_map]
  rfl

theorem TabPosition.placesOn_congr (linked : List Nat) {positions positions' : List TabPosition}
    (h : strings positions' = strings positions) :
    placesOn linked positions' = placesOn linked positions := by
  have onStrings (positions : List TabPosition) (start : Nat) :
      indicesWhere (fun position => linked.contains position.string) positions start =
        indicesWhere linked.contains (strings positions) start := by
    induction positions generalizing start with
    | nil => rfl
    | cons q positions ih =>
        rw [strings, List.map_cons, indicesWhere, indicesWhere, ih]
        rfl
  rw [placesOn, placesOn, onStrings, onStrings, h]

theorem Hop.fretOn?_refret {f : Nat → Nat} {positions : List TabPosition} {string : Nat}
    (h : string ∈ strings positions) :
    fretOn? (TabPosition.refret f positions) string = some (f string) := by
  induction positions with
  | nil => cases h
  | cons q positions ih =>
      by_cases hq : q.string = string
      · subst hq
        rw [fretOn?, TabPosition.refret, List.map_cons, List.find?_cons_of_pos (by simp)]
        rfl
      · have hlater : string ∈ strings positions :=
          (List.mem_cons.1 h).resolve_left (Ne.symm hq)
        rw [fretOn?, TabPosition.refret, List.map_cons, List.find?_cons_of_neg (by simpa using hq)]
        exact ih hlater

/-- The slots with other frets, the frets of a slot chosen by its number. -/
def refretFrom (g : Nat → Nat → Nat) : Nat → List (List ResolvedEntry) → List (List ResolvedEntry)
  | _, [] => []
  | k, slot :: slots => refretSlot (g k) slot :: refretFrom g (k + 1) slots

/-- The hops with other frets. -/
def refretHops (g : Nat → Nat → Nat) : Nat → List Hop → List Hop
  | _, [] => []
  | k, h :: hops => h.refret (g k) (g (k + 1)) :: refretHops g (k + 1) hops

theorem positions_refretSlot (f : Nat → Nat) (slot : List ResolvedEntry) :
    (refretSlot f slot).map (·.position) = TabPosition.refret f (slot.map (·.position)) := by
  simp [refretSlot, TabPosition.refret]

theorem bentStrings_refret (f : Nat → Nat) (positions : List TabPosition)
    (tags : List (Option Articulation)) :
    bentStrings (TabPosition.refret f positions) tags = bentStrings positions tags := by
  unfold bentStrings TabPosition.refret
  rw [List.zip_map_left, List.filter_map, List.map_map]
  rfl

theorem hopsOf_refret (g : Nat → Nat → Nat) (k : Nat) (before : List TabPosition)
    (slots : List (List ResolvedEntry)) :
    hopsOf (TabPosition.refret (g k) before) (refretFrom g (k + 1) slots) =
      refretHops g k (hopsOf before slots) := by
  induction slots generalizing k before with
  | nil => rfl
  | cons slot slots ih =>
      have htags : (refretSlot (g (k + 1)) slot).map (·.articulation) =
          slot.map (·.articulation) := by
        simp [refretSlot]
      rw [refretFrom, hopsOf, hopsOf, refretHops, positions_refretSlot, ih]
      rw [Hop.ofSlot, Hop.ofSlot, positions_refretSlot, htags, bentStrings_refret]
      rfl

theorem refretHops_append (g : Nat → Nat → Nat) (k : Nat) (hops : List Hop) (h : Hop) :
    refretHops g k (hops ++ [h]) =
      refretHops g k hops ++ [h.refret (g (k + hops.length)) (g (k + hops.length + 1))] := by
  induction hops generalizing k with
  | nil => rfl
  | cons h' hops ih =>
      rw [List.cons_append, refretHops, refretHops, ih, List.length_cons]
      simp only [List.cons_append, Nat.add_assoc, Nat.add_comm 1]

theorem sameStrings_refretHops (g : Nat → Nat → Nat) (k : Nat) (hops : List Hop) :
    List.Forall₂ Hop.SameStrings hops (refretHops g k hops) := by
  induction hops generalizing k with
  | nil => exact .nil
  | cons h hops ih =>
      exact .cons ⟨TabPosition.strings_refret _ _, TabPosition.strings_refret _ _, rfl⟩ (ih (k + 1))

/-! ## What other frets do not change -/

namespace Hop

variable {h h' : Hop}

theorem SameStrings.linked (hsame : h.SameStrings h') : h'.linked = h.linked := by
  rw [Hop.linked, hsame.before, hsame.bent]
  rfl

theorem SameStrings.reached (hsame : h.SameStrings h') : h'.reached = h.reached := by
  rw [Hop.reached, hsame.after, hsame.linked]
  rfl

theorem SameStrings.clear (hsame : h.SameStrings h') (hclear : h.Clear) : h'.Clear :=
  ⟨hsame.before ▸ hclear.before, hsame.after ▸ hclear.after⟩

theorem SameStrings.follows (hsame : h.SameStrings h') {order : List Nat}
    (hfollows : h.Follows order) : h'.Follows order :=
  ⟨hsame.linked ▸ hfollows.linked, by rw [hsame.reached, hsame.linked, hfollows.reached]⟩

theorem sameStrings_refret (f g : Nat → Nat) (h : Hop) : h.SameStrings (h.refret f g) :=
  ⟨TabPosition.strings_refret f h.before, TabPosition.strings_refret g h.after, rfl⟩

/-- The bent strings are strings of the second note. -/
def Bound (h : Hop) : Prop := ∀ string ∈ h.bent, string ∈ strings h.after

theorem mem_after_of_linked (hbound : h.Bound) {string : Nat} (hmem : string ∈ h.linked) :
    string ∈ strings h.after :=
  hbound string (List.contains_iff_mem.1 (List.mem_filter.1 hmem).2)

/-- The linked strings in the order of the one note or of the other: as many. -/
theorem length_reached (hclear : h.Clear) (hbound : h.Bound) :
    h.reached.length = h.linked.length := by
  refine List.Perm.length_eq ((List.perm_ext_iff_of_nodup (hclear.after.filter _)
    (nodup_linked hclear)).2 fun string => ?_)
  constructor
  · intro hmem
    exact List.contains_iff_mem.1 (List.mem_filter.1 hmem).2
  · intro hmem
    exact List.mem_filter.2 ⟨mem_after_of_linked hbound hmem, List.contains_iff_mem.2 hmem⟩

theorem stepAt?_refret (hclear : h.Clear) (f g : Nat → Nat) {anchors : List Nat}
    (hnodup : anchors.Nodup) {k anchor : Nat} (hk : anchors[k]? = some anchor) :
    (h.refret f g).stepAt? anchors anchor =
      (h.linked[k]?).bind fun source => (h.reached[k]?).map fun target =>
        .between (f source) (g target) := by
  have hsame := sameStrings_refret f g h
  rw [stepAt?_eq (hsame.clear hclear) hnodup hk, hsame.linked, hsame.reached]
  cases hsource : h.linked[k]? with
  | none => rfl
  | some source =>
      cases htarget : h.reached[k]? with
      | none => rfl
      | some target =>
          have hbefore := (List.mem_filter.1 (List.mem_of_getElem? hsource)).1
          have hafter := (List.mem_filter.1 (List.mem_of_getElem? htarget)).1
          show step? (fretOn? (TabPosition.refret f h.before) source)
            (fretOn? (TabPosition.refret g h.after) target) = _
          rw [fretOn?_refret hbefore, fretOn?_refret hafter]
          rfl

theorem bend?_refret (hbound : h.Bound) (f g : Nat → Nat) (string : Nat) :
    (h.refret f g).bend? string =
      if string ∈ h.linked then some (.between (f string) (g string)) else none := by
  have hlinked := (sameStrings_refret f g h).linked
  split
  · rename_i hmem
    rw [bend?_of_mem (hlinked.symm ▸ hmem)]
    show step? (fretOn? (TabPosition.refret f h.before) string)
      (fretOn? (TabPosition.refret g h.after) string) = _
    rw [fretOn?_refret (List.mem_filter.1 hmem).1, fretOn?_refret (mem_after_of_linked hbound hmem)]
    rfl
  · rename_i hmem
    exact bend?_of_not_mem (hlinked.symm ▸ hmem)

/-- **Frets tell strings apart.** A position that gets the transitions of a string, whatever the
frets are, stands where both notes have this string. -/
theorem strings_of_stepAt? (hclear : h.Clear) (hbound : h.Bound) {anchors : List Nat}
    (hnodup : anchors.Nodup) {k anchor string : Nat} (hk : anchors[k]? = some anchor)
    (hstep : ∀ f g, (h.refret f g).stepAt? anchors anchor = (h.refret f g).bend? string)
    {source target : Nat} (hsource : h.linked[k]? = some source)
    (htarget : h.reached[k]? = some target) : source = string ∧ target = string := by
  have hboth (f g : Nat → Nat) : some (BendStep.between (f source) (g target)) =
      if string ∈ h.linked then some (.between (f string) (g string)) else none := by
    rw [← bend?_refret hbound, ← hstep, stepAt?_refret hclear f g hnodup hk, hsource, htarget]
    rfl
  refine BendStep.between_separates fun f g => ?_
  have hfg := hboth f g
  split at hfg
  · exact Option.some.inj hfg
  · cases hfg

end Hop

/-! ## What a right run says of its first hop -/

namespace Session

variable {s t : Session}

/-- A run that is right at a position of its first hop gives it the transitions of the string. -/
theorem BendsRight.filterMap_eq {h : Hop} {hops : List Hop} (hright : t.BendsRight (h :: hops))
    (hidle : s.bend = none) (run : BendRun s (h :: hops) t) {place string : Nat}
    (hstring : (strings h.before)[place]? = some string)
    (hstep : h.stepAt? (placesOn h.linked h.before) place ≠ none) :
    (h :: hops).filterMap (·.stepAt? (placesOn h.linked h.before) place) =
      (h :: hops).filterMap (·.bend? string) := by
  have hloud : ¬ h.Silent := fun hsilent => hstep (hsilent place)
  have hchained := run.chained hidle
  generalize hbend : t.bend = bend at hchained
  cases hchained with
  | silent hsilent _ => exact absurd (hsilent h List.mem_cons_self) hloud
  | @opened before after h' chain n hhops hsilent hopen hindices hanchor hpositions hphrases =>
      -- The chain was opened at the first hop, since that one leads somewhere.
      cases before with
      | cons g before =>
          cases hhops
          exact absurd (hsilent h List.mem_cons_self) hloud
      | nil =>
          cases hhops
          rw [← hindices] at hstep ⊢
          have hne : (h :: hops).filterMap (·.stepAt? chain.indices place) ≠ [] := fun hnil =>
            hstep (List.filterMap_eq_nil_iff.1 hnil h List.mem_cons_self)
          obtain ⟨n', hn', -, hphrase⟩ := hright chain hbend
          cases hanchor.symm.trans hn'
          obtain ⟨string', hstring', heq⟩ := hphrase _ (hphrases.mem_of_ne hne)
          rw [hpositions] at hstring'
          cases hstring.symm.trans hstring'
          exact heq

/-- A session that shows nothing but one note. -/
def showing (positions : List TabPosition) : Session :=
  let s := Session.start .standard
  let view : TabView :=
    { x := 0, y := 0, width := 0, lines := 6, glyph := true, noteStart := none, endBar := none }
  let note : TabNote :=
    { positions, duration := .quarter, playNotes := [], stem := false, ghost := false
      multiplier := 1, modifiers := [] }
  let stave : Stave := { Stave.blank (some view) none [] with tabNotes := [.tab note] }
  { s with score := { s.score with active := some stave } }

theorem shows_showing (positions : List TabPosition) : (showing positions).Shows positions :=
  ⟨⟨_, rfl, rfl⟩, 0, _, rfl, rfl, rfl⟩

end Session

/-! ## Runs on the same strings -/

/-- Hops that are right for all frets: every run on the same strings as a part of them is right. -/
def AlwaysRight (hops : List Hop) : Prop :=
  ∀ part, part <:+: hops → ∀ (s t : Session) (hops' : List Hop), s.bend = none →
    s.BendRun hops' t → List.Forall₂ Hop.SameStrings part hops' → t.BendsRight hops'

theorem AlwaysRight.of_part {hops part : List Hop} (h : AlwaysRight hops) (hpart : part <:+: hops) :
    AlwaysRight part := fun other hother => h other (hother.trans hpart)

/-- Hops that can be run with any frets. -/
def Runnable (hops : List Hop) : Prop :=
  ∀ g : Nat → Nat → Nat, ∃ s t : Session, s.bend = none ∧ s.BendRun (refretHops g 0 hops) t

theorem runnable_hopsOf (before : List TabPosition) {slots : List (List ResolvedEntry)}
    (hslots : ∀ slot ∈ slots, Session.Bends slot) : Runnable (hopsOf before slots) := by
  intro g
  have refretted (k : Nat) : ∀ slot ∈ refretFrom g k slots, Session.Bends slot := by
    induction slots generalizing k with
    | nil => exact fun _ h => nomatch h
    | cons slot slots ih =>
        intro other hother
        rcases List.mem_cons.1 hother with rfl | hother
        · have hslot := hslots slot List.mem_cons_self
          simpa [Session.Bends, refretSlot] using hslot
        · exact ih (fun s hs => hslots s (List.mem_cons_of_mem slot hs)) (k + 1) other hother
  rw [← hopsOf_refret]
  exact ⟨.showing _, _, rfl,
    Session.BendRun.foldl_emit .start (Session.shows_showing _) (refretted 1)⟩

variable {hops : List Hop} {h : Hop} {k string : Nat}

/-- Right hops with frets give each linked string of the first one its transitions. -/
theorem AlwaysRight.filterMap_eq (hright : AlwaysRight hops) (hrun : Runnable hops)
    (hclear : h.Clear) (hbound : h.Bound) (hhead : hops.head? = some h)
    (hk : h.linked[k]? = some string) {place : Nat}
    (hplace : (placesOn h.linked h.before)[k]? = some place)
    (hstring : (strings h.before)[place]? = some string) (frets : Nat → Nat → Nat) :
    (refretHops frets 0 hops).filterMap (·.stepAt? (placesOn h.linked h.before) place) =
      (refretHops frets 0 hops).filterMap (·.bend? string) := by
  cases hops with
  | nil => cases hhead
  | cons first later =>
      cases hhead
      obtain ⟨s, t, hidle, run⟩ := hrun frets
      have hrightRun :=
        hright _ List.infix_rfl s t _ hidle run (sameStrings_refretHops frets 0 _)
      have hsame := Hop.sameStrings_refret (frets 0) (frets 1) h
      have hplaces : placesOn (h.refret (frets 0) (frets 1)).linked
          (h.refret (frets 0) (frets 1)).before = placesOn h.linked h.before := by
        rw [hsame.linked, TabPosition.placesOn_congr _ hsame.before]
      rw [← hplaces]
      refine hrightRun.filterMap_eq hidle run (hsame.before.symm ▸ hstring) ?_
      -- With frets on both notes the first hop leads from every linked string somewhere.
      have hlt : k < h.reached.length := by
        rw [Hop.length_reached hclear hbound]
        exact (List.getElem?_eq_some_iff.1 hk).1
      rw [hplaces, Hop.stepAt?_refret hclear _ _ (TabPosition.nodup_placesOn _ _) hplace, hk,
        List.getElem?_eq_getElem hlt]
      exact Option.some_ne_none _

/-- **What right hops have in common.** Where the first hop has a string, the last one has the same
string, on both its notes, if it has one there at all. -/
theorem AlwaysRight.agree {last : Hop} (hright : AlwaysRight (hops ++ [last]))
    (hrun : Runnable hops) (hrunLast : Runnable (hops ++ [last]))
    (hclear : ∀ g ∈ hops ++ [last], g.Clear) (hbound : ∀ g ∈ hops ++ [last], g.Bound)
    (hhead : (hops ++ [last]).head? = some h) {source target : Nat}
    (hk : h.linked[k]? = some string) (hsource : last.linked[k]? = some source)
    (htarget : last.reached[k]? = some target) : source = string ∧ target = string := by
  have hlast : last ∈ hops ++ [last] := List.mem_append_right _ List.mem_cons_self
  have hh : h ∈ hops ++ [last] := List.mem_of_mem_head? hhead
  obtain ⟨place, hplace, hstring⟩ := TabPosition.exists_placesOn (h.filter_linked.symm ▸ hk)
  refine Hop.strings_of_stepAt? (hclear last hlast) (hbound last hlast)
    (TabPosition.nodup_placesOn h.linked h.before) hplace (fun f g => ?_) hsource htarget
  let frets (i : Nat) : Nat → Nat :=
    if i = hops.length then f else if i = hops.length + 1 then g else fun _ => 0
  -- The run without the last hop is right too, so the last hop alone is.
  have hearlier : (refretHops frets 0 hops).filterMap
      (·.stepAt? (placesOn h.linked h.before) place) =
        (refretHops frets 0 hops).filterMap (·.bend? string) := by
    cases hops with
    | nil => rfl
    | cons first later =>
        exact (hright.of_part (List.prefix_append _ _).isInfix).filterMap_eq hrun (hclear h hh)
          (hbound h hh) hhead hk hplace hstring frets
  have hall :=
    hright.filterMap_eq hrunLast (hclear h hh) (hbound h hh) hhead hk hplace hstring frets
  have hfrets : frets (0 + hops.length) = f ∧ frets (0 + hops.length + 1) = g := by
    rw [Nat.zero_add]
    exact ⟨if_pos rfl, (if_neg (Nat.succ_ne_self _)).trans (if_pos rfl)⟩
  rw [refretHops_append, List.filterMap_append, List.filterMap_append, hearlier,
    List.append_cancel_left_eq, filterMap_singleton, filterMap_singleton, hfrets.1,
    hfrets.2] at hall
  simpa using congrArg List.head? hall

/-! ## The order of the strings -/

theorem prefix_or_prefix_of_agree {α : Type} {xs ys : List α}
    (h : ∀ (k : Nat) (x y : α), xs[k]? = some x → ys[k]? = some y → x = y) :
    xs <+: ys ∨ ys <+: xs := by
  rcases Nat.le_total xs.length ys.length with hle | hle
  · refine .inl (List.prefix_iff_getElem?.2 fun k hk => ?_)
    have hy := List.getElem?_eq_getElem (Nat.lt_of_lt_of_le hk hle)
    rw [hy, h k _ _ (List.getElem?_eq_getElem hk) hy]
  · refine .inr (List.prefix_iff_getElem?.2 fun k hk => ?_)
    have hx := List.getElem?_eq_getElem (Nat.lt_of_lt_of_le hk hle)
    rw [hx, h k _ _ hx (List.getElem?_eq_getElem hk)]

theorem bound_ofSlot (before : List TabPosition) (slot : List ResolvedEntry) :
    (Hop.ofSlot before slot).Bound := by
  intro string hmem
  obtain ⟨⟨position, tag⟩, hpair, rfl⟩ := List.mem_map.1 hmem
  exact List.mem_map_of_mem (List.of_mem_zip (List.mem_filter.1 hpair).1).1

theorem bound_hopsOf {before : List TabPosition} {slots : List (List ResolvedEntry)} :
    ∀ h ∈ hopsOf before slots, h.Bound := by
  induction slots generalizing before with
  | nil => exact fun _ h => nomatch h
  | cons slot slots ih =>
      intro h hh
      rcases List.mem_cons.1 hh with rfl | hh
      · exact bound_ofSlot before slot
      · exact ih h hh

/-- A hop of some slots is the last one of the first of them. -/
theorem exists_hopsOf_concat {before : List TabPosition} {slots : List (List ResolvedEntry)}
    {h : Hop} (hh : h ∈ hopsOf before slots) : ∃ earlier slot, earlier ++ [slot] <+: slots ∧
      hopsOf before (earlier ++ [slot]) = hopsOf before earlier ++ [h] := by
  induction slots generalizing before with
  | nil => cases hh
  | cons slot slots ih =>
      rcases List.mem_cons.1 hh with rfl | hh
      · exact ⟨[], slot, List.prefix_append [slot] slots, rfl⟩
      · obtain ⟨earlier, last, hinit, heq⟩ := ih hh
        refine ⟨slot :: earlier, last, (List.prefix_cons_inj slot).2 hinit, ?_⟩
        rw [List.cons_append, hopsOf, heq, hopsOf, List.cons_append]

theorem hopsOf_prefix (before : List TabPosition) {slots slots' : List (List ResolvedEntry)}
    (h : slots <+: slots') : hopsOf before slots <+: hopsOf before slots' := by
  induction slots generalizing before slots' with
  | nil => exact List.nil_prefix
  | cons slot slots ih =>
      cases slots' with
      | nil => cases List.prefix_nil.1 h
      | cons slot' slots' =>
          obtain ⟨rfl, hrest⟩ := List.cons_prefix_cons.1 h
          exact (List.prefix_cons_inj _).2 (ih _ hrest)

/-- The first hop of right slots agrees with each of them. -/
theorem AlwaysRight.agree_hopsOf {before : List TabPosition} {slots : List (List ResolvedEntry)}
    (hright : AlwaysRight (hopsOf before slots)) (hslots : ∀ slot ∈ slots, Session.Bends slot)
    (hclear : ∀ h ∈ hopsOf before slots, h.Clear) {earlier : List (List ResolvedEntry)}
    {slot : List ResolvedEntry} (hinit : earlier ++ [slot] <+: slots) {h last : Hop}
    (hhops : hopsOf before (earlier ++ [slot]) = hopsOf before earlier ++ [last])
    (hhead : (hopsOf before earlier ++ [last]).head? = some h) {k string source target : Nat}
    (hk : h.linked[k]? = some string) (hsource : last.linked[k]? = some source)
    (htarget : last.reached[k]? = some target) : source = string ∧ target = string := by
  have hpart := hopsOf_prefix before hinit
  have hbends : ∀ other ∈ earlier ++ [slot], Session.Bends other := fun other hother =>
    hslots other (hinit.subset hother)
  rw [hhops] at hpart
  exact (hright.of_part hpart.isInfix).agree
    (runnable_hopsOf before fun other hother => hbends other (List.mem_append_left _ hother))
    (hhops ▸ runnable_hopsOf before hbends) (fun g hg => hclear g (hpart.subset hg))
    (fun g hg => bound_hopsOf g (hpart.subset hg)) hhead hk hsource htarget

/-- Hops that are right for all frets follow one order of strings. -/
theorem exists_order {before : List TabPosition} {slots : List (List ResolvedEntry)}
    (hslots : ∀ slot ∈ slots, Session.Bends slot) (hclear : ∀ h ∈ hopsOf before slots, h.Clear)
    (hright : AlwaysRight (hopsOf before slots)) :
    ∃ order, (order = [] ∨ ∃ h ∈ hopsOf before slots, order = h.linked) ∧
      ∀ h ∈ hopsOf before slots, h.Follows order := by
  -- From the last slot back: the first hop either fits the order of the later ones or extends it.
  induction slots generalizing before with
  | nil => exact ⟨[], .inl rfl, fun _ h => nomatch h⟩
  | cons slot slots ih =>
      let first := Hop.ofSlot before slot
      let later := hopsOf (slot.map (·.position)) slots
      have hfirst : first ∈ first :: later := List.mem_cons_self
      have hslotsLater : ∀ other ∈ slots, Session.Bends other := fun other hother =>
        hslots other (List.mem_cons_of_mem slot hother)
      obtain ⟨order, horder, hfollows⟩ := ih hslotsLater
        (fun h hh => hclear h (List.mem_cons_of_mem first hh))
        (hright.of_part (List.suffix_cons first later).isInfix)
      have hreached : first.reached = first.linked := by
        have hinit : [] ++ [slot] <+: slot :: slots := List.prefix_append [slot] slots
        have hlength := Hop.length_reached (hclear first hfirst) (bound_ofSlot before slot)
        refine List.ext_getElem hlength fun k hk hk' => ?_
        have hstring := List.getElem?_eq_getElem hk'
        exact (hright.agree_hopsOf hslots hclear hinit rfl rfl hstring hstring
          (List.getElem?_eq_getElem hk)).2
      have follows {order' : List Nat} (hlinked : first.linked <+: order')
          (horder : order <+: order') : ∀ h ∈ first :: later, h.Follows order' := by
        intro h hh
        rcases List.mem_cons.1 hh with rfl | hh
        · exact ⟨hlinked, hreached⟩
        · exact ⟨(hfollows h hh).linked.trans horder, (hfollows h hh).reached⟩
      rcases horder with rfl | ⟨last, hlast, rfl⟩
      · exact ⟨first.linked, .inr ⟨first, hfirst, rfl⟩, follows List.prefix_rfl List.nil_prefix⟩
      · have hagree : first.linked <+: last.linked ∨ last.linked <+: first.linked := by
          obtain ⟨earlier, slot', hinit, heq⟩ := exists_hopsOf_concat hlast
          have hlonger : (slot :: earlier) ++ [slot'] <+: slot :: slots :=
            (List.prefix_cons_inj slot).2 hinit
          have hhops : hopsOf before ((slot :: earlier) ++ [slot']) =
              hopsOf before (slot :: earlier) ++ [last] := congrArg (first :: ·) heq
          refine prefix_or_prefix_of_agree fun k x y hx hy => ?_
          have htarget := (hfollows last hlast).reached.symm ▸ hy
          exact (hright.agree_hopsOf hslots hclear hlonger hhops rfl hx hy htarget).1.symm
        rcases hagree with hshort | hlong
        · exact ⟨last.linked, .inr ⟨last, List.mem_cons_of_mem first hlast, rfl⟩,
            follows hshort List.prefix_rfl⟩
        · exact ⟨first.linked, .inr ⟨first, hfirst, rfl⟩, follows List.prefix_rfl hlong⟩

/-- Hops that follow one order of strings are right for all frets. -/
theorem AlwaysRight.of_follows {hops : List Hop} {order : List Nat} (horder : order.Nodup)
    (hclear : ∀ h ∈ hops, h.Clear) (hfollows : ∀ h ∈ hops, h.Follows order) :
    AlwaysRight hops := by
  intro part hpart s t hops' hidle run hsame
  have hmem {h' : Hop} (hh' : h' ∈ hops') : ∃ h ∈ hops, h.SameStrings h' := by
    have hback : List.Forall₂ (flip Hop.SameStrings) hops' part := List.Forall₂.flip hsame
    obtain ⟨i, hi⟩ := List.mem_iff_getElem?.1 hh'
    obtain ⟨h, hh, hstrings⟩ := forall₂_getElem? hback hi
    exact ⟨h, hpart.subset (List.mem_of_getElem? hh), hstrings⟩
  refine Session.bendsRight_of_follows hidle run horder (fun h' hh' => ?_) fun h' hh' => ?_
  · obtain ⟨h, hh, hsame⟩ := hmem hh'
    exact hsame.clear (hclear h hh)
  · obtain ⟨h, hh, hsame⟩ := hmem hh'
    exact hsame.follows (hfollows h hh)

/-- **Which chords have the right bends.** Take a note and chords after it, each with a bend, and no
string twice in any of them. Every run on their strings, or on those of a part of them, is right for
all frets exactly if the bent strings of each chord are, on it and on the note before it, the first
ones of one list of strings. And every session, after whatever events, is at the end of a run that
started where no bend was open. -/
theorem alwaysRight_iff_follows {before : List TabPosition} {slots : List (List ResolvedEntry)}
    (hslots : ∀ slot ∈ slots, Session.Bends slot) (hclear : ∀ h ∈ hopsOf before slots, h.Clear) :
    (AlwaysRight (hopsOf before slots) ↔
      ∃ order : List Nat, order.Nodup ∧ ∀ h ∈ hopsOf before slots, h.Follows order) ∧
    ∀ setup events, ∃ s hops, Steps (.start setup) s ∧ s.bend = none ∧
      s.BendRun hops (.follow events (.start setup)) := by
  refine ⟨⟨fun hright => ?_, fun ⟨order, horder, hfollows⟩ => .of_follows horder hclear hfollows⟩,
    fun setup events => (steps_follow events (.start setup)).exists_bendRun rfl⟩
  obtain ⟨order, horder, hfollows⟩ := exists_order hslots hclear hright
  refine ⟨order, ?_, hfollows⟩
  rcases horder with rfl | ⟨h, hh, rfl⟩
  · exact .nil
  · exact Hop.nodup_linked (hclear h hh)

/-- Two strings at the fifth fret. -/
def fifthFrets : List TabPosition := [⟨.number 5, 1⟩, ⟨.number 5, 2⟩]

/-- A slot of the first two strings, some of them bent. -/
def bentPair (first second : Bool) : List ResolvedEntry :=
  let entry (string : Nat) (bent : Bool) : ResolvedEntry :=
    { position := ⟨.number 7, string⟩, key := ⟨.natural .c, 4⟩, playNote := ⟨.natural .c, 4⟩
      mark := none, articulation := if bent then some .bend else none, decorator := none
      duration := none }
  [entry 1 first, entry 2 second]

/-- After both strings the first may be bent alone, but not the second. -/
theorem alwaysRight_bentPair :
    AlwaysRight (hopsOf fifthFrets [bentPair true true, bentPair true false]) ∧
      ¬ AlwaysRight (hopsOf fifthFrets [bentPair true true, bentPair false true]) := by
  constructor
  · exact (alwaysRight_iff_follows (by decide) (by decide)).1.2 ⟨[1, 2], by decide, by decide⟩
  · rw [(alwaysRight_iff_follows (by decide) (by decide)).1]
    rintro ⟨order, -, hfollows⟩
    have hboth : [1, 2] <+: order := (hfollows _ List.mem_cons_self).linked
    have hsecond : [2] <+: order := (hfollows _ (List.mem_cons_of_mem _ List.mem_cons_self)).linked
    obtain ⟨rest, rfl⟩ := hboth
    exact absurd (List.cons_prefix_cons.1 hsecond).1 (by decide)

/-- Chords on tablature up to a bar line, each of frets on strings that are bent or not. -/
def bendsUpToBar (chords : List (List (Nat × Nat × Bool))) : List Directive :=
  let entry : Nat × Nat × Bool → NoteEntry := fun (fret, string, bent) =>
    { time := none, dot := false, fret := some (.number fret), string := some string
      letterPitch := none, octave := none, articulation := if bent then some .bend else none
      decorator := none }
  let element (command : Option String) (chord : Option (List NoteEntry)) : NoteElement :=
    { time := none, dot := false, command, barName := none, parameters := none, chord
      articulation := none, decorator := none, fret := none, string := none, letterPitch := none
      octave := none, line := none, column := none }
  [{ keyword := "tabstave", options := [], settings := []
     notes := chords.map (fun chord => element none (some (chord.map entry))) ++
      [element (some "bar") none]
     text := [], line := none, column := none }]

/-- When only the second string is bent on, its transition goes to the phrase of the first. -/
theorem modifiers_bendsUpToBar_secondString :
    ∃ s n, compileDirectives .standard (bendsUpToBar [[(5, 1, false), (5, 2, false)],
        [(6, 1, true), (7, 2, true)], [(6, 1, false), (8, 2, true)]]) = .ok s ∧
      s.score.tabNote? ⟨0, 0, 0⟩ = some (.tab n) ∧ strings n.positions = [1, 2] ∧
      n.modifiers = [⟨0, .bend [.between 5 6, .between 7 8]⟩, ⟨1, .bend [.between 5 7]⟩] :=
  ⟨_, _, rfl, rfl, rfl, rfl⟩

end Tablature
