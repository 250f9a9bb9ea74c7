/-
# Tablature.Proofs.Fitting — every mark fits its note.

A mark belongs to a position of a note on tablature or to a key of a note on a staff, and it is
given by a number. Those numbers come from many places: a slot counts the entries of a chord, a
fingering counts keys from one, and the phrases of a bend keep the positions of the note that the
chain was opened at, which may be far back when the chain is closed. Still every number is one that
the note has (`TabNote.Fits`, `StaffNote.Fits`). For bends this needs to know where the open chain
is anchored: at a note of the voice in progress which has every position that the chain knows of
(`Session.Fitting`).
-/
import Tablature.Proofs.Anchors
import Tablature.Proofs.Objects

namespace Tablature

/-! ## Notes -/

/-- The marks of a note on tablature fit it: each belongs to a position that the note has, and none
is an accidental, a finger or a string. -/
structure TabNote.Fits (n : TabNote) : Prop where
  positions : 0 < n.positions.length
  inRange : ∀ mark ∈ n.modifiers, mark.index < n.positions.length
  noAccidental : ∀ mark ∈ n.modifiers, mark.modifier.accidental? = none
  noFinger : ∀ mark ∈ n.modifiers, mark.modifier.isFingerMark = false

/-- The marks of a note or rest on a staff fit it: each belongs to a key that the note has, and none
is a bend. A rest has no accidental. A key has at most one, which shows how the key is spelled. -/
structure StaffNote.Fits (n : StaffNote) : Prop where
  keys : 0 < n.keys.length
  inRange : ∀ mark ∈ n.modifiers, mark.index < n.keys.length
  noBend : ∀ mark ∈ n.modifiers, mark.modifier.isBend = false
  rest : n.rest → ∀ mark ∈ n.modifiers, mark.modifier.accidental? = none
  accidentals : ∀ i key, n.keys[i]? = some key → accidentalsAt n.modifiers i = [] ∨
    ∃ mark, accidentalsAt n.modifiers i = [mark] ∧ mark.Shows key.name

theorem TabNote.Fits.mark {n : TabNote} (h : n.Fits) {index : Nat} {m : Modifier}
    (hindex : index < n.positions.length) (haccidental : m.accidental? = none)
    (hfinger : m.isFingerMark = false) :
    ({ n with modifiers := n.modifiers ++ [⟨index, m⟩] } : TabNote).Fits where
  positions := h.positions
  inRange := List.forall_mem_append.2 ⟨h.inRange, List.forall_mem_singleton.2 hindex⟩
  noAccidental := List.forall_mem_append.2 ⟨h.noAccidental, List.forall_mem_singleton.2 haccidental⟩
  noFinger := List.forall_mem_append.2 ⟨h.noFinger, List.forall_mem_singleton.2 hfinger⟩

theorem StaffNote.Fits.mark {n : StaffNote} (h : n.Fits) {index : Nat} {m : Modifier}
    (hindex : index < n.keys.length) (haccidental : m.accidental? = none)
    (hbend : m.isBend = false) :
    ({ n with modifiers := n.modifiers ++ [⟨index, m⟩] } : StaffNote).Fits where
  keys := h.keys
  inRange := List.forall_mem_append.2 ⟨h.inRange, List.forall_mem_singleton.2 hindex⟩
  noBend := List.forall_mem_append.2 ⟨h.noBend, List.forall_mem_singleton.2 hbend⟩
  rest := fun hrest =>
    List.forall_mem_append.2 ⟨h.rest hrest, List.forall_mem_singleton.2 haccidental⟩
  accidentals := by
    intro i key hkey
    rw [accidentalsAt_append,
      accidentalsAt_eq_nil (List.forall_mem_singleton.2 haccidental), List.append_nil]
    exact h.accidentals i key hkey

namespace Tickable

/-- The marks of an object fit it. Bars, spacers and texts have none. -/
def Fits : Tickable → Prop
  | tab n => n.Fits
  | staff n => n.Fits
  | _ => True

/-- An object on a staff: its marks fit it, and it is no note on tablature. -/
def FitsOnStaff (t : Tickable) : Prop := t.Fits ∧ t.isTab = false

variable {t u : Tickable}

theorem Fits.markPlain (h : t.Fits) {m : Modifier} (hm : m.isPlain) : (t.mark 0 m).Fits := by
  cases t with
  | tab n =>
      exact TabNote.Fits.mark h h.positions (Modifier.accidental?_of_isPlain hm)
        (Modifier.isFingerMark_of_isPlain hm)
  | staff n =>
      exact StaffNote.Fits.mark h h.keys (Modifier.accidental?_of_isPlain hm)
        (Modifier.isBend_of_isPlain hm)
  | _ => exact h

theorem Fits.hide (h : t.Fits) : t.hide.Fits := by
  cases t with
  | tab n => exact ⟨h.positions, h.inRange, h.noAccidental, h.noFinger⟩
  | _ => exact h

theorem Fits.scaleTicks (h : t.Fits) (factor : Ticks) : (t.scaleTicks factor).Fits := by
  cases t with
  | tab n => exact ⟨h.positions, h.inRange, h.noAccidental, h.noFinger⟩
  | staff n => exact ⟨h.keys, h.inRange, h.noBend, h.rest, h.accidentals⟩
  | _ => exact h

theorem Fits.marked (h : t.Fits) (hmarks : Marks TabAllows t u) : u.Fits := by
  induction hmarks with
  | refl => exact h
  | add _ hallows ih =>
      obtain ⟨rfl, hplain⟩ := hallows
      exact ih.markPlain hplain

theorem FitsOnStaff.mark (h : t.FitsOnStaff) {index : Nat} {m : Modifier}
    (hallows : StaffAllows t index m) : (t.mark index m).FitsOnStaff := by
  refine ⟨?_, by cases t <;> exact h.2⟩
  rcases hallows with ⟨rfl, hplain⟩ | ⟨hindex, hfinger⟩
  · exact h.1.markPlain hplain
  · cases t with
    | tab n => cases h.2
    | staff n =>
        exact StaffNote.Fits.mark h.1 hindex (Modifier.accidental?_of_isFingerMark hfinger)
          (Modifier.isBend_of_isFingerMark hfinger)
    | _ => exact trivial

theorem FitsOnStaff.marked (h : t.FitsOnStaff) (hmarks : Marks StaffAllows t u) :
    u.FitsOnStaff := by
  induction hmarks with
  | refl => exact h
  | add _ hallows ih => exact ih.mark hallows

theorem FitsOnStaff.scaleTicks (h : t.FitsOnStaff) (factor : Ticks) :
    (t.scaleTicks factor).FitsOnStaff :=
  ⟨h.1.scaleTicks factor, by cases t <;> exact h.2⟩

/-! ### Objects that are written -/

theorem fits_restNote (session : Session) (key : Pitch) : (session.restNote key).Fits where
  keys := Nat.zero_lt_one
  inRange := List.forall_mem_nil _
  noBend := List.forall_mem_nil _
  rest := fun _ => List.forall_mem_nil _
  accidentals := fun _ _ _ => .inl rfl

theorem fits_tabRest (session : Session) (key : Pitch) : (session.tabRest key).Fits := by
  unfold Session.tabRest
  split
  · exact fits_restNote session key
  · exact trivial

theorem fits_tabNote (session : Session) {entries : List ResolvedEntry} (hne : entries ≠ []) :
    (tab (session.tabNote entries)).Fits where
  positions := by
    rw [Session.tabNote, List.length_map]
    exact List.length_pos_of_ne_nil hne
  inRange := List.forall_mem_nil _
  noAccidental := List.forall_mem_nil _
  noFinger := List.forall_mem_nil _

theorem fits_staffNote (session : Session) {entries : List ResolvedEntry} (hne : entries ≠ [])
    (hmarks : ∀ e ∈ entries, e.MarksItsKey) : (staff (session.staffNote entries)).Fits where
  keys := by
    rw [Session.staffNote, List.length_map]
    exact List.length_pos_of_ne_nil hne
  inRange := by
    intro mark hmem
    have hlt := (Chord.mem_accidentalMarks hmem).2.1
    rw [Session.staffNote, List.length_map]
    omega
  noBend := by
    intro mark hmem
    obtain ⟨a, cautionary, hmark⟩ := (Chord.mem_accidentalMarks hmem).2.2
    rw [hmark]
    rfl
  rest := fun hrest => nomatch hrest
  accidentals := by
    intro i key hkey
    have hat := Chord.accidentalsAt_accidentalMarks entries 0 i
    rw [Nat.zero_add] at hat
    rw [Session.staffNote, List.getElem?_map, Option.map_eq_some_iff] at hkey
    obtain ⟨e, he, rfl⟩ := hkey
    rw [he, Option.bind_some] at hat
    show accidentalsAt (Chord.accidentalMarks entries 0) i = [] ∨
      ∃ mark, accidentalsAt (Chord.accidentalMarks entries 0) i = [mark] ∧ mark.Shows e.key.name
    rw [hat]
    cases hmark : e.mark with
    | none => exact .inl rfl
    | some mark => exact .inr ⟨mark, rfl, hmarks e (List.mem_of_getElem? he) mark hmark⟩

end Tickable

/-! ## Staves -/

namespace Stave

/-- All marks of a stave fit their notes. -/
def MarksFit (a : Stave) : Prop := a.Every Tickable.Fits Tickable.FitsOnStaff

theorem MarksFit.move {idle : Prop} {a b : Stave} (h : Move idle a b) (ha : a.MarksFit) :
    b.MarksFit := by
  cases h with
  | texts voices => exact ha.texts voices
  | bar type _ => exact ha.push trivial ⟨trivial, rfl⟩
  | rest session key _ =>
      exact ha.push (Tickable.fits_tabRest session key) ⟨Tickable.fits_restNote session key, rfl⟩
  | note session entries hne hmarks =>
      exact ha.push (Tickable.fits_tabNote session hne)
        ⟨Tickable.fits_staffNote session hne hmarks, rfl⟩
  | markTab h =>
      exact ha.withTabNotes (forall_mem_of_forall₂ (fun _ _ htu ht => ht.marked htu) h ha.tabNotes)
  | markStaff h =>
      exact ha.withStaffNotes
        (forall_mem_of_forall₂ (fun _ _ htu ht => ht.marked htu) h ha.staffNotes)
  | scale count factor _ _ =>
      exact ha.scale (fun _ ht => ht.scaleTicks factor) (fun _ ht => ht.scaleTicks factor) count
  | closeVoice _ => exact ha.closeVoice

end Stave

/-! ## Chains -/

namespace BendChain

/-- Every position that a chain knows of is one of so many. -/
structure Within (size : Nat) (chain : BendChain) : Prop where
  indices : ∀ i ∈ chain.indices, i < size
  phrases : ∀ p ∈ chain.phrases, p.1 < size

variable {size : Nat}

theorem Within.addStep {chain : BendChain} (h : chain.Within size) {step : Nat × BendStep}
    (hstep : step.1 < size) : (chain.addStep step).Within size where
  indices := h.indices
  phrases := by
    intro p hp
    rcases fst_of_mem_insertStep hp with heq | ⟨q, hq, heq⟩
    · rwa [heq]
    · rw [heq]
      exact h.phrases q hq

theorem Within.addSteps {steps : List (Nat × BendStep)} {chain : BendChain}
    (h : chain.Within size) (hsteps : ∀ step ∈ steps, step.1 < size) :
    (steps.foldl BendChain.addStep chain).Within size := by
  induction steps generalizing chain with
  | nil => exact h
  | cons step steps ih =>
      obtain ⟨hfirst, hrest⟩ := List.forall_mem_cons.1 hsteps
      exact ih (h.addStep hfirst) hrest

/-- Transitions belong to positions that the chain was opened with. -/
theorem fst_of_mem_transitions {first last : TabNote} {anchors sources targets : List Nat}
    {step : Nat × BendStep} (h : step ∈ transitions first last anchors sources targets) :
    step.1 ∈ anchors := by
  induction anchors generalizing sources targets with
  | nil => cases h
  | cons anchor anchors ih =>
      cases sources with
      | nil => cases h
      | cons source sources =>
          cases targets with
          | nil => cases h
          | cons target targets =>
              rw [transitions] at h
              split at h
              · rcases List.mem_cons.1 h with rfl | h
                · exact List.mem_cons_self
                · exact List.mem_cons_of_mem _ (ih h)
              · exact List.mem_cons_of_mem _ (ih h)

/-- The marks of a chain fit a note that has its positions. -/
theorem Within.fits_markAnchor {chain : BendChain} {n : TabNote}
    (h : chain.Within n.positions.length) (hn : n.Fits) :
    (markAnchor chain.phrases (.tab n)).Fits := by
  rw [markAnchor_tab]
  refine ⟨hn.positions, ?_, ?_, ?_⟩
  · exact List.forall_mem_append.2 ⟨hn.inRange, List.forall_mem_map.2 h.phrases⟩
  · exact List.forall_mem_append.2 ⟨hn.noAccidental, List.forall_mem_map.2 fun _ _ => rfl⟩
  · exact List.forall_mem_append.2 ⟨hn.noFinger, List.forall_mem_map.2 fun _ _ => rfl⟩

end BendChain

/-! ## Sessions -/

namespace Session

/-- All marks of a session fit their notes. -/
def MarksFit (s : Session) : Prop := ∀ a ∈ s.score.staves, a.MarksFit

/-- All marks fit, and the open chain fits its anchor, a note of the voice in progress. -/
structure Fitting (s : Session) : Prop where
  staves : s.MarksFit
  chain : ∀ chain, s.bend = some chain → ∃ a n, s.score.active = some a ∧
    a.tabNotes[chain.anchor]? = some (.tab n) ∧ chain.Within n.positions.length

namespace Fitting

variable {s t : Session}

theorem start (setup : PageSetup) : (Session.start setup).Fitting where
  staves := fun _ hmem => nomatch hmem
  chain := fun _ hchain => nomatch hchain

theorem calm (hs : s.Fitting) (h : s.Calm t) : t.Fitting where
  staves := h.change.forall_staves .blank Stave.MarksFit.move (fun _ ha => ha.finish) hs.staves
  chain := by
    intro chain hchain
    rw [h.bend] at hchain
    obtain ⟨a, n, ha, hn, hwithin⟩ := hs.chain chain hchain
    rw [← tabNote?_tabAddress ha] at hn
    obtain ⟨y, hy, hlater⟩ := h.continues.tabNote? hn rfl
    obtain ⟨b, hb, haddress⟩ := h.address hchain ha chain.anchor
    rw [← haddress, tabNote?_tabAddress hb] at hy
    cases hlater with
    | tab n ghost hidden multiplier added => exact ⟨b, _, hb, hy, hwithin⟩

theorem closeBends (hs : s.Fitting) (through : Bool) : (s.closeBends through).Fitting := by
  unfold Session.closeBends
  cases hchain : s.bend with
  | none => exact hs
  | some chain =>
      obtain ⟨a, n, ha, hn, hwithin⟩ := hs.chain chain hchain
      dsimp only
      rw [onTabNotes_eq (s := { s with bend := none }) ha]
      refine ⟨Score.forall_active ha (fun hfits => ?_) hs.staves, fun _ h => nomatch h⟩
      refine hfits.withTabNotes (chain.forall_mem_close (fun _ ht => ht.hide) ?_ hfits.tabNotes _)
      intro t ht hfits
      rw [hn] at ht
      cases ht
      exact hwithin.fits_markAnchor hfits

theorem openBends (hs : s.Fitting) {indices : List Nat} {span : Span}
    (hspan : Span.ofNotes? s.tabNotes indices = some span) (hne : span.isEmpty = false)
    (htab : ∃ a, s.score.active = some a ∧ a.tab.isSome) :
    (s.openBends span.previous span.previousIndices span.currentIndices).Fitting where
  staves := by
    rw [MarksFit, score_openBends]
    exact hs.staves
  chain := by
    intro chain hchain
    obtain ⟨a, ha, _⟩ := htab
    obtain ⟨first, last, hfirst, hlast, _, _, strings, hpicks, _⟩ := Span.ofNotes?_spec hspan hne
    rw [score_openBends]
    -- The chain that is extended fits its anchor, whether it goes on or is opened here.
    have hopened : ∃ n,
        a.tabNotes[(s.openChain span.previous span.previousIndices).anchor]? = some (.tab n) ∧
        (s.openChain span.previous span.previousIndices).Within n.positions.length := by
      have hnew : ∃ n, a.tabNotes[span.previous]? = some (.tab n) ∧
          BendChain.Within n.positions.length ⟨span.previous, span.previousIndices, []⟩ :=
        ⟨first, by rw [← tabNotes_eq ha, hfirst], hpicks.inRange, List.forall_mem_nil _⟩
      unfold openChain
      split
      · rename_i before hbefore
        split
        · exact hnew
        · obtain ⟨b, n, hb, hn, hwithin⟩ := hs.chain before hbefore
          rw [ha] at hb
          cases hb
          exact ⟨n, hn, hwithin⟩
      · exact hnew
    obtain ⟨n, hn, hwithin⟩ := hopened
    rw [Session.openBends, hfirst, List.getLast?_eq_getElem?, hlast] at hchain
    cases hchain
    refine ⟨a, n, ha, ?_, ?_⟩
    · rw [(BendChain.kept_addSteps _ _).1, hn]
    · exact hwithin.addSteps fun step hstep =>
        hwithin.indices _ (BendChain.fst_of_mem_transitions hstep)

theorem move (hs : s.Fitting) (h : Move s t) : t.Fitting := by
  cases h with
  | calm h => exact hs.calm h
  | closeBends through => exact hs.closeBends through
  | openBends hspan hne htab => exact hs.openBends hspan hne htab

end Fitting

/-- **Every mark fits its note.** After any operations, carried out or refused, and in every voice
of every stave: each mark belongs to a position or key that its note has; bends are drawn on
tablature only, accidentals, fingerings and string numbers on staves only, and no rest has an
accidental; a key has at most one accidental, which is the one that the key is spelled with, or a
natural. -/
theorem follow_marksFit (setup : PageSetup) (events : List Event) :
    (Session.follow events (.start setup)).MarksFit :=
  (follow_moves_induction (P := Fitting) .start (fun h hs => hs.move h) setup events).staves

end Session

end Tablature
