/-
# Tablature.Proofs.Marking — operations that only mark what is written.

Articulations, decorations, annotations and the end of a bend draw links, attach marks and hide
notes, and they do nothing else: no object is added or moved, and none changes its pitches, its
duration or its place. `Session.Marked` says so once, together with everything of the session that
these operations leave alone, and each of them is shown to be such a change. What a theorem reads of
a session but marks and links is therefore the same before and after.
-/
import Tablature.Proofs.Operations

namespace Tablature

/-! ## Objects -/

/-- What marking makes of an object of tablature: it has more marks, or it is hidden. -/
inductive Tickable.Dressed (t : Tickable) : Tickable → Prop
  | refl : Dressed t t
  | mark {u : Tickable} (index : Nat) (m : Modifier) : Dressed t u → Dressed t (u.mark index m)
  | hide {u : Tickable} : Dressed t u → Dressed t u.hide

namespace Tickable.Dressed

theorem trans {t u v : Tickable} (h : Dressed t u) (h' : Dressed u v) : Dressed t v := by
  induction h' with
  | refl => exact h
  | mark index m _ ih => exact ih.mark index m
  | hide _ ih => exact ih.hide

theorem of_marks {allows : Tickable → Nat → Modifier → Prop} {t u : Tickable}
    (h : Marks allows t u) : Dressed t u := by
  induction h with
  | refl => exact .refl
  | add _ _ ih => exact ih.mark _ _

end Tickable.Dressed

theorem Marks.trans {allows : Tickable → Nat → Modifier → Prop} {t u v : Tickable}
    (h : Marks allows t u) (h' : Marks allows u v) : Marks allows t v := by
  induction h' with
  | refl => exact h
  | add _ hallows ih => exact ih.add hallows

/-! ## Staves and sessions -/

/-- A stave after marking: its voices in progress are marked object by object, the rest is as it
was. -/
structure Stave.Marked (a b : Stave) : Prop where
  frame : b = { a with tabNotes := b.tabNotes, staffNotes := b.staffNotes }
  tabNotes : List.Forall₂ Tickable.Dressed a.tabNotes b.tabNotes
  staffNotes : List.Forall₂ (Marks StaffAllows) a.staffNotes b.staffNotes

namespace Stave.Marked

theorem refl (a : Stave) : a.Marked a :=
  ⟨rfl, List.forall₂_same.2 fun _ _ => .refl, List.forall₂_same.2 fun _ _ => .refl⟩

theorem trans {a b c : Stave} (h : a.Marked b) (h' : b.Marked c) : a.Marked c where
  frame := by rw [h'.frame, h.frame]
  tabNotes := forall₂_comp h.tabNotes h'.tabNotes fun _ _ _ => .trans
  staffNotes := forall₂_comp h.staffNotes h'.staffNotes fun _ _ _ => .trans

end Stave.Marked

/-- A session after marking: what later operations depend on is as it was, but for the side on which
texts are written. -/
structure Session.Marked (s t : Session) : Prop where
  settings : ∃ side, t.settings = { s.settings with annotationSide := side }
  tuning : t.tuning = s.tuning
  memory : t.memory = s.memory
  duration : t.duration = s.duration
  octaveShift : t.octaveShift = s.octaveShift
  earlier : t.score.earlier = s.score.earlier
  active : Option.Rel Stave.Marked s.score.active t.score.active

namespace Session

namespace Marked

theorem of_active {s t : Session} (h : Option.Rel Stave.Marked s.score.active t.score.active)
    (hframe : t = { s with score := t.score, bend := t.bend })
    (hscore : t.score.earlier = s.score.earlier ∧ t.score.settings = s.score.settings) :
    s.Marked t := by
  refine ⟨⟨s.settings.annotationSide, hscore.2⟩, ?_, ?_, ?_, ?_, hscore.1, h⟩
  all_goals rw [hframe]

theorem refl (s : Session) : s.Marked s :=
  of_active (by cases s.score.active <;> constructor; exact .refl _) rfl ⟨rfl, rfl⟩

theorem trans {s t u : Session} (h : s.Marked t) (h' : t.Marked u) : s.Marked u where
  settings := by
    obtain ⟨side, hside⟩ := h.settings
    obtain ⟨side', hside'⟩ := h'.settings
    exact ⟨side', by rw [hside', hside]⟩
  tuning := h'.tuning.trans h.tuning
  memory := h'.memory.trans h.memory
  duration := h'.duration.trans h.duration
  octaveShift := h'.octaveShift.trans h.octaveShift
  earlier := h'.earlier.trans h.earlier
  active := by
    have hactive := h.active
    have hactive' := h'.active
    generalize s.score.active = a at hactive ⊢
    generalize t.score.active = b at hactive hactive'
    generalize u.score.active = c at hactive' ⊢
    cases hactive with
    | none =>
        cases hactive'
        exact .none
    | some hab =>
        cases hactive' with
        | some hbc => exact .some (hab.trans hbc)

end Marked

variable {s : Session}

theorem marked_onActive {f : Stave → Stave} (h : ∀ a : Stave, a.Marked (f a)) :
    s.Marked (s.onActive f) := by
  refine .of_active ?_ rfl ⟨rfl, rfl⟩
  simp only [onActive, Score.onActive]
  cases s.score.active with
  | none => exact .none
  | some a => exact .some (h a)

theorem marked_onTabNotes {f : List Tickable → List Tickable}
    (h : ∀ notes, List.Forall₂ Tickable.Dressed notes (f notes)) : s.Marked (s.onTabNotes f) :=
  marked_onActive fun a => ⟨rfl, h a.tabNotes, List.forall₂_same.2 fun _ _ => .refl⟩

theorem marked_onStaffNotes {f : List Tickable → List Tickable}
    (h : ∀ a, s.score.active = some a →
      List.Forall₂ (Marks StaffAllows) a.staffNotes (f a.staffNotes)) :
    s.Marked (s.onStaffNotes f) := by
  cases ha : s.score.active with
  | none =>
      rw [onStaffNotes, onActive_eq_self ha]
      exact .refl s
  | some a =>
      rw [onStaffNotes, onActive_eq ha]
      refine .of_active ?_ rfl ⟨rfl, rfl⟩
      rw [ha]
      exact .some ⟨rfl, List.forall₂_same.2 fun _ _ => .refl, h a ha⟩

theorem marked_markLastTab (index : Nat) (m : Modifier) : s.Marked (s.markLastTab index m) :=
  marked_onTabNotes fun notes =>
    forall₂_modify (fun _ => .refl) (fun _ => .mark index m .refl) notes _

theorem marked_markLastStaff {m : Modifier} (h : m.isPlain) : s.Marked (s.markLastStaff 0 m) :=
  marked_onStaffNotes fun a _ =>
    forall₂_modify (fun _ => .refl) (fun _ => .add .refl (.inl ⟨rfl, h⟩)) a.staffNotes _

theorem marked_closeBends (through : Bool) : s.Marked (s.closeBends through) := by
  unfold closeBends
  split
  · exact .refl s
  · rename_i chain _
    have closed : ({ s with bend := none } : Session).Marked
        (({ s with bend := none } : Session).onTabNotes (chain.close through)) :=
      marked_onTabNotes fun notes => chain.forall₂_close (fun _ => .refl) .trans
        (fun _ index phrase => .mark index (.bend phrase) .refl) (fun _ => .hide .refl) through
        notes
    exact ⟨closed.settings, closed.tuning, closed.memory, closed.duration, closed.octaveShift,
      closed.earlier, closed.active⟩

/-! ## Articulations and decorations -/

theorem marked_of_score {t : Session} (h : t = { s with score := t.score, bend := t.bend })
    (hearlier : t.score.earlier = s.score.earlier) (hactive : t.score.active = s.score.active)
    (hsettings : t.score.settings = s.score.settings) : s.Marked t := by
  refine .of_active ?_ h ⟨hearlier, hsettings⟩
  rw [hactive]
  exact (Marked.refl s).active

theorem marked_openBends (earlier : Nat) (firstIndices lastIndices : List Nat) :
    s.Marked (s.openBends earlier firstIndices lastIndices) := by
  unfold openBends
  dsimp only
  split <;> exact marked_of_score rfl rfl rfl rfl

theorem marked_articulateTab (a : Stave) (tag : Articulation) (span : Span) :
    s.Marked (s.articulateTab a tag span) := by
  cases tag with
  | bend => exact marked_openBends _ _ _
  | vibrato => exact .refl s
  | harshVibrato => exact .refl s
  | slide => exact marked_of_score rfl rfl rfl rfl
  | hammerOn => exact marked_of_score rfl rfl rfl rfl
  | pullOff => exact marked_of_score rfl rfl rfl rfl
  | tap => exact marked_of_score rfl rfl rfl rfl
  | tapTie => exact marked_of_score rfl rfl rfl rfl

theorem marked_linkSpan (a : Stave) (tag : Articulation) (span : Option Span) :
    s.Marked (s.linkSpan a tag span) := by
  cases span with
  | none => exact .refl s
  | some span =>
      have linked (t : Session) : t.Marked (t.addStaffLink (.tie (t.staffLinkOf a span))) :=
        marked_of_score rfl rfl rfl rfl
      have onTab : s.Marked (if a.tab.isSome then s.articulateTab a tag span else s) := by
        split
        · exact marked_articulateTab a tag span
        · exact .refl s
      -- The link on the staff comes after whatever was done on tablature.
      simp only [linkSpan]
      cases span.isEmpty with
      | true => exact .refl s
      | false =>
          cases a.staff.isSome with
          | true => exact onTab.trans (linked _)
          | false => exact onTab

theorem marked_articulate (a : Stave) (tag : Articulation) (indices : List Nat) :
    s.Marked (s.articulate a tag indices) := by
  cases tag with
  | tap =>
      simp only [articulate]
      split
      · exact (marked_markLastTab _ _).trans (marked_linkSpan _ _ _)
      · exact marked_linkSpan _ _ _
  | vibrato => exact marked_markLastTab _ _
  | harshVibrato => exact marked_markLastTab _ _
  | bend => exact marked_linkSpan _ _ _
  | slide => exact marked_linkSpan _ _ _
  | hammerOn => exact marked_linkSpan _ _ _
  | pullOff => exact marked_linkSpan _ _ _
  | tapTie => exact marked_linkSpan _ _ _

theorem marked_articulateTagged (tags : List (Option Articulation)) (tag : Articulation) :
    s.Marked (articulateTagged tags s tag) := by
  simp only [articulateTagged]
  split
  · exact marked_articulate _ _ _
  · exact .refl s

theorem marked_applyTags (tags : List (Option Articulation)) : s.Marked (s.applyTags tags) := by
  have folded (all : List Articulation) (t : Session) :
      t.Marked (all.foldl (articulateTagged tags) t) := by
    induction all generalizing t with
    | nil => exact .refl t
    | cons tag all ih => exact (marked_articulateTagged tags tag).trans (ih _)
  simp only [applyTags]
  split
  · exact marked_closeBends false
  · split
    · exact folded _ s
    · exact (folded _ s).trans (marked_closeBends false)

theorem marked_decorate (decorator : Decorator) : s.Marked (s.decorate decorator) := by
  cases decorator with
  | vibrato => exact marked_markLastTab _ _
  | harshVibrato => exact marked_markLastTab _ _
  | upStroke => exact (marked_markLastTab _ _).trans (marked_markLastStaff rfl)
  | downStroke => exact (marked_markLastTab _ _).trans (marked_markLastStaff rfl)

theorem marked_decorateWith (decorator : Option Decorator) :
    s.Marked (s.decorateWith decorator) := by
  cases decorator with
  | none => exact .refl s
  | some decorator => exact marked_decorate decorator

theorem marked_applyChordTag (size : Nat) (tag : Option Articulation) :
    s.Marked (s.applyChordTag size tag) := by
  cases tag with
  | none => exact .refl s
  | some tag => exact marked_applyTags _

/-! ## Annotations -/

theorem marked_withSide (side : Side) : s.Marked (s.withSide side) :=
  ⟨⟨side, rfl⟩, rfl, rfl, rfl, rfl, rfl, (Marked.refl s).active⟩

theorem marked_annotateTexts (a : Stave) (tokens : List PlacedToken) (side : Side) :
    s.Marked (s.annotateTexts a tokens side).state := by
  unfold annotateTexts
  split
  · exact (marked_withSide side).trans (marked_onTabNotes fun notes =>
      (marks_applyLast marks_onTab tokens notes).imp fun _ _ => .of_marks)
  · split
    · exact .refl s
    · exact (marked_withSide side).trans (marked_onStaffNotes fun b _ =>
        marks_applyLast marks_captionOnStaff tokens b.staffNotes)

theorem marked_annotateStaff (a : Stave) (tokens : List PlacedToken) :
    s.Marked (annotateStaff a tokens s).state := by
  unfold annotateStaff
  split
  · exact .refl s
  · split
    · exact .refl s
    · show s.Marked (s.onStaffNotes fun _ =>
        (PlacedToken.applyLastUntil PlacedToken.onStaff tokens s.staffNotes).state)
      refine marked_onStaffNotes fun b hb => ?_
      rw [staffNotes_eq hb]
      exact marks_applyLastUntil marks_onStaff tokens b.staffNotes

theorem marked_addAnnotations (tokens : List String) :
    s.Marked (s.addAnnotations tokens).state := by
  refine Outcome.needing_related (R := Marked) .refl fun markups _ => ?_
  unfold withStave
  split
  · dsimp only
    split
    · exact .refl s
    · exact Outcome.andThen_related (R := Marked) .trans (marked_annotateTexts _ _ _)
        (marked_annotateStaff _ _)
  · exact .refl s

end Session

end Tablature
