/-
# Tablature.Proofs.Voices — voices compared object by object.

Two voices are compared with `List.Forall₂`: they have the same length and what stands at one place
of the first is related to what stands there in the second. The comparison can be read place by
place (`forall₂_iff_getElem?`), follows a change of either side, and carries over to what the linker
reads: the last member with a property, and the span that ends at the last note.
-/
import Mathlib.Data.List.Forall2
import Tablature.Session.Articulate

namespace Tablature

/-! ## Comparisons place by place -/

section Compare

variable {α β γ : Type}

theorem forall₂_iff_getElem? {R : α → β → Prop} {xs : List α} {ys : List β} :
    List.Forall₂ R xs ys ↔ ∀ i : Nat, Option.Rel R xs[i]? ys[i]? := by
  constructor
  · intro h
    induction h with
    | nil =>
        intro i
        simp
    | cons hab _ ih =>
        intro i
        cases i with
        | zero => simpa using Option.Rel.some hab
        | succ i => simpa using ih i
  · -- The places say which list ends first, so both lists are taken apart together.
    intro h
    induction xs generalizing ys with
    | nil =>
        cases ys with
        | nil => exact .nil
        | cons b ys => nomatch h 0
    | cons a xs ih =>
        cases ys with
        | nil => nomatch h 0
        | cons b ys =>
            cases h 0 with
            | some hab => exact .cons hab (ih fun i => by simpa using h (i + 1))

theorem forall₂_getElem? {R : α → β → Prop} {xs : List α} {ys : List β} {a : α}
    (h : List.Forall₂ R xs ys) {i : Nat} (ha : xs[i]? = some a) : ∃ b, ys[i]? = some b ∧ R a b := by
  have hi := forall₂_iff_getElem?.1 h i
  rw [ha] at hi
  generalize ys[i]? = y at hi
  cases hi with
  | some hab => exact ⟨_, rfl, hab⟩

/-- Each member of the first list is related to one of the second. -/
theorem exists_of_mem_forall₂ {R : α → β → Prop} {xs : List α} {ys : List β}
    (h : List.Forall₂ R xs ys) {a : α} (ha : a ∈ xs) : ∃ b ∈ ys, R a b := by
  induction h with
  | nil => cases ha
  | cons hab _ ih =>
      rcases List.mem_cons.1 ha with rfl | hmem
      · exact ⟨_, List.mem_cons_self, hab⟩
      · obtain ⟨b, hb, hR⟩ := ih hmem
        exact ⟨b, List.mem_cons_of_mem _ hb, hR⟩

/-- What related members have in common is the same list for both. -/
theorem map_eq_of_forall₂ {R : α → β → Prop} {f : α → γ} {g : β → γ} {xs : List α} {ys : List β}
    (h : List.Forall₂ R xs ys) (same : ∀ a b, R a b → g b = f a) : ys.map g = xs.map f := by
  induction h with
  | nil => rfl
  | cons hab _ ih => rw [List.map_cons, List.map_cons, same _ _ hab, ih]

/-- Two comparisons one after the other. -/
theorem forall₂_comp {R : α → β → Prop} {S : β → γ → Prop} {T : α → γ → Prop}
    {xs : List α} {ys : List β} {zs : List γ} (hR : List.Forall₂ R xs ys)
    (hS : List.Forall₂ S ys zs) (comp : ∀ a b c, R a b → S b c → T a c) :
    List.Forall₂ T xs zs := by
  induction hR generalizing zs with
  | nil =>
      cases hS
      exact .nil
  | cons hab _ ih =>
      cases hS with
      | cons hbc hrest => exact .cons (comp _ _ _ hab hbc) (ih hrest)

/-- A comparison follows a change of its left side. -/
theorem forall₂_of_left {S : α → α → Prop} {R : α → β → Prop} {xs xs' : List α} {ys : List β}
    (hS : List.Forall₂ S xs xs') (hR : List.Forall₂ R xs ys)
    (keep : ∀ a a' b, S a a' → R a b → R a' b) : List.Forall₂ R xs' ys :=
  have hflip : List.Forall₂ (flip S) xs' xs := (List.Forall₂.imp (fun _ _ h => h) hS).flip
  forall₂_comp hflip hR fun a' a b => keep a a' b

theorem map_mapIdx {f : Nat → α → β} (g : β → γ) (xs : List α) :
    (xs.mapIdx f).map g = xs.mapIdx fun i x => g (f i x) := by
  apply List.ext_getElem?
  intro i
  rw [List.getElem?_map, List.getElem?_mapIdx, List.getElem?_mapIdx, Option.map_map]
  rfl

/-- A change of the last member. -/
theorem modify_append_singleton (f : α → α) (xs : List α) (x : α) :
    (xs ++ [x]).modify xs.length f = xs ++ [f x] := by
  induction xs with
  | nil => rfl
  | cons y xs ih => exact congrArg (y :: ·) ih

theorem forall₂_modify {R : α → α → Prop} (refl : ∀ a, R a a) {f : α → α} (h : ∀ a, R a (f a))
    (xs : List α) (i : Nat) : List.Forall₂ R xs (xs.modify i f) := by
  refine forall₂_iff_getElem?.2 fun j => ?_
  rw [List.getElem?_modify]
  cases xs[j]? with
  | none => exact .none
  | some a =>
      refine .some ?_
      split
      · exact h a
      · exact refl a

theorem forall₂_dropLast {R : α → β → Prop} {xs : List α} {ys : List β}
    (h : List.Forall₂ R xs ys) : List.Forall₂ R xs.dropLast ys.dropLast := by
  rw [List.dropLast_eq_take, List.dropLast_eq_take, h.length_eq]
  exact List.forall₂_take _ h

/-- A list compared with one that differs from some place on. -/
theorem forall₂_take_append {R : α → α → Prop} (refl : ∀ a, R a a) {xs ys : List α} {start : Nat}
    (h : List.Forall₂ R (xs.drop start) ys) : List.Forall₂ R xs (xs.take start ++ ys) := by
  have same : List.Forall₂ R (xs.take start) (xs.take start) :=
    List.forall₂_same.2 fun a _ => refl a
  have whole : List.Forall₂ R (xs.take start ++ xs.drop start) (xs.take start ++ ys) :=
    List.rel_append same h
  rwa [List.take_append_drop] at whole

theorem forall₂_getLast? {R : α → β → Prop} {xs : List α} {ys : List β}
    (h : List.Forall₂ R xs ys) : Option.Rel R xs.getLast? ys.getLast? := by
  rw [List.getLast?_eq_getElem?, List.getLast?_eq_getElem?, h.length_eq]
  exact forall₂_iff_getElem?.1 h _

end Compare

/-! ## The last member with a property -/

theorem lastIndex?_congr {α β : Type} {p : α → Bool} {q : β → Bool} {xs : List α} {ys : List β}
    (h : List.Forall₂ (fun a b => p a = q b) xs ys) : lastIndex? p xs = lastIndex? q ys := by
  induction h with
  | nil => rfl
  | cons hab _ ih => rw [lastIndex?, lastIndex?, ih, hab]

/-! ## What the linker reads of an object -/

namespace Tickable

/-- The positions of a note on tablature. -/
def positions? : Tickable → Option (List TabPosition)
  | tab n => some n.positions
  | _ => none

/-- Two objects are alike for the linker: both visible or not, with the same positions. -/
def SameOutline (a b : Tickable) : Prop :=
  a.isLiveTab = b.isLiveTab ∧ a.positions? = b.positions?

theorem sameOutline_mark (t : Tickable) (index : Nat) (m : Modifier) :
    SameOutline t (t.mark index m) := by
  cases t <;> exact ⟨rfl, rfl⟩

/-- Objects alike for the linker are two notes with the same positions, or no notes at all. -/
theorem SameOutline.tab_or {a b : Tickable} (h : SameOutline a b) :
    (∃ n n', a = tab n ∧ b = tab n' ∧ n.positions = n'.positions) ∨
    ((∀ n, a ≠ tab n) ∧ ∀ n, b ≠ tab n) := by
  obtain ⟨_, hpositions⟩ := h
  cases a with
  | tab n =>
      cases b with
      | tab n' => exact .inl ⟨n, n', rfl, rfl, Option.some.inj hpositions⟩
      | _ => cases hpositions
  | _ =>
      cases b with
      | tab n' => cases hpositions
      | _ =>
          right
          constructor <;>
          · intro n hn
            cases hn

end Tickable

theorem Span.ofNotes?_congr {xs ys : List Tickable} (h : List.Forall₂ Tickable.SameOutline xs ys)
    (indices : List Nat) : Span.ofNotes? xs indices = Span.ofNotes? ys indices := by
  have hprev : Span.previousLive? xs = Span.previousLive? ys :=
    lastIndex?_congr ((forall₂_dropLast h).imp fun _ _ hab => hab.1)
  rw [ofNotes?, ofNotes?, hprev]
  cases Span.previousLive? ys with
  | none => rfl
  | some previous =>
      have hfirst := forall₂_iff_getElem?.1 h previous
      have hlast := forall₂_getLast? h
      dsimp only
      generalize xs[previous]? = a at hfirst ⊢
      generalize ys[previous]? = b at hfirst ⊢
      generalize xs.getLast? = c at hlast ⊢
      generalize ys.getLast? = d at hlast ⊢
      cases hfirst with
      | none => rfl
      | @some a b hab =>
          cases hlast with
          | none => cases a <;> cases b <;> rfl
          | @some c d hcd =>
              -- Only two notes make a span, and what it connects is read from their positions.
              rcases hab.tab_or with ⟨n, n', rfl, rfl, hn⟩ | ⟨hnot, hnot'⟩
              · rcases hcd.tab_or with ⟨k, k', rfl, rfl, hk⟩ | ⟨hnot, hnot'⟩
                · simp only [Span.between, hn, hk]
                · cases c with
                  | tab n => exact absurd rfl (hnot n)
                  | _ =>
                      cases d with
                      | tab n => exact absurd rfl (hnot' n)
                      | _ => rfl
              · cases a with
                | tab n => exact absurd rfl (hnot n)
                | _ =>
                    cases b with
                    | tab n => exact absurd rfl (hnot' n)
                    | _ => rfl

theorem Span.ofNotes?_modify_mark (notes : List Tickable) (i index : Nat) (m : Modifier)
    (indices : List Nat) :
    Span.ofNotes? (notes.modify i (.mark index m)) indices = Span.ofNotes? notes indices :=
  (ofNotes?_congr (forall₂_modify (fun _ => ⟨rfl, rfl⟩) (fun t => t.sameOutline_mark index m)
    notes i) indices).symm

/-! ## What tuplets and bends do to a voice -/

@[simp] theorem Session.length_scaleLast (count : Nat) (factor : Ticks) (notes : List Tickable) :
    (Session.scaleLast count factor notes).length = notes.length := by
  simp only [Session.scaleLast, List.length_append, List.length_take, List.length_map,
    List.length_drop]
  omega

/-- Two voices of one length are scaled at the same places. -/
theorem forall₂_scaleLast {R : Tickable → Tickable → Prop} {factor : Ticks}
    (h : ∀ a b, R a b → R (a.scaleTicks factor) (b.scaleTicks factor)) {xs ys : List Tickable}
    (hR : List.Forall₂ R xs ys) (count : Nat) :
    List.Forall₂ R (Session.scaleLast count factor xs) (Session.scaleLast count factor ys) := by
  rw [Session.scaleLast, Session.scaleLast, hR.length_eq]
  refine List.rel_append (List.forall₂_take _ hR) ?_
  rw [List.forall₂_map_left_iff, List.forall₂_map_right_iff]
  exact (List.forall₂_drop _ hR).imp h

theorem BendChain.forall₂_hideRange {R : Tickable → Tickable → Prop} (refl : ∀ t, R t t)
    (hide : ∀ t : Tickable, R t t.hide) (start stop : Nat) (notes : List Tickable) :
    List.Forall₂ R notes (hideRange start stop notes) := by
  refine forall₂_iff_getElem?.2 fun i => ?_
  rw [hideRange, List.getElem?_mapIdx]
  cases notes[i]? with
  | none => exact .none
  | some t =>
      refine .some ?_
      dsimp only
      split
      · exact hide t
      · exact refl t

/-- The closing of a chain marks objects with bends, hides objects, and does nothing else. -/
theorem BendChain.forall₂_close {R : Tickable → Tickable → Prop} (refl : ∀ t, R t t)
    (trans : ∀ {t u v}, R t u → R u v → R t v)
    (mark : ∀ (t : Tickable) (index : Nat) (phrase : List BendStep),
      R t (t.mark index (.bend phrase)))
    (hide : ∀ t : Tickable, R t t.hide) (chain : BendChain) (through : Bool)
    (notes : List Tickable) : List.Forall₂ R notes (chain.close through notes) := by
  have anchored (phrases : List (Nat × List BendStep)) (t : Tickable) :
      R t (markAnchor phrases t) := by
    induction phrases generalizing t with
    | nil => exact refl t
    | cons phrase phrases ih => exact trans (mark t phrase.1 phrase.2) (ih _)
  have marked := forall₂_modify refl (anchored chain.phrases) notes chain.anchor
  exact forall₂_comp marked (forall₂_hideRange refl hide _ _ _) fun _ _ _ => trans

end Tablature
