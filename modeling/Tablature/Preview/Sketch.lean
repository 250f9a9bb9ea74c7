/-
# Tablature.Preview.Sketch — what comes of drawing something.

Two things can keep a drawing from being finished. The steps to a key are counted in integers of 32
bits, and the count can leave their range. And ledger lines are drawn one after the other until the
key is passed; so far out that two neighbouring lines are the same double, it is never passed. Ticks
are no third thing, for they are exact, of whatever size.
-/

namespace Tablature.Preview

/-- What comes of drawing something. -/
inductive Sketch (α : Type)
  | finished (a : α)
  /-- The steps to a key are no integer of 32 bits. Arithmetic that checks its range stops there, and
  any other would go on with a wrong number. -/
  | overflow
  /-- There is always one more ledger line. -/
  | endless
  deriving DecidableEq, Repr

namespace Sketch

variable {α β : Type}

/-- One thing after another: the first one that is not finished is the last one. -/
def andThen (x : Sketch α) (next : α → Sketch β) : Sketch β :=
  match x with
  | finished a => next a
  | overflow => overflow
  | endless => endless

instance : Monad Sketch where
  pure := finished
  bind := andThen

instance : LawfulMonad Sketch :=
  .mk' Sketch (fun x => by cases x <;> rfl) (fun _ _ => rfl) (fun x _ _ => by cases x <;> rfl)

/-- A loop, which gives nothing if it has no end. -/
def ofLoop : Option α → Sketch α
  | some a => finished a
  | none => endless

/-- Things one after the other. -/
def all : List (Sketch α) → Sketch (List α)
  | [] => finished []
  | x :: xs => do
      let a ← x
      let rest ← all xs
      return a :: rest

/-- What is finished, if it is. -/
def result? : Sketch α → Option α
  | finished a => some a
  | _ => none

/-- It gets finished. -/
def Finishes (x : Sketch α) : Prop := ∃ a, x = finished a

/-- If it gets finished, it has the property. -/
def Holds (P : α → Prop) (x : Sketch α) : Prop := ∀ a, x = finished a → P a

@[simp] theorem finishes_finished (a : α) : (finished a).Finishes := ⟨a, rfl⟩

theorem bind_eq_finished_iff {x : Sketch α} {next : α → Sketch β} {b : β} :
    x >>= next = finished b ↔ ∃ a, x = finished a ∧ next a = finished b := by
  cases x with
  | finished a =>
      constructor
      · intro h
        exact ⟨a, rfl, h⟩
      · rintro ⟨_, ⟨⟩, h⟩
        exact h
  | overflow => exact ⟨nofun, fun ⟨_, h, _⟩ => nomatch h⟩
  | endless => exact ⟨nofun, fun ⟨_, h, _⟩ => nomatch h⟩

theorem map_eq_finished_iff {x : Sketch α} {f : α → β} {b : β} :
    f <$> x = finished b ↔ ∃ a, x = finished a ∧ f a = b := by
  refine bind_eq_finished_iff.trans (exists_congr fun a => and_congr_right fun _ => ?_)
  exact ⟨fun h => by cases h; rfl, fun h => congrArg finished h⟩

theorem ofLoop_eq_finished_iff {x : Option α} {a : α} : ofLoop x = finished a ↔ x = some a := by
  cases x with
  | none => exact ⟨nofun, nofun⟩
  | some a' => exact ⟨fun h => by cases h; rfl, fun h => by cases h; rfl⟩

/-- Things are finished one after the other exactly if each of them is. -/
theorem all_eq_finished_iff {xs : List (Sketch α)} {as : List α} :
    all xs = finished as ↔ xs = as.map finished := by
  induction xs generalizing as with
  | nil =>
      cases as with
      | nil => exact ⟨fun _ => rfl, fun _ => rfl⟩
      | cons a as => exact ⟨nofun, nofun⟩
  | cons x xs ih =>
      rw [all, bind_eq_finished_iff]
      simp only [bind_eq_finished_iff, ih]
      constructor
      · rintro ⟨a, rfl, rest, rfl, ⟨⟩⟩
        rfl
      · intro h
        cases as with
        | nil => cases h
        | cons a as =>
            cases h
            exact ⟨a, rfl, as, rfl, rfl⟩

theorem result?_eq_some_iff {x : Sketch α} {a : α} : x.result? = some a ↔ x = finished a := by
  cases x with
  | finished a' => exact ⟨fun h => by cases h; rfl, fun h => by cases h; rfl⟩
  | overflow => exact ⟨nofun, nofun⟩
  | endless => exact ⟨nofun, nofun⟩

theorem finishes_bind_iff {x : Sketch α} {next : α → Sketch β} :
    (x >>= next).Finishes ↔ ∃ a, x = finished a ∧ (next a).Finishes := by
  simp only [Finishes, bind_eq_finished_iff]
  exact ⟨fun ⟨b, a, ha, hb⟩ => ⟨a, ha, b, hb⟩, fun ⟨a, ha, b, hb⟩ => ⟨b, a, ha, hb⟩⟩

theorem finishes_map_iff {x : Sketch α} {f : α → β} : (f <$> x).Finishes ↔ x.Finishes :=
  finishes_bind_iff.trans (exists_congr fun a => and_iff_left ⟨f a, rfl⟩)

theorem finishes_all_iff {xs : List (Sketch α)} : (all xs).Finishes ↔ ∀ x ∈ xs, x.Finishes := by
  constructor
  · rintro ⟨as, has⟩ x hx
    rw [all_eq_finished_iff.1 has] at hx
    obtain ⟨a, -, rfl⟩ := List.mem_map.1 hx
    exact ⟨a, rfl⟩
  · intro h
    induction xs with
    | nil => exact ⟨[], rfl⟩
    | cons x xs ih =>
        obtain ⟨a, rfl⟩ := h x List.mem_cons_self
        obtain ⟨as, has⟩ := ih fun x hx => h x (List.mem_cons_of_mem _ hx)
        refine ⟨a :: as, all_eq_finished_iff.2 ?_⟩
        rw [all_eq_finished_iff.1 has]
        rfl

section Holds

variable {P : α → Prop} {Q : β → Prop} {x : Sketch α}

theorem Holds.finished {a : α} (h : P a) : (finished a).Holds P := by
  rintro _ ⟨⟩
  exact h

theorem Holds.bind {next : α → Sketch β} (h : x.Holds P) (hnext : ∀ a, P a → (next a).Holds Q) :
    (x >>= next).Holds Q := by
  intro b hb
  obtain ⟨a, ha, hb⟩ := bind_eq_finished_iff.1 hb
  exact hnext a (h a ha) b hb

theorem Holds.map {f : α → β} (h : x.Holds P) (hf : ∀ a, P a → Q (f a)) : (f <$> x).Holds Q :=
  h.bind fun a ha => .finished (hf a ha)

theorem Holds.all {xs : List (Sketch α)} (h : ∀ x ∈ xs, x.Holds P) :
    (all xs).Holds fun as => ∀ a ∈ as, P a := by
  intro as has a ha
  rw [all_eq_finished_iff] at has
  exact h _ (has ▸ List.mem_map_of_mem ha) a rfl

/-- What every step keeps holds at the end. -/
theorem Holds.foldlM {f : α → β → Sketch α} {bs : List β} {a : α} (h : P a)
    (hstep : ∀ a, P a → ∀ b ∈ bs, (f a b).Holds P) : (bs.foldlM f a).Holds P := by
  induction bs generalizing a with
  | nil => exact .finished h
  | cons b bs ih =>
      rw [List.foldlM_cons]
      exact (hstep a h b List.mem_cons_self).bind fun a ha =>
        ih ha fun a ha b hb => hstep a ha b (List.mem_cons_of_mem _ hb)

end Holds

end Sketch

end Tablature.Preview
