/-
# Tablature.Outcome — operations that may stop half way.

An operation on a state leaves a state in every case. When it stops early, `fault` says why, and
`state` holds what had been done until then; nothing is taken back. Sequences of operations stop
at the first fault.
-/
namespace Tablature

/-- The state after an operation and, if it stopped early, the reason. -/
structure Outcome (ε σ : Type) where
  state : σ
  fault : Option ε

namespace Outcome

variable {ε ε' σ τ α : Type}

/-- The operation went through. -/
def done (state : σ) : Outcome ε σ := ⟨state, none⟩

/-- The operation stopped. -/
def stopped (state : σ) (fault : ε) : Outcome ε σ := ⟨state, some fault⟩

/-- A second operation, unless the first one stopped. -/
def andThen (o : Outcome ε σ) (next : σ → Outcome ε σ) : Outcome ε σ :=
  match o.fault with
  | none => next o.state
  | some _ => o

/-- The same outcome with another description of the fault. -/
def mapFault (f : ε → ε') (o : Outcome ε σ) : Outcome ε' σ := ⟨o.state, o.fault.map f⟩

/-- The same outcome seen on another state. -/
def mapState (f : σ → τ) (o : Outcome ε σ) : Outcome ε τ := ⟨f o.state, o.fault⟩

/-- One operation for each member of a list, until one stops. -/
def forEach (step : α → σ → Outcome ε σ) : List α → σ → Outcome ε σ
  | [], state => done state
  | a :: rest, state => (step a state).andThen (forEach step rest)

/-- The operation needs a value that may not be there; without it nothing happens. -/
def needing (value : Except ε α) (state : σ) (next : α → Outcome ε σ) : Outcome ε σ :=
  match value with
  | .ok a => next a
  | .error fault => stopped state fault

@[simp] theorem andThen_done (state : σ) (next : σ → Outcome ε σ) :
    (done state).andThen next = next state := rfl

@[simp] theorem andThen_stopped (state : σ) (fault : ε) (next : σ → Outcome ε σ) :
    (stopped state fault).andThen next = stopped state fault := rfl

theorem andThen_of_none {o : Outcome ε σ} {next : σ → Outcome ε σ} (h : o.fault = none) :
    o.andThen next = next o.state := by
  rw [andThen, h]

theorem andThen_of_some {o : Outcome ε σ} {next : σ → Outcome ε σ} {fault : ε}
    (h : o.fault = some fault) : o.andThen next = o := by
  rw [andThen, h]

theorem eq_done_of_fault {o : Outcome ε σ} (h : o.fault = none) : o = done o.state := by
  rw [done, ← h]

/-- A sequence that goes through has gone through both operations. -/
theorem fault_andThen_eq_none {o : Outcome ε σ} {next : σ → Outcome ε σ}
    (h : (o.andThen next).fault = none) : o.fault = none ∧ (next o.state).fault = none := by
  cases ho : o.fault with
  | none =>
      rw [andThen_of_none ho] at h
      exact ⟨rfl, h⟩
  | some fault =>
      rw [andThen, ho] at h
      rw [ho] at h
      cases h

@[simp] theorem forEach_nil (step : α → σ → Outcome ε σ) (state : σ) :
    forEach step [] state = done state := rfl

@[simp] theorem forEach_cons (step : α → σ → Outcome ε σ) (a : α) (rest : List α) (state : σ) :
    forEach step (a :: rest) state = (step a state).andThen (forEach step rest) := rfl

theorem forEach_append (step : α → σ → Outcome ε σ) (xs ys : List α) (state : σ) :
    forEach step (xs ++ ys) state = (forEach step xs state).andThen (forEach step ys) := by
  induction xs generalizing state with
  | nil => rfl
  | cons a xs ih =>
      simp only [List.cons_append, forEach_cons, andThen]
      cases h : (step a state).fault with
      | none => simp only [ih]; rfl
      | some fault => simp [h]

theorem andThen_done_right (o : Outcome ε σ) : o.andThen done = o := by
  obtain ⟨state, _ | fault⟩ := o <;> rfl

theorem forEach_singleton (step : α → σ → Outcome ε σ) (a : α) (state : σ) :
    forEach step [a] state = step a state := andThen_done_right _

theorem forEach_flatMap {β : Type} (step : β → σ → Outcome ε σ) (f : α → List β) (xs : List α)
    (state : σ) :
    forEach step (xs.flatMap f) state = forEach (fun a => forEach step (f a)) xs state := by
  induction xs generalizing state with
  | nil => rfl
  | cons a xs ih =>
      rw [List.flatMap_cons, forEach_append, forEach_cons]
      exact congrArg _ (funext ih)

/-! ## Where a sequence stops -/

theorem fault_andThen_iff {o : Outcome ε σ} {next : σ → Outcome ε σ} {fault : ε} :
    (o.andThen next).fault = some fault ↔
      o.fault = some fault ∨ (o.fault = none ∧ (next o.state).fault = some fault) := by
  unfold andThen
  cases ho : o.fault with
  | none => simp
  | some other => simp [ho]

/-- A list stops at its first member that does, in the state that those before it have left. -/
theorem fault_forEach_iff {step : α → σ → Outcome ε σ} {xs : List α} {state : σ} {fault : ε} :
    (forEach step xs state).fault = some fault ↔
      ∃ before a after, xs = before ++ a :: after ∧ (forEach step before state).fault = none ∧
        (step a (forEach step before state).state).fault = some fault := by
  induction xs generalizing state with
  | nil =>
      constructor
      · intro h
        cases h
      · rintro ⟨before, a, after, hxs, -⟩
        cases before <;> cases hxs
  | cons first xs ih =>
      rw [forEach_cons, fault_andThen_iff]
      constructor
      · rintro (hfirst | ⟨hfirst, hrest⟩)
        · exact ⟨[], first, xs, rfl, rfl, hfirst⟩
        · obtain ⟨before, a, after, rfl, hbefore, ha⟩ := ih.1 hrest
          refine ⟨first :: before, a, after, rfl, ?_, ?_⟩
          · rw [forEach_cons, andThen_of_none hfirst, hbefore]
          · rw [forEach_cons, andThen_of_none hfirst, ha]
      · rintro ⟨before, a, after, hxs, hbefore, ha⟩
        cases before with
        | nil =>
            cases hxs
            exact .inl ha
        | cons b before =>
            cases hxs
            obtain ⟨hfirst, hrest⟩ := fault_andThen_eq_none hbefore
            rw [forEach_cons, andThen_of_none hfirst] at ha
            exact .inr ⟨hfirst, ih.2 ⟨before, a, after, rfl, hrest, ha⟩⟩

theorem mapState_andThen {f : σ → τ} {next : σ → Outcome ε σ} {next' : τ → Outcome ε τ}
    (h : ∀ s, next' (f s) = (next s).mapState f) (o : Outcome ε σ) :
    (o.mapState f).andThen next' = (o.andThen next).mapState f := by
  obtain ⟨state, _ | fault⟩ := o
  · exact h state
  · rfl

theorem mapState_needing {f : σ → τ} {value : Except ε α} {next : α → Outcome ε σ}
    {next' : α → Outcome ε τ} (h : ∀ a, next' a = (next a).mapState f) (state : σ) :
    needing value (f state) next' = (needing value state next).mapState f := by
  cases value with
  | ok a => exact h a
  | error fault => rfl

theorem mapFault_andThen (f : ε → ε') (o : Outcome ε σ) (next : σ → Outcome ε σ) :
    (o.andThen next).mapFault f = (o.mapFault f).andThen fun s => (next s).mapFault f := by
  obtain ⟨state, _ | fault⟩ := o <;> rfl

theorem mapFault_forEach (f : ε → ε') (step : α → σ → Outcome ε σ) (xs : List α) (state : σ) :
    (forEach step xs state).mapFault f = forEach (fun a s => (step a s).mapFault f) xs state := by
  induction xs generalizing state with
  | nil => rfl
  | cons a xs ih =>
      rw [forEach_cons, mapFault_andThen, forEach_cons]
      exact congrArg _ (funext ih)

/-- Faults may be described in any way, for each member of a list in its own: this changes neither
the states nor where the list stops. -/
theorem forEach_described {step : α → σ → Outcome ε σ} {step' : α → σ → Outcome ε' σ}
    (h : ∀ a s, (step' a s).state = (step a s).state ∧
      ((step' a s).fault = none ↔ (step a s).fault = none)) (xs : List α) (state : σ) :
    (forEach step' xs state).state = (forEach step xs state).state ∧
      ((forEach step' xs state).fault = none ↔ (forEach step xs state).fault = none) := by
  induction xs generalizing state with
  | nil => exact ⟨rfl, by simp [done]⟩
  | cons a xs ih =>
      obtain ⟨hstate, hfault⟩ := h a state
      rw [forEach_cons, forEach_cons]
      cases ha : (step a state).fault with
      | none =>
          rw [andThen_of_none ha, andThen_of_none (hfault.2 ha), hstate]
          exact ih _
      | some fault =>
          cases ha' : (step' a state).fault with
          | none => exact absurd (ha.symm.trans (hfault.1 ha')) (by simp)
          | some fault' =>
              rw [andThen_of_some ha, andThen_of_some ha', ha, ha']
              exact ⟨hstate, by simp⟩

/-! ## Relations between a state and the one after it -/

section Related

variable {R : σ → σ → Prop}

theorem andThen_related (trans : ∀ {a b c}, R a b → R b c → R a c) {state : σ} {o : Outcome ε σ}
    {next : σ → Outcome ε σ} (first : R state o.state) (second : R o.state (next o.state).state) :
    R state (o.andThen next).state := by
  unfold andThen
  split
  · exact trans first second
  · exact first

theorem forEach_related (refl : ∀ a, R a a) (trans : ∀ {a b c}, R a b → R b c → R a c)
    {step : α → σ → Outcome ε σ} (each : ∀ a t, R t (step a t).state) (xs : List α) (state : σ) :
    R state (forEach step xs state).state := by
  induction xs generalizing state with
  | nil => exact refl state
  | cons a xs ih =>
      rw [forEach_cons]
      refine andThen_related (R := R) trans (each a state) ?_
      exact ih _

theorem needing_related (refl : ∀ a, R a a) {value : Except ε α} {state : σ}
    {next : α → Outcome ε σ} (each : ∀ a, value = .ok a → R state (next a).state) :
    R state (needing value state next).state := by
  cases value with
  | ok a => exact each a rfl
  | error fault => exact refl state

end Related

/-! ## What operations keep -/

section Kept

variable {P : σ → Prop}

theorem andThen_kept {o : Outcome ε σ} {next : σ → Outcome ε σ} (first : P o.state)
    (second : P (next o.state).state) : P (o.andThen next).state := by
  unfold andThen
  split
  · exact second
  · exact first

theorem forEach_kept {step : α → σ → Outcome ε σ} {xs : List α}
    (each : ∀ a ∈ xs, ∀ t, P t → P (step a t).state) {state : σ} (h : P state) :
    P (forEach step xs state).state := by
  induction xs generalizing state with
  | nil => exact h
  | cons a xs ih =>
      have hfirst := each a List.mem_cons_self state h
      exact andThen_kept hfirst (ih (fun b hb => each b (List.mem_cons_of_mem a hb)) hfirst)

theorem needing_kept {value : Except ε α} {state : σ} {next : α → Outcome ε σ} (h : P state)
    (each : ∀ a, value = .ok a → P (next a).state) : P (needing value state next).state := by
  cases value with
  | ok a => exact each a rfl
  | error fault => exact h

end Kept

end Outcome

end Tablature
