import Mathlib.Tactic.SplitIfs
import Mathlib.Logic.Basic

/-!
`Result` and the `?` operator of the Rust code are `Except` and its bind. The lemmas here push a
computation through an `Ok` or an `Err`, and invert a bind that ended in `Ok`; `ensure` is the
`ensure!(cond, msg)` macro of `anyhow`.
-/

namespace SnarkVM

section Except

variable {ε ε' α β : Type}

@[simp] theorem except_pure (a : α) : (pure a : Except ε α) = .ok a := rfl

@[simp] theorem except_throw (e : ε) : (throw e : Except ε α) = .error e := rfl

@[simp] theorem except_ok_bind (a : α) (f : α → Except ε β) : (Except.ok a >>= f) = f a := rfl

@[simp] theorem except_error_bind (e : ε) (f : α → Except ε β) :
    (Except.error e >>= f) = Except.error e := rfl

/-- A `?` that ended in `Ok` had an `Ok` to continue from. -/
theorem except_bind_eq_ok {x : Except ε α} {f : α → Except ε β} {b : β} :
    x >>= f = .ok b ↔ ∃ a, x = .ok a ∧ f a = .ok b := by
  cases x <;> simp

/-- A `?` on a `Result<()>` that ended in `Ok`. -/
theorem except_bind_unit_eq_ok {x : Except ε Unit} {f : Unit → Except ε β} {b : β} :
    x >>= f = .ok b ↔ x = .ok () ∧ f () = .ok b := by
  cases x <;> simp

/-- `?` into another error type (`map_err`) keeps an `Ok`. -/
@[simp] theorem except_mapError_eq_ok {f : ε → ε'} {x : Except ε α} {a : α} :
    x.mapError f = .ok a ↔ x = .ok a := by
  cases x <;> simp [Except.mapError]

@[simp] theorem except_toOption_eq_some {x : Except ε α} {a : α} : x.toOption = some a ↔ x = .ok a := by
  cases x <;> simp [Except.toOption]

/-- A loop of `?`s (`for x in xs { f(x)? }`) ended in `Ok` exactly when every step did. -/
theorem except_forM_eq_ok {f : α → Except ε Unit} {xs : List α} :
    xs.forM f = .ok () ↔ ∀ x ∈ xs, f x = .ok () := by
  induction xs with
  | nil => simp [List.forM]
  | cons x xs ih => cases hx : f x <;> simp [List.forM_cons, hx, ih]

/-- `ensure!(cond, msg)`: `Ok(())` when `cond` holds, else `Err(msg)`. -/
def ensure (cond : Prop) [Decidable cond] (msg : ε) : Except ε Unit :=
  if cond then .ok () else .error msg

@[simp] theorem ensure_eq_ok {cond : Prop} [Decidable cond] {msg : ε} {u : Unit} :
    ensure cond msg = .ok u ↔ cond := by
  unfold ensure; split_ifs <;> simp_all

theorem ensure_of_not {cond : Prop} [Decidable cond] {msg : ε} (h : ¬ cond) :
    ensure cond msg = .error msg := if_neg h

end Except

/-! ### Stateful traversals

`check_transactions` runs `check_transaction` over a list with `?`: the state threads through
the elements that pass, and the first error stops the loop with the state it left. -/

section EStateM

variable {ε σ α β : Type}

theorem estate_run_bind (x : EStateM ε σ α) (g : α → EStateM ε σ β) (s : σ) :
    (x >>= g).run s =
      match x.run s with
      | .ok a s₁ => (g a).run s₁
      | .error e s₁ => .error e s₁ := rfl

/-- Each of `xs` in turn returns `Ok` under `f`, the state going from `s` to `s'`. -/
def PassesAll (f : α → EStateM ε σ Unit) : List α → σ → σ → Prop
  | [], s, s' => s' = s
  | x :: xs, s, s' => ∃ s₁, (f x).run s = .ok () s₁ ∧ PassesAll f xs s₁ s'

@[simp] theorem passesAll_nil {f : α → EStateM ε σ Unit} {s s' : σ} :
    PassesAll f [] s s' ↔ s' = s := Iff.rfl

theorem passesAll_cons {f : α → EStateM ε σ Unit} {x : α} {xs : List α} {s s' : σ} :
    PassesAll f (x :: xs) s s' ↔ ∃ s₁, (f x).run s = .ok () s₁ ∧ PassesAll f xs s₁ s' := Iff.rfl

/-- A traversal returns `Ok` exactly when every element passes in turn. -/
theorem estate_forM_eq_ok {f : α → EStateM ε σ Unit} :
    ∀ {xs : List α} {s s' : σ}, (xs.forM f).run s = .ok () s' ↔ PassesAll f xs s s'
  | [], s, s' => by
    simp only [passesAll_nil]
    exact ⟨fun h => (EStateM.Result.ok.inj h).2.symm, fun h => h ▸ rfl⟩
  | x :: xs, s, s' => by
    rw [List.forM_cons', estate_run_bind, passesAll_cons]
    rcases hx : (f x).run s with ⟨⟨⟩, s₁⟩ | ⟨e, s₁⟩
    · simp only [estate_forM_eq_ok, EStateM.Result.ok.injEq, true_and, exists_eq_left']
    · simp only [reduceCtorEq, false_and, exists_false]

/-- A traversal fails with `e` exactly when some element fails with `e` after the elements
before it all passed; the elements after it are not run. -/
theorem estate_forM_eq_error {f : α → EStateM ε σ Unit} :
    ∀ {xs : List α} {s : σ} {e : ε} {s' : σ}, (xs.forM f).run s = .error e s' ↔
      ∃ before x after s₁, xs = before ++ x :: after ∧ PassesAll f before s s₁ ∧
        (f x).run s₁ = .error e s'
  | [], s, e, s' => by
    refine ⟨fun h => (by cases h), ?_⟩
    rintro ⟨before, x, after, s₁, h, -⟩
    cases before <;> cases h
  | y :: ys, s, e, s' => by
    rw [List.forM_cons', estate_run_bind]
    simp only [List.cons_eq_append_iff]
    rcases hy : (f y).run s with ⟨⟨⟩, s₁⟩ | ⟨e₁, s₁⟩
    case ok =>
      simp only [estate_forM_eq_error]
      constructor
      · rintro ⟨before, x, after, s₂, rfl, hb, hx⟩
        exact ⟨y :: before, x, after, s₂, Or.inr ⟨before, rfl, rfl⟩, ⟨s₁, hy, hb⟩, hx⟩
      · rintro ⟨before, x, after, s₂, ⟨rfl, h⟩ | ⟨tail, rfl, rfl⟩, hb, hx⟩
        · cases (List.cons.inj h).1
          cases hb
          rw [hy] at hx; cases hx
        · obtain ⟨s₃, h₃, hb⟩ := hb
          rw [hy] at h₃; cases h₃
          exact ⟨tail, x, after, s₂, rfl, hb, hx⟩
    case error =>
      constructor
      · rintro ⟨⟩
        exact ⟨[], y, ys, s, Or.inl ⟨rfl, rfl⟩, rfl, hy⟩
      · rintro ⟨before, x, after, s₂, ⟨rfl, h⟩ | ⟨tail, rfl, rfl⟩, hb, hx⟩
        · cases (List.cons.inj h).1
          cases hb
          rw [hy] at hx; exact hx
        · obtain ⟨s₃, h₃, -⟩ := hb
          rw [hy] at h₃; cases h₃

theorem estate_run_adaptExcept {ε' : Type} (f : ε → ε') (x : EStateM ε σ α) (s : σ) :
    (x.adaptExcept f).run s =
      match x.run s with
      | .ok a s₁ => .ok a s₁
      | .error e s₁ => .error (f e) s₁ := by
  delta EStateM.run EStateM.adaptExcept
  cases x s <;> rfl

/-- `map_err` passes on `Ok` as it is. -/
theorem estate_adaptExcept_eq_ok {ε' : Type} {f : ε → ε'} {x : EStateM ε σ α} {s s' : σ}
    {a : α} : (x.adaptExcept f).run s = .ok a s' ↔ x.run s = .ok a s' := by
  rw [estate_run_adaptExcept]; cases x.run s <;> simp

/-- `map_err` maps the error and keeps the state it was raised in. -/
theorem estate_adaptExcept_eq_error {ε' : Type} {f : ε → ε'} {x : EStateM ε σ α} {s s' : σ}
    {e' : ε'} : (x.adaptExcept f).run s = .error e' s' ↔ ∃ e, x.run s = .error e s' ∧ f e = e' := by
  rw [estate_run_adaptExcept]; cases x.run s <;> simp [and_assoc, and_comm]

end EStateM

end SnarkVM
