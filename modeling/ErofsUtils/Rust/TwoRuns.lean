import ErofsUtils.Rust.Outcome

/-! # Two runs

Two runs of fallible code agree when both fail, or both return and their values are related.
Runs that agree step by step agree as a whole. -/
namespace ErofsUtils.Rust

variable {ε ε' α α' β β' : Type}

/-- Both runs fail, or both return related values. -/
inductive Agree (R : α → β → Prop) : Outcome ε α → Outcome ε' β → Prop
  | ok {a : α} {b : β} (h : R a b) : Agree R (.ok a) (.ok b)
  | error (e : Fault ε) (e' : Fault ε') : Agree R (.error e) (.error e')

variable {R : α → β → Prop} {S : α' → β' → Prop} {x : Outcome ε α} {y : Outcome ε' β}

theorem Agree.imp {R' : α → β → Prop} (h : Agree R x y) (himp : ∀ a b, R a b → R' a b) :
    Agree R' x y := by
  cases h with
  | ok h => exact .ok (himp _ _ h)
  | error e e' => exact .error e e'

/-- **One step after another.** -/
theorem Agree.bind {f : α → Outcome ε α'} {g : β → Outcome ε' β'} (h : Agree R x y)
    (hstep : ∀ a b, R a b → Agree S (f a) (g b)) : Agree S (x >>= f) (y >>= g) := by
  cases h with
  | ok h => exact hstep _ _ h
  | error e e' => exact .error e e'

/-- The values related are those that are returned. -/
theorem Agree.returned (h : Agree R x y) : Agree (fun a b => R a b ∧ x = .ok a) x y := by
  cases h with
  | ok h => exact .ok ⟨h, rfl⟩
  | error e e' => exact .error e e'

/-- A run agrees with itself. -/
theorem agree_self {R : α → α → Prop} (h : ∀ a, R a a) (x : Outcome ε α) : Agree R x x := by
  cases x with
  | ok a => exact .ok (h a)
  | error e => exact .error e e

theorem agree_same (x : Outcome ε α) : Agree (fun a b => a = b ∧ x = .ok a) x x :=
  (agree_self (fun _ => rfl) x).returned

/-- Both runs go on from values that are the same. -/
theorem Agree.bind_same {x : Outcome ε α} {y : Outcome ε' α} {f : α → Outcome ε α'}
    {g : α → Outcome ε' β'} (h : Agree Eq x y) (hstep : ∀ a, Agree S (f a) (g a)) :
    Agree S (x >>= f) (y >>= g) :=
  h.bind fun a _ hab => hab ▸ hstep a

end ErofsUtils.Rust
