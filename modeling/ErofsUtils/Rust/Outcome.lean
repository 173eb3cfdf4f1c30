import Mathlib.Tactic.Ring

/-! # Outcomes of checked execution

A run of fallible code returns a value, returns an error of its own, or stops in
a panic. Checked arithmetic stops the run where a sum, product, difference or shift
does not fit its word; where it returns, wrapping arithmetic returns the same. -/
namespace ErofsUtils.Rust

/-- What stops a run that does not return. -/
inductive Panic where
  | overflow
  | bounds
  | capacity
  | assertion (msg : String)
deriving DecidableEq, Repr

inductive Fault (ε : Type) where
  | fail (e : ε)
  | panic (p : Panic)
deriving DecidableEq, Repr

abbrev Outcome (ε α : Type) := Except (Fault ε) α

variable {ε α β : Type}

def fail (e : ε) : Outcome ε α := .error (.fail e)
def abort (p : Panic) : Outcome ε α := .error (.panic p)

/-- The run returns or reports an error of its own. -/
def NoPanic (x : Outcome ε α) : Prop := ∀ p, x ≠ .error (.panic p)

@[simp] theorem bind_ok (a : α) (f : α → Outcome ε β) : ((.ok a : Outcome ε α) >>= f) = f a := rfl

@[simp] theorem bind_error (e : Fault ε) (f : α → Outcome ε β) :
    ((.error e : Outcome ε α) >>= f) = .error e := rfl

@[simp] theorem bind_fail (e : ε) (f : α → Outcome ε β) :
    ((fail e : Outcome ε α) >>= f) = fail e := rfl

@[simp] theorem bind_abort (p : Panic) (f : α → Outcome ε β) :
    ((abort p : Outcome ε α) >>= f) = abort p := rfl

@[simp] theorem pure_eq_ok (a : α) : (pure a : Outcome ε α) = .ok a := rfl

@[simp] theorem map_ok (a : α) (f : α → β) : f <$> (.ok a : Outcome ε α) = .ok (f a) := rfl

@[simp] theorem fail_ne_ok (e : ε) (a : α) : (fail e : Outcome ε α) ≠ .ok a := nofun
@[simp] theorem abort_ne_ok (p : Panic) (a : α) : (abort p : Outcome ε α) ≠ .ok a := nofun

theorem bind_eq_ok {x : Outcome ε α} {f : α → Outcome ε β} {b : β} :
    (x >>= f) = .ok b ↔ ∃ a, x = .ok a ∧ f a = .ok b := by
  cases x with
  | error e => simp
  | ok a => simp

theorem map_eq_ok {x : Outcome ε α} {f : α → β} {b : β} :
    f <$> x = .ok b ↔ ∃ a, x = .ok a ∧ f a = b := by
  cases x with
  | error e => simp [Functor.map, Except.map]
  | ok a => simp

/-! ## No panic -/

@[simp] theorem noPanic_ok (a : α) : NoPanic (.ok a : Outcome ε α) := nofun
@[simp] theorem noPanic_fail (e : ε) : NoPanic (fail e : Outcome ε α) := by
  intro p h; cases h
@[simp] theorem not_noPanic_abort (p : Panic) : ¬ NoPanic (abort p : Outcome ε α) :=
  fun h => h p rfl

/-- A sequence is safe where its first step is and what follows each result of it. -/
theorem noPanic_bind {x : Outcome ε α} {f : α → Outcome ε β} :
    NoPanic (x >>= f) ↔ NoPanic x ∧ ∀ a, x = .ok a → NoPanic (f a) := by
  cases x with
  | error e =>
    rw [bind_error]
    refine ⟨fun h => ⟨fun p hp => ?_, nofun⟩, fun h p hp => ?_⟩
    · cases hp
      exact h p rfl
    · cases hp
      exact h.1 p rfl
  | ok a => simp

theorem noPanic_map {x : Outcome ε α} {f : α → β} : NoPanic (f <$> x) ↔ NoPanic x := by
  cases x with
  | error e =>
    refine ⟨fun h p hp => ?_, fun h p hp => ?_⟩
    · cases hp
      exact h p rfl
    · cases hp
      exact h p rfl
  | ok a => simp

/-! ## Checked words -/

def checkedAdd (w a b : Nat) : Outcome ε Nat :=
  if a + b < 2 ^ w then .ok (a + b) else abort .overflow

def checkedMul (w a b : Nat) : Outcome ε Nat :=
  if a * b < 2 ^ w then .ok (a * b) else abort .overflow

def checkedSub (a b : Nat) : Outcome ε Nat :=
  if b ≤ a then .ok (a - b) else abort .overflow

/-- `1 << n` in a word of `w` bits. -/
def checkedShl (w n : Nat) : Outcome ε Nat :=
  if n < w then .ok (2 ^ n) else abort .overflow

@[simp] theorem checkedAdd_eq_ok {w a b c : Nat} :
    (checkedAdd w a b : Outcome ε Nat) = .ok c ↔ a + b < 2 ^ w ∧ a + b = c := by
  unfold checkedAdd; split <;> simp <;> omega

@[simp] theorem checkedMul_eq_ok {w a b c : Nat} :
    (checkedMul w a b : Outcome ε Nat) = .ok c ↔ a * b < 2 ^ w ∧ a * b = c := by
  unfold checkedMul; split <;> simp <;> omega

@[simp] theorem checkedSub_eq_ok {a b c : Nat} :
    (checkedSub a b : Outcome ε Nat) = .ok c ↔ b ≤ a ∧ a - b = c := by
  unfold checkedSub; split <;> simp <;> omega

@[simp] theorem checkedShl_eq_ok {w n c : Nat} :
    (checkedShl w n : Outcome ε Nat) = .ok c ↔ n < w ∧ 2 ^ n = c := by
  unfold checkedShl; split <;> simp <;> omega

theorem checkedAdd_ok {w a b : Nat} (h : a + b < 2 ^ w) :
    (checkedAdd w a b : Outcome ε Nat) = .ok (a + b) := if_pos h

theorem checkedMul_ok {w a b : Nat} (h : a * b < 2 ^ w) :
    (checkedMul w a b : Outcome ε Nat) = .ok (a * b) := if_pos h

theorem checkedSub_ok {a b : Nat} (h : b ≤ a) :
    (checkedSub a b : Outcome ε Nat) = .ok (a - b) := if_pos h

theorem checkedShl_ok {w n : Nat} (h : n < w) :
    (checkedShl w n : Outcome ε Nat) = .ok (2 ^ n) := if_pos h

@[simp] theorem noPanic_checkedAdd {w a b : Nat} :
    NoPanic (checkedAdd w a b : Outcome ε Nat) ↔ a + b < 2 ^ w := by
  unfold checkedAdd; split <;> simp [*]

@[simp] theorem noPanic_checkedMul {w a b : Nat} :
    NoPanic (checkedMul w a b : Outcome ε Nat) ↔ a * b < 2 ^ w := by
  unfold checkedMul; split <;> simp [*]

@[simp] theorem noPanic_checkedSub {a b : Nat} :
    NoPanic (checkedSub a b : Outcome ε Nat) ↔ b ≤ a := by
  unfold checkedSub; split <;> simp [*]

@[simp] theorem noPanic_checkedShl {w n : Nat} :
    NoPanic (checkedShl w n : Outcome ε Nat) ↔ n < w := by
  unfold checkedShl; split <;> simp [*]

/-! ## Wrapping words -/

def wrappingAdd (w a b : Nat) : Nat := (a + b) % 2 ^ w

def wrappingMul (w a b : Nat) : Nat := a * b % 2 ^ w

theorem wrappingAdd_eq {w a b : Nat} (h : a + b < 2 ^ w) : wrappingAdd w a b = a + b :=
  Nat.mod_eq_of_lt h

theorem wrappingMul_eq {w a b : Nat} (h : a * b < 2 ^ w) : wrappingMul w a b = a * b :=
  Nat.mod_eq_of_lt h

/-! ## I/O errors -/

inductive ErrorKind where
  | invalidData
  | invalidInput
  | unexpectedEof
  | notFound
deriving DecidableEq, Repr

inductive IoError where
  | custom (kind : ErrorKind) (msg : String)
  | os (errno : Nat)
deriving DecidableEq, Repr

abbrev IoResult (α : Type) := Outcome IoError α

def ioError (kind : ErrorKind) (msg : String) : IoResult α := fail (.custom kind msg)
def osError (errno : Nat) : IoResult α := fail (.os errno)

@[simp] theorem ioError_ne_ok (k : ErrorKind) (m : String) (a : α) :
    (ioError k m : IoResult α) ≠ .ok a := nofun
@[simp] theorem bind_ioError (k : ErrorKind) (m : String) (f : α → IoResult β) :
    ((ioError k m : IoResult α) >>= f) = ioError k m := rfl
@[simp] theorem noPanic_ioError (k : ErrorKind) (m : String) :
    NoPanic (ioError k m : IoResult α) := noPanic_fail _

end ErofsUtils.Rust
