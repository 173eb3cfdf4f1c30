import Mathlib.Data.List.Basic

/-! # Interleaved calls over a shared state

Any number of calls run at once, each a program of atomic steps over the shared state.
A schedule starts calls and lets any of them take its next step, in any order; what every
move keeps holds after every schedule. -/
namespace ErofsUtils.Concurrent

/-- Requests `ρ` start calls, whose local states are `κ`, over shared states `σ`. -/
structure Program (ρ σ κ : Type) where
  call : ρ → κ
  advance : σ → κ → Option (σ × κ)

/-- The calls stand in the order in which they started. -/
structure Config (σ κ : Type) where
  shared : σ
  calls : List κ

inductive Move (ρ : Type) where
  | start (q : ρ)
  | step (i : Nat)

variable {ρ σ κ : Type}

namespace Program
variable {P : Program ρ σ κ} {c c' : Config σ κ} {m : Move ρ} {ms : List (Move ρ)}

def move (P : Program ρ σ κ) (c : Config σ κ) : Move ρ → Option (Config σ κ)
  | .start q => some { c with calls := c.calls ++ [P.call q] }
  | .step i => do
    let k ← c.calls[i]?
    let (s, k) ← P.advance c.shared k
    some { shared := s, calls := c.calls.set i k }

def run (P : Program ρ σ κ) : List (Move ρ) → Config σ κ → Option (Config σ κ)
  | [], c => some c
  | m :: ms, c => do P.run ms (← P.move c m)

theorem run_append (P : Program ρ σ κ) (ms ns : List (Move ρ)) (c : Config σ κ) :
    P.run (ms ++ ns) c = (P.run ms c).bind (P.run ns) := by
  induction ms generalizing c with
  | nil => rfl
  | cons m ms ih =>
    rw [List.cons_append, run, run]
    cases P.move c m with
    | none => rfl
    | some d => exact ih d

/-- What one move does. -/
theorem move_cases (h : P.move c m = some c') :
    (∃ q, c' = { c with calls := c.calls ++ [P.call q] }) ∨
    ∃ i k s k', c.calls[i]? = some k ∧ P.advance c.shared k = some (s, k') ∧
      c' = { shared := s, calls := c.calls.set i k' } := by
  cases m with
  | start q => exact .inl ⟨q, (Option.some.inj h).symm⟩
  | step i =>
    simp only [move, Option.bind_eq_bind, Option.bind_eq_some_iff, Option.some.injEq,
      Prod.exists] at h
    obtain ⟨k, hk, s, k', hadv, rfl⟩ := h
    exact .inr ⟨i, k, s, k', hk, hadv, rfl⟩

/-- **What every move keeps, every schedule keeps.** -/
theorem run_invariant {I : Config σ κ → Prop}
    (hmove : ∀ c m c', I c → P.move c m = some c' → I c') (hc : I c)
    (h : P.run ms c = some c') : I c' := by
  induction ms generalizing c with
  | nil =>
    cases h
    exact hc
  | cons m ms ih =>
    obtain ⟨d, hd, h⟩ := Option.bind_eq_some_iff.mp h
    exact ih (hmove c m d hc hd) h

/-- Where a call of the new configuration comes from: it stood there, it has just started, or
the move was its step. -/
theorem move_calls (h : P.move c m = some c') {j : Nat} {k' : κ} (hj : c'.calls[j]? = some k') :
    c.calls[j]? = some k' ∨ (j = c.calls.length ∧ ∃ q, k' = P.call q) ∨
      ∃ k, c.calls[j]? = some k ∧ P.advance c.shared k = some (c'.shared, k') := by
  rcases move_cases h with ⟨q, rfl⟩ | ⟨i, k, s, k₁, hk, hadv, rfl⟩
  · rw [List.getElem?_append] at hj
    split at hj
    · exact .inl hj
    · obtain ⟨hlt, hq⟩ := List.getElem?_eq_some_iff.mp hj
      rw [List.length_singleton] at hlt
      rw [List.getElem_singleton] at hq
      exact .inr (.inl ⟨by omega, q, hq.symm⟩)
  · by_cases hij : i = j
    · subst hij
      have hlt := (List.getElem?_eq_some_iff.mp hk).1
      rw [List.getElem?_set_self hlt] at hj
      cases hj
      exact .inr (.inr ⟨k, hk, hadv⟩)
    · rw [List.getElem?_set_ne hij] at hj
      exact .inl hj

/-- What every step of a call keeps, every move keeps of the call. -/
theorem move_kept {p : κ → Prop} (h : P.move c m = some c')
    (hp : ∀ {s k s' k'}, P.advance s k = some (s', k') → p k → p k') {j : Nat} {k : κ}
    (hj : c.calls[j]? = some k) (hk : p k) : ∃ k', c'.calls[j]? = some k' ∧ p k' := by
  rcases move_cases h with ⟨q, rfl⟩ | ⟨i, k₁, s, k', hi, hadv, rfl⟩
  · exact ⟨k, (List.getElem?_append_left (List.getElem?_eq_some_iff.mp hj).1).trans hj, hk⟩
  · by_cases hij : i = j
    · subst hij
      rw [hj] at hi
      cases hi
      exact ⟨k', List.getElem?_set_self (List.getElem?_eq_some_iff.mp hj).1, hp hadv hk⟩
    · exact ⟨k, (List.getElem?_set_ne hij).trans hj, hk⟩

/-- A call that takes no more steps stays what it is. -/
theorem move_finished (h : P.move c m = some c') {j : Nat} {k : κ} (hj : c.calls[j]? = some k)
    (hfin : ∀ s, P.advance s k = none) : c'.calls[j]? = some k := by
  obtain ⟨k', hj', rfl⟩ := move_kept (p := fun l => l = k) h
    (fun hadv hl => by rw [hl, hfin] at hadv; cases hadv) hj rfl
  exact hj'

theorem length_le_of_move (h : P.move c m = some c') : c.calls.length ≤ c'.calls.length := by
  rcases move_cases h with ⟨q, rfl⟩ | ⟨i, k, s, k', -, -, rfl⟩
  · rw [List.length_append]
    omega
  · exact Nat.le_of_eq List.length_set.symm

end Program

/-! ## Counting calls -/

section
variable {p : κ → Bool} {calls : List κ} {i : Nat} {k k' : κ}

theorem countP_set_of_eq (hk : calls[i]? = some k) (h : p k' = p k) :
    (calls.set i k').countP p = calls.countP p := by
  obtain ⟨hlt, rfl⟩ := List.getElem?_eq_some_iff.mp hk
  rw [List.countP_set hlt, h]
  split
  · have : 0 < calls.countP p := List.countP_pos_iff.mpr ⟨calls[i], List.getElem_mem hlt, ‹_›⟩
    omega
  · rfl

theorem countP_set_of_new (hk : calls[i]? = some k) (h : p k = false) (h' : p k' = true) :
    (calls.set i k').countP p = calls.countP p + 1 := by
  obtain ⟨hlt, rfl⟩ := List.getElem?_eq_some_iff.mp hk
  rw [List.countP_set hlt, h, h']
  rfl

/-- No move lowers the number of calls with a property that steps keep. -/
theorem countP_le_of_move {P : Program ρ σ κ} {c c' : Config σ κ} {m : Move ρ}
    (hp : ∀ {s k s' k'}, P.advance s k = some (s', k') → p k = true → p k' = true)
    (h : P.move c m = some c') : c.calls.countP p ≤ c'.calls.countP p := by
  rcases Program.move_cases h with ⟨q, rfl⟩ | ⟨i, k, s, k', hk, hadv, rfl⟩
  · rw [List.countP_append]
    exact Nat.le_add_right _ _
  · cases hpk : p k with
    | true => exact Nat.le_of_eq (countP_set_of_eq hk ((hp hadv hpk).trans hpk.symm)).symm
    | false =>
      cases hpk' : p k' with
      | true => rw [countP_set_of_new hk hpk hpk']; exact Nat.le_succ _
      | false => exact Nat.le_of_eq (countP_set_of_eq hk (hpk'.trans hpk.symm)).symm

end
end ErofsUtils.Concurrent
