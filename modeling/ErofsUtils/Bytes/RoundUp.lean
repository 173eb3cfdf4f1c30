import Mathlib.Tactic.Ring

/-! # Rounding up to an alignment

Code rounds with a mask; `alignUp` is the function it computes. -/
namespace ErofsUtils.Bytes

/-- `x & !m`. -/
def andNot (x m : Nat) : Nat := x - (x &&& m)

/-- On machine words `andNot` is `x & !m`. -/
theorem andNot_eq_toNat {w : Nat} (x m : BitVec w) :
    andNot x.toNat m.toNat = (x &&& ~~~m).toNat := by
  have hd : (x &&& m) &&& (x &&& ~~~m) = 0#w := by
    ext i hi
    simp only [BitVec.getElem_and, BitVec.getElem_not, BitVec.getElem_zero]
    cases x[i] <;> cases m[i] <;> rfl
  have hor : (x &&& m) ||| (x &&& ~~~m) = x := by
    ext i hi
    simp only [BitVec.getElem_or, BitVec.getElem_and, BitVec.getElem_not]
    cases x[i] <;> cases m[i] <;> rfl
  have hx : x.toNat = (x &&& m).toNat + (x &&& ~~~m).toNat := by
    rw [← BitVec.toNat_add_of_and_eq_zero hd, BitVec.add_eq_or_of_and_eq_zero _ _ hd, hor]
  rw [andNot, ← BitVec.toNat_and]
  omega

/-- The least multiple of `a` that is not below `n`. -/
def alignUp (n a : Nat) : Nat := (n + a - 1) / a * a

theorem andNot_eq_alignUp (n k : Nat) : andNot (n + 2 ^ k - 1) (2 ^ k - 1) = alignUp n (2 ^ k) := by
  rw [andNot, Nat.and_two_pow_sub_one_eq_mod, alignUp]
  have := Nat.div_add_mod (n + 2 ^ k - 1) (2 ^ k)
  rw [Nat.mul_comm] at this
  omega

variable {n m a : Nat}

theorem le_alignUp (ha : 0 < a) : n ≤ alignUp n a := by
  have h := Nat.div_add_mod (n + a - 1) a
  have := Nat.mod_lt (n + a - 1) ha
  rw [alignUp, Nat.mul_comm]
  omega

theorem dvd_alignUp (n a : Nat) : a ∣ alignUp n a := Nat.dvd_mul_left _ _

theorem alignUp_of_dvd (ha : 0 < a) (h : a ∣ n) : alignUp n a = n := by
  obtain ⟨k, rfl⟩ := h
  rw [alignUp, Nat.add_sub_assoc ha, Nat.mul_add_div ha,
    Nat.div_eq_of_lt (by omega), Nat.add_zero, Nat.mul_comm]

theorem alignUp_add_of_dvd (ha : 0 < a) (h : a ∣ n) (m : Nat) :
    alignUp (n + m) a = n + alignUp m a := by
  obtain ⟨k, rfl⟩ := h
  rw [alignUp, alignUp, show a * k + m + a - 1 = a * k + (m + a - 1) by omega,
    Nat.mul_add_div ha, Nat.add_mul, Nat.mul_comm k a]

/-- The number of blocks of `a` cells that hold `n` cells. -/
def divCeil (n a : Nat) : Nat := (n + a - 1) / a

theorem mul_divCeil (n : Nat) (ha : 0 < a) : divCeil (n * a) a = n := by
  rw [divCeil, Nat.add_sub_assoc ha, Nat.mul_comm, Nat.mul_add_div ha,
    Nat.div_eq_of_lt (Nat.sub_lt ha Nat.one_pos), Nat.add_zero]

theorem lt_divCeil_iff (ha : 0 < a) {i : Nat} : i < divCeil n a ↔ i * a < n := by
  rw [divCeil, Nat.lt_iff_add_one_le, Nat.le_div_iff_mul_le ha, Nat.add_mul]
  omega

end ErofsUtils.Bytes
