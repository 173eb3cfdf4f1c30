import Mathlib.Data.List.Nodup

/-! # Places in a tree

A place is the list of the positions of the steps that lead to it. The order of lists is
the pre-order of places: a node stands before what is below it, and what is below a step
before what is below a later one. -/
namespace ErofsUtils.Store

variable {α β : Type} {p q : List Nat} {j k : Nat}

theorem lt_below (p : List Nat) (k : Nat) (r : List Nat) : p < p ++ k :: r := by
  induction p with
  | nil => exact List.nil_lt_cons k r
  | cons a p ih => exact List.cons_lt_cons_iff.mpr (Or.inr ⟨rfl, ih⟩)

theorem below_lt_later (p : List Nat) (h : j < k) (r s : List Nat) :
    p ++ j :: r < p ++ k :: s := by
  induction p with
  | nil => exact List.cons_lt_cons_iff.mpr (Or.inl h)
  | cons a p ih => exact List.cons_lt_cons_iff.mpr (Or.inr ⟨rfl, ih⟩)

/-! ## Positions in ordered lists -/

variable {l : List α} {i : Nat} {a b : α}

/-- In a list ordered by `R` the positions have the order of the members. -/
theorem index_lt_of_pairwise {R : α → α → Prop} (hasymm : ∀ a b, R a b → ¬ R b a)
    (hp : l.Pairwise R) (hi : l[i]? = some a) (hj : l[j]? = some b) (hab : R a b) : i < j := by
  obtain ⟨hi', rfl⟩ := List.getElem?_eq_some_iff.mp hi
  obtain ⟨hj', rfl⟩ := List.getElem?_eq_some_iff.mp hj
  rw [List.pairwise_iff_getElem] at hp
  by_contra hle
  rcases Nat.lt_or_eq_of_le (Nat.not_lt.mp hle) with hlt | rfl
  · exact hasymm _ _ hab (hp j i hj' hi' hlt)
  · exact hasymm _ _ hab hab

/-- Members told apart by `f` have one position each. -/
theorem index_inj_of_nodup {f : α → β} (hn : (l.map f).Nodup) (hi : l[i]? = some a)
    (hj : l[j]? = some b) (hab : f a = f b) : i = j := by
  obtain ⟨hi', rfl⟩ := List.getElem?_eq_some_iff.mp hi
  obtain ⟨hj', rfl⟩ := List.getElem?_eq_some_iff.mp hj
  rw [List.Nodup, List.pairwise_map, List.pairwise_iff_getElem] at hn
  rcases Nat.lt_trichotomy i j with hlt | heq | hlt
  · exact absurd hab (hn i j hi' hj' hlt)
  · exact heq
  · exact absurd hab.symm (hn j i hj' hi' hlt)

end ErofsUtils.Store
