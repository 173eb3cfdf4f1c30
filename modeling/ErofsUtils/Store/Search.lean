import Mathlib.Tactic.Common

/-! # Binary search

The search of a half-open window of a list. In a strictly increasing list it finds every
element at its place. -/
namespace ErofsUtils.Store

/-- A function keeps a strictly increasing list so exactly if it is monotone on its elements. -/
theorem pairwise_lt_map_iff {α β : Type} [LT α] [LT β] [Std.Asymm fun a b : α => a < b]
    {l : List α} (hs : l.Pairwise (· < ·)) (f : α → β) :
    (l.map f).Pairwise (· < ·) ↔ ∀ a ∈ l, ∀ b ∈ l, a < b → f a < f b := by
  rw [List.pairwise_map]
  constructor
  · intro h a ha b hb
    refine @List.Pairwise.forall_of_forall_of_flip α l (fun a b => a < b → f a < f b)
      ?_ ?_ ?_ a ha b hb
    · exact fun x _ hlt => absurd hlt (Std.Asymm.asymm _ _ hlt)
    · refine h.imp ?_
      exact fun hab _ => hab
    · refine hs.imp ?_
      exact fun hab hba => absurd hba (Std.Asymm.asymm _ _ hab)
  · exact fun h => hs.imp_of_mem fun {a b} ha hb hab => h a ha b hb hab

variable {α : Type} [LT α] [DecidableLT α]

def searchFrom (l : List α) (x : α) (lo hi : Nat) : Option Nat :=
  if lo < hi then
    let mid := (lo + hi) / 2
    match l[mid]? with
    | none => none
    | some y =>
      if y < x then searchFrom l x (mid + 1) hi
      else if x < y then searchFrom l x lo mid
      else some mid
  else none
termination_by hi - lo

def search (l : List α) (x : α) : Option Nat := searchFrom l x 0 l.length

theorem searchFrom_of_sorted [Std.Asymm fun a b : α => a < b] {l : List α} {x : α} {k lo hi : Nat}
    (hs : l.Pairwise (· < ·)) (hx : l[k]? = some x) (hlo : lo ≤ k) (hk : k < hi)
    (hhi : hi ≤ l.length) : searchFrom l x lo hi = some k := by
  obtain ⟨hkl, rfl⟩ := List.getElem?_eq_some_iff.mp hx
  have hlt : ∀ i j, (hi : i < l.length) → (hj : j < l.length) → i < j → l[i] < l[j] :=
    fun i j hi hj hij => List.pairwise_iff_getElem.mp hs i j hi hj hij
  induction hn : hi - lo using Nat.strongRecOn generalizing lo hi with
  | ind n ih =>
    rw [searchFrom, if_pos (by omega)]
    generalize hmid : (lo + hi) / 2 = mid
    have hml : mid < l.length := by omega
    dsimp only
    rw [List.getElem?_eq_getElem hml]
    dsimp only
    rcases Nat.lt_trichotomy mid k with hmk | rfl | hkm
    · rw [if_pos (hlt mid k hml hkl hmk)]
      exact ih (hi - (mid + 1)) (by omega) (by omega) hk hhi rfl
    · have hself : ¬ l[mid] < l[mid] := fun h => Std.Asymm.asymm _ _ h h
      rw [if_neg hself, if_neg hself]
    · have hback := hlt k mid hkl hml hkm
      rw [if_neg (Std.Asymm.asymm _ _ hback), if_pos hback]
      exact ih (mid - lo) (by omega) hlo hkm (by omega) rfl

/-- **A strictly increasing list** is searched successfully for each of its elements. -/
theorem search_of_sorted [Std.Asymm fun a b : α => a < b] {l : List α} {x : α} {k : Nat}
    (hs : l.Pairwise (· < ·)) (hx : l[k]? = some x) : search l x = some k :=
  searchFrom_of_sorted hs hx (Nat.zero_le k) (List.getElem?_eq_some_iff.mp hx).1 (Nat.le_refl _)

end ErofsUtils.Store
