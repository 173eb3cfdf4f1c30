import ErofsUtils.Rust.Outcome
import Mathlib.Data.List.Forall2

/-! # Updating the elements of a list in place

`updateAt` is the checked update of one element, `updateAll` a run of updates that carry a
value each. What such a run leaves at an index depends on the values carried there alone. -/
namespace ErofsUtils.Store
open ErofsUtils.Rust

variable {ε α β : Type}

/-- `f(&mut l[i])`. -/
def updateAt (l : List α) (i : Nat) (f : α → α) : Outcome ε (List α) :=
  if i < l.length then .ok (l.modify i f) else abort .bounds

theorem updateAt_ok {l : List α} {i : Nat} (h : i < l.length) (f : α → α) :
    (updateAt l i f : Outcome ε (List α)) = .ok (l.modify i f) := if_pos h

@[simp] theorem updateAt_eq_ok {l m : List α} {i : Nat} {f : α → α} :
    (updateAt l i f : Outcome ε (List α)) = .ok m ↔ i < l.length ∧ l.modify i f = m := by
  unfold updateAt
  split <;> simp <;> omega

/-- An update that does not change what `g` sees of an element. -/
theorem map_modify_of_kept {f : α → α} {g : α → β} (h : ∀ a, g (f a) = g a) (l : List α) (i : Nat) :
    (l.modify i f).map g = l.map g := by
  induction l generalizing i with
  | nil => cases i <;> rfl
  | cons a l ih =>
    cases i with
    | zero => rw [List.modify_zero_cons, List.map_cons, h, List.map_cons]
    | succ i => rw [List.modify_succ_cons, List.map_cons, ih, List.map_cons]

/-- An update that keeps the relation of an element to its partner. -/
theorem forall₂_modify {R : β → α → Prop} {f : α → α} (hf : ∀ b a, R b a → R b (f a)) {bs : List β}
    {l : List α} (h : List.Forall₂ R bs l) (i : Nat) : List.Forall₂ R bs (l.modify i f) := by
  induction h generalizing i with
  | nil => cases i <;> exact .nil
  | cons hab hrest ih =>
    cases i with
    | zero => exact .cons (hf _ _ hab) hrest
    | succ i => exact .cons hab (ih i)

/-- Lists that agree on which elements have a value, and whose values are related in order. -/
theorem forall₂_of_filterMap {γ δ : Type} {f : α → Option γ} {g : β → Option δ}
    {R : γ → δ → Prop} {as : List α} {bs : List β}
    (hsome : List.Forall₂ (fun a b => (g b).isSome = (f a).isSome) as bs)
    (h : List.Forall₂ R (as.filterMap f) (bs.filterMap g)) :
    List.Forall₂ (fun a b => Option.Rel R (f a) (g b)) as bs := by
  induction hsome with
  | nil => exact .nil
  | @cons a b as bs hab _ ih =>
    rw [List.filterMap_cons, List.filterMap_cons] at h
    cases hf : f a with
    | none =>
      rw [hf, Option.isSome_none, Option.isSome_eq_false_iff, Option.isNone_iff_eq_none] at hab
      rw [hf, hab] at h
      exact .cons (by rw [hf, hab]; exact .none) (ih h)
    | some c =>
      rw [hf, Option.isSome_some, Option.isSome_iff_exists] at hab
      obtain ⟨d, hd⟩ := hab
      rw [hf, hd] at h
      obtain ⟨hcd, hrest⟩ := List.forall₂_cons.mp h
      exact .cons (by rw [hf, hd]; exact .some hcd) (ih hrest)

def updateAll (f : β → α → α) (l : List α) (updates : List (Nat × β)) : List α :=
  updates.foldl (fun l u => l.modify u.1 (f u.2)) l

variable {f : β → α → α} {l : List α} {updates : List (Nat × β)} {j : Nat} {b : β}

@[simp] theorem updateAll_cons (u : Nat × β) :
    updateAll f l (u :: updates) = updateAll f (l.modify u.1 (f u.2)) updates := rfl

theorem updateAll_append (more : List (Nat × β)) :
    updateAll f l (updates ++ more) = updateAll f (updateAll f l updates) more :=
  List.foldl_append

@[simp] theorem length_updateAll : (updateAll f l updates).length = l.length := by
  induction updates generalizing l with
  | nil => rfl
  | cons u updates ih => rw [updateAll_cons, ih, List.length_modify]

/-- An element that no update is for. -/
theorem getElem?_updateAll_of_forall_ne (h : ∀ u ∈ updates, u.1 ≠ j) :
    (updateAll f l updates)[j]? = l[j]? := by
  induction updates generalizing l with
  | nil => rfl
  | cons u updates ih =>
    rw [updateAll_cons, ih fun v hv => h v (List.mem_cons_of_mem _ hv),
      List.getElem?_modify_ne _ _ (h u List.mem_cons_self)]

/-- An element whose updates all carry the value `b`, there being one at least. -/
theorem getElem?_updateAll_of_forall_eq (hf : ∀ a, f b (f b a) = f b a)
    (hall : ∀ u ∈ updates, u.1 = j → u.2 = b) (hsome : ∃ u ∈ updates, u.1 = j) :
    (updateAll f l updates)[j]? = l[j]?.map (f b) := by
  induction updates generalizing l with
  | nil =>
    obtain ⟨u, hu, -⟩ := hsome
    cases hu
  | cons u updates ih =>
    have hall' : ∀ v ∈ updates, v.1 = j → v.2 = b := fun v hv => hall v (List.mem_cons_of_mem _ hv)
    have hself : u.1 = j → (l.modify u.1 (f u.2))[j]? = l[j]?.map (f b) := by
      intro hu
      rw [hall u List.mem_cons_self hu, hu, List.getElem?_modify_eq]
      rfl
    rw [updateAll_cons]
    by_cases hmore : ∃ v ∈ updates, v.1 = j
    · rw [ih hall' hmore]
      by_cases hu : u.1 = j
      · rw [hself hu, Option.map_map]
        exact congrArg (fun g => Option.map g l[j]?) (funext hf)
      · rw [List.getElem?_modify_ne _ _ hu]
    · rw [getElem?_updateAll_of_forall_ne fun v hv hvj => hmore ⟨v, hv, hvj⟩]
      obtain ⟨v, hv, hvj⟩ := hsome
      rcases List.mem_cons.mp hv with rfl | hv
      · exact hself hvj
      · exact absurd ⟨v, hv, hvj⟩ hmore

/-- Related lists are related at every position. -/
theorem forall₂_getElem? {R : α → β → Prop} {l : List α} {m : List β} (h : List.Forall₂ R l m)
    (i : Nat) : (l[i]? = none ∧ m[i]? = none) ∨ ∃ a b, l[i]? = some a ∧ m[i]? = some b ∧ R a b := by
  induction h generalizing i with
  | nil => exact .inl ⟨rfl, rfl⟩
  | @cons a b l m hab _ ih =>
    cases i with
    | zero => exact .inr ⟨a, b, rfl, rfl, hab⟩
    | succ i => exact ih i

end ErofsUtils.Store
