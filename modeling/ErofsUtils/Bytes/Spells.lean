import ErofsUtils.Bytes.Window

/-! # Lists read off a partial map

A medium holds a value at some positions. `Spells g pos l` says that the positions
from `pos` on hold the elements of `l`, one after the other; two neighbouring readings
are one reading of the concatenation. -/
namespace ErofsUtils.Bytes

variable {α : Type} {g g' : Nat → Option α} {pos pos' : Nat} {l a b : List α}

def Spells (g : Nat → Option α) (pos : Nat) (l : List α) : Prop :=
  ∀ i, i < l.length → g (pos + i) = l[i]?

@[simp] theorem spells_nil (g : Nat → Option α) (pos : Nat) : Spells g pos [] := by
  intro i hi
  simp at hi

theorem spells_append : Spells g pos (a ++ b) ↔ Spells g pos a ∧ Spells g (pos + a.length) b := by
  constructor
  · intro h
    refine ⟨fun i hi => ?_, fun i hi => ?_⟩
    · have hg := h i (by rw [List.length_append]; omega)
      rwa [List.getElem?_append_left hi] at hg
    · have hg := h (a.length + i) (by rw [List.length_append]; omega)
      rwa [List.getElem?_append_right (Nat.le_add_right _ _), Nat.add_sub_cancel_left,
        ← Nat.add_assoc] at hg
  · rintro ⟨ha, hb⟩ i hi
    rw [List.length_append] at hi
    by_cases hlt : i < a.length
    · rw [ha i hlt, List.getElem?_append_left hlt]
    · have hg := hb (i - a.length) (by omega)
      rw [List.getElem?_append_right (by omega), ← hg]
      congr 1
      omega

/-- What is spelled depends only on the positions that are read. -/
theorem spells_congr (h : ∀ i, i < l.length → g (pos + i) = g' (pos' + i)) :
    Spells g pos l ↔ Spells g' pos' l := by
  constructor
  · intro hg i hi
    rw [← h i hi, hg i hi]
  · intro hg i hi
    rw [h i hi, hg i hi]

/-- Every position read holds a value. -/
theorem Spells.isSome (h : Spells g pos l) {p : Nat} (hp : pos ≤ p) (hlt : p < pos + l.length) :
    ∃ x, g p = some x ∧ l[p - pos]? = some x := by
  have hg := h (p - pos) (by omega)
  rw [Nat.add_sub_cancel' hp, List.getElem?_eq_getElem (by omega)] at hg
  exact ⟨_, hg, List.getElem?_eq_getElem _⟩

/-- Of two readings from one position the shorter is the front of the longer. -/
theorem Spells.eq_take (ha : Spells g pos a) (hb : Spells g pos b) (h : a.length ≤ b.length) :
    a = b.take a.length := by
  refine List.ext_getElem? fun i => ?_
  by_cases hi : i < a.length
  · rw [List.getElem?_take_of_lt hi, ← ha i hi, hb i (by omega)]
  · rw [List.getElem?_eq_none (by omega), List.getElem?_eq_none (by rw [List.length_take]; omega)]

/-- A window of a buffer, as a reading of its cells. -/
theorem window_eq_iff_spells {buf : List α} {off n : Nat} (hn : 0 < n) :
    off + n ≤ buf.length ∧ window buf off n = l ↔
      l.length = n ∧ Spells (fun i => buf[i]?) off l := by
  constructor
  · rintro ⟨hle, rfl⟩
    refine ⟨length_window_of_le hle, fun i hi => ?_⟩
    rw [length_window_of_le hle] at hi
    rw [window, List.getElem?_take_of_lt hi, List.getElem?_drop]
  · rintro ⟨hlen, hl⟩
    have hle : off + n ≤ buf.length := by
      obtain ⟨x, hx, -⟩ := hl.isSome (p := off + (n - 1)) (by omega) (by omega)
      have := (List.getElem?_eq_some_iff.mp hx).1
      omega
    refine ⟨hle, List.ext_getElem? fun i => ?_⟩
    by_cases hi : i < n
    · rw [window, List.getElem?_take_of_lt hi, List.getElem?_drop, ← hl i (hlen ▸ hi)]
    · rw [List.getElem?_eq_none (by rw [length_window_of_le hle]; omega),
        List.getElem?_eq_none (by omega)]

theorem spells_of_window {buf : List α} {off : Nat} (h : window buf off l.length = l) :
    Spells (fun i => buf[i]?) off l := by
  rcases Nat.eq_zero_or_pos l.length with h0 | hpos
  · rw [List.length_eq_zero_iff.mp h0]
    exact spells_nil _ _
  · exact ((window_eq_iff_spells hpos).mp
      ⟨le_of_window_eq h (List.length_pos_iff.mp hpos), h⟩).2

end ErofsUtils.Bytes
