import ErofsUtils.Bytes.RoundUp
import ErofsUtils.Bytes.Window

/-! # A store of distinct contents in blocks

The store is the list of the distinct contents put into it, in the order in which
they first came. Each is padded to whole blocks; its address is the number of blocks
before it. Putting a content in twice changes nothing, and no address ever moves. -/
namespace ErofsUtils.Store
open ErofsUtils.Bytes

variable {α : Type} (b : Nat) (z : α)

def blocksOf (c : List α) : Nat := divCeil c.length b

def padded (c : List α) : List α := c ++ List.replicate (blocksOf b c * b - c.length) z

/-- The cells of the whole store. -/
def cells (cs : List (List α)) : List α := cs.flatMap (padded b z)

def total (cs : List (List α)) : Nat := (cs.map (blocksOf b)).sum

variable {b z}

theorem blocksOf_pos {c : List α} (hb : 0 < b) (hne : c ≠ []) : 0 < blocksOf b c := by
  have hle : c.length ≤ blocksOf b c * b := le_alignUp hb
  have hlen := List.length_pos_iff.mpr hne
  exact Nat.pos_of_ne_zero fun h0 => by rw [h0] at hle; omega

theorem length_padded (hb : 0 < b) (c : List α) : (padded b z c).length = blocksOf b c * b := by
  have : c.length ≤ blocksOf b c * b := le_alignUp hb
  simp [padded]
  omega

theorem length_cells (hb : 0 < b) (cs : List (List α)) : (cells b z cs).length = total b cs * b := by
  induction cs with
  | nil => simp [cells, total]
  | cons c cs ih =>
    simp only [cells, total, List.flatMap_cons, List.length_append, length_padded hb, List.map_cons,
      List.sum_cons, Nat.add_mul] at *
    omega

theorem total_append (cs ds : List (List α)) : total b (cs ++ ds) = total b cs + total b ds := by
  simp [total]

theorem cells_append (cs ds : List (List α)) : cells b z (cs ++ ds) = cells b z cs ++ cells b z ds := by
  simp [cells]

variable [DecidableEq α]

def put (cs : List (List α)) (c : List α) : List (List α) := if c ∈ cs then cs else cs ++ [c]

def putAll (cs ds : List (List α)) : List (List α) := ds.foldl put cs

variable (b) in
/-- The block address of a content. -/
def addr (cs : List (List α)) (c : List α) : Nat := total b (cs.takeWhile (· ≠ c))

variable {cs ds : List (List α)} {c : List α}

theorem mem_put : c ∈ put cs c := by
  unfold put
  split
  · assumption
  · simp

theorem put_eq_append (cs : List (List α)) (c : List α) : ∃ ds, put cs c = cs ++ ds := by
  unfold put
  split
  · exact ⟨[], by simp⟩
  · exact ⟨[c], rfl⟩

theorem putAll_eq_append (cs ds : List (List α)) : ∃ es, putAll cs ds = cs ++ es := by
  induction ds generalizing cs with
  | nil => exact ⟨[], by simp [putAll]⟩
  | cons d ds ih =>
    obtain ⟨es, he⟩ := put_eq_append cs d
    obtain ⟨fs, hf⟩ := ih (put cs d)
    exact ⟨es ++ fs, by rw [putAll, List.foldl_cons, ← putAll, hf, he, List.append_assoc]⟩

theorem putAll_cons (cs ds : List (List α)) (d : List α) :
    putAll cs (d :: ds) = putAll (put cs d) ds := rfl

theorem mem_putAll {d : List α} (h : d ∈ ds) (cs : List (List α)) : d ∈ putAll cs ds := by
  induction ds generalizing cs with
  | nil => cases h
  | cons e ds ih =>
    rw [putAll_cons]
    rcases List.mem_cons.mp h with rfl | h
    · obtain ⟨es, he⟩ := putAll_eq_append (put cs d) ds
      rw [he]
      exact List.mem_append_left _ mem_put
    · exact ih h _

theorem of_mem_put {d : List α} (h : d ∈ put cs c) : d ∈ cs ∨ d = c := by
  unfold put at h
  split at h
  · exact .inl h
  · simpa using h

theorem of_mem_putAll {d : List α} (h : d ∈ putAll cs ds) : d ∈ cs ∨ d ∈ ds := by
  induction ds generalizing cs with
  | nil => exact .inl h
  | cons e ds ih =>
    rcases ih h with h | h
    · rcases of_mem_put h with h | rfl
      · exact .inl h
      · exact .inr List.mem_cons_self
    · exact .inr (List.mem_cons_of_mem _ h)

theorem putAll_append (cs ds es : List (List α)) :
    putAll cs (ds ++ es) = putAll (putAll cs ds) es := List.foldl_append

theorem mem_putAll_nil {d : List α} : d ∈ putAll [] ds ↔ d ∈ ds :=
  ⟨fun h => (of_mem_putAll h).resolve_left List.not_mem_nil, fun h => mem_putAll h []⟩

theorem nodup_put (h : cs.Nodup) : (put cs c).Nodup := by
  unfold put
  split
  · exact h
  · rename_i hc
    exact List.nodup_append.mpr ⟨h, by simp, fun a ha d hd hne =>
      hc (List.mem_singleton.mp hd ▸ hne ▸ ha)⟩

theorem nodup_putAll (h : cs.Nodup) : (putAll cs ds).Nodup := by
  induction ds generalizing cs with
  | nil => exact h
  | cons d ds ih => exact ih (nodup_put h)

/-- The size of a store depends on what has been put into it, not on how often or in which
order. -/
theorem total_putAll {distinct : List (List α)} (hnodup : distinct.Nodup)
    (h : ∀ c, c ∈ distinct ↔ c ∈ ds) : total b (putAll [] ds) = total b distinct := by
  have hperm : (putAll [] ds).Perm distinct :=
    (List.perm_ext_iff_of_nodup (nodup_putAll List.nodup_nil) hnodup).mpr
      fun c => mem_putAll_nil.trans (h c).symm
  exact (hperm.map _).sum_nat

/-! ## Addresses -/

theorem addr_split {front back : List (List α)} (h : c ∉ front) :
    addr b (front ++ c :: back) c = total b front := by
  have hne : ∀ d ∈ front, decide (d ≠ c) = true := by
    intro d hd
    rw [decide_eq_true_iff]
    rintro rfl
    exact h hd
  rw [addr, List.takeWhile_append_of_pos hne, List.takeWhile_cons_of_neg (by simp),
    List.append_nil]

/-- A content just put in stands behind everything before it. -/
theorem addr_new (h : c ∉ cs) : addr b (cs ++ [c]) c = total b cs := addr_split h

/-- Growing the store moves no address. -/
theorem addr_append (h : c ∈ cs) (ds : List (List α)) : addr b (cs ++ ds) c = addr b cs c := by
  obtain ⟨front, back, rfl, hf⟩ := List.eq_append_cons_of_mem h
  rw [List.append_assoc, List.cons_append, addr_split hf, addr_split hf]

theorem addr_add_blocksOf_le (h : c ∈ cs) : addr b cs c + blocksOf b c ≤ total b cs := by
  obtain ⟨front, back, rfl, hf⟩ := List.eq_append_cons_of_mem h
  rw [addr_split hf, total_append]
  simp only [total, List.map_cons, List.sum_cons]
  omega

/-- Different contents of the store share no block. -/
theorem addr_apart {d : List α} (hc : c ∈ cs) (hd : d ∈ cs) (hne : c ≠ d) :
    Apart (addr b cs c) (blocksOf b c) (addr b cs d) (blocksOf b d) := by
  obtain ⟨front, back, rfl, hf⟩ := List.eq_append_cons_of_mem hc
  rw [addr_split hf]
  by_cases hd' : d ∈ front
  · -- `d` stands before `c`
    right
    rw [addr_append hd']
    exact addr_add_blocksOf_le hd'
  · left
    have hwhile : (front ++ c :: back).takeWhile (· ≠ d) =
        front ++ c :: back.takeWhile (· ≠ d) := by
      rw [List.takeWhile_append_of_pos, List.takeWhile_cons_of_pos (by simpa using hne)]
      intro e he
      rw [decide_eq_true_iff]
      rintro rfl
      exact hd' he
    rw [addr, hwhile, total_append]
    simp only [total, List.map_cons, List.sum_cons]
    omega

/-- The address of a content tells it apart. -/
theorem addr_inj (hb : 0 < b) {d : List α} (hc : c ∈ cs) (hd : d ∈ cs) (hcne : c ≠ [])
    (hdne : d ≠ []) : addr b cs c = addr b cs d ↔ c = d := by
  constructor
  · intro heq
    by_contra hne
    have := blocksOf_pos hb hcne
    have := blocksOf_pos hb hdne
    rcases addr_apart (b := b) hc hd hne with h | h <;> omega
  · rintro rfl
    rfl

/-- A content is read back, padding included, at its address. -/
theorem window_cells_padded (hb : 0 < b) (h : c ∈ cs) :
    window (cells b z cs) (addr b cs c * b) (padded b z c).length = padded b z c := by
  obtain ⟨front, back, rfl, hf⟩ := List.eq_append_cons_of_mem h
  have hcells : cells b z (front ++ c :: back) =
      cells b z front ++ padded b z c ++ cells b z back := by simp [cells]
  rw [addr_split hf, hcells, ← length_cells hb front]
  exact window_middle _ _ _

theorem window_cells (hb : 0 < b) (h : c ∈ cs) :
    window (cells b z cs) (addr b cs c * b) c.length = c :=
  (window_of_append (window_cells_padded hb h)).1

end ErofsUtils.Store
