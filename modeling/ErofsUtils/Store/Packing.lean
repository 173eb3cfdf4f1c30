import ErofsUtils.Rust.Outcome
import Mathlib.Data.List.Infix

/-! # Packing in order

Items go into blocks of one capacity in their order, each block taking items as long as they
fit. However the items are cut into blocks that fit, there are no fewer of them. -/
namespace ErofsUtils.Store

variable {α : Type} (size : α → Nat) (cap : Nat)

def load (items : List α) : Nat := (items.map size).sum

/-- The items that a block takes, `used` of its capacity being taken, and those behind. -/
def takeFit (used : Nat) : List α → List α × List α
  | [] => ([], [])
  | a :: as =>
    if used + size a > cap then ([], a :: as)
    else (a :: (takeFit (used + size a) as).1, (takeFit (used + size a) as).2)

theorem takeFit_append (used : Nat) (items : List α) :
    (takeFit size cap used items).1 ++ (takeFit size cap used items).2 = items := by
  induction items generalizing used with
  | nil => rfl
  | cons a as ih =>
    rw [takeFit]
    split
    · rfl
    · exact congrArg (a :: ·) (ih _)

/-- The blocks. An item that fits no block has one for itself. -/
def pack (items : List α) : List (List α) :=
  match items with
  | [] => []
  | a :: as => (a :: (takeFit size cap (size a) as).1) :: pack (takeFit size cap (size a) as).2
termination_by items.length
decreasing_by
  have h := congrArg List.length (takeFit_append size cap (size a) as)
  rw [List.length_append] at h
  rw [List.length_cons]
  omega

variable {size cap} {items : List α} {used : Nat}

@[simp] theorem load_nil : load size [] = 0 := rfl
@[simp] theorem load_cons (a : α) (as : List α) : load size (a :: as) = size a + load size as := by
  simp [load]
@[simp] theorem load_append (as bs : List α) :
    load size (as ++ bs) = load size as + load size bs := by simp [load]

theorem size_le_load {a : α} (h : a ∈ items) : size a ≤ load size items := by
  induction items with
  | nil => cases h
  | cons b as ih =>
    rw [load_cons]
    rcases List.mem_cons.mp h with rfl | h
    · exact Nat.le_add_right _ _
    · exact (ih h).trans (Nat.le_add_left _ _)

/-- Lists that have one member each under the same keys weigh the same. -/
theorem load_eq_of_keys {κ : Type} {key : α → κ} {as bs : List α} (ha : (as.map key).Nodup)
    (hb : (bs.map key).Nodup) (hkeys : ∀ k, k ∈ as.map key ↔ k ∈ bs.map key)
    (hsize : ∀ a ∈ as, ∀ b ∈ bs, key a = key b → size a = size b) : load size as = load size bs := by
  induction as generalizing bs with
  | nil =>
    have hnil : bs.map key = [] := List.eq_nil_iff_forall_not_mem.mpr fun k hk => by
      cases (hkeys k).mpr hk
    rw [List.map_eq_nil_iff.mp hnil]
  | cons a as ih =>
    obtain ⟨b, hb', hab⟩ := List.mem_map.mp ((hkeys (key a)).mp List.mem_cons_self)
    obtain ⟨front, back, rfl⟩ := List.append_of_mem hb'
    rw [List.map_cons, List.nodup_cons] at ha
    have hperm : (front ++ b :: back).Perm (b :: (front ++ back)) := List.perm_middle
    have hrest := ((hperm.map key).nodup_iff.mp hb)
    rw [List.map_cons, List.nodup_cons, hab] at hrest
    have hsame : load size as = load size (front ++ back) := by
      refine ih ha.2 hrest.2 (fun k => ?_) ?_
      · have hk := hkeys k
        rw [(hperm.map key).mem_iff, List.map_cons, List.map_cons, List.mem_cons, List.mem_cons,
          hab] at hk
        constructor
        · intro hmem
          exact (hk.mp (.inr hmem)).resolve_left fun heq => ha.1 (heq ▸ hmem)
        · intro hmem
          exact (hk.mpr (.inr hmem)).resolve_left fun heq => hrest.1 (heq ▸ hmem)
      · intro c hc d hd
        exact hsize c (List.mem_cons_of_mem _ hc) d (hperm.mem_iff.mpr (List.mem_cons_of_mem _ hd))
    have hfirst := hsize a List.mem_cons_self b hb' hab.symm
    rw [load_append] at hsame
    rw [load_cons, load_append, load_cons, hsame, hfirst]
    omega

theorem takeFit_load (h : used ≤ cap) : used + load size (takeFit size cap used items).1 ≤ cap := by
  induction items generalizing used with
  | nil => simpa [takeFit] using h
  | cons a as ih =>
    rw [takeFit]
    split
    · simpa using h
    · rename_i hfit
      have hrest := ih (Nat.not_lt.mp hfit)
      rw [load_cons]
      omega

/-- Items that fit together are taken together. -/
theorem takeFit_front {front : List α} (back : List α) (h : used + load size front ≤ cap) :
    takeFit size cap used (front ++ back) =
      (front ++ (takeFit size cap (used + load size front) back).1,
        (takeFit size cap (used + load size front) back).2) := by
  induction front generalizing used with
  | nil => rfl
  | cons a as ih =>
    rw [load_cons, ← Nat.add_assoc] at h ⊢
    rw [List.cons_append, takeFit, if_neg (by omega), ih h]
    rfl

theorem pack_nil : pack size cap ([] : List α) = [] := by rw [pack]

theorem pack_cons (a : α) (as : List α) : pack size cap (a :: as) =
    (a :: (takeFit size cap (size a) as).1) :: pack size cap (takeFit size cap (size a) as).2 := by
  rw [pack]

/-- What stands behind needs no more blocks than everything. -/
theorem length_pack_suffix {l m : List α} (h : l <:+ m) (hm : ∀ a ∈ m, size a ≤ cap) :
    (pack size cap l).length ≤ (pack size cap m).length := by
  induction hn : m.length using Nat.strongRecOn generalizing l m with
  | ind n ih =>
    cases m with
    | nil => rw [List.suffix_nil.mp h]
    | cons a as =>
      rcases List.suffix_cons_iff.mp h with rfl | h
      · exact Nat.le_refl _
      have happ := takeFit_append size cap (size a) as
      have hload : size a + load size (takeFit size cap (size a) as).1 ≤ cap :=
        takeFit_load (hm a List.mem_cons_self)
      rw [pack_cons, List.length_cons]
      generalize takeFit size cap (size a) as = split at happ hload ⊢
      obtain ⟨taken, rest⟩ := split
      dsimp only at happ hload ⊢
      subst happ
      rw [List.length_cons, List.length_append] at hn
      have hrest : ∀ c ∈ rest, size c ≤ cap := fun c hc =>
        hm c (List.mem_cons_of_mem _ (List.mem_append_right _ hc))
      rcases List.suffix_or_suffix_of_suffix h (List.suffix_append taken rest) with hsuf | ⟨t, rfl⟩
      · exact Nat.le_succ_of_le (ih _ (by omega) hsuf hrest rfl)
      cases t with
      | nil => exact Nat.le_succ _
      | cons b t =>
        -- what is left of the first block and the rest: those items fit together as well
        obtain ⟨front, hfront⟩ := h
        rw [← List.append_assoc] at hfront
        obtain rfl := List.append_cancel_right hfront
        rw [load_append, load_cons] at hload
        rw [List.cons_append, pack_cons, takeFit_front rest (by omega), List.length_cons]
        have hsuf : (takeFit size cap (size b + load size t) rest).2 <:+ rest :=
          ⟨_, takeFit_append size cap _ rest⟩
        exact Nat.succ_le_succ (ih _ (by omega) hsuf hrest rfl)

/-- **No packing has fewer blocks.** -/
theorem length_pack_le {blocks : List (List α)} (h : ∀ b ∈ blocks, load size b ≤ cap) :
    (pack size cap blocks.flatten).length ≤ blocks.length := by
  induction blocks with
  | nil => simp [pack_nil]
  | cons b blocks ih =>
    have hblocks := ih fun c hc => h c (List.mem_cons_of_mem _ hc)
    rw [List.flatten_cons]
    cases b with
    | nil => exact Nat.le_succ_of_le hblocks
    | cons a as =>
      have hload := h _ List.mem_cons_self
      rw [load_cons] at hload
      rw [List.cons_append, pack_cons, takeFit_front _ hload, List.length_cons, List.length_cons]
      have hsuf : (takeFit size cap (size a + load size as) blocks.flatten).2 <:+ blocks.flatten :=
        ⟨_, takeFit_append size cap _ blocks.flatten⟩
      refine Nat.succ_le_succ ((length_pack_suffix hsuf ?_).trans hblocks)
      intro c hc
      obtain ⟨d, hd, hcd⟩ := List.mem_flatten.mp hc
      exact (size_le_load hcd).trans (h d (List.mem_cons_of_mem _ hd))

/-- The sizes of the items alone decide how many blocks there are. -/
theorem length_pack_map (items : List α) :
    (pack id cap (items.map size)).length = (pack size cap items).length := by
  have htake : ∀ (used : Nat) (items : List α), takeFit id cap used (items.map size) =
      ((takeFit size cap used items).1.map size, (takeFit size cap used items).2.map size) := by
    intro used items
    induction items generalizing used with
    | nil => rfl
    | cons a as ih =>
      rw [List.map_cons, takeFit, takeFit, ih]
      dsimp only [id]
      split <;> rfl
  induction hn : items.length using Nat.strongRecOn generalizing items with
  | ind n ih =>
    cases items with
    | nil => simp [pack_nil]
    | cons a as =>
      have hlen := congrArg List.length (takeFit_append size cap (size a) as)
      rw [List.length_append] at hlen
      rw [List.length_cons] at hn
      rw [List.map_cons, pack_cons, pack_cons, id, htake, List.length_cons, List.length_cons,
        ih _ (by omega) _ rfl]

end ErofsUtils.Store
