import ErofsUtils.Bytes.RoundUp
import ErofsUtils.Bytes.Window

/-! # Placing regions one after another

Regions are placed at the next multiple of their alignment, each rounded up to
it. Whatever the order and the sizes, the regions are aligned, end at or before the
final cursor and share no cell. -/
namespace ErofsUtils.Bytes

structure Request where
  align : Nat
  size : Nat

structure Region where
  off : Nat
  size : Nat

def Request.place (q : Request) (cursor : Nat) : Region := ⟨alignUp cursor q.align, q.size⟩

def Request.next (q : Request) (cursor : Nat) : Nat :=
  alignUp cursor q.align + alignUp q.size q.align

/-- The regions placed from `cursor` on. -/
def placeAll : Nat → List Request → List Region
  | _, [] => []
  | cursor, q :: qs => q.place cursor :: placeAll (q.next cursor) qs

/-- The cursor behind the last of them. -/
def endCursor : Nat → List Request → Nat
  | cursor, [] => cursor
  | cursor, q :: qs => endCursor (q.next cursor) qs

def Region.Apart (r s : Region) : Prop := Bytes.Apart r.off r.size s.off s.size

variable {q : Request} {qs : List Request} {c : Nat}

theorem Request.le_next (h : 0 < q.align) :
    c ≤ (q.place c).off ∧ (q.place c).off + q.size ≤ q.next c :=
  ⟨le_alignUp h, Nat.add_le_add_left (le_alignUp h) _⟩

theorem le_endCursor (h : ∀ q ∈ qs, 0 < q.align) : c ≤ endCursor c qs := by
  induction qs generalizing c with
  | nil => exact Nat.le_refl _
  | cons q qs ih =>
    have hq := q.le_next (c := c) (h q List.mem_cons_self)
    have := ih (c := q.next c) fun p hp => h p (List.mem_cons_of_mem _ hp)
    simp only [endCursor]
    omega

/-- Every region lies between the two cursors. -/
theorem placeAll_bounds (h : ∀ q ∈ qs, 0 < q.align) {r : Region} (hr : r ∈ placeAll c qs) :
    c ≤ r.off ∧ r.off + r.size ≤ endCursor c qs := by
  induction qs generalizing c with
  | nil => cases hr
  | cons q qs ih =>
    have hqs : ∀ p ∈ qs, 0 < p.align := fun p hp => h p (List.mem_cons_of_mem _ hp)
    have hq := q.le_next (c := c) (h q List.mem_cons_self)
    have hend := le_endCursor (c := q.next c) hqs
    simp only [endCursor]
    rcases List.mem_cons.mp hr with rfl | hr
    · simp only [Request.place] at hq ⊢
      omega
    · have := ih hqs hr
      omega

/-- Every region ends before a later one starts. -/
theorem placeAll_ordered (h : ∀ q ∈ qs, 0 < q.align) :
    (placeAll c qs).Pairwise fun r s => r.off + r.size ≤ s.off := by
  induction qs generalizing c with
  | nil => exact List.Pairwise.nil
  | cons q qs ih =>
    have hqs : ∀ p ∈ qs, 0 < p.align := fun p hp => h p (List.mem_cons_of_mem _ hp)
    refine List.Pairwise.cons (fun r hr => ?_) (ih hqs)
    have hq := q.le_next (c := c) (h q List.mem_cons_self)
    have := placeAll_bounds hqs hr
    simp only [Request.place] at hq ⊢
    omega

theorem placeAll_apart (h : ∀ q ∈ qs, 0 < q.align) :
    (placeAll c qs).Pairwise Region.Apart := (placeAll_ordered h).imp .inl

@[simp] theorem map_size_placeAll (c : Nat) (qs : List Request) :
    (placeAll c qs).map Region.size = qs.map Request.size := by
  induction qs generalizing c with
  | nil => rfl
  | cons q qs ih =>
    rw [placeAll, List.map_cons, List.map_cons, ih]
    rfl

end ErofsUtils.Bytes
