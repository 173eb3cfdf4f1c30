import ErofsUtils.Rust.Outcome

/-! # Windows of a buffer and overwriting them

Buffers are lists. `window l off len` is the part of `l` that starts at `off`;
`overwrite` replaces such a part. `slice` and `copyAt` are the checked forms, which
stop the run where the range does not lie in the buffer. -/
namespace ErofsUtils.Bytes
open ErofsUtils.Rust

variable {ε α : Type}

def window (l : List α) (off len : Nat) : List α := (l.drop off).take len

/-- `data[start..stop]`. -/
def slice (data : List α) (start stop : Nat) : Outcome ε (List α) :=
  if start ≤ stop ∧ stop ≤ data.length then .ok (window data start (stop - start))
  else abort .bounds

/-- `data[i]`. -/
def getAt (data : List α) (i : Nat) : Outcome ε α :=
  match data[i]? with
  | some a => .ok a
  | none => abort .bounds

def overwrite (buf : List α) (off : Nat) (src : List α) : List α :=
  buf.take off ++ src ++ buf.drop (off + src.length)

/-- `buf[off..off + src.len()].copy_from_slice(src)`. -/
def copyAt (buf : List α) (off : Nat) (src : List α) : Outcome ε (List α) :=
  if off + src.length ≤ buf.length then .ok (overwrite buf off src) else abort .bounds

/-! ## Windows -/

@[simp] theorem length_window (l : List α) (off len : Nat) :
    (window l off len).length = min len (l.length - off) := by
  simp [window]

theorem length_window_of_le {l : List α} {off len : Nat} (h : off + len ≤ l.length) :
    (window l off len).length = len := by
  rw [length_window]; omega

theorem window_all (l : List α) : window l 0 l.length = l := by simp [window]

theorem window_append_left {a b : List α} {off len : Nat} (h : off + len ≤ a.length) :
    window (a ++ b) off len = window a off len := by
  unfold window
  rw [List.drop_append_of_le_length (by omega),
    List.take_append_of_le_length (by rw [List.length_drop]; omega)]

theorem window_append_right (a b : List α) (off len : Nat) :
    window (a ++ b) (a.length + off) len = window b off len := by
  unfold window
  rw [List.drop_length_add_append]

/-- The part `b` of a buffer `a ++ b ++ c`. -/
theorem window_middle (a b c : List α) : window (a ++ b ++ c) a.length b.length = b := by
  rw [window_append_left (by simp), ← Nat.add_zero a.length, window_append_right, window_all]

theorem window_window {l : List α} {off len i n : Nat} (h : i + n ≤ len) :
    window (window l off len) i n = window l (off + i) n := by
  unfold window
  rw [List.drop_take, List.take_take, List.drop_drop, Nat.min_eq_left (by omega)]

theorem window_add (l : List α) (off m n : Nat) :
    window l off (m + n) = window l off m ++ window l (off + m) n := by
  unfold window
  rw [List.take_add, List.drop_drop]

/-- A window ends with its list. -/
theorem window_min (l : List α) (off n : Nat) :
    window l off (min n (l.length - off)) = window l off n := by
  rw [window, window, List.take_eq_take_iff, List.length_drop]
  omega

theorem window_take {l : List α} {k off len : Nat} (h : off + len ≤ k) :
    window (l.take k) off len = window l off len := by
  unfold window
  rw [List.drop_take, List.take_take, Nat.min_eq_left (by omega)]

theorem window_drop (l : List α) (k off len : Nat) :
    window (l.drop k) off len = window l (k + off) len := by
  unfold window
  rw [List.drop_drop]

theorem window_of_append {l a b : List α} {off : Nat}
    (h : window l off (a ++ b).length = a ++ b) :
    window l off a.length = a ∧ window l (off + a.length) b.length = b := by
  rw [List.length_append, window_add] at h
  have hlen : (window l off a.length).length = a.length := by
    have h' := congrArg List.length h
    simp only [List.length_append, length_window] at h' ⊢
    omega
  exact List.append_inj h hlen

theorem le_of_window_eq {l a : List α} {off : Nat} (h : window l off a.length = a)
    (ha : a ≠ []) : off + a.length ≤ l.length := by
  have h' := congrArg List.length h
  rw [length_window] at h'
  have := List.length_pos_iff.mpr ha
  omega

theorem slice_ok {data : List α} {start stop : Nat} (h : start ≤ stop) (h' : stop ≤ data.length) :
    (slice data start stop : Outcome ε (List α)) = .ok (window data start (stop - start)) :=
  if_pos ⟨h, h'⟩

theorem getAt_ok {data : List α} {i : Nat} (h : i < data.length) (d : α) :
    (getAt data i : Outcome ε α) = .ok (data.getD i d) := by
  unfold getAt
  rw [List.getD_eq_getElem?_getD, List.getElem?_eq_getElem h]
  rfl

/-! ## Overwriting -/

theorem length_overwrite {buf src : List α} {off : Nat} (h : off + src.length ≤ buf.length) :
    (overwrite buf off src).length = buf.length := by
  simp only [overwrite, List.length_append, List.length_take, List.length_drop]
  omega

theorem copyAt_ok {buf src : List α} {off : Nat} (h : off + src.length ≤ buf.length) :
    (copyAt buf off src : Outcome ε (List α)) = .ok (overwrite buf off src) := if_pos h

/-- Overwriting the part `b` of `a ++ b ++ c`. -/
theorem overwrite_middle (a b c src : List α) (h : src.length = b.length) :
    overwrite (a ++ b ++ c) a.length src = a ++ src ++ c := by
  unfold overwrite
  rw [h, List.append_assoc a b c, List.take_left, ← List.append_assoc a b c,
    ← List.length_append, List.drop_left]

theorem copyAt_middle {a b c src : List α} {off : Nat} (ho : off = a.length)
    (h : src.length = b.length) :
    (copyAt (a ++ b ++ c) off src : Outcome ε (List α)) = .ok (a ++ src ++ c) := by
  subst ho
  rw [copyAt_ok (by simp; omega), overwrite_middle _ _ _ _ h]

/-- Writing at the front of a run of equal cells. -/
theorem copyAt_replicate (front post src : List α) (z : α) {off n : Nat} (ho : off = front.length)
    (h : src.length ≤ n) :
    (copyAt (front ++ List.replicate n z ++ post) off src : Outcome ε (List α)) =
      .ok (front ++ src ++ List.replicate (n - src.length) z ++ post) := by
  have hsplit : List.replicate n z =
      List.replicate src.length z ++ List.replicate (n - src.length) z := by
    rw [List.replicate_append_replicate, Nat.add_sub_cancel' h]
  rw [hsplit, ← List.append_assoc front, List.append_assoc _ _ post,
    copyAt_middle ho (by simp), ← List.append_assoc]

theorem window_overwrite_same {buf src : List α} {off : Nat} (h : off + src.length ≤ buf.length) :
    window (overwrite buf off src) off src.length = src := by
  have ho : off = (buf.take off).length := by simp; omega
  unfold overwrite
  conv_lhs => arg 2; rw [ho]
  exact window_middle _ _ _

theorem window_overwrite_before {buf src : List α} {off i n : Nat} (h : i + n ≤ off)
    (hb : off + src.length ≤ buf.length) :
    window (overwrite buf off src) i n = window buf i n := by
  unfold overwrite
  rw [List.append_assoc, window_append_left (by simp; omega), window_take h]

theorem window_overwrite_after {buf src : List α} {off i n : Nat} (h : off + src.length ≤ i)
    (hb : off + src.length ≤ buf.length) :
    window (overwrite buf off src) i n = window buf i n := by
  have hlen : (buf.take off ++ src).length = off + src.length := by simp; omega
  obtain ⟨k, rfl⟩ := Nat.exists_eq_add_of_le h
  unfold overwrite
  rw [← hlen, window_append_right, window_drop]

/-! ## Disjoint regions -/

/-- The regions of `m` cells at `i` and of `n` cells at `j` share no cell. -/
def Apart (i m j n : Nat) : Prop := i + m ≤ j ∨ j + n ≤ i

theorem Apart.symm {i m j n : Nat} (h : Apart i m j n) : Apart j n i m := Or.symm h

theorem window_overwrite_apart {buf src : List α} {off i n : Nat}
    (h : Apart off src.length i n) (hb : off + src.length ≤ buf.length) :
    window (overwrite buf off src) i n = window buf i n := by
  rcases h with h | h
  · exact window_overwrite_after h hb
  · exact window_overwrite_before h hb

/-- Write each of `writes` at its offset, in order. -/
def overwriteAll (buf : List α) (writes : List (Nat × List α)) : List α :=
  writes.foldl (fun b w => overwrite b w.1 w.2) buf

variable {buf : List α} {writes : List (Nat × List α)}

theorem length_overwriteAll (h : ∀ w ∈ writes, w.1 + w.2.length ≤ buf.length) :
    (overwriteAll buf writes).length = buf.length := by
  induction writes generalizing buf with
  | nil => rfl
  | cons w ws ih =>
    have hw := length_overwrite (h w List.mem_cons_self)
    rw [overwriteAll, List.foldl_cons, ← overwriteAll,
      ih fun v hv => hw ▸ h v (List.mem_cons_of_mem _ hv), hw]

/-- A region apart from every write keeps its contents. -/
theorem window_overwriteAll_apart {i n : Nat}
    (h : ∀ w ∈ writes, w.1 + w.2.length ≤ buf.length)
    (ha : ∀ w ∈ writes, Apart w.1 w.2.length i n) :
    window (overwriteAll buf writes) i n = window buf i n := by
  induction writes generalizing buf with
  | nil => rfl
  | cons w ws ih =>
    have hw := h w List.mem_cons_self
    rw [overwriteAll, List.foldl_cons, ← overwriteAll,
      ih (fun v hv => (length_overwrite hw).symm ▸ h v (List.mem_cons_of_mem _ hv))
        (fun v hv => ha v (List.mem_cons_of_mem _ hv)),
      window_overwrite_apart (ha w List.mem_cons_self) hw]

/-- Writes to pairwise disjoint regions are all read back. -/
theorem window_overwriteAll (h : ∀ w ∈ writes, w.1 + w.2.length ≤ buf.length)
    (hd : writes.Pairwise fun v w => Apart v.1 v.2.length w.1 w.2.length)
    {w : Nat × List α} (hw : w ∈ writes) :
    window (overwriteAll buf writes) w.1 w.2.length = w.2 := by
  induction writes generalizing buf with
  | nil => cases hw
  | cons v ws ih =>
    obtain ⟨hv, hd⟩ := List.pairwise_cons.mp hd
    have hb := h v List.mem_cons_self
    have hrest : ∀ u ∈ ws, u.1 + u.2.length ≤ (overwrite buf v.1 v.2).length :=
      fun u hu => (length_overwrite hb).symm ▸ h u (List.mem_cons_of_mem _ hu)
    rw [overwriteAll, List.foldl_cons, ← overwriteAll]
    rcases List.mem_cons.mp hw with rfl | hw
    · rw [window_overwriteAll_apart hrest fun u hu => (hv u hu).symm, window_overwrite_same hb]
    · exact ih hrest hd hw

end ErofsUtils.Bytes
