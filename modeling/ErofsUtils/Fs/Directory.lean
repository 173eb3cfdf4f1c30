import ErofsUtils.Fs.Meta

/-! # What the directory parser hands out

The parser calls a callback entry by entry, but which entries it finds, and whether it
stops in a panic, depends on the bytes alone. `scanBlock` lists the entries of a block and
the panic that ends it, if any; the parser is the callback run over that list. -/
namespace ErofsUtils.Fs
open ErofsUtils.Rust ErofsUtils.Bytes ErofsUtils.Metadata

/-! ## Running a callback -/

/-- The callback run over `entries`, then the panic `stop` if one ends the list. -/
def runScan {σ : Type} (cb : DirCallback σ) (stop : Option Panic) :
    List CachedDirEntry → σ → IoResult (σ × Bool)
  | [], s => match stop with
    | none => pure (s, true)
    | some p => abort p
  | e :: es, s => match cb s e with
    | .error err => fail err
    | .ok (s, true) => runScan cb stop es s
    | .ok (s, false) => pure (s, false)

/-- The callback run over entries that no panic ends. -/
def runCallback {σ : Type} (cb : DirCallback σ) (entries : List CachedDirEntry) (s : σ) :
    IoResult σ := Prod.fst <$> runScan cb none entries s

variable {σ : Type} {cb : DirCallback σ} {es fs : List CachedDirEntry} {s : σ}

theorem runScan_append (es fs : List CachedDirEntry) (s : σ) (stop : Option Panic) :
    runScan cb stop (es ++ fs) s = runScan cb none es s >>= fun (s, more) =>
      if more then runScan cb stop fs s else pure (s, false) := by
  induction es generalizing s with
  | nil => rfl
  | cons e es ih =>
    rw [List.cons_append, runScan, runScan]
    cases cb s e with
    | error err => rfl
    | ok r =>
      obtain ⟨s, more⟩ := r
      cases more with
      | true => exact ih s
      | false => rfl

/-- A run that no panic ends returns, or fails with an error of the callback. -/
theorem runScan_returns (cb : DirCallback σ) (es : List CachedDirEntry) (s : σ) :
    (∃ r, runScan cb none es s = .ok r) ∨
      ∃ s' e err, cb s' e = .error err ∧ runScan cb none es s = fail err := by
  induction es generalizing s with
  | nil => exact .inl ⟨_, rfl⟩
  | cons e es ih =>
    rw [runScan]
    cases h : cb s e with
    | error err => exact .inr ⟨s, e, err, h, rfl⟩
    | ok r =>
      obtain ⟨s, more⟩ := r
      cases more with
      | true => exact ih s
      | false => exact .inl ⟨_, rfl⟩

/-- Callbacks that agree on the entries of a list run alike over it. -/
theorem runScan_congr {cb cb' : DirCallback σ} {stop : Option Panic}
    (h : ∀ e ∈ es, ∀ s, cb s e = cb' s e) (s : σ) :
    runScan cb stop es s = runScan cb' stop es s := by
  induction es generalizing s with
  | nil => rfl
  | cons e es ih =>
    have hrest := ih fun f hf => h f (List.mem_cons_of_mem _ hf)
    rw [runScan, runScan, h e List.mem_cons_self]
    cases cb' s e with
    | error err => rfl
    | ok r =>
      obtain ⟨s, more⟩ := r
      cases more with
      | true => exact hrest s
      | false => rfl

theorem runScan_collect (es fs : List CachedDirEntry) (stop : Option Panic) :
    runScan ErofsReader.collect stop es fs = match stop with
      | none => .ok (fs ++ es, true)
      | some p => abort p := by
  induction es generalizing fs with
  | nil => cases stop <;> simp [runScan]
  | cons e es ih =>
    rw [runScan]
    dsimp only [ErofsReader.collect]
    rw [ih]
    simp

/-! ## The entries of a block -/

def direntAt (block : List UInt8) (i : Nat) : ErofsDirent :=
  ErofsDirent.codec.dec (block.drop (i * erofsDirentSize))

def nameoffAt (block : List UInt8) (i : Nat) : Nat := (direntAt block i).nameoff.toNat

/-- The next name's start, or for the last entry what the scan finds. -/
def nameEndAt (block : List UInt8) (count i : Nat) : Nat :=
  if i + 1 < count then nameoffAt block (i + 1) else scanName block (nameoffAt block i)

def entryAt (block : List UInt8) (count i : Nat) : CachedDirEntry where
  nid := (direntAt block i).nid.toNat
  fileType := (direntAt block i).fileType
  name := window block (nameoffAt block i) (nameEndAt block count i - nameoffAt block i)

/-- The entries handed out from entry `i` on, and the panic behind them. -/
def scanBlock (block : List UInt8) (count : Nat) : (n i : Nat) → List CachedDirEntry × Option Panic
  | 0, _ => ([], none)
  | n + 1, i =>
    if block.length < i * 12 + 12 then ([], none)
    else if i + 1 < count ∧ block.length < i * 12 + 24 then
      ([], some (.assertion "data.len() >= mem::size_of::<T>()"))
    else if nameoffAt block i ≥ block.length ∨ nameEndAt block count i > block.length then ([], none)
    else if nameEndAt block count i < nameoffAt block i then ([], some .bounds)
    else (entryAt block count i :: (scanBlock block count n (i + 1)).1,
      (scanBlock block count n (i + 1)).2)

theorem castRef_dirent {block : List UInt8} {i : Nat} (h : i * 12 + 12 ≤ block.length) :
    (ErofsDirent.codec.castRef (window block (i * 12) 12) : IoResult ErofsDirent) =
      .ok (direntAt block i) := by
  rw [Codec.castRef_ok _ (by rw [length_window_of_le h]; exact Nat.le_refl 12), window]
  exact congrArg _ (ErofsDirent.codec.dec_take _)

/-- The cast of the next entry asserts that the block holds it. -/
theorem readNameEnd_eq {block : List UInt8} (count : Nat) {i : Nat} (h : i * 12 + 12 ≤ block.length) :
    readNameEnd block count i (nameoffAt block i) =
      if i + 1 < count ∧ block.length < i * 12 + 24 then
        abort (.assertion "data.len() >= mem::size_of::<T>()")
      else .ok (nameEndAt block count i) := by
  have hdrop : window block ((i + 1) * 12) (block.length - (i + 1) * 12) =
      block.drop ((i + 1) * 12) := by
    rw [window, List.take_of_length_le (by rw [List.length_drop])]
  unfold readNameEnd nameEndAt
  by_cases hc : i + 1 < count
  · rw [if_pos hc]
    simp only [erofsDirentSize, hc, true_and, if_true]
    rw [slice_ok (by omega) (Nat.le_refl _), bind_ok, hdrop, Codec.castRef,
      show ErofsDirent.codec.size = 12 from rfl, List.length_drop]
    by_cases hl : block.length < i * 12 + 24
    · rw [if_neg (by omega), if_pos hl]
      rfl
    · rw [if_pos (by omega), if_neg hl]
      rfl
  · simp only [hc, false_and, if_false]
    rfl

/-- **One block**: the parser is the callback run over what the scan of the block lists. -/
theorem parseBlock_eq (block : List UInt8) (count n i : Nat) (cb : DirCallback σ) (s : σ) :
    parseBlock block count cb n i s =
      runScan cb (scanBlock block count n i).2 (scanBlock block count n i).1 s := by
  induction n generalizing i s with
  | zero => rfl
  | succ n ih =>
    have hsize : erofsDirentSize = 12 := rfl
    have hoff : i * erofsDirentSize = i * 12 := rfl
    rw [parseBlock, scanBlock]
    dsimp only
    by_cases hlen : block.length < i * 12 + 12
    · rw [if_pos hlen, if_pos (show i * erofsDirentSize + erofsDirentSize > _ by omega)]
      rfl
    rw [if_neg hlen, if_neg (show ¬ i * erofsDirentSize + erofsDirentSize > _ by omega),
      slice_ok (by omega) (by omega), bind_ok, Nat.add_sub_cancel_left, hsize,
      castRef_dirent (by omega), bind_ok]
    have hname := readNameEnd_eq count (show i * 12 + 12 ≤ block.length by omega)
    rw [nameoffAt] at hname
    rw [hname]
    by_cases hcast : i + 1 < count ∧ block.length < i * 12 + 24
    · rw [if_pos hcast, if_pos hcast]
      rfl
    rw [if_neg hcast, if_neg hcast, bind_ok, ← nameoffAt]
    by_cases hout : nameoffAt block i ≥ block.length ∨ nameEndAt block count i > block.length
    · rw [if_pos hout, if_pos hout]
      rfl
    rw [if_neg hout, if_neg hout]
    by_cases hdec : nameEndAt block count i < nameoffAt block i
    · rw [if_pos hdec, slice, if_neg (by omega)]
      rfl
    rw [if_neg hdec, slice_ok (by omega) (by omega), bind_ok]
    dsimp only
    rw [runScan]
    show (match cb s (entryAt block count i) with
      | .error e => fail e
      | .ok (s, true) => parseBlock block count cb n (i + 1) s
      | .ok (s, false) => pure (s, false)) = _
    cases cb s (entryAt block count i) with
    | error err => rfl
    | ok r =>
      obtain ⟨s, more⟩ := r
      cases more with
      | true => exact ih (i + 1) s
      | false => rfl

/-! ## The blocks of a directory -/

/-- Blocks `k` up to `k + m` of the data. -/
def dirBlocks (data : List UInt8) (k m : Nat) : List (List UInt8) :=
  (List.range' k m).map fun j => window data (j * 4096) 4096

/-- The entries of a whole block; a block without room for an entry has none. -/
def scanWhole (block : List UInt8) : List CachedDirEntry × Option Panic :=
  if block.length < erofsDirentSize then ([], none)
  else
    let count := nameoffAt block 0 / erofsDirentSize
    scanBlock block count count 0

/-- The callback run over the blocks until it stops. -/
def runBlocks (cb : DirCallback σ) : List (List UInt8) → σ → IoResult σ
  | [], s => pure s
  | block :: blocks, s => do
    let (s, more) ← runScan cb (scanWhole block).2 (scanWhole block).1 s
    if more then runBlocks cb blocks s else pure s

/-- **The parser** is the callback run over the blocks of its data. -/
theorem parseDirEntries_eq (data : List UInt8) (cb : DirCallback σ) (k m : Nat) (s : σ)
    (hm : k + m = divCeil data.length 4096) :
    parseDirEntries data data.length cb (k * 4096) s = runBlocks cb (dirBlocks data k m) s := by
  have hlt : ∀ j, j < divCeil data.length 4096 ↔ j * 4096 < data.length := by
    intro j
    exact lt_divCeil_iff (by decide)
  have hbs : erofsBlockSize = 4096 := rfl
  have hds : erofsDirentSize = 12 := rfl
  induction m generalizing k s with
  | zero =>
    have hk := hlt k
    rw [parseDirEntries, dif_neg (by omega)]
    rfl
  | succ m ih =>
    have hk := (hlt k).mp (by omega)
    have hblock : window data (k * 4096) (min (k * 4096 + 4096) data.length - k * 4096) =
        window data (k * 4096) 4096 := by
      rw [← window_min data (k * 4096) 4096]
      congr 1
      omega
    have hrest := fun s => ih (k + 1) s (by omega)
    rw [show (k + 1) * 4096 = k * 4096 + 4096 by omega] at hrest
    rw [parseDirEntries, dif_pos hk]
    dsimp only
    rw [hbs, slice_ok (by omega) (by omega), bind_ok, hblock, dirBlocks, List.range'_succ,
      List.map_cons, ← dirBlocks, runBlocks, scanWhole]
    by_cases hshort : (window data (k * 4096) 4096).length < erofsDirentSize
    · have hlast : m = 0 := by
        have h1 := hlt (k + 1)
        rw [length_window] at hshort
        omega
      subst hlast
      rw [if_pos hshort, if_pos hshort]
      rfl
    · have hfirst := castRef_dirent (i := 0) (show 0 * 12 + 12 ≤ (window data (k * 4096) 4096).length
        by omega)
      rw [Nat.zero_mul] at hfirst
      rw [if_neg hshort, if_neg hshort, slice_ok (by omega) (by omega), bind_ok, Nat.sub_zero, hds,
        hfirst, bind_ok]
      dsimp only
      rw [parseBlock_eq]
      refine congrArg _ (funext ?_)
      intro r
      obtain ⟨s, more⟩ := r
      cases more with
      | true => simp only [if_true, hrest]
      | false => simp only [Bool.false_eq_true, if_false]

theorem runBlocks_of_none {blocks : List (List UInt8)}
    (h : ∀ block ∈ blocks, (scanWhole block).2 = none) (s : σ) :
    runBlocks cb blocks s = runCallback cb (blocks.flatMap fun block => (scanWhole block).1) s := by
  induction blocks generalizing s with
  | nil => rfl
  | cons block blocks ih =>
    have hrest := ih fun b hb => h b (List.mem_cons_of_mem _ hb)
    rw [runBlocks, h block List.mem_cons_self, List.flatMap_cons, runCallback, runScan_append]
    cases runScan cb none (scanWhole block).1 s with
    | error e => rfl
    | ok r =>
      obtain ⟨s, more⟩ := r
      cases more with
      | true => exact hrest s
      | false => rfl

/-- Collecting never stops early, so it meets every panic. -/
theorem noPanic_runBlocks_collect {blocks : List (List UInt8)} {es : List CachedDirEntry}
    (h : NoPanic (runBlocks ErofsReader.collect blocks es)) :
    ∀ block ∈ blocks, (scanWhole block).2 = none := by
  induction blocks generalizing es with
  | nil => simp
  | cons block blocks ih =>
    rw [runBlocks, runScan_collect] at h
    cases hstop : (scanWhole block).2 with
    | some p =>
      rw [hstop] at h
      exact absurd h (not_noPanic_abort p)
    | none =>
      rw [hstop] at h
      intro b hb
      rcases List.mem_cons.mp hb with rfl | hb
      · exact hstop
      · exact ih h b hb

/-! ## When no panic ends a block -/

theorem le_scanName (block : List UInt8) (nameoff : Nat) : nameoff ≤ scanName block nameoff :=
  Nat.le_add_right _ _

theorem scanName_le {block : List UInt8} {nameoff : Nat} (h : nameoff ≤ block.length) :
    scanName block nameoff ≤ block.length := by
  have hle := (List.takeWhile_prefix (p := fun b : UInt8 => decide (b ≠ 0))
    (l := block.drop nameoff)).length_le
  rw [List.length_drop] at hle
  unfold scanName
  omega

/-- The name offsets of a block that the parser gets through: a block too short for two
entries promises one, and as long as the offsets lie in the block none is larger than the
next. -/
structure BlockSafe (block : List UInt8) : Prop where
  first : block.length < 24 → nameoffAt block 0 < 24
  ordered : ∀ i, i + 1 < nameoffAt block 0 / 12 →
    (∀ j ≤ i, nameoffAt block j < block.length) → nameoffAt block i ≤ nameoffAt block (i + 1)

/-- What the scan needs from entry `i` on. -/
def OrderedFrom (block : List UInt8) (count i : Nat) : Prop :=
  ∀ m, i ≤ m → m + 1 < count → (∀ j ≤ m, nameoffAt block j < block.length) →
    nameoffAt block m ≤ nameoffAt block (m + 1)

theorem orderedFrom_succ {block : List UInt8} {count i : Nat}
    (h : i + 1 < count → nameoffAt block i ≤ nameoffAt block (i + 1)) :
    OrderedFrom block count (i + 1) ↔ OrderedFrom block count i := by
  refine ⟨?_, fun ho m hm hc hall => ho m (by omega) hc hall⟩
  intro ho m hm hc hall
  rcases Nat.eq_or_lt_of_le hm with rfl | hm
  · exact h hc
  · exact ho m hm hc hall

theorem scanBlock_stop_iff {block : List UInt8} {count n i : Nat} (hn : i + n = count)
    (hcount : count = nameoffAt block 0 / 12) (hreach : ∀ j < i, nameoffAt block j < block.length)
    (hentry : i < count → i * 12 + 12 ≤ block.length)
    (hnext : i + 1 < count → i * 12 + 24 ≤ block.length) :
    (scanBlock block count n i).2 = none ↔ OrderedFrom block count i := by
  induction n generalizing i with
  | zero =>
    refine ⟨?_, fun _ => rfl⟩
    intro _ m hm hm'
    omega
  | succ n ih =>
    have hi := hentry (by omega)
    rw [scanBlock, if_neg (by omega), if_neg (by omega)]
    by_cases hin : nameoffAt block i < block.length
    · have hreach' : ∀ j < i + 1, nameoffAt block j < block.length := by
        intro j hj
        rcases Nat.lt_succ_iff_lt_or_eq.mp hj with hj | rfl
        · exact hreach j hj
        · exact hin
      have hfirst := hreach' 0 (by omega)
      have hrest := ih (i := i + 1) (by omega) hreach' (by omega) (by omega)
      by_cases hlast : i + 1 < count
      · have hend : nameEndAt block count i = nameoffAt block (i + 1) := if_pos hlast
        rw [hend]
        by_cases hout : nameoffAt block (i + 1) > block.length
        · rw [if_pos (.inr hout)]
          refine ⟨?_, fun _ => rfl⟩
          intro _ m hm _ hall
          rcases Nat.eq_or_lt_of_le hm with rfl | hm
          · omega
          · have := hall (i + 1) hm
            omega
        · rw [if_neg (by omega)]
          by_cases hdec : nameoffAt block (i + 1) < nameoffAt block i
          · rw [if_pos hdec]
            refine ⟨nofun, ?_⟩
            intro ho
            have := ho i (Nat.le_refl i) hlast fun j hj => hreach' j (by omega)
            omega
          · rw [if_neg hdec]
            exact hrest.trans (orderedFrom_succ fun _ => by omega)
      · have hend : nameEndAt block count i = scanName block (nameoffAt block i) := if_neg hlast
        have hle := le_scanName block (nameoffAt block i)
        have hle' := scanName_le (Nat.le_of_lt hin)
        rw [hend, if_neg (by omega), if_neg (by omega)]
        exact hrest.trans (orderedFrom_succ fun h => absurd h hlast)
    · rw [if_pos (.inl (by omega))]
      refine ⟨?_, fun _ => rfl⟩
      intro _ m hm _ hall
      exact absurd (hall i hm) hin

/-- No panic ends a block with room for an entry exactly when its offsets are safe. -/
theorem scanWhole_stop_iff {block : List UInt8} (h : 12 ≤ block.length) :
    (scanWhole block).2 = none ↔ BlockSafe block := by
  have hds : erofsDirentSize = 12 := rfl
  have hordered : BlockSafe block ↔ (block.length < 24 → nameoffAt block 0 < 24) ∧
      OrderedFrom block (nameoffAt block 0 / 12) 0 :=
    ⟨fun hs => ⟨hs.first, fun m _ => hs.ordered m⟩,
      fun hs => ⟨hs.1, fun m => hs.2 m (Nat.zero_le m)⟩⟩
  rw [scanWhole, if_neg (by omega), hordered, hds]
  by_cases hfirst : block.length < 24 → nameoffAt block 0 < 24
  · rw [and_iff_right hfirst]
    exact scanBlock_stop_iff (by omega) rfl (by simp) (by omega) (by omega)
  · rw [iff_false_right (fun hs => hfirst hs.1)]
    obtain ⟨hshort, hbig⟩ := Classical.not_imp.mp hfirst
    obtain ⟨n, hn⟩ : ∃ n, nameoffAt block 0 / 12 = n + 1 :=
      ⟨nameoffAt block 0 / 12 - 1, by omega⟩
    dsimp only
    rw [hn, scanBlock, if_neg (by omega), if_pos (by omega)]
    nofun

/-! ## Safety on every image -/

/-- The entry comes from a dirent of block `k` of the data, its name from inside that block. -/
def FromBlock (data : List UInt8) (e : CachedDirEntry) : Prop :=
  ∃ k i len, (i + 1) * 12 ≤ (window data (k * 4096) 4096).length ∧
    nameoffAt (window data (k * 4096) 4096) i + len ≤ (window data (k * 4096) 4096).length ∧
    e.nid = (direntAt (window data (k * 4096) 4096) i).nid.toNat ∧
    e.fileType = (direntAt (window data (k * 4096) 4096) i).fileType ∧
    e.name = window (window data (k * 4096) 4096) (nameoffAt (window data (k * 4096) 4096) i) len

theorem mem_scanBlock {block : List UInt8} {count n i : Nat} {e : CachedDirEntry}
    (h : e ∈ (scanBlock block count n i).1) :
    ∃ j, (j + 1) * 12 ≤ block.length ∧ e = entryAt block count j ∧
      nameoffAt block j ≤ nameEndAt block count j ∧ nameEndAt block count j ≤ block.length := by
  induction n generalizing i with
  | zero => cases h
  | succ n ih =>
    rw [scanBlock] at h
    repeat' split at h
    case isTrue | isTrue | isTrue | isTrue => cases h
    rcases List.mem_cons.mp h with rfl | h
    · exact ⟨i, by omega, rfl, by omega, by omega⟩
    · exact ih h

theorem fromBlock_of_mem_scanWhole {data : List UInt8} {k : Nat} {e : CachedDirEntry}
    (h : e ∈ (scanWhole (window data (k * 4096) 4096)).1) : FromBlock data e := by
  rw [scanWhole] at h
  split at h
  · cases h
  · obtain ⟨j, hj, rfl, hle, hle'⟩ := mem_scanBlock h
    exact ⟨k, j, _, hj, by omega, rfl, rfl, rfl⟩

/-- The parser is safe on the bytes: for every callback it returns or fails with an error of
the callback, and what the callback is handed comes from inside a block. -/
structure ParsesSafely (data : List UInt8) : Prop where
  returns : ∀ (σ : Type) (cb : DirCallback σ) (s : σ),
    (∃ s', parseDirEntries data data.length cb 0 s = .ok s') ∨
      ∃ s' e err, cb s' e = .error err ∧ parseDirEntries data data.length cb 0 s = fail err
  handed : ∀ (σ : Type) (cb cb' : DirCallback σ) (s : σ),
    (∀ e, FromBlock data e → ∀ s, cb s e = cb' s e) →
      parseDirEntries data data.length cb 0 s = parseDirEntries data data.length cb' 0 s

/-- The blocks of the data are safe, those with room for an entry. -/
def BlocksSafe (data : List UInt8) : Prop :=
  ∀ k, k * 4096 < data.length → 12 ≤ (window data (k * 4096) 4096).length →
    BlockSafe (window data (k * 4096) 4096)

theorem blocksSafe_iff (data : List UInt8) :
    BlocksSafe data ↔
      ∀ block ∈ dirBlocks data 0 (divCeil data.length 4096), (scanWhole block).2 = none := by
  have hlt : ∀ k, k < divCeil data.length 4096 ↔ k * 4096 < data.length := fun k =>
    lt_divCeil_iff (by decide)
  constructor
  · intro h block hb
    obtain ⟨k, hk, rfl⟩ := List.mem_map.mp hb
    rw [List.mem_range'_1, Nat.zero_add, hlt] at hk
    by_cases hlen : 12 ≤ (window data (k * 4096) 4096).length
    · exact (scanWhole_stop_iff hlen).mpr (h k hk.2 hlen)
    · rw [scanWhole, if_pos (by rw [erofsDirentSize]; omega)]
  · intro h k hk hlen
    refine (scanWhole_stop_iff hlen).mp (h _ (List.mem_map.mpr ⟨k, ?_, rfl⟩))
    rw [List.mem_range'_1, Nat.zero_add, hlt]
    exact ⟨Nat.zero_le k, hk⟩

theorem parseDirEntries_zero (data : List UInt8) (cb : DirCallback σ) (s : σ) :
    parseDirEntries data data.length cb 0 s =
      runBlocks cb (dirBlocks data 0 (divCeil data.length 4096)) s := by
  have h := parseDirEntries_eq data cb 0 (divCeil data.length 4096) s (Nat.zero_add _)
  rwa [Nat.zero_mul] at h

/-- The entries of a directory. -/
def dirEntries (data : List UInt8) : List CachedDirEntry :=
  (dirBlocks data 0 (divCeil data.length 4096)).flatMap fun block => (scanWhole block).1

/-- Over safe blocks the parser is the callback run over the entries. -/
theorem parseDirEntries_of_safe {data : List UInt8} (h : BlocksSafe data) (cb : DirCallback σ)
    (s : σ) : parseDirEntries data data.length cb 0 s = runCallback cb (dirEntries data) s := by
  rw [parseDirEntries_zero, runBlocks_of_none ((blocksSafe_iff data).mp h), dirEntries]

/-- **Directory parsing** is safe on exactly the bytes whose blocks are. -/
theorem parsesSafely_iff (data : List UInt8) : ParsesSafely data ↔ BlocksSafe data := by
  constructor
  · intro h
    have hrun : NoPanic (parseDirEntries data data.length ErofsReader.collect 0 []) := by
      rcases h.returns _ ErofsReader.collect [] with ⟨s, hs⟩ | ⟨_, _, err, -, hs⟩
      · rw [hs]
        exact noPanic_ok s
      · rw [hs]
        exact noPanic_fail err
    rw [parseDirEntries_zero] at hrun
    exact (blocksSafe_iff data).mpr (noPanic_runBlocks_collect hrun)
  · intro h
    refine ⟨?_, ?_⟩
    · intro σ cb s
      rw [parseDirEntries_of_safe h, runCallback]
      rcases runScan_returns cb (dirEntries data) s with ⟨r, hr⟩ | ⟨s', e, err, he, hr⟩
      · exact .inl ⟨r.1, by rw [hr]; rfl⟩
      · exact .inr ⟨s', e, err, he, by rw [hr]; rfl⟩
    · intro σ cb cb' s hcb
      rw [parseDirEntries_of_safe h, parseDirEntries_of_safe h, runCallback, runCallback]
      refine congrArg _ (runScan_congr ?_ s)
      intro e he
      obtain ⟨block, hb, he⟩ := List.mem_flatMap.mp he
      obtain ⟨k, -, rfl⟩ := List.mem_map.mp hb
      exact hcb e (fromBlock_of_mem_scanWhole he)

/-- Twelve bytes: one dirent whose name offset promises two. -/
def shortBlock : List UInt8 := [0, 0, 0, 0, 0, 0, 0, 0, 24, 0, 0, 0]

/-- The parser asserts the length of a second dirent that the block does not hold. -/
theorem not_parsesSafely_shortBlock : ¬ ParsesSafely shortBlock := by
  intro h
  have hrun : parseDirEntries shortBlock shortBlock.length ErofsReader.collect 0 [] =
      abort (.assertion "data.len() >= mem::size_of::<T>()") := by
    rw [parseDirEntries_zero]
    rfl
  rcases h.returns _ ErofsReader.collect [] with ⟨s, hs⟩ | ⟨_, _, err, -, hs⟩
  · rw [hrun] at hs
    cases hs
  · rw [hrun] at hs
    cases hs

end ErofsUtils.Fs
