import ErofsUtils.Build.Inode

/-! # The bytes of a serialized inode

`serializeInode` patches a zeroed buffer in place. It never leaves the buffer, and
what it leaves there is a header, the extended-attribute body and the tail of its
kind, one after the other with nothing between them. -/
namespace ErofsUtils.Build
open ErofsUtils.Rust ErofsUtils.Bytes ErofsUtils.Metadata

/-! ## Extended attributes -/

/-- An entry without its padding. -/
def xattrEntry (x : Xattr) : List UInt8 :=
  [UInt8.ofNat x.2.1.length, x.1] ++ leBytes 2 x.2.2.length ++ x.2.1 ++ x.2.2

def xattrPadded (x : Xattr) : List UInt8 :=
  xattrEntry x ++ List.replicate (alignUp (xattrEntrySize x) 4 - xattrEntrySize x) 0

def xattrEntries (xs : List Xattr) : List UInt8 := xs.flatMap xattrPadded

def xattrBody (xs : List Xattr) : List UInt8 :=
  if xs.isEmpty then [] else List.replicate erofsXattrIbodyHeaderSize 0 ++ xattrEntries xs

@[simp] theorem length_xattrEntry (x : Xattr) : (xattrEntry x).length = xattrEntrySize x := by
  simp [xattrEntry, xattrEntrySize, erofsXattrEntryHeaderSize]
  omega

@[simp] theorem length_xattrPadded (x : Xattr) :
    (xattrPadded x).length = alignUp (xattrEntrySize x) 4 := by
  have := le_alignUp (n := xattrEntrySize x) (show 0 < 4 by decide)
  simp [xattrPadded]
  omega

@[simp] theorem xattrEntries_nil : xattrEntries [] = [] := rfl
@[simp] theorem xattrEntries_cons (x : Xattr) (xs : List Xattr) :
    xattrEntries (x :: xs) = xattrPadded x ++ xattrEntries xs := rfl

@[simp] theorem length_xattrEntries (xs : List Xattr) :
    (xattrEntries xs).length = xattrEntriesSize xs := by
  induction xs with
  | nil => rfl
  | cons x xs ih => simp [ih]

@[simp] theorem length_xattrBody (xs : List Xattr) : (xattrBody xs).length = xattrIbodySize xs := by
  cases xs with
  | nil => rfl
  | cons x xs =>
    rw [xattrIbodySize_cons, xattrBody, List.isEmpty_cons, if_neg Bool.false_ne_true,
      List.length_append, List.length_replicate, length_xattrEntries]
    rfl

theorem serializeXattr_ok (front post : List UInt8) (x : Xattr) :
    serializeXattr (front ++ List.replicate (alignUp (xattrEntrySize x) 4) 0 ++ post)
      front.length x = .ok (front ++ xattrPadded x ++ post) := by
  obtain ⟨index, suffix, value⟩ := x
  have hle := le_alignUp (n := xattrEntrySize (index, suffix, value)) (show 0 < 4 by decide)
  simp only [xattrEntrySize, erofsXattrEntryHeaderSize] at hle
  simp only [serializeXattr, xattrEntrySize, erofsXattrEntryHeaderSize]
  rw [copyAt_replicate _ _ _ 0 rfl (by simp; omega), bind_ok,
    copyAt_replicate _ _ _ 0 (by simp) (by simp; omega), bind_ok,
    copyAt_replicate _ _ _ 0 (by simp) (by simp; omega), bind_ok,
    copyAt_replicate _ _ _ 0 (by simp) (by simp; omega), bind_ok,
    copyAt_replicate _ _ _ 0 (by simp; omega) (by simp; omega)]
  have hpad : ∀ n : Nat, n - 1 - 1 - 2 - suffix.length - value.length =
      n - (4 + suffix.length + value.length) := by intro n; omega
  simp [xattrPadded, xattrEntry, xattrEntrySize, erofsXattrEntryHeaderSize, hpad]

theorem serializeXattrsFrom_ok (xs : List Xattr) (front post : List UInt8) :
    serializeXattrsFrom (front ++ List.replicate (xattrEntriesSize xs) 0 ++ post) front.length xs =
      .ok (front ++ xattrEntries xs ++ post) := by
  induction xs generalizing front with
  | nil => simp [serializeXattrsFrom]
  | cons x xs ih =>
    have hstep := serializeXattr_ok front (List.replicate (xattrEntriesSize xs) 0 ++ post) x
    have hrest := ih (front ++ xattrPadded x)
    simp only [List.length_append, length_xattrPadded] at hrest
    rw [xattrEntriesSize_cons, ← List.replicate_append_replicate, serializeXattrsFrom,
      List.append_assoc front, List.append_assoc (List.replicate _ _), ← List.append_assoc front,
      hstep, bind_ok, roundUp_four, ← List.append_assoc _ _ post, hrest]
    simp

theorem serializeXattrs_ok (xs : List Xattr) (front post : List UInt8) :
    serializeXattrs (front ++ List.replicate (xattrIbodySize xs) 0 ++ post) front.length xs =
      .ok (front ++ xattrBody xs ++ post, xattrIbodySize xs) := by
  cases xs with
  | nil => simp [serializeXattrs, xattrBody]
  | cons x xs =>
    have h := serializeXattrsFrom_ok (x :: xs) (front ++ List.replicate 12 0) post
    simp only [List.length_append, List.length_replicate] at h
    simp only [serializeXattrs, List.isEmpty_cons, Bool.false_eq_true, if_false, xattrBody,
      erofsXattrIbodyHeaderSize]
    rw [xattrIbodySize_cons, ← List.replicate_append_replicate, ← List.append_assoc front,
      h, bind_ok, List.append_assoc front]
    rfl

/-! ## Headers -/

namespace ErofsInode

/-- The header with its attribute count filled in. -/
def setXattrIcount (n : UInt16) : ErofsInode → ErofsInode
  | .compact c => .compact { c with iXattrIcount := n }
  | .extended e => .extended { e with iXattrIcount := n }

end ErofsInode

/-- Overwriting bytes 2 and 3 of a header sets its attribute count. -/
theorem copyAt_xattrIcount (v : ErofsInode) (n : UInt16) (rest : List UInt8) :
    (copyAt (v.asBytes ++ rest) 2 (leBytes 2 n.toNat) : IoResult (List UInt8)) =
      .ok ((ErofsInode.setXattrIcount n v).asBytes ++ rest) := by
  have hsplit : ∀ w : ErofsInode, w.asBytes ++ rest =
      leBytes 2 w.format.toNat ++ leBytes 2 w.xattrIcount.toNat ++ (w.asBytes.drop 4 ++ rest) := by
    intro w
    rw [← List.append_assoc]
    congr 1
    cases w <;> rfl
  rw [hsplit v, copyAt_middle (by simp) (by simp), hsplit]
  congr 1
  cases v <;> rfl

theorem setXattrIcount_zero {v : ErofsInode} (h : v.xattrIcount = 0) :
    ErofsInode.setXattrIcount 0 v = v := by
  cases v with
  | compact c => cases c; cases h; rfl
  | extended e => cases e; cases h; rfl

/-! ## The serialized inode -/

/-- The header of each kind, before the attribute count is filled in. -/
def kindHeader (inode : InodeInfo) (epoch : UInt64) (chunkbits : Nat) : ErofsInode :=
  match inode.data with
  | .regularFile _ =>
    inodeHeader inode epoch erofsInodeChunkBased true 0 inode.size
      (erofsChunkFormatIndexes ||| UInt16.ofNat (chunkbits - 12)).toUInt32
  | .directory _ startblk _ _ =>
    inodeHeader inode epoch erofsInodeFlatPlain false (UInt16.ofNat (startblk >>> 32)) inode.size
      (UInt32.ofNat startblk)
  | .symlink _ => inodeHeader inode epoch erofsInodeFlatInline true 0 inode.size 0
  | .specialDev rdev => inodeHeader inode epoch erofsInodeFlatPlain true 0 0 rdev
  | .specialNoData => inodeHeader inode epoch erofsInodeFlatPlain true 0 0 0

/-- The attribute count of a list, cut to sixteen bits. -/
def icountOf (xs : List Xattr) : UInt16 :=
  UInt16.ofNat (if xs = [] then 0 else (xattrIbodySize xs - 8) / 4)

/-- The view the reader takes of the serialized inode. -/
def inodeView (inode : InodeInfo) (epoch : UInt64) (chunkbits : Nat) : ErofsInode :=
  ErofsInode.setXattrIcount (icountOf inode.xattrs) (kindHeader inode epoch chunkbits)

def chunkTable (cis : List ChunkIndex) : List UInt8 :=
  cis.flatMap fun ci => (ErofsChunkIndex.new ci.blkaddr ci.deviceId).asBytes

/-- What follows the attribute body. -/
def inodeTail (inode : InodeInfo) : List UInt8 :=
  match inode.data with
  | .regularFile cis => chunkTable cis
  | .symlink target => target
  | _ => []

def inodeBytes (inode : InodeInfo) (epoch : UInt64) (chunkbits : Nat) : List UInt8 :=
  (inodeView inode epoch chunkbits).asBytes ++ xattrBody inode.xattrs ++ inodeTail inode

@[simp] theorem chunkTable_cons (ci : ChunkIndex) (cis : List ChunkIndex) :
    chunkTable (ci :: cis) =
      (ErofsChunkIndex.new ci.blkaddr ci.deviceId).asBytes ++ chunkTable cis := rfl

@[simp] theorem length_chunkTable (cis : List ChunkIndex) :
    (chunkTable cis).length = cis.length * 8 := by
  induction cis with
  | nil => rfl
  | cons ci cis ih => simp [ih]; omega

theorem headerSize_inodeHeader (inode : InodeInfo) (epoch : UInt64) (dl : UInt16) (b : Bool)
    (nb : UInt16) (sz : UInt64) (u : UInt32) :
    (inodeHeader inode epoch dl b nb sz u).headerSize = inode.base := by
  unfold inodeHeader InodeInfo.base
  split <;> rfl

@[simp] theorem headerSize_kindHeader (inode : InodeInfo) (epoch : UInt64) (chunkbits : Nat) :
    (kindHeader inode epoch chunkbits).headerSize = inode.base := by
  unfold kindHeader
  split <;> apply headerSize_inodeHeader

@[simp] theorem headerSize_setXattrIcount (n : UInt16) (v : ErofsInode) :
    (ErofsInode.setXattrIcount n v).headerSize = v.headerSize := by cases v <;> rfl

@[simp] theorem headerSize_inodeView (inode : InodeInfo) (epoch : UInt64) (chunkbits : Nat) :
    (inodeView inode epoch chunkbits).headerSize = inode.base := by simp [inodeView]

theorem inodeMetaSize_eq (inode : InodeInfo) (chunkbits blkszbits : Nat) :
    inodeMetaSize inode chunkbits blkszbits =
      inode.base + xattrIbodySize inode.xattrs + (inodeTail inode).length := by
  unfold inodeMetaSize inodeTail
  cases inode.data with
  | regularFile cis =>
    cases cis with
    | nil => simp [chunkTable]
    | cons ci cis => simp [erofsChunkIndexSize, -chunkTable_cons]
  | directory | symlink | specialDev | specialNoData => rfl

@[simp] theorem length_inodeBytes (inode : InodeInfo) (epoch : UInt64) (chunkbits : Nat) :
    (inodeBytes inode epoch chunkbits).length = inodeMetaSize inode chunkbits 12 := by
  simp [inodeBytes, inodeMetaSize_eq]
  omega

/-- A header, then the attributes, in front of zeroed space. -/
theorem writeHeader_ok {inode : InodeInfo} {hdr : ErofsInode} (h : hdr.headerSize = inode.base)
    (n : Nat) :
    writeHeader (List.replicate (inode.base + xattrIbodySize inode.xattrs + n) 0) inode hdr =
      .ok (hdr.asBytes ++ xattrBody inode.xattrs ++ List.replicate n 0) := by
  have hlen : hdr.asBytes.length = inode.base := by simp [h]
  have hfirst : (_ : IoResult (List UInt8)) = _ :=
    copyAt_replicate [] [] hdr.asBytes 0 (n := inode.base + xattrIbodySize inode.xattrs + n)
    rfl (by omega)
  simp only [List.nil_append, List.append_nil, List.length_nil] at hfirst
  have hsub : inode.base + xattrIbodySize inode.xattrs + n - hdr.asBytes.length =
      xattrIbodySize inode.xattrs + n := by omega
  have hrest := serializeXattrs_ok inode.xattrs hdr.asBytes (List.replicate n 0)
  rw [List.append_assoc, List.replicate_append_replicate] at hrest
  rw [writeHeader, hfirst, bind_ok, hsub, ← hlen, hrest, bind_ok]
  rfl

theorem writeChunkIndexes_ok (cis : List ChunkIndex) (front : List UInt8) (extentOffset i : Nat)
    (h : front.length = extentOffset + i * 8) :
    writeChunkIndexes (front ++ List.replicate (cis.length * 8) 0) extentOffset i cis =
      .ok (front ++ chunkTable cis) := by
  induction cis generalizing front i with
  | nil => simp [writeChunkIndexes, chunkTable]
  | cons ci cis ih =>
    have hle : 8 ≤ (ci :: cis).length * 8 := by rw [List.length_cons]; omega
    have hsub : (ci :: cis).length * 8 - 8 = cis.length * 8 := by rw [List.length_cons]; omega
    have hstep : (_ : IoResult (List UInt8)) = _ :=
      copyAt_replicate front [] (ErofsChunkIndex.new ci.blkaddr ci.deviceId).asBytes 0 h.symm hle
    simp only [List.append_nil, ErofsChunkIndex.length_asBytes, hsub] at hstep
    rw [writeChunkIndexes, erofsChunkIndexSize, hstep, bind_ok,
      ih _ (i + 1) (by simp [h]; omega), chunkTable_cons, List.append_assoc]

theorem xattrIcount_kindHeader (inode : InodeInfo) (epoch : UInt64) (chunkbits : Nat) :
    (kindHeader inode epoch chunkbits).xattrIcount = 0 := by
  unfold kindHeader inodeHeader
  split <;> split <;> rfl

/-- Every kind leaves its header, the attributes and its tail. -/
theorem serializeKind_ok (inode : InodeInfo) (epoch : UInt64) {chunkbits : Nat}
    (hc : 12 ≤ chunkbits) :
    serializeKind (List.replicate (inodeMetaSize inode chunkbits 12) 0) inode epoch chunkbits 12
        (xattrIbodySize inode.xattrs) =
      .ok ((kindHeader inode epoch chunkbits).asBytes ++ xattrBody inode.xattrs ++
        inodeTail inode) := by
  have hw := writeHeader_ok (headerSize_kindHeader inode epoch chunkbits) (inodeTail inode).length
  rw [← inodeMetaSize_eq inode chunkbits 12] at hw
  have hlen : ((kindHeader inode epoch chunkbits).asBytes ++ xattrBody inode.xattrs).length =
      inode.base + xattrIbodySize inode.xattrs := by simp
  unfold serializeKind
  unfold kindHeader inodeTail at *
  cases hd : inode.data with
  | regularFile cis =>
    simp only [hd] at hw hlen ⊢
    rw [chunkFormat, checkedSub_ok hc, bind_ok, pure_eq_ok, bind_ok, hw, bind_ok,
      length_chunkTable]
    exact writeChunkIndexes_ok _ _ _ _ (by rw [hlen]; omega)
  | symlink target =>
    simp only [hd] at hw hlen ⊢
    have hcopy : (_ : IoResult (List UInt8)) = _ :=
      copyAt_replicate _ [] target 0 hlen.symm (Nat.le_refl _)
    rw [hw, bind_ok]
    simpa using hcopy
  | directory | specialDev | specialNoData =>
    simp only [hd, List.length_nil, List.replicate_zero, List.append_nil] at hw ⊢
    exact hw

/-- **What `serializeInode` returns.** The buffer is never left, and it holds the
header, the attribute body and the tail, end to end. -/
theorem serializeInode_ok (inode : InodeInfo) (epoch : UInt64) {chunkbits : Nat}
    (hc : 12 ≤ chunkbits) :
    serializeInode inode epoch chunkbits = .ok (inodeBytes inode epoch chunkbits) := by
  have hcount : xattrIcount (xattrIbodySize inode.xattrs) = .ok (icountOf inode.xattrs) :=
    xattrIcount_ibodySize inode.xattrs
  have hkind := serializeKind_ok inode epoch hc
  simp only [serializeInode, show erofsBlkszbits.toNat = 12 from rfl]
  rw [hcount, bind_ok, hkind, bind_ok, List.append_assoc, inodeBytes, List.append_assoc]
  split
  · exact copyAt_xattrIcount _ _ _
  · rename_i hz
    have h0 : icountOf inode.xattrs = 0 := by
      rw [← UInt16.toNat_inj]
      rw [gt_iff_lt, UInt16.lt_iff_toNat_lt] at hz
      simpa using hz
    rw [inodeView, h0, setXattrIcount_zero (xattrIcount_kindHeader _ _ _)]
    rfl

/-! ## The view of a serialized inode -/

theorem versionOk_setXattrIcount {v : ErofsInode} (h : v.VersionOk) (n : UInt16) :
    (ErofsInode.setXattrIcount n v).VersionOk := by cases v <;> exact h

theorem format_inodeHeader (inode : InodeInfo) (epoch : UInt64) (dl : UInt16) (b : Bool)
    (nb : UInt16) (sz : UInt64) (u : UInt32) :
    (inodeHeader inode epoch dl b nb sz u).format =
        (if inode.isExtended then extendedIFormat dl else compactIFormat dl b) ∧
      (inodeHeader inode epoch dl b nb sz u).isCompact = !inode.isExtended := by
  unfold inodeHeader
  cases inode.isExtended <;> exact ⟨rfl, rfl⟩

/-- The format bits of either header select its version and the layout asked for. -/
theorem inodeHeader_format (inode : InodeInfo) (epoch : UInt64) {dl : UInt16}
    (hdl : dl = 0 ∨ dl = 2 ∨ dl = 4) (b : Bool) (nb : UInt16) (sz : UInt64) (u : UInt32) :
    (inodeHeader inode epoch dl b nb sz u).VersionOk ∧
      (inodeHeader inode epoch dl b nb sz u).dataLayout = dl := by
  obtain ⟨hf, hc⟩ := format_inodeHeader inode epoch dl b nb sz u
  rw [ErofsInode.VersionOk, ErofsInode.dataLayout, hf, hc]
  rcases hdl with rfl | rfl | rfl <;> cases b <;> cases inode.isExtended <;> decide

theorem kindHeader_versionOk (inode : InodeInfo) (epoch : UInt64) (chunkbits : Nat) :
    (kindHeader inode epoch chunkbits).VersionOk := by
  unfold kindHeader
  split
  all_goals exact (inodeHeader_format _ _ (by decide) _ _ _ _).1

/-- The layout of each kind. -/
def kindLayout : InodeData → UInt16
  | .regularFile _ => erofsInodeChunkBased
  | .symlink _ => erofsInodeFlatInline
  | _ => erofsInodeFlatPlain

@[simp] theorem dataLayout_inodeView (inode : InodeInfo) (epoch : UInt64) (chunkbits : Nat) :
    (inodeView inode epoch chunkbits).dataLayout = kindLayout inode.data := by
  have hset : ∀ (n : UInt16) (v : ErofsInode),
      (ErofsInode.setXattrIcount n v).dataLayout = v.dataLayout := by
    intro n v; cases v <;> rfl
  rw [inodeView, hset]
  unfold kindHeader
  split
  all_goals
    rename_i hd
    rw [hd]
    exact (inodeHeader_format _ _ (by decide) _ _ _ _).2

/-- Whatever follows the serialized inode, casting its bytes gives its view. -/
theorem cast_inodeBytes (inode : InodeInfo) (epoch : UInt64) (chunkbits : Nat)
    (rest : List UInt8) :
    ErofsInode.cast (inodeBytes inode epoch chunkbits ++ rest) =
      .ok (inodeView inode epoch chunkbits) := by
  rw [inodeBytes, List.append_assoc, List.append_assoc]
  exact ErofsInode.cast_asBytes (versionOk_setXattrIcount (kindHeader_versionOk _ _ _) _) _

/-- The kinds differ in what they hand to `inodeHeader`, and in nothing else. -/
theorem inodeView_rec {inode : InodeInfo} {epoch : UInt64} {chunkbits : Nat} {P : ErofsInode → Prop}
    (h : ∀ n dl nlink1 nb size u,
      P (ErofsInode.setXattrIcount n (inodeHeader inode epoch dl nlink1 nb size u))) :
    P (inodeView inode epoch chunkbits) := by
  unfold inodeView kindHeader
  split
  all_goals exact h _ _ _ _ _ _

@[simp] theorem xattrIcount_inodeView (inode : InodeInfo) (epoch : UInt64) (chunkbits : Nat) :
    (inodeView inode epoch chunkbits).xattrIcount = icountOf inode.xattrs := by
  unfold inodeView
  cases kindHeader inode epoch chunkbits <;> rfl

theorem size_setXattrIcount (n : UInt16) (v : ErofsInode) :
    (ErofsInode.setXattrIcount n v).size = v.size := by cases v <;> rfl

/-- The header holds the size: all of it, or its low thirty-two bits. -/
theorem size_inodeView {inode : InodeInfo} (hfit : inode.isExtended = true ∨ inode.size.toNat < 2 ^ 32)
    (epoch : UInt64) (chunkbits : Nat)
    (hd : (∃ cis, inode.data = .regularFile cis) ∨ (∃ cs b s p, inode.data = .directory cs b s p) ∨
      ∃ t, inode.data = .symlink t) :
    (inodeView inode epoch chunkbits).size = inode.size := by
  have hhdr : ∀ dl b nb u, (inodeHeader inode epoch dl b nb inode.size u).size = inode.size := by
    intro dl b nb u
    unfold inodeHeader
    split
    · rfl
    · rename_i he
      have hlt := hfit.resolve_left he
      rw [← UInt64.toNat_inj]
      show inode.size.toUInt32.toUInt64.toNat = _
      simp
      omega
  rw [inodeView, size_setXattrIcount]
  unfold kindHeader
  rcases hd with ⟨_, hd⟩ | ⟨_, _, _, _, hd⟩ | ⟨_, hd⟩ <;> rw [hd] <;> exact hhdr _ _ _ _

/-- The size in the header is never larger than the one given. -/
theorem size_inodeView_le (inode : InodeInfo) (epoch : UInt64) (chunkbits : Nat) :
    (inodeView inode epoch chunkbits).size.toNat ≤ inode.size.toNat := by
  have hhdr : ∀ dl b nb sz u, (inodeHeader inode epoch dl b nb sz u).size.toNat ≤ sz.toNat := by
    intro dl b nb sz u
    unfold inodeHeader
    split
    · exact Nat.le_refl _
    · show sz.toUInt32.toUInt64.toNat ≤ _
      simp
      omega
  rw [inodeView, size_setXattrIcount]
  unfold kindHeader
  split
  case h_1 | h_2 | h_3 => exact hhdr _ _ _ _ _
  case h_4 | h_5 => exact (hhdr _ _ _ _ _).trans (Nat.zero_le _)

theorem iU_inodeView (inode : InodeInfo) (epoch : UInt64) (chunkbits : Nat) :
    (inodeView inode epoch chunkbits).iU = (kindHeader inode epoch chunkbits).iU ∧
      (inodeView inode epoch chunkbits).nb = (kindHeader inode epoch chunkbits).nb := by
  unfold inodeView
  cases kindHeader inode epoch chunkbits <;> exact ⟨rfl, rfl⟩

theorem iU_inodeHeader (inode : InodeInfo) (epoch : UInt64) (dl : UInt16) (b : Bool)
    (nb : UInt16) (sz : UInt64) (u : UInt32) :
    (inodeHeader inode epoch dl b nb sz u).iU = u ∧
      (inodeHeader inode epoch dl b nb sz u).nb = nb := by
  unfold inodeHeader
  split <;> exact ⟨rfl, rfl⟩

/-- A compact header holds the time after the epoch, cut to thirty-two bits. -/
theorem mtime_inodeView (inode : InodeInfo) (epoch : UInt64) (chunkbits : Nat) (e : UInt64) :
    (inodeView inode epoch chunkbits).mtime e =
      if inode.isExtended then .ok inode.mtime
      else checkedAdd 64 e.toNat (inode.mtime - epoch).toUInt32.toNat >>= fun t =>
        pure (UInt64.ofNat t) := by
  refine inodeView_rec (P := fun v => v.mtime e = if inode.isExtended then .ok inode.mtime
    else checkedAdd 64 e.toNat (inode.mtime - epoch).toUInt32.toNat >>= fun t =>
      pure (UInt64.ofNat t)) fun n dl nlink1 nb size u => ?_
  unfold inodeHeader
  cases inode.isExtended <;> rfl

theorem mtimeNsec_inodeView (inode : InodeInfo) (epoch : UInt64) (chunkbits : Nat) :
    (inodeView inode epoch chunkbits).mtimeNsec = if inode.isExtended then inode.mtimeNsec else 0 := by
  refine inodeView_rec (P := fun v => v.mtimeNsec = if inode.isExtended then inode.mtimeNsec else 0)
    fun n dl nlink1 nb size u => ?_
  unfold inodeHeader
  cases inode.isExtended <;> rfl

/-- The time is read without overflow as long as the epoch is a time of this age. -/
theorem mtime_inodeView_ok (inode : InodeInfo) {epoch : UInt64} (h : epoch.toNat < 2 ^ 63)
    (chunkbits : Nat) : ∃ t, (inodeView inode epoch chunkbits).mtime epoch = .ok t := by
  have hdelta := (inode.mtime - epoch).toUInt32.toNat_lt
  rw [mtime_inodeView, checkedAdd_ok (by omega)]
  split
  · exact ⟨_, rfl⟩
  · exact ⟨_, rfl⟩

/-- The chunk bits the reader finds in the format field are those the writer was given. -/
theorem chunkFormat_inodeView {inode : InodeInfo} {cis : List ChunkIndex}
    (hd : inode.data = .regularFile cis) (epoch : UInt64) {chunkbits : Nat}
    (hc : 12 ≤ chunkbits) (hc' : chunkbits < 44) :
    12 + ((inodeView inode epoch chunkbits).chunkFormat.toNat &&& 0x1F) = chunkbits := by
  have hu : (inodeView inode epoch chunkbits).iU =
      (erofsChunkFormatIndexes ||| UInt16.ofNat (chunkbits - 12)).toUInt32 := by
    rw [(iU_inodeView _ _ _).1, kindHeader, hd]
    exact (iU_inodeHeader _ _ _ _ _ _ _).1
  have hbits : ∀ n < 32, ((erofsChunkFormatIndexes ||| UInt16.ofNat n).toUInt32.toUInt16.toNat &&&
      0x1F) = n := by decide
  rw [ErofsInode.chunkFormat, hu, hbits _ (by omega)]
  omega

/-- The start block of a directory is stored in 48 bits. -/
theorem startblk_inodeView {inode : InodeInfo} {children : List DirEntry} {startblk size parent : Nat}
    (hd : inode.data = .directory children startblk size parent) (epoch : UInt64)
    (chunkbits : Nat) (h : startblk < 2 ^ 48) :
    (inodeView inode epoch chunkbits).startblk = startblk := by
  have hu : (kindHeader inode epoch chunkbits).iU = UInt32.ofNat startblk ∧
      (kindHeader inode epoch chunkbits).nb = UInt16.ofNat (startblk >>> 32) := by
    rw [kindHeader, hd]
    exact iU_inodeHeader _ _ _ _ _ _ _
  rw [ErofsInode.startblk, (iU_inodeView _ _ _).1, (iU_inodeView _ _ _).2, hu.1, hu.2, join48,
    Nat.mod_eq_of_lt h]

/-- The reader recovers the size of the attribute body exactly as long as the count
fits its sixteen bits. -/
theorem xattrSize_inodeView_iff (inode : InodeInfo) (epoch : UInt64) (chunkbits : Nat) :
    (inodeView inode epoch chunkbits).xattrSize = xattrIbodySize inode.xattrs ↔
      xattrIbodySize inode.xattrs ≤ 262148 := by
  simp only [ErofsInode.xattrSize, xattrIcount_inodeView, icountOf, ← UInt16.toNat_inj]
  cases hx : inode.xattrs with
  | nil => simp
  | cons x xs =>
    have h16 := sixteen_le_xattrIbodySize (List.cons_ne_nil x xs)
    obtain ⟨k, hk⟩ := four_dvd_xattrIbodySize (x :: xs)
    rw [if_neg (List.cons_ne_nil x xs), UInt16.toNat_ofNat', UInt16.toNat_zero]
    split <;> omega

end ErofsUtils.Build
