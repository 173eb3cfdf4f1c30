import ErofsUtils.Build.InodeBytes
import ErofsUtils.Fs.Serve

/-! # Reading a serialized inode

A reader that finds the bytes of a serialized inode at a slot gets its header back, and
the attribute body and the tail where it looks for them: as long as the count of the
attributes fits, the reader and the writer agree on every offset. -/
namespace ErofsUtils.Roundtrip
open ErofsUtils.Rust ErofsUtils.Bytes ErofsUtils.Metadata ErofsUtils.Build ErofsUtils.Fs

variable {inode : InodeInfo} {epoch : UInt64} {chunkbits : Nat} {r : ErofsReader} {nid : Nat}

/-- The attribute count of the inode fits its field. -/
def CountFits (inode : InodeInfo) : Prop := xattrIbodySize inode.xattrs ≤ 262148

theorem CountFits.xattrSize (h : CountFits inode) :
    (inodeView inode epoch chunkbits).xattrSize = xattrIbodySize inode.xattrs :=
  (xattrSize_inodeView_iff inode epoch chunkbits).mpr h

theorem CountFits.tail (h : CountFits inode) :
    (inodeView inode epoch chunkbits).headerSize + (inodeView inode epoch chunkbits).xattrSize =
      ((inodeView inode epoch chunkbits).asBytes ++ xattrBody inode.xattrs).length := by
  rw [h.xattrSize]
  simp

theorem inodeBytes_ne_nil (inode : InodeInfo) (epoch : UInt64) (chunkbits : Nat) :
    inodeBytes inode epoch chunkbits ≠ [] := by
  have h : 0 < (inodeBytes inode epoch chunkbits).length := by
    have := inode.base_bounds
    rw [length_inodeBytes, inodeMetaSize_eq]
    omega
  exact List.ne_nil_of_length_pos h

/-- The reader gets the header of an inode whose slot has the larger header's size
left in the image. -/
theorem inode_ok (h : r.StandsAt nid (inodeBytes inode epoch chunkbits))
    (hroom : r.slotOffset nid + erofsInodeExtendedSize ≤ r.mmap.bytes.length) :
    r.inode nid = .ok (inodeView inode epoch chunkbits) := by
  have hbase := inode.base_bounds
  rw [ErofsReader.inode, h.nidToOffset (inodeBytes_ne_nil _ _ _), bind_ok,
    ErofsReader.mmapSlice_ok hroom, bind_ok]
  unfold ErofsReader.StandsAt at h
  rw [inodeBytes, List.append_assoc] at h
  have hfront := (window_of_append h).1
  obtain ⟨n, hn⟩ : ∃ n, erofsInodeExtendedSize =
      (inodeView inode epoch chunkbits).asBytes.length + n := by
    refine ⟨64 - inode.base, ?_⟩
    rw [ErofsInode.length_asBytes, headerSize_inodeView, erofsInodeExtendedSize]
    omega
  rw [hn, window_add, hfront]
  exact ErofsInode.cast_asBytes
    (versionOk_setXattrIcount (kindHeader_versionOk inode epoch chunkbits) _) _

/-- What follows the attributes is where the reader looks for it. -/
theorem mmapSlice_tail (h : r.StandsAt nid (inodeBytes inode epoch chunkbits))
    (hfit : CountFits inode) :
    r.mmapSlice (r.slotOffset nid + ((inodeView inode epoch chunkbits).headerSize +
        (inodeView inode epoch chunkbits).xattrSize)) (inodeTail inode).length =
      .ok (inodeTail inode) := by
  have hne := inodeBytes_ne_nil inode epoch chunkbits
  rw [inodeBytes, ← List.append_nil (_ ++ inodeTail inode)] at h hne
  rw [hfit.tail]
  exact h.mmapSlice hne

theorem slot_le (h : r.StandsAt nid (inodeBytes inode epoch chunkbits)) :
    r.slotOffset nid + ((inode.base + xattrIbodySize inode.xattrs) +
      (inodeTail inode).length) < 2 ^ 63 := by
  have hle := h.le (inodeBytes_ne_nil _ _ _)
  have hlt := r.mmap.lenLt
  rw [length_inodeBytes, inodeMetaSize_eq] at hle
  omega

/-! ## Modification times -/

theorem mtime_inodeView_iff (inode : InodeInfo) (epoch : UInt64) (chunkbits : Nat) :
    (inodeView inode epoch chunkbits).mtime epoch = .ok inode.mtime ↔
      inode.isExtended = true ∨
        (epoch.toNat ≤ inode.mtime.toNat ∧ inode.mtime.toNat < epoch.toNat + 2 ^ 32) := by
  rw [mtime_inodeView]
  cases inode.isExtended with
  | true => simp
  | false =>
    simp only [Bool.false_eq_true, if_false, false_or, bind_eq_ok, checkedAdd_eq_ok, pure_eq_ok,
      Except.ok.injEq]
    constructor
    · rintro ⟨_, ⟨hlt, rfl⟩, hm⟩
      have hmod := (inode.mtime - epoch).toUInt32.toNat_lt
      rw [← hm, UInt64.toNat_ofNat_of_lt' hlt]
      omega
    · rintro ⟨hle, hlt⟩
      have hlt64 := inode.mtime.toNat_lt
      have hsub : (inode.mtime - epoch).toUInt32.toNat = inode.mtime.toNat - epoch.toNat := by
        rw [UInt64.toNat_toUInt32, UInt64.toNat_sub_of_le _ _ (UInt64.le_iff_toNat_le.mpr hle)]
        exact Nat.mod_eq_of_lt (by omega)
      refine ⟨inode.mtime.toNat, ⟨by rw [hsub]; omega, by rw [hsub]; omega⟩, ?_⟩
      exact UInt64.ofNat_toNat

/-- What is read back from a serialized inode has the property `P`. -/
def ReadBack (inode : InodeInfo) (epoch : UInt64) (chunkbits : Nat)
    (P : List UInt8 → ErofsInode → Prop) : Prop :=
  ∃ bytes v, serializeInode inode epoch chunkbits = .ok bytes ∧ ErofsInode.cast bytes = .ok v ∧
    P bytes v

theorem readBack_iff (inode : InodeInfo) (epoch : UInt64) {chunkbits : Nat} (hc : 12 ≤ chunkbits)
    (P : List UInt8 → ErofsInode → Prop) :
    ReadBack inode epoch chunkbits P ↔
      P (inodeBytes inode epoch chunkbits) (inodeView inode epoch chunkbits) := by
  have hcast := cast_inodeBytes inode epoch chunkbits []
  rw [List.append_nil] at hcast
  constructor
  · rintro ⟨bytes, v, hs, hv, hp⟩
    rw [serializeInode_ok inode epoch hc] at hs
    cases hs
    rw [hcast] at hv
    cases hv
    exact hp
  · exact fun hp => ⟨_, _, serializeInode_ok inode epoch hc, hcast, hp⟩

/-- The modification time survives the image. -/
def MtimeSurvives (inode : InodeInfo) (epoch : UInt64) (chunkbits : Nat) : Prop :=
  ReadBack inode epoch chunkbits fun _ v => v.mtime epoch = .ok inode.mtime

/-- **Modification times.** An inode is read back with its own time exactly when it is
extended, or its time is less than 32 bits of seconds after the epoch. -/
theorem mtimeSurvives_iff (inode : InodeInfo) (epoch : UInt64) {chunkbits : Nat}
    (hc : 12 ≤ chunkbits) :
    MtimeSurvives inode epoch chunkbits ↔
      inode.isExtended = true ∨
        (epoch.toNat ≤ inode.mtime.toNat ∧ inode.mtime.toNat < epoch.toNat + 2 ^ 32) :=
  (readBack_iff inode epoch hc _).trans (mtime_inodeView_iff inode epoch chunkbits)

/-- An empty file last changed at `mtime`. -/
def emptyFile (mtime : UInt64) : InodeInfo :=
  { mode := 0o100644, uid := 0, gid := 0, size := 0, mtime, mtimeNsec := 0, nlink := 1, ino := 2
    isExtended := isExtendedFor 0 0 0 1, data := .regularFile [], xattrs := [] }

theorem mtimeSurvives_emptyFile :
    MtimeSurvives (emptyFile 1700000001) 1700000000 12 ↔
      (emptyFile 1700000001).isExtended = true ∨
        ((1700000000 : UInt64).toNat ≤ (emptyFile 1700000001).mtime.toNat ∧
          (emptyFile 1700000001).mtime.toNat < (1700000000 : UInt64).toNat + 2 ^ 32) :=
  mtimeSurvives_iff (emptyFile 1700000001) 1700000000 (by decide)

/-- A file older than the build is read back in the next century. -/
theorem not_mtimeSurvives_old : ¬ MtimeSurvives (emptyFile 1600000000) 1700000000 12 := by
  rw [MtimeSurvives, readBack_iff _ _ (by decide), mtime_inodeView_iff]
  decide

/-! ## The chunk table -/

variable {cis : List ChunkIndex}

theorem drop_chunkTable {i : Nat} (hi : i < cis.length) :
    (chunkTable cis).drop (i * 8) =
      (ErofsChunkIndex.new cis[i].blkaddr cis[i].deviceId).asBytes ++
        chunkTable (cis.drop (i + 1)) := by
  induction cis generalizing i with
  | nil => cases hi
  | cons ci cis ih =>
    cases i with
    | zero => rfl
    | succ i =>
      have hlen := (ErofsChunkIndex.new ci.blkaddr ci.deviceId).length_asBytes
      rw [chunkTable_cons, show (i + 1) * 8 = 8 + i * 8 by omega, ← List.drop_drop,
        List.drop_left' hlen]
      exact ih (Nat.lt_of_succ_lt_succ hi)

theorem window_chunkTable {i : Nat} (hi : i < cis.length) :
    window (chunkTable cis) (i * 8) 8 =
      (ErofsChunkIndex.new cis[i].blkaddr cis[i].deviceId).asBytes := by
  rw [window, drop_chunkTable hi]
  exact List.take_left' (ErofsChunkIndex.length_asBytes _)

/-- The reader's index `i` of a table is the one the writer put there. -/
theorem chunkIndexAt_chunkTable {i : Nat} (hi : i < cis.length) (h64 : i * 8 < 2 ^ 64) :
    ErofsReader.chunkIndexAt (chunkTable cis) i =
      .ok (ErofsChunkIndex.new cis[i].blkaddr cis[i].deviceId) := by
  have hlen : (chunkTable cis).length = cis.length * 8 := length_chunkTable cis
  rw [ErofsReader.chunkIndexAt_ok (by omega) h64, window_chunkTable hi]
  exact congrArg _ (ErofsChunkIndex.codec.dec_enc _)

/-- The reader finds the whole table of a regular file whose size the table covers. -/
theorem chunkIndexes_ok (h : r.StandsAt nid (inodeBytes inode epoch chunkbits))
    (hfit : CountFits inode) (hd : inode.data = .regularFile cis)
    (hbits : r.chunkbits (inodeView inode epoch chunkbits) = chunkbits) (hc : chunkbits < 64)
    (hn : divCeil (inodeView inode epoch chunkbits).size.toNat (2 ^ chunkbits) = cis.length) :
    r.chunkIndexes nid (inodeView inode epoch chunkbits) = .ok (chunkTable cis) := by
  have htail : inodeTail inode = chunkTable cis := by rw [inodeTail, hd]
  have hslot := slot_le h
  have hoff : ErofsReader.chunkTableOffset (inodeView inode epoch chunkbits) =
      inode.base + xattrIbodySize inode.xattrs := by
    rw [ErofsReader.chunkTableOffset, hfit.xattrSize, headerSize_inodeView]
  have hread := mmapSlice_tail h hfit
  rw [← ErofsReader.chunkTableOffset, hoff] at hread
  simp only [htail, length_chunkTable] at hslot hread
  have hlayout : ¬ (inodeView inode epoch chunkbits).dataLayout ≠ erofsInodeChunkBased := by
    rw [dataLayout_inodeView, hd]
    exact not_not.mpr rfl
  unfold ErofsReader.chunkIndexes
  rw [if_neg hlayout, hbits, checkedShl_ok hc, bind_ok]
  dsimp only
  rw [hn, h.nidToOffset (inodeBytes_ne_nil _ _ _), bind_ok, hoff, checkedAdd_ok (by omega), bind_ok,
    erofsChunkIndexSize, checkedMul_ok (by omega), bind_ok, hread]

/-! ## Where the chunk table stands -/

/-- The offset the format gives the table. -/
def documentedTableOffset (inode : InodeInfo) : Nat :=
  roundUp (inode.base + xattrIbodySize inode.xattrs) 8

/-- The table stands at the offset of the format, the size of the inode counts what is put
in front of it, and the reader looks for it there. -/
structure TableAligned (inode : InodeInfo) (cis : List ChunkIndex) (chunkbits : Nat)
    (bytes : List UInt8) (v : ErofsInode) : Prop where
  stored : ∀ i, (hi : i < cis.length) → window bytes (documentedTableOffset inode + 8 * i) 8 =
    (ErofsChunkIndex.new cis[i].blkaddr cis[i].deviceId).asBytes
  counted : inodeMetaSize inode chunkbits 12 = documentedTableOffset inode + 8 * cis.length
  read : ErofsReader.chunkTableOffset v = documentedTableOffset inode

theorem tableAligned_inodeBytes_iff {inode : InodeInfo} (hd : inode.data = .regularFile cis)
    (epoch : UInt64) (chunkbits : Nat) :
    TableAligned inode cis chunkbits (inodeBytes inode epoch chunkbits)
        (inodeView inode epoch chunkbits) ↔
      8 ∣ xattrIbodySize inode.xattrs ∧ xattrIbodySize inode.xattrs ≤ 262148 := by
  have htail : inodeTail inode = chunkTable cis := by rw [inodeTail, hd]
  have hbase := inode.base_bounds.2.2
  have hround : documentedTableOffset inode = alignUp (inode.base + xattrIbodySize inode.xattrs) 8 :=
    roundUp_two_pow _ 3
  have hmeta := inodeMetaSize_eq inode chunkbits 12
  rw [htail, length_chunkTable] at hmeta
  constructor
  · intro h
    have hcount := h.counted
    have hread := h.read
    have hdvd : 8 ∣ documentedTableOffset inode := hround ▸ dvd_alignUp _ 8
    have hoff : documentedTableOffset inode = inode.base + xattrIbodySize inode.xattrs := by omega
    refine ⟨by omega, (xattrSize_inodeView_iff inode epoch chunkbits).mp ?_⟩
    rw [ErofsReader.chunkTableOffset, headerSize_inodeView, hoff] at hread
    omega
  · rintro ⟨h8, hfit⟩
    have hoff : documentedTableOffset inode = inode.base + xattrIbodySize inode.xattrs := by
      rw [hround]
      exact alignUp_of_dvd (by decide) (Nat.dvd_add hbase h8)
    refine ⟨?_, by omega, ?_⟩
    · intro i hi
      have hfront : ((inodeView inode epoch chunkbits).asBytes ++ xattrBody inode.xattrs).length =
          documentedTableOffset inode := by simp [hoff]
      rw [inodeBytes, htail, ← hfront, window_append_right, Nat.mul_comm]
      exact window_chunkTable hi
    · rw [ErofsReader.chunkTableOffset, headerSize_inodeView, hoff,
        (xattrSize_inodeView_iff inode epoch chunkbits).mpr hfit]

/-- **The chunk table** of a regular file stands where the format puts it exactly when the
attribute body in front of it takes a multiple of eight bytes and its count fits. -/
theorem tableAligned_iff (inode : InodeInfo) {cis : List ChunkIndex}
    (hd : inode.data = .regularFile cis) (epoch : UInt64) {chunkbits : Nat} (hc : 12 ≤ chunkbits) :
    ReadBack inode epoch chunkbits (TableAligned inode cis chunkbits) ↔
      8 ∣ xattrIbodySize inode.xattrs ∧ xattrIbodySize inode.xattrs ≤ 262148 :=
  (readBack_iff inode epoch hc _).trans (tableAligned_inodeBytes_iff hd epoch chunkbits)

/-- A file of one byte, its chunk at the start of the blob. -/
def oneByteFile (xattrs : List Xattr) : InodeInfo :=
  { mode := 0o100644, uid := 0, gid := 0, size := 1, mtime := 1700000000, mtimeNsec := 0, nlink := 1
    ino := 2, isExtended := isExtendedFor 1 0 0 1, data := .regularFile [⟨0, 1⟩], xattrs }

/-- The attribute `user.name` set to `abc`: a body of 24 bytes. -/
def nameXattr : List Xattr := [(1, [110, 97, 109, 101], [97, 98, 99])]

theorem tableAligned_nameXattr : xattrIbodySize nameXattr = 24 ∧
    ReadBack (oneByteFile nameXattr) 1700000000 12
      (TableAligned (oneByteFile nameXattr) [⟨0, 1⟩] 12) :=
  ⟨by decide, (tableAligned_iff (oneByteFile nameXattr) rfl 1700000000 (by decide)).mpr (by decide)⟩

/-- With the attribute `user.a` set to one byte the table stands four bytes too early. -/
theorem not_tableAligned_userA :
    ¬ ReadBack (oneByteFile [(1, [97], [49])]) 1700000000 12
      (TableAligned (oneByteFile [(1, [97], [49])]) [⟨0, 1⟩] 12) := by
  rw [readBack_iff _ _ (by decide), tableAligned_inodeBytes_iff rfl]
  decide

end ErofsUtils.Roundtrip
