import ErofsUtils.Fs.Numbers

/-! # Arithmetic over untrusted fields

An image is accepted for its length and magic number alone, so that every field of the
superblock, of an inode and of a directory entry is the image's to choose. The slices are
checked; the shifts, products and sums in front of them are not, and stop the run where the
fields are too large. -/
namespace ErofsUtils.Fs
open ErofsUtils.Rust ErofsUtils.Bytes ErofsUtils.Metadata

/-! ## Inode numbers in replies -/

namespace ErofsFs

/-- A call on the directory takes the NID from one of its entries. -/
def Finds (fs : ErofsFs) (dir nid : Nat) : Prop :=
  (∃ name, fs.iterateDir dir (findName name) none = .ok (some nid)) ∨
    ∃ es, fs.readDirEntries dir = .ok es ∧ ∃ e ∈ es, e.nid = nid

/-- The number of the root, and those that replies about directories return. -/
inductive Replied (fs : ErofsFs) : Nat → Prop where
  | root : Replied fs fuseRootId
  | entry {dir nid ino : Nat} : Replied fs dir → fs.Finds dir nid → fs.toIno nid = .ok ino →
      Replied fs ino

variable {fs : ErofsFs} {dir nid ino : Nat}

/-- The number in the reply of a lookup. -/
theorem Replied.lookup {name : List UInt8} {entry : Entry} (h : Replied fs dir)
    (hl : fs.lookup dir name = .ok entry) : Replied fs entry.inode := by
  obtain ⟨found, hfound, hl⟩ := bind_eq_ok.mp hl
  cases found with
  | none => cases hl
  | some nid =>
    obtain ⟨vi, -, hl⟩ := bind_eq_ok.mp hl
    exact h.entry (.inl ⟨name, hfound⟩) (inode_of_makeEntry hl)

/-- The number `readdir` reports for an entry. -/
theorem Replied.readdir {es : List CachedDirEntry} {e : CachedDirEntry} {idx : Nat}
    {d : FuseDirEntry} (h : Replied fs dir) (hes : fs.readDirEntries dir = .ok es) (he : e ∈ es)
    (hd : fs.dirEntry idx e = .ok d) : Replied fs d.ino :=
  h.entry (.inr ⟨es, hes, e, he, rfl⟩) (ino_of_dirEntry hd)

/-- The two numbers `readdirplus` reports for an entry. -/
theorem Replied.readdirplus {es : List CachedDirEntry} {e : CachedDirEntry} {idx : Nat}
    {d : FuseDirEntry} {entry : Entry} (h : Replied fs dir) (hes : fs.readDirEntries dir = .ok es)
    (he : e ∈ es) (hd : fs.dirEntryPlus idx e = .ok (d, entry)) :
    Replied fs d.ino ∧ Replied fs entry.inode := by
  obtain ⟨hdino, hentry⟩ := ino_of_dirEntryPlus hd
  exact ⟨h.entry (.inr ⟨es, hes, e, he, rfl⟩) hdino, h.entry (.inr ⟨es, hes, e, he, rfl⟩) hentry⟩

theorem Replied.pos (h : Replied fs ino) : 1 ≤ ino := by
  cases h with
  | root => exact Nat.le_refl 1
  | entry _ _ hino =>
    unfold toIno at hino
    split at hino
    · cases hino
      exact Nat.le_refl 1
    · rw [checkedAdd_eq_ok] at hino
      exact hino.2 ▸ Nat.le_add_left _ _

end ErofsFs

/-! ## What the fields must keep below -/

namespace ErofsReader

/-- The inode in the slot of `nid`. -/
def InodeAt (r : ErofsReader) (nid : Nat) (v : ErofsInode) : Prop :=
  r.slotOffset nid + erofsInodeExtendedSize ≤ r.mmap.bytes.length ∧
    ErofsInode.cast (window r.mmap.bytes (r.slotOffset nid) erofsInodeExtendedSize) = .ok v

/-- What the attributes of an inode are computed from. -/
structure StatFits (r : ErofsReader) (v : ErofsInode) : Prop where
  shift : r.sb.blkszbits.toNat < 64
  mtime : ∀ c, v = .compact c → r.sb.epoch.toNat + c.iMtime.toNat < 2 ^ 64
  blocks : v.size.toNat + 2 ^ r.sb.blkszbits.toNat < 2 ^ 64

structure NidFits (r : ErofsReader) (nid : Nat) : Prop where
  slot : r.slotOffset nid < 2 ^ 64
  stat : ∀ v, r.InodeAt nid v → r.StatFits v

/-- The byte at the offset stands in the blocks of a flat inode. -/
def InBlocks (v : ErofsInode) (offset : Nat) : Prop :=
  v.dataLayout = erofsInodeFlatPlain ∨
    v.dataLayout = erofsInodeFlatInline ∧ offset < blocksSize v

/-- What a read at an offset of the file computes its addresses from. -/
structure ReadFits (r : ErofsReader) (v : ErofsInode) (offset : Nat) : Prop where
  block : InBlocks v offset → v.startblk * erofsBlockSize + offset < 2 ^ 64
  shift : v.dataLayout = erofsInodeChunkBased → r.chunkbits v < 64
  table : v.dataLayout = erofsInodeChunkBased →
    divCeil v.size.toNat (2 ^ r.chunkbits v) * erofsChunkIndexSize < 2 ^ 64

end ErofsReader

namespace ErofsFs

/-- The computations on the NID of a request or of a directory entry. -/
structure NidSafe (fs : ErofsFs) (nid : Nat) : Prop where
  toIno : NoPanic (fs.toIno nid)
  inode : NoPanic (fs.reader.inode nid)
  stat : ∀ v, fs.reader.inode nid = .ok v → NoPanic (fs.makeStat nid v)

/-- The computations on the data of an inode: reads of a range, and the slice of a whole
directory or link. Allocations are not among them. -/
structure DataSafe (fs : ErofsFs) (nid : Nat) (v : ErofsInode) (offset size : Nat) : Prop where
  write : NoPanic (fs.reader.writeFileDataTo nid v offset size)
  readSync : NoPanic (fs.reader.readFileDataSync nid v offset size)
  readAsync : NoPanic (fs.reader.readFileData nid v offset size)
  whole : NoPanic (fs.reader.readFlatData nid v 0 v.size.toNat)

/-- The computations of the requests on an inode number stay in their words and slices. -/
structure ArithmeticSafe (fs : ErofsFs) (ino offset size : Nat) : Prop where
  toNid : NoPanic (fs.toNid ino)
  nid : ∀ nid, fs.toNid ino = .ok nid → fs.NidSafe nid
  data : ∀ nid v, fs.toNid ino = .ok nid → fs.reader.inode nid = .ok v →
    fs.DataSafe nid v offset size
  entries : ∀ nid, fs.Finds ino nid → fs.NidSafe nid

/-- The NID of the number, the fields of its inode, and the NIDs of its entries are small
enough. -/
structure FieldsFit (fs : ErofsFs) (ino offset : Nat) : Prop where
  nid : ∀ nid, fs.toNid ino = .ok nid → fs.reader.NidFits nid
  read : ∀ nid v, fs.toNid ino = .ok nid → fs.reader.InodeAt nid v → offset < v.size.toNat →
    fs.reader.ReadFits v offset
  entries : ∀ nid, fs.Finds ino nid → fs.reader.NidFits nid

end ErofsFs

namespace ErofsReader
variable {r : ErofsReader} {nid : Nat} {v : ErofsInode} {offset size : Nat}

theorem inode_noPanic : NoPanic (r.inode nid) ↔ r.slotOffset nid < 2 ^ 64 := by
  rw [inode, noPanic_bind, nidToOffset_noPanic, and_iff_left]
  intro o _
  exact noPanic_bind.mpr ⟨mmapSlice_noPanic r o _, fun data _ => ErofsInode.cast_noPanic data⟩

theorem inode_eq_ok : r.inode nid = .ok v ↔ r.InodeAt nid v := by
  have hlt := r.mmap.lenLt
  simp only [inode, bind_eq_ok, nidToOffset_eq_ok, mmapSlice_eq_ok]
  constructor
  · rintro ⟨_, ⟨-, rfl⟩, _, ⟨hle, rfl⟩, h⟩
    exact ⟨hle, h⟩
  · rintro ⟨hle, h⟩
    exact ⟨_, ⟨by omega, rfl⟩, _, ⟨hle, rfl⟩, h⟩

end ErofsReader

namespace ErofsFs
variable {fs : ErofsFs} {nid ino : Nat} {v : ErofsInode}

theorem mtime_noPanic {epoch : UInt64} : NoPanic (v.mtime epoch) ↔
    ∀ c, v = .compact c → epoch.toNat + c.iMtime.toNat < 2 ^ 64 := by
  cases v with
  | compact c => simp [ErofsInode.mtime, noPanic_bind]
  | extended e => simp [ErofsInode.mtime]

theorem makeStat_noPanic (hino : fs.toIno nid = .ok ino) :
    NoPanic (fs.makeStat nid v) ↔ fs.reader.StatFits v := by
  have hpos := Nat.two_pow_pos fs.reader.sb.blkszbits.toNat
  rw [makeStat, hino, bind_ok]
  dsimp only
  constructor
  · intro h
    obtain ⟨hshl, h⟩ := noPanic_bind.mp h
    have hshift := noPanic_checkedShl.mp hshl
    obtain ⟨hmtime, h⟩ := noPanic_bind.mp (h _ (checkedShl_ok hshift))
    have htime := mtime_noPanic.mp hmtime
    obtain ⟨t, ht⟩ : ∃ t, v.mtime fs.reader.sb.epoch = .ok t := by
      cases v with
      | compact c => exact ⟨_, by rw [ErofsInode.mtime, checkedAdd_ok (htime c rfl)]; rfl⟩
      | extended e => exact ⟨_, rfl⟩
    exact ⟨hshift, htime, noPanic_checkedAdd.mp (noPanic_bind.mp (h t ht)).1⟩
  · rintro ⟨hshift, htime, hblocks⟩
    rw [checkedShl_ok hshift, bind_ok]
    refine noPanic_bind.mpr ⟨mtime_noPanic.mpr htime, fun t _ => ?_⟩
    rw [checkedAdd_ok hblocks, bind_ok, checkedSub_ok (by omega), bind_ok]
    exact noPanic_ok _

/-- **A NID is safe** exactly where its slot lies below 2^64 and the attributes of its inode
fit. -/
theorem nidSafe_iff : fs.NidSafe nid ↔ fs.reader.NidFits nid := by
  have hok : ∀ hslot : fs.reader.slotOffset nid < 2 ^ 64, ∃ ino, fs.toIno nid = .ok ino := by
    intro hslot
    rw [ErofsReader.slotOffset, erofsSlotsize] at hslot
    exact ⟨_, toIno_eq fs (by omega)⟩
  constructor
  · intro h
    have hslot := ErofsReader.inode_noPanic.mp h.inode
    obtain ⟨ino, hino⟩ := hok hslot
    exact ⟨hslot, fun v hv =>
      (makeStat_noPanic hino).mp (h.stat v (ErofsReader.inode_eq_ok.mpr hv))⟩
  · intro h
    obtain ⟨ino, hino⟩ := hok h.slot
    exact ⟨hino ▸ noPanic_ok ino, ErofsReader.inode_noPanic.mpr h.slot, fun v hv =>
      (makeStat_noPanic hino).mpr (h.stat v (ErofsReader.inode_eq_ok.mp hv))⟩

end ErofsFs

/-! ## Reads -/

namespace ErofsReader
variable {r : ErofsReader} {nid : Nat} {v : ErofsInode} {offset size : Nat}

theorem startblk_lt (v : ErofsInode) : v.startblk < 2 ^ 48 := by
  have hnb := v.nb.toNat_lt
  have hu := v.iU.toNat_lt
  rw [ErofsInode.startblk, ← Nat.shiftLeft_add_eq_or_of_lt hu, Nat.shiftLeft_eq]
  omega

theorem blockOffset_noPanic :
    NoPanic (blockOffset v offset) ↔ v.startblk * erofsBlockSize + offset < 2 ^ 64 := by
  have hstart := startblk_lt v
  have hmul : v.startblk * erofsBlockSize < 2 ^ 64 := by rw [erofsBlockSize]; omega
  rw [blockOffset, checkedMul_ok hmul, bind_ok, noPanic_checkedAdd]

/-- The slice behind a computed offset adds nothing to what can go wrong. -/
theorem slice_noPanic {x : IoResult Nat} :
    NoPanic (do let o ← x; r.mmapSlice o size) ↔ NoPanic x := by
  rw [noPanic_bind, and_iff_left]
  exact fun o _ => mmapSlice_noPanic r o size

theorem inlineOffset_noPanic (h : r.slotOffset nid < 2 ^ 63) (hoff : offset < 2 ^ 62) :
    NoPanic (r.inlineOffset nid v offset) := by
  have hheader := v.headerSize_add_xattrSize_le
  rw [inlineOffset, nidToOffset_ok (by omega), bind_ok, checkedAdd_ok (by omega), bind_ok,
    noPanic_checkedAdd]
  omega

theorem blocksSize_eq (v : ErofsInode) :
    blocksSize v = v.size.toNat - v.size.toNat % erofsBlockSize := by
  unfold blocksSize
  dsimp only
  split
  · rename_i h
    rw [h.1]
  · rfl

/-- Flat data in one slice, where the address in the blocks fits. -/
theorem readFlatData_noPanic (hslot : r.slotOffset nid < 2 ^ 63)
    (hin : offset + size ≤ v.size.toNat)
    (hfit : InBlocks v offset → v.startblk * erofsBlockSize + offset < 2 ^ 64) :
    NoPanic (r.readFlatData nid v offset size) := by
  have hsize := v.size.toNat_lt
  have hblocks := blocksSize_eq v
  rw [erofsBlockSize] at hblocks
  unfold readFlatData
  dsimp only
  split
  · rename_i hlay
    exact slice_noPanic.mpr (blockOffset_noPanic.mpr (hfit (.inl hlay)))
  split
  · rename_i hlay
    split
    · exact slice_noPanic.mpr (inlineOffset_noPanic hslot (by omega))
    split
    · rename_i hlt
      have hblock : NoPanic (do let o ← blockOffset v offset; r.mmapSlice o size) :=
        slice_noPanic.mpr (blockOffset_noPanic.mpr (hfit (.inr ⟨hlay, hlt⟩)))
      refine noPanic_bind.mpr ⟨noPanic_checkedAdd.mpr (by omega), fun stop _ => ?_⟩
      rw [pure_eq_ok, bind_ok, if_neg (show ¬ offset ≥ blocksSize v by omega)]
      split
      · exact hblock
      · exact noPanic_ioError _ _
    · rw [pure_eq_ok, bind_ok, if_neg Bool.false_ne_true, if_pos (by omega)]
      exact slice_noPanic.mpr (inlineOffset_noPanic hslot (by omega))
  · exact noPanic_ioError _ _

theorem readSpanning_noPanic (hslot : r.slotOffset nid < 2 ^ 63) :
    NoPanic (r.readSpanning nid v offset size) ↔
      v.startblk * erofsBlockSize + offset < 2 ^ 64 := by
  have hheader := v.headerSize_add_xattrSize_le
  rw [readSpanning]
  dsimp only
  rw [noPanic_bind, blockOffset_noPanic, and_iff_left]
  intro o _
  refine noPanic_bind.mpr ⟨mmapSlice_noPanic r _ _, fun _ _ => ?_⟩
  rw [nidToOffset_ok (by omega), bind_ok, checkedAdd_ok (by omega), bind_ok, noPanic_bind]
  exact ⟨mmapSlice_noPanic r _ _, fun _ _ => noPanic_ok _⟩

/-- **A flat read is safe** exactly where the address in the blocks fits, if it computes one. -/
theorem flatBytes_noPanic (hslot : r.slotOffset nid < 2 ^ 63)
    (hin : offset + size ≤ v.size.toNat) :
    NoPanic (r.flatBytes nid v offset size) ↔
      (InBlocks v offset → v.startblk * erofsBlockSize + offset < 2 ^ 64) := by
  have hsize := v.size.toNat_lt
  rw [flatBytes, spansTail_eq (by omega), bind_ok]
  by_cases hspan : v.dataLayout = erofsInodeFlatInline ∧ offset < blocksSize v ∧
      blocksSize v < offset + size
  · rw [if_pos (decide_eq_true hspan), noPanic_bind, readSpanning_noPanic hslot]
    refine ⟨fun h _ => h.1, fun h => ⟨h (.inr ⟨hspan.1, hspan.2.1⟩), ?_⟩⟩
    rintro ⟨blockData, inlineData⟩ _
    exact noPanic_ok _
  rw [if_neg (by simpa using hspan)]
  refine ⟨fun h hblock => ?_, readFlatData_noPanic hslot hin⟩
  unfold readFlatData at h
  dsimp only at h
  rcases hblock with hlay | ⟨hlay, hlt⟩
  · rw [if_pos hlay] at h
    exact blockOffset_noPanic.mp (slice_noPanic.mp h)
  · have hplain : ¬ v.dataLayout = erofsInodeFlatPlain := by rw [hlay]; decide
    have hle : offset + size ≤ blocksSize v := by
      by_contra hgt
      exact hspan ⟨hlay, hlt, by omega⟩
    rw [if_neg hplain, if_pos hlay, if_neg (by omega), if_pos hlt, checkedAdd_ok (by omega)] at h
    simp only [bind_ok, pure_eq_ok, hle, decide_true, if_true] at h
    exact blockOffset_noPanic.mp (slice_noPanic.mp h)

variable {ci : ErofsChunkIndex} {ciData w : List UInt8} {bits nchunks off n filePos remaining : Nat}

theorem chunkIndexes_noPanic (hlay : v.dataLayout = erofsInodeChunkBased)
    (hslot : r.slotOffset nid < 2 ^ 63) :
    NoPanic (r.chunkIndexes nid v) ↔ r.chunkbits v < 64 ∧
      divCeil v.size.toNat (2 ^ r.chunkbits v) * erofsChunkIndexSize < 2 ^ 64 := by
  have hheader : chunkTableOffset v ≤ 2 ^ 19 := v.headerSize_add_xattrSize_le
  rw [chunkIndexes, if_neg (not_not.mpr hlay), noPanic_bind, noPanic_checkedShl]
  refine and_congr_right fun hbits => ?_
  have htable : ∀ chunksize, NoPanic (do
      let inodeOffset ← r.nidToOffset nid
      let ciOffset ← checkedAdd 64 inodeOffset (chunkTableOffset v)
      let ciTotal ← checkedMul 64 (divCeil v.size.toNat chunksize) erofsChunkIndexSize
      r.mmapSlice ciOffset ciTotal) ↔
        divCeil v.size.toNat chunksize * erofsChunkIndexSize < 2 ^ 64 := by
    intro chunksize
    rw [nidToOffset_ok (by omega), bind_ok, checkedAdd_ok (by omega), bind_ok, noPanic_bind,
      noPanic_checkedMul, and_iff_left]
    exact fun _ _ => mmapSlice_noPanic r _ _
  constructor
  · exact fun h => (htable _).mp (h _ (checkedShl_ok hbits))
  · intro h chunksize hsize
    obtain ⟨-, rfl⟩ := checkedShl_eq_ok.mp hsize
    exact (htable _).mpr h

/-- A stored address has 48 bits, so that its byte address fits. -/
theorem chunkSource_noPanic (r : ErofsReader) (ci : ErofsChunkIndex) (hoff : off < 2 ^ 63)
    (n : Nat) : NoPanic (r.chunkSource ci off n) := by
  have haddr := ci.blkaddr_lt
  have hmul : ci.blkaddr * erofsBlockSize < 2 ^ 64 := by rw [erofsBlockSize]; omega
  have hadd : ci.blkaddr * erofsBlockSize + off < 2 ^ 64 := by rw [erofsBlockSize]; omega
  unfold chunkSource
  dsimp only
  rw [if_neg ci.blkaddr_ne_null]
  simp only [checkedMul_ok hmul, checkedAdd_ok hadd, bind_ok]
  split
  · exact noPanic_map.mpr (blobMmapSlice_noPanic r _ _)
  · exact noPanic_map.mpr (mmapSlice_noPanic r _ _)

/-- **The chunk loops are safe** over a table that covers the range. -/
theorem writeChunkLoop_noPanic (hlen : ciData.length = nchunks * 8)
    (hlt : ciData.length < 2 ^ 63) (hbits : bits < 64)
    (hn : filePos + remaining ≤ nchunks * 2 ^ bits) (h64 : filePos + remaining < 2 ^ 64) :
    NoPanic (r.writeChunkLoop (chunkIndexAt ciData) bits nchunks remaining filePos w) := by
  induction remaining using Nat.strongRecOn generalizing filePos w with
  | ind remaining ih =>
    rw [writeChunkLoop]
    split
    · rename_i hpos
      have hmod := Nat.mod_lt filePos (Nat.two_pow_pos bits)
      have hpow : 2 ^ bits ≤ 2 ^ 63 := Nat.pow_le_pow_right (by decide) (by omega)
      have hidx := chunkIdx_lt (show filePos < nchunks * 2 ^ bits by omega)
      obtain ⟨n, hneq⟩ : ∃ n, n = min remaining (2 ^ bits - filePos % 2 ^ bits) := ⟨_, rfl⟩
      dsimp only
      rw [if_neg (by omega), ← hneq, chunkIndexAt_ok (by omega) (by omega), bind_ok]
      refine noPanic_bind.mpr ⟨chunkSource_noPanic r _ (by omega) n, fun piece _ => ?_⟩
      rw [checkedAdd_ok (by omega), bind_ok]
      exact ih (remaining - n) (by omega) (by omega) (by omega)
    · exact noPanic_ok _

/-- **A chunked read is safe** exactly where the chunk size and the size of the table fit. -/
theorem readChunkData_noPanic (hlay : v.dataLayout = erofsInodeChunkBased)
    (hslot : r.slotOffset nid < 2 ^ 63) (hin : offset + size ≤ v.size.toNat) :
    NoPanic (r.readChunkData nid v offset size) ↔ r.chunkbits v < 64 ∧
      divCeil v.size.toNat (2 ^ r.chunkbits v) * erofsChunkIndexSize < 2 ^ 64 := by
  have hsize := v.size.toNat_lt
  have hcover := le_alignUp (n := v.size.toNat) (Nat.two_pow_pos (r.chunkbits v))
  rw [readChunkData]
  constructor
  · intro h
    obtain ⟨hshl, h⟩ := noPanic_bind.mp h
    have hbits := noPanic_checkedShl.mp hshl
    exact (chunkIndexes_noPanic hlay hslot).mp (noPanic_bind.mp (h _ (checkedShl_ok hbits))).1
  · intro hfit
    rw [checkedShl_ok hfit.1, bind_ok, noPanic_bind]
    refine ⟨(chunkIndexes_noPanic hlay hslot).mpr hfit, fun ciData htable => ?_⟩
    obtain ⟨-, -, hlen, hlt⟩ := table_of_chunkIndexes htable
    have hbuf := @readChunkLoop_eq r (chunkIndexAt ciData) (r.chunkbits v)
      (divCeil v.size.toNat (2 ^ r.chunkbits v)) offset size [] 0 rfl
    rw [List.nil_append] at hbuf
    dsimp only
    rw [hbuf, noPanic_map]
    exact writeChunkLoop_noPanic hlen hlt hfit.1 (Nat.le_trans hin hcover) (by omega)

/-- **A read at an offset of the file is safe** exactly where its fields fit. -/
theorem readFileDataSync_noPanic (hslot : r.slotOffset nid < 2 ^ 63) (hoff : offset < v.size.toNat) :
    NoPanic (r.readFileDataSync nid v offset size) ↔ r.ReadFits v offset := by
  have hin : offset + min size (v.size.toNat - offset) ≤ v.size.toNat := by omega
  unfold readFileDataSync readFileDataWith
  rw [if_neg (by omega)]
  dsimp only
  by_cases hflat : v.dataLayout = erofsInodeFlatPlain ∨ v.dataLayout = erofsInodeFlatInline
  · have hchunk : ¬ v.dataLayout = erofsInodeChunkBased := by
      rcases hflat with h | h <;> rw [h] <;> decide
    rw [if_pos hflat, flatBytes_noPanic hslot hin]
    exact ⟨fun h => ⟨h, fun hlay => absurd hlay hchunk, fun hlay => absurd hlay hchunk⟩,
      fun h => h.block⟩
  have hblock : ¬ InBlocks v offset := fun h => hflat (h.imp_right And.left)
  rw [if_neg hflat]
  by_cases hlay : v.dataLayout = erofsInodeChunkBased
  · rw [if_pos hlay]
    refine (readChunkData_noPanic hlay hslot hin).trans ⟨fun h => ?_, fun h => ?_⟩
    · exact ⟨fun hb => absurd hb hblock, fun _ => h.1, fun _ => h.2⟩
    · exact ⟨h.shift hlay, h.table hlay⟩
  · rw [if_neg hlay]
    exact iff_of_true (noPanic_ioError _ _) ⟨fun hb => absurd hb hblock, fun h => absurd h hlay,
      fun h => absurd h hlay⟩

end ErofsReader

namespace ErofsFs
variable {fs : ErofsFs} {ino nid : Nat} {v : ErofsInode} {offset size : Nat}

/-- **The data of an inode is safe** exactly where the fields fit that a read at the offset uses;
the slice of a whole directory or link always is. -/
theorem dataSafe_iff (hv : fs.reader.InodeAt nid v) :
    fs.DataSafe nid v offset size ↔ (offset < v.size.toNat → fs.reader.ReadFits v offset) := by
  have hlt := fs.reader.mmap.lenLt
  have hslot : fs.reader.slotOffset nid < 2 ^ 63 := by
    have hle := hv.1
    rw [erofsInodeExtendedSize] at hle
    omega
  have hstart : v.startblk * erofsBlockSize + 0 < 2 ^ 64 := by
    have := ErofsReader.startblk_lt v
    rw [erofsBlockSize]
    omega
  constructor
  · exact fun h hoff => (ErofsReader.readFileDataSync_noPanic hslot hoff).mp h.readSync
  · intro h
    have hread : NoPanic (fs.reader.readFileDataSync nid v offset size) := by
      by_cases hoff : offset < v.size.toNat
      · exact (ErofsReader.readFileDataSync_noPanic hslot hoff).mpr (h hoff)
      · rw [ErofsReader.readFileDataSync, ErofsReader.readFileDataWith, if_pos (by omega)]
        exact noPanic_ok _
    exact {
      write := by
        rw [ErofsReader.writeFileDataTo_eq]
        exact noPanic_map.mpr hread
      readSync := hread
      readAsync := hread
      whole := ErofsReader.readFlatData_noPanic hslot (by omega) fun _ => hstart }

/-- **Requests are safe** exactly where the NIDs and the fields they use are small enough: the
slots, the shifts by the block and chunk bits, the sums of size and block size and of epoch and
time, the size of the chunk table and the address in the blocks of a flat inode. -/
theorem arithmeticSafe_iff (h : Replied fs ino) (offset size : Nat) :
    fs.ArithmeticSafe ino offset size ↔ fs.FieldsFit ino offset := by
  constructor
  · intro hs
    exact {
      nid := fun nid hnid => nidSafe_iff.mp (hs.nid nid hnid)
      read := fun nid v hnid hv =>
        (dataSafe_iff hv).mp (hs.data nid v hnid (ErofsReader.inode_eq_ok.mpr hv))
      entries := fun nid hnid => nidSafe_iff.mp (hs.entries nid hnid) }
  · intro hf
    exact {
      toNid := by
        unfold toNid
        split
        · exact noPanic_ok _
        · exact noPanic_checkedSub.mpr h.pos
      nid := fun nid hnid => nidSafe_iff.mpr (hf.nid nid hnid)
      data := fun nid v hnid hv =>
        (dataSafe_iff (ErofsReader.inode_eq_ok.mp hv)).mpr
          (hf.read nid v hnid (ErofsReader.inode_eq_ok.mp hv))
      entries := fun nid hnid => nidSafe_iff.mpr (hf.entries nid hnid) }

theorem emptyRoot_fits : (List.replicate 64 (0 : UInt8)).length < 2 ^ 62 := by
  rw [List.length_replicate]
  decide

/-- An image of 1216 bytes: its root, in slot 36, is an inode of zeros. -/
def emptyRoot (blkszbits : UInt8) : ErofsFs where
  reader := imageReader { magic := erofsSuperMagicV1, blkszbits, rootnid2b := 36 }
    (List.replicate 64 0) none emptyRoot_fits

def emptyInode : ErofsInode := .compact
  { iFormat := 0, iXattrIcount := 0, iMode := 0, iNb := 0, iSize := 0, iMtime := 0, iU := 0,
    iIno := 0, iUid := 0, iGid := 0, iReserved := 0 }

theorem emptyRoot_sb (blkszbits : UInt8) : (emptyRoot blkszbits).reader.sb =
    { magic := erofsSuperMagicV1, blkszbits, rootnid2b := 36 } := imageReader_sb emptyRoot_fits

theorem emptyRoot_toNid (blkszbits : UInt8) : (emptyRoot blkszbits).toNid 1 = .ok 36 := by
  have hroot := toNid_root (emptyRoot blkszbits)
  rw [emptyRoot_sb] at hroot
  exact hroot

/-- Block size bits of 255 are shifted by before anything checks them. -/
theorem not_arithmeticSafe_emptyRoot : ¬ ∀ (image : Mmap) (blob : Option Mmap) (r : ErofsReader),
    ErofsReader.openImage (.ok image) (blob.map .ok) = .ok r →
    ∀ ino, Replied ⟨r⟩ ino → ∀ offset size, ArithmeticSafe ⟨r⟩ ino offset size := by
  intro h
  have hinode : (emptyRoot 255).reader.inode 36 = .ok emptyInode := by decide +kernel
  have hsafe := h _ none (emptyRoot 255).reader (openImage_imageReader rfl emptyRoot_fits) 1
    .root 0 0
  have hfits := nidSafe_iff.mp (hsafe.nid 36 (emptyRoot_toNid 255))
  have hshift := (hfits.stat _ (ErofsReader.inode_eq_ok.mp hinode)).shift
  rw [show (⟨(emptyRoot 255).reader⟩ : ErofsFs).reader.sb = _ from emptyRoot_sb 255] at hshift
  exact absurd hshift (by decide)

def flatFileInode : ErofsInode := .compact (.new 0 0o100644 0 3 0 1 1 0 0)

/-- The file is found in the listing of the root, and has number 5. -/
theorem flatFile_replied : Replied flatFileFs 5 := by
  have hino : flatFileFs.toIno 4 = .ok 5 := by
    rw [toIno_eq flatFileFs (by decide), flatFileFs_sb]
    rfl
  exact Replied.root.entry (.inr ⟨flatFileEntries, flatFileFs_root, ⟨4, erofsFtRegFile, [97]⟩,
    by decide, rfl⟩) hino

/-- The second and the third byte of the file. -/
theorem arithmeticSafe_flatFile : flatFileFs.ArithmeticSafe 5 1 2 := by
  refine (arithmeticSafe_iff flatFile_replied 1 2).mpr ?_
  have htoNid : flatFileFs.toNid 5 = .ok 4 := rfl
  have hinode : flatFileFs.reader.inode 4 = .ok flatFileInode := by decide +kernel
  have hat : ∀ v, flatFileFs.reader.InodeAt 4 v → v = flatFileInode := by
    intro v hv
    rw [← ErofsReader.inode_eq_ok, hinode, Except.ok.injEq] at hv
    exact hv.symm
  have hnid : ∀ nid, flatFileFs.toNid 5 = .ok nid → nid = 4 := by
    intro nid hnid
    rw [htoNid, Except.ok.injEq] at hnid
    exact hnid.symm
  -- Three bytes hold no directory entry.
  have hcached : flatFileFs.reader.readDirCached 4 flatFileInode = .ok [] := by decide +kernel
  have hnone : ∀ nid, ¬ flatFileFs.Finds 5 nid := by
    rintro nid (⟨name, h⟩ | ⟨es, h, e, he, -⟩)
    · rw [iterateDir, htoNid, bind_ok, hinode, bind_ok,
        ErofsReader.forEachDirEntry_of_cached hcached] at h
      cases h
    · rw [readDirEntries, htoNid, bind_ok, hinode, bind_ok, hcached] at h
      cases h
      cases he
  refine ⟨fun nid h => ?_, fun nid v h hv hoff => ?_, fun nid h => absurd h (hnone nid)⟩
  · rw [hnid nid h]
    refine ⟨?_, fun v hv => ?_⟩
    · rw [ErofsReader.slotOffset, flatFileFs_sb]
      decide
    · rw [hat v hv]
      constructor
      · rw [flatFileFs_sb]
        decide
      · intro c hc
        cases hc
        rw [flatFileFs_sb]
        decide
      · rw [flatFileFs_sb]
        decide
  · rw [hnid nid h] at hv
    rw [hat v hv]
    exact ⟨fun _ => by decide, fun h => absurd h (by decide), fun h => absurd h (by decide)⟩

end ErofsFs
end ErofsUtils.Fs
