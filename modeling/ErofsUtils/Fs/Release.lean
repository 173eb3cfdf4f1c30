import ErofsUtils.Fs.Logical

/-! # The reader of a release build

A release build goes on where a checked one stops: a sum or a product keeps the low bits of its
word, a shift the low bits of its amount. The bounds of a slice are tested in both. What the
checked build returns, the release build returns too; it also returns where an offset has
wrapped. -/
namespace ErofsUtils.Fs.Release
open ErofsUtils.Rust ErofsUtils.Bytes ErofsUtils.Metadata ErofsReader

def nidToOffset (r : ErofsReader) (nid : Nat) : Nat :=
  wrappingAdd 64 (wrappingMul 64 r.sb.metaBlkaddr.toNat erofsBlockSize)
    (wrappingMul 64 nid erofsSlotsize)

def inode (r : ErofsReader) (nid : Nat) : IoResult ErofsInode := do
  let data ← r.mmapSlice (nidToOffset r nid) erofsInodeExtendedSize
  ErofsInode.cast data

/-! ## Flat data -/

def inlineOffset (r : ErofsReader) (nid : Nat) (v : ErofsInode) (inlineOff : Nat) : Nat :=
  wrappingAdd 64 (wrappingAdd 64 (nidToOffset r nid) (v.headerSize + v.xattrSize)) inlineOff

def blockOffset (v : ErofsInode) (offset : Nat) : Nat :=
  wrappingAdd 64 (wrappingMul 64 v.startblk erofsBlockSize) offset

def readFlatData (r : ErofsReader) (nid : Nat) (v : ErofsInode) (offset size : Nat) :
    IoResult (List UInt8) :=
  let layout := v.dataLayout
  if layout = erofsInodeFlatPlain then r.mmapSlice (blockOffset v offset) size
  else if layout = erofsInodeFlatInline then
    if blocksSize v = 0 then r.mmapSlice (inlineOffset r nid v offset) size
    else if offset < blocksSize v ∧ wrappingAdd 64 offset size ≤ blocksSize v then
      r.mmapSlice (blockOffset v offset) size
    else if offset ≥ blocksSize v then
      r.mmapSlice (inlineOffset r nid v (offset - blocksSize v)) size
    else
      ioError .invalidData
        "FLAT_INLINE read spans block+inline boundary, use read_flat_data_vec()"
  else ioError .invalidData s!"not a flat data layout: {layout}"

def spansTail (v : ErofsInode) (offset size : Nat) : Bool :=
  v.dataLayout = erofsInodeFlatInline ∧ blocksSize v > 0 ∧ offset < blocksSize v ∧
    wrappingAdd 64 offset size > blocksSize v

def readSpanning (r : ErofsReader) (nid : Nat) (v : ErofsInode) (offset size : Nat) :
    IoResult (List UInt8 × List UInt8) := do
  let blockReadSize := blocksSize v - offset
  let blockData ← r.mmapSlice (blockOffset v offset) blockReadSize
  let inlineReadSize := size - blockReadSize
  let inlineOff := wrappingAdd 64 (nidToOffset r nid) (v.headerSize + v.xattrSize)
  let inlineData ← r.mmapSlice inlineOff inlineReadSize
  pure (blockData, inlineData)

def flatBytes (r : ErofsReader) (nid : Nat) (v : ErofsInode) (offset size : Nat) :
    IoResult (List UInt8) :=
  if spansTail v offset size then do
    let (blockData, inlineData) ← readSpanning r nid v offset size
    pure (blockData ++ inlineData)
  else readFlatData r nid v offset size

def writeFlatDataTo (r : ErofsReader) (nid : Nat) (v : ErofsInode) (offset size : Nat) :
    IoResult (List UInt8 × Nat) :=
  if spansTail v offset size then do
    let (blockData, inlineData) ← readSpanning r nid v offset size
    pure (blockData ++ inlineData, size)
  else do
    let bytes ← readFlatData r nid v offset size
    pure (bytes, size)

/-! ## Chunked data

The sums in the loops and in `chunkSource` fit their words: a position is below the size of the
file, an address below `2 ^ 48`. -/

/-- What `1u64 << chunkbits` shifts by. -/
def chunkbits (r : ErofsReader) (v : ErofsInode) : Nat := r.chunkbits v % 64

def chunkIndexes (r : ErofsReader) (nid : Nat) (v : ErofsInode) : IoResult (List UInt8) :=
  if v.dataLayout ≠ erofsInodeChunkBased then ioError .invalidData "not a chunk-based inode"
  else
    let nchunks := divCeil v.size.toNat (2 ^ chunkbits r v)
    let ciOffset := wrappingAdd 64 (nidToOffset r nid) (chunkTableOffset v)
    let ciTotal := wrappingMul 64 nchunks erofsChunkIndexSize
    r.mmapSlice ciOffset ciTotal

def chunkIndexAt (ciData : List UInt8) (i : Nat) : IoResult ErofsChunkIndex := do
  let off := wrappingMul 64 i erofsChunkIndexSize
  ErofsChunkIndex.codec.castRef (← slice ciData off ciData.length)

def writeChunkDataTo (r : ErofsReader) (nid : Nat) (v : ErofsInode) (offset size : Nat) :
    IoResult (List UInt8 × Nat) := do
  let ciData ← chunkIndexes r nid v
  let nchunks := divCeil v.size.toNat (2 ^ chunkbits r v)
  let (w, remaining) ← r.writeChunkLoop (chunkIndexAt ciData) (chunkbits r v) nchunks size offset []
  pure (w, size - remaining)

/-- The body that the synchronous and the asynchronous buffered read share. -/
def readChunkData (r : ErofsReader) (nid : Nat) (v : ErofsInode) (offset size : Nat) :
    IoResult (List UInt8) := do
  let ciData ← chunkIndexes r nid v
  let nchunks := divCeil v.size.toNat (2 ^ chunkbits r v)
  r.readChunkLoop (chunkIndexAt ciData) (chunkbits r v) nchunks size offset 0
    (List.replicate size 0)

def readChunkDataSync (r : ErofsReader) (nid : Nat) (v : ErofsInode) (offset size : Nat) :
    IoResult (List UInt8) := readChunkData r nid v offset size

def readChunkDataAsync (r : ErofsReader) (nid : Nat) (v : ErofsInode) (offset size : Nat) :
    IoResult (List UInt8) := readChunkData r nid v offset size

def writeFileDataTo (r : ErofsReader) (nid : Nat) (v : ErofsInode) (offset size : Nat) :
    IoResult (List UInt8 × Nat) :=
  writeFileDataWith (writeFlatDataTo r) (writeChunkDataTo r) nid v offset size

def readFileDataSync (r : ErofsReader) (nid : Nat) (v : ErofsInode) (offset size : Nat) :
    IoResult (List UInt8) := readFileDataWith (flatBytes r) (readChunkDataSync r) nid v offset size

def readFileData (r : ErofsReader) (nid : Nat) (v : ErofsInode) (offset size : Nat) :
    IoResult (List UInt8) := readFileDataWith (flatBytes r) (readChunkDataAsync r) nid v offset size

/-! ## What the checked build returns -/

variable {r : ErofsReader} {nid : Nat} {v : ErofsInode} {offset size : Nat} {l : List UInt8}

theorem nidToOffset_eq (h : r.slotOffset nid < 2 ^ 64) : nidToOffset r nid = r.slotOffset nid := by
  unfold ErofsReader.slotOffset at *
  unfold nidToOffset
  rw [wrappingMul_eq (by omega), wrappingMul_eq (by omega), wrappingAdd_eq h]

/-- A run that went through a checked offset goes through the wrapped one. -/
theorem at_offset {x : IoResult Nat} {o : Nat} (hx : ∀ o', x = .ok o' → o = o')
    (h : (do let o ← x; r.mmapSlice o size) = .ok l) : r.mmapSlice o size = .ok l := by
  obtain ⟨o', ho', h⟩ := bind_eq_ok.mp h
  rwa [hx o' ho']

theorem inode_of_checked (h : r.inode nid = .ok v) : inode r nid = .ok v := by
  obtain ⟨o, ho, h⟩ := bind_eq_ok.mp h
  obtain ⟨hlt, rfl⟩ := nidToOffset_eq_ok.mp ho
  rw [inode, nidToOffset_eq hlt]
  exact h

theorem blockOffset_of_checked {o : Nat} (h : ErofsReader.blockOffset v offset = .ok o) :
    blockOffset v offset = o := by
  obtain ⟨hlt, rfl⟩ := blockOffset_eq_ok.mp h
  rw [blockOffset, wrappingMul_eq (by omega), wrappingAdd_eq hlt]

theorem inlineOffset_of_checked {o : Nat} (h : r.inlineOffset nid v offset = .ok o) :
    inlineOffset r nid v offset = o := by
  obtain ⟨hlt, rfl⟩ := inlineOffset_eq_ok.mp h
  rw [inlineOffset, nidToOffset_eq (by omega),
    wrappingAdd_eq (show r.slotOffset nid + (v.headerSize + v.xattrSize) < 2 ^ 64 by omega),
    wrappingAdd_eq hlt]

theorem readFlatData_of_checked (h : r.readFlatData nid v offset size = .ok l) :
    readFlatData r nid v offset size = .ok l := by
  unfold ErofsReader.readFlatData at h
  unfold readFlatData
  dsimp only at h ⊢
  by_cases hplain : v.dataLayout = erofsInodeFlatPlain
  · rw [if_pos hplain] at h ⊢
    exact at_offset (fun _ => blockOffset_of_checked) h
  rw [if_neg hplain] at h ⊢
  by_cases hinline : v.dataLayout = erofsInodeFlatInline
  · rw [if_pos hinline] at h ⊢
    by_cases hzero : blocksSize v = 0
    · rw [if_pos hzero] at h ⊢
      exact at_offset (fun _ => inlineOffset_of_checked) h
    rw [if_neg hzero] at h ⊢
    by_cases hlt : offset < blocksSize v
    · rw [if_pos hlt] at h
      obtain ⟨stop, hstop, h⟩ := bind_eq_ok.mp h
      obtain ⟨hfit, rfl⟩ := checkedAdd_eq_ok.mp hstop
      rw [wrappingAdd_eq hfit]
      by_cases hle : offset + size ≤ blocksSize v
      · simp only [pure_eq_ok, bind_ok, hle, decide_true, if_true] at h
        rw [if_pos ⟨hlt, hle⟩]
        exact at_offset (fun _ => blockOffset_of_checked) h
      · simp only [pure_eq_ok, bind_ok, hle, decide_false, Bool.false_eq_true, if_false,
          if_neg (show ¬ offset ≥ blocksSize v by omega)] at h
        cases h
    · simp only [if_neg hlt, pure_eq_ok, bind_ok, Bool.false_eq_true, if_false,
        if_pos (show offset ≥ blocksSize v by omega)] at h
      rw [if_neg fun hcon => hlt hcon.1, if_pos (by omega)]
      exact at_offset (fun _ => inlineOffset_of_checked) h
  · rw [if_neg hinline] at h
    cases h

theorem spansTail_of_checked {spans : Bool} (h : ErofsReader.spansTail v offset size = .ok spans) :
    spansTail v offset size = spans := by
  unfold ErofsReader.spansTail at h
  unfold spansTail
  split at h
  · rename_i hstart
    obtain ⟨stop, hstop, h⟩ := bind_eq_ok.mp h
    obtain ⟨hfit, rfl⟩ := checkedAdd_eq_ok.mp hstop
    cases h
    rw [wrappingAdd_eq hfit]
    simp [hstart]
  · rename_i hstart
    cases h
    exact decide_eq_false fun hcon => hstart ⟨hcon.1, hcon.2.1, hcon.2.2.1⟩

theorem readSpanning_of_checked {parts : List UInt8 × List UInt8}
    (h : r.readSpanning nid v offset size = .ok parts) :
    readSpanning r nid v offset size = .ok parts := by
  obtain ⟨o, ho, h⟩ := bind_eq_ok.mp h
  obtain ⟨blockData, hblock, h⟩ := bind_eq_ok.mp h
  obtain ⟨slot, hslot, h⟩ := bind_eq_ok.mp h
  obtain ⟨hlt, rfl⟩ := nidToOffset_eq_ok.mp hslot
  obtain ⟨o', ho', h⟩ := bind_eq_ok.mp h
  obtain ⟨hfit, rfl⟩ := checkedAdd_eq_ok.mp ho'
  rw [readSpanning, blockOffset_of_checked ho, hblock, bind_ok, nidToOffset_eq hlt,
    wrappingAdd_eq hfit]
  exact h

theorem flatBytes_of_checked (h : r.flatBytes nid v offset size = .ok l) :
    flatBytes r nid v offset size = .ok l := by
  obtain ⟨spans, hspans, h⟩ := bind_eq_ok.mp h
  rw [flatBytes, spansTail_of_checked hspans]
  cases spans with
  | true =>
    rw [if_pos rfl] at h ⊢
    obtain ⟨parts, hparts, h⟩ := bind_eq_ok.mp h
    rw [readSpanning_of_checked hparts]
    exact h
  | false =>
    rw [if_neg Bool.false_ne_true] at h ⊢
    exact readFlatData_of_checked h

theorem chunkIndexes_of_checked (h : r.chunkIndexes nid v = .ok l) :
    chunkIndexes r nid v = .ok l ∧ chunkbits r v = r.chunkbits v := by
  have hmmap := r.mmap.lenLt
  obtain ⟨hlay, hbits, hle, rfl⟩ := chunkIndexes_eq_ok.mp h
  have hshift : chunkbits r v = r.chunkbits v := Nat.mod_eq_of_lt hbits
  refine ⟨?_, hshift⟩
  unfold chunkIndexes
  dsimp only
  rw [if_neg (not_not.mpr hlay), hshift, nidToOffset_eq (by omega), wrappingAdd_eq (by omega),
    wrappingMul_eq (by omega)]
  exact mmapSlice_ok hle

theorem chunkIndexAt_of_checked {ciData : List UInt8} {i : Nat} {ci : ErofsChunkIndex}
    (h : ErofsReader.chunkIndexAt ciData i = .ok ci) : chunkIndexAt ciData i = .ok ci := by
  obtain ⟨o, ho, h⟩ := bind_eq_ok.mp h
  obtain ⟨hfit, rfl⟩ := checkedMul_eq_ok.mp ho
  rw [chunkIndexAt, wrappingMul_eq hfit]
  exact h

/-- An index of the table is the eight bytes at the wrapped offset. -/
theorem chunkIndexAt_eq_ok {ciData : List UInt8} {i : Nat} {ci : ErofsChunkIndex} :
    chunkIndexAt ciData i = .ok ci ↔
      wrappingMul 64 i erofsChunkIndexSize + erofsChunkIndexSize ≤ ciData.length ∧
        ErofsChunkIndex.codec.dec
          (window ciData (wrappingMul 64 i erofsChunkIndexSize) erofsChunkIndexSize) = ci := by
  unfold chunkIndexAt
  generalize wrappingMul 64 i erofsChunkIndexSize = o
  dsimp only
  rw [erofsChunkIndexSize]
  by_cases hfit : o + 8 ≤ ciData.length
  · have hfront : (window ciData o (ciData.length - o)).take 8 = window ciData o 8 := by
      rw [window, window, List.take_take, Nat.min_eq_left (by omega)]
    rw [slice_ok (by omega) (Nat.le_refl _), bind_ok, Codec.castRef_ok _
      (by rw [length_window_of_le (by omega), ErofsChunkIndex.codec_size, erofsChunkIndexSize]; omega),
      Except.ok.injEq, ← ErofsChunkIndex.codec.dec_take, ← hfront]
    exact (and_iff_right hfit).symm
  · refine iff_of_false (fun h => ?_) fun h => hfit h.1
    obtain ⟨data, hdata, hcast⟩ := bind_eq_ok.mp h
    unfold slice at hdata
    unfold Codec.castRef at hcast
    split at hdata
    · cases hdata
      split at hcast
      · rename_i hsize
        rw [length_window_of_le (by omega), ErofsChunkIndex.codec_size, erofsChunkIndexSize] at hsize
        omega
      · cases hcast
    · cases hdata

/-- The table stands where it does in the checked build, though its size may have wrapped. -/
theorem start_of_chunkIndexes (h : chunkIndexes r nid v = .ok l)
    (hfit : r.slotOffset nid + chunkTableOffset v < 2 ^ 64) :
    l = window r.mmap.bytes (r.slotOffset nid + chunkTableOffset v)
      (wrappingMul 64 (divCeil v.size.toNat (2 ^ chunkbits r v)) erofsChunkIndexSize) := by
  unfold chunkIndexes at h
  split at h
  · cases h
  · dsimp only at h
    rw [nidToOffset_eq (by omega), wrappingAdd_eq hfit] at h
    exact (mmapSlice_eq_ok.mp h).2.symm

theorem indexedByte_of_checked {ciData : List UInt8} {bits p : Nat} {x : UInt8}
    (h : r.tableByte ciData bits p = some x) :
    r.indexedByte (chunkIndexAt ciData) bits p = some x := by
  unfold ErofsReader.tableByte ErofsReader.indexedByte at h
  unfold ErofsReader.indexedByte
  cases hci : ErofsReader.chunkIndexAt ciData (p / 2 ^ bits) with
  | ok ci =>
    rw [hci] at h
    rw [chunkIndexAt_of_checked hci]
    exact h
  | error e =>
    rw [hci] at h
    cases h

theorem readChunkData_of_checked (hin : offset + size ≤ v.size.toNat)
    (h : r.readChunkData nid v offset size = .ok l) : readChunkData r nid v offset size = .ok l := by
  obtain ⟨chunksize, hshl, h⟩ := bind_eq_ok.mp h
  obtain ⟨-, rfl⟩ := checkedShl_eq_ok.mp hshl
  obtain ⟨ciData, htable, h⟩ := bind_eq_ok.mp h
  obtain ⟨htable, hshift⟩ := chunkIndexes_of_checked htable
  obtain ⟨hlen, hspell⟩ := (readChunkLoop_eq_ok hin v.size.toNat_lt).mp h
  rw [readChunkData, htable, bind_ok, hshift]
  refine (readChunkLoop_eq_ok hin v.size.toNat_lt).mpr ⟨hlen, fun i hi => ?_⟩
  have hbyte := hspell i hi
  rw [List.getElem?_eq_getElem hi] at hbyte ⊢
  exact indexedByte_of_checked hbyte

/-- **What the checked build reads**, the release build reads. -/
theorem readFileDataSync_of_checked (h : r.readFileDataSync nid v offset size = .ok l) :
    readFileDataSync r nid v offset size = .ok l := by
  unfold ErofsReader.readFileDataSync readFileDataWith at h
  unfold readFileDataSync readFileDataWith
  by_cases hoff : offset ≥ v.size.toNat
  · rw [if_pos hoff] at h ⊢
    exact h
  rw [if_neg hoff] at h ⊢
  dsimp only at h ⊢
  by_cases hflat : v.dataLayout = erofsInodeFlatPlain ∨ v.dataLayout = erofsInodeFlatInline
  · rw [if_pos hflat] at h ⊢
    exact flatBytes_of_checked h
  rw [if_neg hflat] at h ⊢
  by_cases hlay : v.dataLayout = erofsInodeChunkBased
  · rw [if_pos hlay] at h ⊢
    exact readChunkData_of_checked (by omega) h
  · rw [if_neg hlay] at h
    cases h

/-! ## The three read paths -/

theorem readFileData_eq (r : ErofsReader) (nid : Nat) (v : ErofsInode) (offset size : Nat) :
    readFileData r nid v offset size = readFileDataSync r nid v offset size := rfl

theorem writeFlatDataTo_eq (r : ErofsReader) (nid : Nat) (v : ErofsInode) (offset size : Nat) :
    writeFlatDataTo r nid v offset size = (fun l => (l, size)) <$> flatBytes r nid v offset size := by
  unfold writeFlatDataTo flatBytes
  split
  · cases readSpanning r nid v offset size <;> rfl
  · cases readFlatData r nid v offset size <;> rfl

theorem writeChunkDataTo_eq (hin : offset + size ≤ v.size.toNat) :
    writeChunkDataTo r nid v offset size =
      (fun l => (l, size)) <$> readChunkData r nid v offset size := by
  unfold writeChunkDataTo readChunkData
  cases htable : chunkIndexes r nid v with
  | error e => rfl
  | ok ciData =>
    rw [bind_ok, bind_ok]
    dsimp only
    rw [writeChunkLoop_eq hin v.size.toNat_lt]
    cases r.readChunkLoop (chunkIndexAt ciData) (chunkbits r v)
      (divCeil v.size.toNat (2 ^ chunkbits r v)) size offset 0 (List.replicate size 0) <;> rfl

theorem writeFileDataTo_eq (r : ErofsReader) (nid : Nat) (v : ErofsInode) (offset size : Nat) :
    writeFileDataTo r nid v offset size =
      (fun l => (l, readRange v offset size)) <$> readFileDataSync r nid v offset size := by
  unfold writeFileDataTo readFileDataSync
  exact writeFileDataWith_eq (writeFlatDataTo_eq r nid v offset) fun _ hin => writeChunkDataTo_eq hin

/-- **A chunked read** looks its bytes up in a table that lies in the image. -/
theorem readFileDataSync_eq_ok (hlay : v.dataLayout = erofsInodeChunkBased)
    (hoff : offset < v.size.toNat) :
    readFileDataSync r nid v offset size = .ok l ↔ ∃ ciData, chunkIndexes r nid v = .ok ciData ∧
      l.length = readRange v offset size ∧
        Spells (r.indexedByte (chunkIndexAt ciData) (chunkbits r v)) offset l := by
  have hin : offset + min size (v.size.toNat - offset) ≤ v.size.toNat := by omega
  unfold readFileDataSync readFileDataWith
  rw [if_neg (by omega)]
  dsimp only
  rw [if_neg (not_flat hlay), if_pos hlay]
  show readChunkData r nid v offset _ = .ok l ↔ _
  simp only [readChunkData, bind_eq_ok, readChunkLoop_eq_ok hin v.size.toNat_lt, readRange]

end ErofsUtils.Fs.Release
