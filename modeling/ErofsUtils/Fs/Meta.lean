import ErofsUtils.Fs.Reader

/-! # Reading inodes, directories and extended attributes -/
namespace ErofsUtils.Fs
open ErofsUtils.Rust ErofsUtils.Bytes ErofsUtils.Metadata

structure CachedDirEntry where
  nid : Nat
  fileType : UInt8
  name : List UInt8
deriving DecidableEq

/-- A directory callback with state `σ`: the next state and whether to go on, or an error. -/
abbrev DirCallback (σ : Type) := σ → CachedDirEntry → Except IoError (σ × Bool)

/-- The end of the last name of a block: the first NUL from `nameoff` on, or the block's end. -/
def scanName (block : List UInt8) (nameoff : Nat) : Nat :=
  nameoff + ((block.drop nameoff).takeWhile (· ≠ 0)).length

/-- The end of the name of entry `i`: where the next name starts, or what the scan finds. -/
def readNameEnd (block : List UInt8) (direntCount i nameoff : Nat) : IoResult Nat :=
  if i + 1 < direntCount then do
    let next ← ErofsDirent.codec.castRef (← slice block ((i + 1) * erofsDirentSize) block.length)
    pure next.nameoff.toNat
  else pure (scanName block nameoff)

/-- `n` more directory entries from index `i` on. `true` goes on with the next block. -/
def parseBlock {σ : Type} (block : List UInt8) (direntCount : Nat) (cb : DirCallback σ) :
    (n i : Nat) → σ → IoResult (σ × Bool)
  | 0, _, s => pure (s, true)
  | n + 1, i, s => do
    let deOff := i * erofsDirentSize
    if deOff + erofsDirentSize > block.length then pure (s, true)
    else do
      let de ← ErofsDirent.codec.castRef (← slice block deOff (deOff + erofsDirentSize))
      let nameoff := de.nameoff.toNat
      let nameEnd ← readNameEnd block direntCount i nameoff
      -- leaves this block only
      if nameoff ≥ block.length ∨ nameEnd > block.length then pure (s, true)
      else do
        let name ← slice block nameoff nameEnd
        match cb s { nid := de.nid.toNat, fileType := de.fileType, name } with
        | .error e => fail e
        | .ok (s, true) => parseBlock block direntCount cb n (i + 1) s
        | .ok (s, false) => pure (s, false)

def parseDirEntries {σ : Type} (data : List UInt8) (dirSize : Nat) (cb : DirCallback σ)
    (pos : Nat) (s : σ) : IoResult σ :=
  if _h : pos < dirSize then do
    let blockEnd := min (pos + erofsBlockSize) dirSize
    let block ← slice data pos blockEnd
    if block.length < erofsDirentSize then pure s
    else do
      let first ← ErofsDirent.codec.castRef (← slice block 0 erofsDirentSize)
      let direntCount := first.nameoff.toNat / erofsDirentSize
      let (s, more) ← parseBlock block direntCount cb direntCount 0 s
      if more then parseDirEntries data dirSize cb (pos + erofsBlockSize) s else pure s
  else pure s
termination_by dirSize - pos
decreasing_by simp only [erofsBlockSize]; omega

/-- Entries of the body from `pos` on. -/
def readXattrEntries (data : List UInt8) (pos : Nat) :
    IoResult (List (List UInt8 × List UInt8)) :=
  if _h : pos + erofsXattrEntryHeaderSize ≤ data.length then do
    let nameLen ← getAt data pos
    let nameIndex ← getAt data (pos + 1)
    let sizeLo ← getAt data (pos + 2)
    let sizeHi ← getAt data (pos + 3)
    let valueSize := leNat [sizeLo, sizeHi]
    let nameStart := pos + erofsXattrEntryHeaderSize
    let nameEnd := nameStart + nameLen.toNat
    let valueStart := nameEnd
    let valueEnd := valueStart + valueSize
    if valueEnd > data.length then pure []
    else do
      let suffix ← slice data nameStart nameEnd
      let fullName := match erofsXattrPrefix nameIndex with
        | some front => front ++ suffix
        | none => suffix
      let value ← slice data valueStart valueEnd
      let rest ← readXattrEntries data (roundUp valueEnd erofsXattrEntryHeaderSize)
      pure ((fullName, value) :: rest)
  else pure []
termination_by data.length - pos
decreasing_by
  have := le_alignUp (n := pos + 4 + nameLen.toNat + leNat [sizeLo, sizeHi]) (a := 4) (by decide)
  simp only [erofsXattrEntryHeaderSize, roundUp_four] at *
  omega

namespace ErofsReader

def inode (r : ErofsReader) (nid : Nat) : IoResult ErofsInode := do
  let offset ← r.nidToOffset nid
  let data ← r.mmapSlice offset erofsInodeExtendedSize
  ErofsInode.cast data

/-- The part of a flat-inline file that stands in blocks. -/
def blocksSize (v : ErofsInode) : Nat :=
  let fileSize := v.size.toNat
  let tailSize := if fileSize % erofsBlockSize = 0 ∧ fileSize > 0 then 0
    else fileSize % erofsBlockSize
  fileSize - tailSize

/-- Offset of a byte behind the header and the attributes of an inode. -/
def inlineOffset (r : ErofsReader) (nid : Nat) (v : ErofsInode) (inlineOff : Nat) :
    IoResult Nat := do
  let inodeOffset ← r.nidToOffset nid
  let o ← checkedAdd 64 inodeOffset (v.headerSize + v.xattrSize)
  checkedAdd 64 o inlineOff

/-- Offset of a byte in the blocks of an inode. -/
def blockOffset (v : ErofsInode) (offset : Nat) : IoResult Nat := do
  let o ← checkedMul 64 v.startblk erofsBlockSize
  checkedAdd 64 o offset

/-- Flat data as one slice of the image. -/
def readFlatData (r : ErofsReader) (nid : Nat) (v : ErofsInode) (offset size : Nat) :
    IoResult (List UInt8) :=
  let layout := v.dataLayout
  if layout = erofsInodeFlatPlain then do
    let dataOffset ← blockOffset v offset
    r.mmapSlice dataOffset size
  else if layout = erofsInodeFlatInline then
    if blocksSize v = 0 then do
      let dataOffset ← r.inlineOffset nid v offset
      r.mmapSlice dataOffset size
    else do
      let inBlocks ←
        if offset < blocksSize v then do
          let stop ← checkedAdd 64 offset size
          pure (decide (stop ≤ blocksSize v))
        else pure false
      if inBlocks then do
        let dataOffset ← blockOffset v offset
        r.mmapSlice dataOffset size
      else if offset ≥ blocksSize v then do
        let dataOffset ← r.inlineOffset nid v (offset - blocksSize v)
        r.mmapSlice dataOffset size
      else
        ioError .invalidData
          "FLAT_INLINE read spans block+inline boundary, use read_flat_data_vec()"
  else ioError .invalidData s!"not a flat data layout: {layout}"

/-- The read starts in the blocks and ends in the inline tail. -/
def spansTail (v : ErofsInode) (offset size : Nat) : IoResult Bool :=
  if v.dataLayout = erofsInodeFlatInline ∧ blocksSize v > 0 ∧ offset < blocksSize v then do
    let stop ← checkedAdd 64 offset size
    pure (decide (stop > blocksSize v))
  else pure false

/-- The block part and the inline part of a read that spans both. -/
def readSpanning (r : ErofsReader) (nid : Nat) (v : ErofsInode) (offset size : Nat) :
    IoResult (List UInt8 × List UInt8) := do
  let blockReadSize := blocksSize v - offset
  let blockOff ← blockOffset v offset
  let blockData ← r.mmapSlice blockOff blockReadSize
  let inlineReadSize := size - blockReadSize
  let inodeOffset ← r.nidToOffset nid
  let inlineOff ← checkedAdd 64 inodeOffset (v.headerSize + v.xattrSize)
  let inlineData ← r.mmapSlice inlineOff inlineReadSize
  pure (blockData, inlineData)

/-- The bytes that `readFlatDataVec` copies out, spanning reads included. -/
def flatBytes (r : ErofsReader) (nid : Nat) (v : ErofsInode) (offset size : Nat) :
    IoResult (List UInt8) := do
  if ← spansTail v offset size then do
    let (blockData, inlineData) ← r.readSpanning nid v offset size
    pure (blockData ++ inlineData)
  else r.readFlatData nid v offset size

/-- `Vec::with_capacity`: no buffer is larger than `isize::MAX`. -/
def withCapacity (size : Nat) : IoResult Unit :=
  if size < 2 ^ 63 then pure () else abort .capacity

/-- Only a spanning read allocates its buffer ahead. -/
def reserve (spans : Bool) (size : Nat) : IoResult Unit :=
  if spans then withCapacity size else pure ()

/-- Flat data copied out. A spanning read fills a buffer of its size. -/
def readFlatDataVec (r : ErofsReader) (nid : Nat) (v : ErofsInode) (offset size : Nat) :
    IoResult (List UInt8) := do
  let spans ← spansTail v offset size
  reserve spans size
  r.flatBytes nid v offset size

/-- What it copies out, if the buffer is large enough. -/
theorem flatBytes_of_vec {r : ErofsReader} {nid offset size : Nat} {v : ErofsInode} {l : List UInt8}
    (h : r.readFlatDataVec nid v offset size = .ok l) : r.flatBytes nid v offset size = .ok l := by
  obtain ⟨spans, -, hreserved⟩ := bind_eq_ok.mp h
  obtain ⟨_, -, hbytes⟩ := bind_eq_ok.mp hreserved
  exact hbytes

theorem readFlatDataVec_eq {size : Nat} (h : size < 2 ^ 63) (r : ErofsReader) (nid : Nat)
    (v : ErofsInode) (offset : Nat) :
    r.readFlatDataVec nid v offset size = r.flatBytes nid v offset size := by
  unfold readFlatDataVec
  cases hspans : spansTail v offset size with
  | error e => rw [flatBytes, hspans, bind_error, bind_error]
  | ok spans =>
    have hreserve : reserve spans size = .ok () := by
      unfold reserve withCapacity
      cases spans
      · rfl
      · exact if_pos h
    rw [bind_ok, hreserve, bind_ok]

def forEachDirEntry {σ : Type} (r : ErofsReader) (nid : Nat) (v : ErofsInode)
    (cb : DirCallback σ) (s : σ) : IoResult σ :=
  let dirSize := v.size.toNat
  if dirSize = 0 then pure s
  else match r.readFlatData nid v 0 dirSize with
    | .ok data => parseDirEntries data dirSize cb 0 s
    | .error (.panic p) => abort p
    | .error (.fail _) => do
      let data ← r.readFlatDataVec nid v 0 dirSize
      parseDirEntries data dirSize cb 0 s

/-- The callback that collects every entry. -/
def collect : DirCallback (List CachedDirEntry) := fun entries e => .ok (entries ++ [e], true)

def readDirCached (r : ErofsReader) (nid : Nat) (v : ErofsInode) :
    IoResult (List CachedDirEntry) := r.forEachDirEntry nid v collect []

def readSymlink (r : ErofsReader) (nid : Nat) (v : ErofsInode) : IoResult (List UInt8) :=
  let size := v.size.toNat
  r.readFlatDataVec nid v 0 size

/-- Full names and values, in the order they are stored. -/
def readXattrs (r : ErofsReader) (nid : Nat) (v : ErofsInode) :
    IoResult (List (List UInt8 × List UInt8)) :=
  let xattrSize := v.xattrSize
  if xattrSize = 0 then pure []
  else do
    let inodeOffset ← r.nidToOffset nid
    let xattrOffset ← checkedAdd 64 inodeOffset v.headerSize
    let xattrData ← r.mmapSlice xattrOffset xattrSize
    if xattrData.length < erofsXattrIbodyHeaderSize then pure []
    else do
      let sharedCount ← getAt xattrData 4
      let entriesStart := erofsXattrIbodyHeaderSize + sharedCount.toNat * 4
      if entriesStart ≥ xattrData.length then pure []
      else readXattrEntries xattrData entriesStart

end ErofsReader
end ErofsUtils.Fs
