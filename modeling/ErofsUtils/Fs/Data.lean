import ErofsUtils.Fs.Meta

/-! # Reading file data

Three read paths over the same chunk table: one streams to a writer, two fill a
buffer. A writer is the list of bytes it has been given. -/
namespace ErofsUtils.Fs
open ErofsUtils.Rust ErofsUtils.Bytes ErofsUtils.Metadata

/-- Zeros for a hole, at most 4096 a time. -/
def zeroPieces (left : Nat) : List UInt8 :=
  if _h : left > 0 then
    let n := min left 4096
    List.replicate n 0 ++ zeroPieces (left - n)
  else []
termination_by left
decreasing_by omega

theorem zeroPieces_eq (left : Nat) : zeroPieces left = List.replicate left 0 := by
  fun_induction zeroPieces left with
  | case1 left h n ih =>
    rw [ih, List.replicate_append_replicate]
    congr 1
    omega
  | case2 left h => simp [show left = 0 by omega]

namespace ErofsReader

def chunkbits (r : ErofsReader) (v : ErofsInode) : Nat :=
  r.sb.blkszbits.toNat + (v.chunkFormat.toNat &&& 0x1F)

/-- Where the chunk table starts behind the start of the inode. -/
def chunkTableOffset (v : ErofsInode) : Nat := v.headerSize + v.xattrSize

def chunkIndexes (r : ErofsReader) (nid : Nat) (v : ErofsInode) : IoResult (List UInt8) :=
  if v.dataLayout ≠ erofsInodeChunkBased then ioError .invalidData "not a chunk-based inode"
  else do
    let chunksize ← checkedShl 64 (r.chunkbits v)
    let nchunks := divCeil v.size.toNat chunksize
    let inodeOffset ← r.nidToOffset nid
    let headerSize := chunkTableOffset v
    let ciOffset ← checkedAdd 64 inodeOffset headerSize
    let ciTotal ← checkedMul 64 nchunks erofsChunkIndexSize
    r.mmapSlice ciOffset ciTotal

def chunkIndexAt (ciData : List UInt8) (i : Nat) : IoResult ErofsChunkIndex := do
  let off ← checkedMul 64 i erofsChunkIndexSize
  ErofsChunkIndex.codec.castRef (← slice ciData off ciData.length)

/-- The bytes of a chunk, or `none` in a hole. -/
def chunkSource (r : ErofsReader) (ci : ErofsChunkIndex) (chunkOff toRead : Nat) :
    IoResult (Option (List UInt8)) :=
  let blkaddr := ci.blkaddr
  if blkaddr = erofsNullAddr then pure none
  else if ci.deviceId > 0 then do
    let blobOffset ← checkedAdd 64 (← checkedMul 64 blkaddr erofsBlockSize) chunkOff
    some <$> r.blobMmapSlice blobOffset toRead
  else do
    let dataOffset ← checkedAdd 64 (← checkedMul 64 blkaddr erofsBlockSize) chunkOff
    some <$> r.mmapSlice dataOffset toRead

/-- What a piece adds to the writer. -/
def emitPiece (w : List UInt8) (toRead : Nat) : Option (List UInt8) → List UInt8
  | none => w ++ zeroPieces toRead
  | some bytes => w ++ bytes

/-- What a piece changes in the zeroed buffer. -/
def fillPiece (result : List UInt8) (bufPos : Nat) : Option (List UInt8) → IoResult (List UInt8)
  | none => pure result
  | some bytes => copyAt result bufPos bytes

/-- The streaming loop: the bytes written and what remained when it ended. `indexAt` looks an
index up in the chunk table. -/
def writeChunkLoop (r : ErofsReader) (indexAt : Nat → IoResult ErofsChunkIndex) (bits nchunks : Nat)
    (remaining filePos : Nat) (w : List UInt8) : IoResult (List UInt8 × Nat) :=
  if _h : remaining > 0 then do
    let chunkIdx := filePos / 2 ^ bits
    let chunkOff := filePos % 2 ^ bits
    let toRead := min remaining (2 ^ bits - chunkOff)
    if chunkIdx ≥ nchunks then pure (w, remaining)
    else do
      let ci ← indexAt chunkIdx
      let piece ← r.chunkSource ci chunkOff toRead
      let w := emitPiece w toRead piece
      let filePos ← checkedAdd 64 filePos toRead
      writeChunkLoop r indexAt bits nchunks (remaining - toRead) filePos w
  else pure (w, remaining)
termination_by remaining
decreasing_by
  have := Nat.mod_lt filePos (Nat.two_pow_pos bits)
  omega

/-- The loop that fills `result` from `bufPos` on. -/
def readChunkLoop (r : ErofsReader) (indexAt : Nat → IoResult ErofsChunkIndex) (bits nchunks : Nat)
    (remaining filePos bufPos : Nat) (result : List UInt8) : IoResult (List UInt8) :=
  if _h : remaining > 0 then do
    let chunkIdx := filePos / 2 ^ bits
    let chunkOff := filePos % 2 ^ bits
    let toRead := min remaining (2 ^ bits - chunkOff)
    if chunkIdx ≥ nchunks then pure result
    else do
      let ci ← indexAt chunkIdx
      let piece ← r.chunkSource ci chunkOff toRead
      let result ← fillPiece result bufPos piece
      let filePos ← checkedAdd 64 filePos toRead
      readChunkLoop r indexAt bits nchunks (remaining - toRead) filePos (bufPos + toRead) result
  else pure result
termination_by remaining
decreasing_by
  have := Nat.mod_lt filePos (Nat.two_pow_pos bits)
  omega

/-- Returns the bytes written and their number. -/
def writeChunkDataTo (r : ErofsReader) (nid : Nat) (v : ErofsInode) (offset size : Nat) :
    IoResult (List UInt8 × Nat) := do
  let chunksize ← checkedShl 64 (r.chunkbits v)
  let ciData ← r.chunkIndexes nid v
  let nchunks := divCeil v.size.toNat chunksize
  let (w, remaining) ← r.writeChunkLoop (chunkIndexAt ciData) (r.chunkbits v) nchunks size offset []
  pure (w, size - remaining)

/-- The body that the synchronous and the asynchronous buffered read share. -/
def readChunkData (r : ErofsReader) (nid : Nat) (v : ErofsInode) (offset size : Nat) :
    IoResult (List UInt8) := do
  let chunksize ← checkedShl 64 (r.chunkbits v)
  let ciData ← r.chunkIndexes nid v
  let nchunks := divCeil v.size.toNat chunksize
  r.readChunkLoop (chunkIndexAt ciData) (r.chunkbits v) nchunks size offset 0
    (List.replicate size 0)

def readChunkDataSync (r : ErofsReader) (nid : Nat) (v : ErofsInode) (offset size : Nat) :
    IoResult (List UInt8) := r.readChunkData nid v offset size

def readChunkDataAsync (r : ErofsReader) (nid : Nat) (v : ErofsInode) (offset size : Nat) :
    IoResult (List UInt8) := r.readChunkData nid v offset size

def writeFlatDataTo (r : ErofsReader) (nid : Nat) (v : ErofsInode) (offset size : Nat) :
    IoResult (List UInt8 × Nat) := do
  if ← spansTail v offset size then do
    let (blockData, inlineData) ← r.readSpanning nid v offset size
    pure (blockData ++ inlineData, size)
  else do
    let bytes ← r.readFlatData nid v offset size
    pure (bytes, size)

def unsupportedLayout {α : Type} (layout : UInt16) : IoResult α :=
  ioError .invalidData s!"unsupported data layout: {layout}"

/-- The dispatch of the streaming read on the layout. -/
def writeFileDataWith (flat chunked : Nat → ErofsInode → Nat → Nat → IoResult (List UInt8 × Nat))
    (nid : Nat) (v : ErofsInode) (offset size : Nat) : IoResult (List UInt8 × Nat) :=
  if offset ≥ v.size.toNat then pure ([], 0)
  else
    let actualSize := min size (v.size.toNat - offset)
    let layout := v.dataLayout
    if layout = erofsInodeFlatPlain ∨ layout = erofsInodeFlatInline then
      flat nid v offset actualSize
    else if layout = erofsInodeChunkBased then chunked nid v offset actualSize
    else unsupportedLayout layout

/-- The dispatch of the two buffered reads. The size asked for is a `u32`, so a flat read gets
its buffer. -/
def readFileDataWith (flat chunked : Nat → ErofsInode → Nat → Nat → IoResult (List UInt8))
    (nid : Nat) (v : ErofsInode) (offset size : Nat) : IoResult (List UInt8) :=
  if offset ≥ v.size.toNat then pure []
  else
    let actualSize := min size (v.size.toNat - offset)
    let layout := v.dataLayout
    if layout = erofsInodeFlatPlain ∨ layout = erofsInodeFlatInline then
      flat nid v offset actualSize
    else if layout = erofsInodeChunkBased then chunked nid v offset actualSize
    else unsupportedLayout layout

def writeFileDataTo (r : ErofsReader) (nid : Nat) (v : ErofsInode) (offset size : Nat) :
    IoResult (List UInt8 × Nat) :=
  writeFileDataWith r.writeFlatDataTo r.writeChunkDataTo nid v offset size

def readFileDataSync (r : ErofsReader) (nid : Nat) (v : ErofsInode) (offset size : Nat) :
    IoResult (List UInt8) := readFileDataWith r.flatBytes r.readChunkDataSync nid v offset size

def readFileData (r : ErofsReader) (nid : Nat) (v : ErofsInode) (offset size : Nat) :
    IoResult (List UInt8) := readFileDataWith r.flatBytes r.readChunkDataAsync nid v offset size

end ErofsReader
end ErofsUtils.Fs
