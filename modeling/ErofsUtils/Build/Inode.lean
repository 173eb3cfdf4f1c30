import ErofsUtils.Metadata.Inode
import ErofsUtils.Metadata.Records

/-! # In-memory inodes and their serialization -/
namespace ErofsUtils.Build
open ErofsUtils.Rust ErofsUtils.Bytes ErofsUtils.Metadata

structure ChunkIndex where
  blkaddr : Nat
  deviceId : UInt16
deriving DecidableEq

/-- A name in a directory and the inode it stands for. Names are their bytes. -/
structure DirEntry where
  name : List UInt8
  fileType : UInt8
  inodeIdx : Nat
deriving DecidableEq

inductive InodeData where
  | regularFile (chunkIndexes : List ChunkIndex)
  | directory (children : List DirEntry) (startblk dirDataSize parentNid : Nat)
  | symlink (target : List UInt8)
  | specialDev (rdev : UInt32)
  | specialNoData
deriving DecidableEq

/-- The children of a directory. -/
def InodeData.children : InodeData → List DirEntry
  | .directory children .. => children
  | _ => []

structure InodeInfo where
  mode : UInt16
  uid : UInt32
  gid : UInt32
  size : UInt64
  mtime : UInt64
  mtimeNsec : UInt32
  nlink : UInt32
  ino : UInt32
  nid : Nat := 0
  metaOffset : Nat := 0
  isExtended : Bool
  data : InodeData
  xattrs : List Xattr
deriving DecidableEq

def modeToFileType (mode : UInt16) : UInt8 :=
  let ft := mode &&& 0o170000
  if ft = 0o100000 then erofsFtRegFile
  else if ft = 0o040000 then erofsFtDir
  else if ft = 0o020000 then erofsFtChrdev
  else if ft = 0o060000 then erofsFtBlkdev
  else if ft = 0o010000 then erofsFtFifo
  else if ft = 0o140000 then erofsFtSock
  else if ft = 0o120000 then erofsFtSymlink
  else 0

/-- The choice of the extended format in `build_tree_recursive`. -/
def isExtendedFor (size : Nat) (uid gid nlink : UInt32) : Bool :=
  decide (size > 2 ^ 32 - 1) || decide (uid.toNat > 2 ^ 16 - 1) ||
    decide (gid.toNat > 2 ^ 16 - 1) || decide (nlink > 1)

/-- The size of the header that `isExtended` selects. -/
def InodeInfo.base (inode : InodeInfo) : Nat :=
  if inode.isExtended then erofsInodeExtendedSize else erofsInodeCompactSize

theorem InodeInfo.base_bounds (inode : InodeInfo) : 32 ≤ inode.base ∧ inode.base ≤ 64 ∧
    8 ∣ inode.base := by
  unfold InodeInfo.base
  split <;> decide

def inodeMetaSize (inode : InodeInfo) (_chunkbits _blkszbits : Nat) : Nat :=
  let base := inode.base
  let xattrSize := xattrIbodySize inode.xattrs
  match inode.data with
  | .regularFile chunkIndexes =>
    if chunkIndexes.isEmpty then base + xattrSize
    else base + xattrSize + chunkIndexes.length * erofsChunkIndexSize
  | .directory .. => base + xattrSize
  | .symlink target => base + xattrSize + target.length
  | .specialDev _ => base + xattrSize
  | .specialNoData => base + xattrSize

def chunkFormat (chunkbits blkszbits : Nat) : IoResult UInt16 := do
  let d ← checkedSub chunkbits blkszbits
  pure (erofsChunkFormatIndexes ||| UInt16.ofNat d)

/-- One entry: header, name suffix and value from `pos` on. -/
def serializeXattr (buf : List UInt8) (pos : Nat) (x : Xattr) : IoResult (List UInt8) := do
  let (index, suffix, value) := x
  let buf ← copyAt buf pos [UInt8.ofNat suffix.length]
  let buf ← copyAt buf (pos + 1) [index]
  let buf ← copyAt buf (pos + 2) (leBytes 2 value.length)
  let nameStart := pos + erofsXattrEntryHeaderSize
  let buf ← copyAt buf nameStart suffix
  let valueStart := nameStart + suffix.length
  copyAt buf valueStart value

def serializeXattrsFrom (buf : List UInt8) (pos : Nat) : List Xattr → IoResult (List UInt8)
  | [] => pure buf
  | x :: xs => do
    let buf ← serializeXattr buf pos x
    serializeXattrsFrom buf (pos + roundUp (xattrEntrySize x) 4) xs

/-- Returns the buffer and the number of bytes written. The body header stays zero. -/
def serializeXattrs (buf : List UInt8) (offset : Nat) (xattrs : List Xattr) :
    IoResult (List UInt8 × Nat) :=
  if xattrs.isEmpty then pure (buf, 0)
  else do
    let totalSize := xattrIbodySize xattrs
    let buf ← serializeXattrsFrom buf (offset + erofsXattrIbodyHeaderSize) xattrs
    pure (buf, totalSize)

/-- The header of either format, narrowed as the compact one requires. -/
def inodeHeader (inode : InodeInfo) (epoch : UInt64) (datalayout : UInt16) (nlink1 : Bool)
    (iNb : UInt16) (iSize : UInt64) (iU : UInt32) : ErofsInode :=
  if inode.isExtended then
    .extended (.new (extendedIFormat datalayout) inode.mode iNb iSize iU
      inode.ino inode.uid inode.gid inode.mtime inode.mtimeNsec inode.nlink)
  else
    let iMtime := (inode.mtime - epoch).toUInt32
    .compact (.new (compactIFormat datalayout nlink1) inode.mode iNb iSize.toUInt32 iMtime iU
      inode.ino inode.uid.toUInt16 inode.gid.toUInt16)

/-- Header and extended attributes at the front of the buffer. -/
def writeHeader (buf : List UInt8) (inode : InodeInfo) (hdr : ErofsInode) :
    IoResult (List UInt8) := do
  let buf ← copyAt buf 0 hdr.asBytes
  let (buf, _) ← serializeXattrs buf inode.base inode.xattrs
  pure buf

def writeChunkIndexes (buf : List UInt8) (extentOffset i : Nat) :
    List ChunkIndex → IoResult (List UInt8)
  | [] => pure buf
  | ci :: cis => do
    let idx := ErofsChunkIndex.new ci.blkaddr ci.deviceId
    let off := extentOffset + i * erofsChunkIndexSize
    let buf ← copyAt buf off idx.asBytes
    writeChunkIndexes buf extentOffset (i + 1) cis

/-- The `match` of `serializeInode`: the header of the kind, the extended attributes
and what follows them. -/
def serializeKind (buf : List UInt8) (inode : InodeInfo) (epoch : UInt64)
    (chunkbits blkszbits xattrSize : Nat) : IoResult (List UInt8) :=
  match inode.data with
  | .regularFile chunkIndexes => do
    let cf ← chunkFormat chunkbits blkszbits
    let hdr := inodeHeader inode epoch erofsInodeChunkBased true 0 inode.size cf.toUInt32
    let buf ← writeHeader buf inode hdr
    writeChunkIndexes buf (inode.base + xattrSize) 0 chunkIndexes
  | .directory _ startblk _ _ =>
    let startblkLo := UInt32.ofNat startblk
    let startblkHi := UInt16.ofNat (startblk >>> 32)
    writeHeader buf inode
      (inodeHeader inode epoch erofsInodeFlatPlain false startblkHi inode.size startblkLo)
  | .symlink target => do
    let inlineOff := inode.base + xattrSize
    let buf ← writeHeader buf inode
      (inodeHeader inode epoch erofsInodeFlatInline true 0 inode.size 0)
    copyAt buf inlineOff target
  | .specialDev rdev =>
    writeHeader buf inode (inodeHeader inode epoch erofsInodeFlatPlain true 0 0 rdev)
  | .specialNoData =>
    writeHeader buf inode (inodeHeader inode epoch erofsInodeFlatPlain true 0 0 0)

def serializeInode (inode : InodeInfo) (epoch : UInt64) (chunkbits : Nat) :
    IoResult (List UInt8) := do
  let blkszbits := erofsBlkszbits.toNat
  let metaSize := inodeMetaSize inode chunkbits blkszbits
  let xattrSize := xattrIbodySize inode.xattrs
  let iXattrIcount ← xattrIcount xattrSize
  let buf ← serializeKind (List.replicate metaSize 0) inode epoch chunkbits blkszbits xattrSize
  -- the count is patched over the header, which holds zero there
  if iXattrIcount > 0 then copyAt buf 2 (leBytes 2 iXattrIcount.toNat) else pure buf

/-! ## Reading a file's attributes -/

/-- What `listxattr` and `getxattr` return for a path: no list where the first call
fails, no value where the second does. -/
abbrev XattrSource := Option (List (List UInt8 × Option (List UInt8)))

def readXattrsFromPath (source : XattrSource) : List Xattr :=
  match source with
  | none => []
  | some names => names.filterMap fun (name, value) =>
    match erofsXattrNameSplit name with
    | none => none
    | some (index, suffix) => some (index, suffix, value.getD [])

end ErofsUtils.Build
