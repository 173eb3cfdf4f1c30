import ErofsUtils.Build.Dir
import ErofsUtils.Build.Image
import ErofsUtils.Build.InodeBytes
import ErofsUtils.Metadata.Layout
import ErofsUtils.Store.Update

/-! # Laying out the inodes and writing the image

Inodes get their slots first, in the order of the list. Then the directories learn their
parents, their data is packed and placed behind the slots, and the inodes are serialized
into their slots. -/
namespace ErofsUtils.Build
open ErofsUtils.Rust ErofsUtils.Bytes ErofsUtils.Metadata ErofsUtils.Store

/-! ## Chunk size -/

/-- `chunksize.is_power_of_two()`. -/
def isPowerOfTwo (n : Nat) : Bool := n == 2 ^ Nat.log2 n

/-- Returns the number of trailing zeros. -/
def validateChunksize (chunksize : UInt32) : BuildResult Nat :=
  if chunksize.toNat < erofsBlockSize then
    fail (.bail s!"chunksize {chunksize} must be >= block size {erofsBlockSize}")
  else if ¬ isPowerOfTwo chunksize.toNat then
    fail (.bail s!"chunksize {chunksize} must be a power of two")
  else pure (Nat.log2 chunksize.toNat)

/-- The sizes accepted are the powers of two from a block on. -/
theorem validateChunksize_eq_ok {chunksize : UInt32} {chunkbits : Nat} :
    validateChunksize chunksize = .ok chunkbits ↔
      12 ≤ chunkbits ∧ chunksize.toNat = 2 ^ chunkbits := by
  unfold validateChunksize isPowerOfTwo
  have hbs : erofsBlockSize = 2 ^ 12 := rfl
  constructor
  · intro h
    split at h
    · cases h
    · rename_i hle
      split at h
      · cases h
      · rename_i hpow
        cases h
        have hpow := eq_of_beq (not_not.mp hpow)
        exact ⟨(Nat.le_log2 (by omega)).mpr (hbs ▸ Nat.not_lt.mp hle), hpow⟩
  · rintro ⟨hle, hpow⟩
    have hblock : 2 ^ 12 ≤ 2 ^ chunkbits := Nat.pow_le_pow_right (by decide) hle
    rw [hpow, Nat.log2_two_pow, if_neg (by omega), if_neg (by simp)]
    rfl

/-! ## Inode slots -/

def InodeInfo.place (off nid : Nat) (inode : InodeInfo) : InodeInfo :=
  { inode with metaOffset := off, nid }

def allocInodes (layout : MetadataLayout) (chunkbits blkszbits : Nat) :
    List InodeInfo → List InodeInfo × MetadataLayout
  | [] => ([], layout)
  | inode :: inodes =>
    let metaSize := inodeMetaSize inode chunkbits blkszbits
    let ((offset, nid), layout) := layout.allocInode metaSize
    let (inodes, layout) := allocInodes layout chunkbits blkszbits inodes
    (inode.place offset nid :: inodes, layout)

/-! ## Parents -/

def InodeInfo.setParentNid (parentNid : Nat) (inode : InodeInfo) : InodeInfo :=
  match inode.data with
  | .directory children startblk dirDataSize _ =>
    { inode with data := .directory children startblk dirDataSize parentNid }
  | _ => inode

/-- A directory's NID and the inodes of its subdirectories, unless it has none. -/
def childDirs (inode : InodeInfo) : Option (Nat × List Nat) :=
  match inode.data with
  | .directory children .. =>
    let childDirIdxs :=
      (children.filter fun de => de.fileType = erofsFtDir).map DirEntry.inodeIdx
    if childDirIdxs.isEmpty then none else some (inode.nid, childDirIdxs)
  | _ => none

def setParents (inodes : List InodeInfo) (parentNid : Nat) :
    List Nat → IoResult (List InodeInfo)
  | [] => pure inodes
  | childIdx :: childIdxs => do
    let inodes ← updateAt inodes childIdx (InodeInfo.setParentNid parentNid)
    setParents inodes parentNid childIdxs

def setParentsAll (inodes : List InodeInfo) : List (Nat × List Nat) → IoResult (List InodeInfo)
  | [] => pure inodes
  | (parentNid, childIdxs) :: dirInfos => do
    let inodes ← setParents inodes parentNid childIdxs
    setParentsAll inodes dirInfos

def setParentNids (inodes : List InodeInfo) : IoResult (List InodeInfo) := do
  let root ← getAt inodes 0
  let inodes ← updateAt inodes 0 (InodeInfo.setParentNid root.nid)
  let dirInfos := inodes.filterMap childDirs
  setParentsAll inodes dirInfos

/-! ## Directory data -/

/-- A directory that is to be stored. -/
structure DirInfo where
  idx : Nat
  children : List DirChild
  selfNid : Nat
  parentNid : Nat

/-- The entries with the NIDs of their inodes. -/
def dirChildren (inodes : List InodeInfo) : List DirEntry → IoResult (List DirChild)
  | [] => pure []
  | de :: des => do
    let child ← getAt inodes de.inodeIdx
    let children ← dirChildren inodes des
    pure ({ name := de.name, nid := child.nid, fileType := de.fileType } :: children)

/-- The directories from inode `idx` on. -/
def dirInfosFrom (inodes : List InodeInfo) (idx : Nat) : List InodeInfo → IoResult (List DirInfo)
  | [] => pure []
  | inode :: rest =>
    match inode.data with
    | .directory children _ _ parentNid => do
      let children ← dirChildren inodes children
      let infos ← dirInfosFrom inodes (idx + 1) rest
      pure ({ idx, children, selfNid := inode.nid, parentNid } :: infos)
    | _ => dirInfosFrom inodes (idx + 1) rest

def InodeInfo.setDirData (startblk len : Nat) (inode : InodeInfo) : InodeInfo :=
  let size := UInt64.ofNat len
  match inode.data with
  | .directory children _ _ parentNid =>
    { inode with data := .directory children startblk len parentNid, size }
  | _ => { inode with size }

def storeDir (layout : MetadataLayout) (inodes : List InodeInfo) (info : DirInfo) :
    IoResult (MetadataLayout × List InodeInfo) := do
  let dirData ← serializeDirectory info.children info.selfNid info.parentNid
  let dirDataLen := dirData.length
  let ((dataOffset, startblk), layout) := layout.allocDirData dirDataLen
  let layout ← layout.writeAt dataOffset dirData
  let inodes ← updateAt inodes info.idx (InodeInfo.setDirData startblk dirDataLen)
  pure (layout, inodes)

def storeDirs (layout : MetadataLayout) (inodes : List InodeInfo) :
    List DirInfo → IoResult (MetadataLayout × List InodeInfo)
  | [] => pure (layout, inodes)
  | info :: infos => do
    let (layout, inodes) ← storeDir layout inodes info
    storeDirs layout inodes infos

/-! ## Inodes and the image -/

def storeInodes (layout : MetadataLayout) (epoch : UInt64) (chunkbits : Nat) :
    List InodeInfo → IoResult MetadataLayout
  | [] => pure layout
  | inode :: inodes => do
    let inodeBytes ← serializeInode inode epoch chunkbits
    let layout ← layout.writeAt inode.metaOffset inodeBytes
    storeInodes layout epoch chunkbits inodes

/-- The inodes as they are stored, and the metadata area. -/
def layOut (inodes : List InodeInfo) (epoch : UInt64) (chunkbits : Nat) :
    IoResult (List InodeInfo × MetadataLayout) := do
  let blkszbits := erofsBlkszbits.toNat
  let (inodes, layout) := allocInodes .new chunkbits blkszbits inodes
  let inodes ← setParentNids inodes
  let (_, layout) := layout.padToBlock
  let dirInfos ← dirInfosFrom inodes 0 inodes
  let (layout, inodes) ← storeDirs layout inodes dirInfos
  let layout ← storeInodes layout epoch chunkbits inodes
  pure (inodes, layout)

/-- Phases 2 and 3 of a build. -/
def writeTree (image : Device) (inodes : List InodeInfo) (epoch : UInt64) (chunkbits blobBlocks : Nat)
    (uuid : Vector UInt8 16) : BuildResult Device := do
  let totalInodes := UInt64.ofNat inodes.length
  let (inodes, layout) ← liftIo (layOut inodes epoch chunkbits)
  let root ← getAt inodes 0
  let rootNid := root.nid
  if ¬ rootNid ≤ 2 ^ 16 - 1 then abort (.assertion "root NID exceeds 16-bit range")
  else writeImage image layout.buf (UInt16.ofNat rootNid) totalInodes epoch blobBlocks uuid

end ErofsUtils.Build
