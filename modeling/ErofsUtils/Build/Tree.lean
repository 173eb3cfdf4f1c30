import ErofsUtils.Build.BlobChunk
import ErofsUtils.Store.Update
import ErofsUtils.Text.Utf8
import Mathlib.Data.List.Perm.Basic

/-! # Building the inode tree

A source path is given by what each call on it answers. Directories are walked in the order
of the names of their entries, a directory's inode standing in front of everything below it. -/
namespace ErofsUtils.Build
open ErofsUtils.Rust ErofsUtils.Bytes ErofsUtils.Metadata ErofsUtils.Store ErofsUtils.Text

/-- What `symlink_metadata` returns. -/
structure FileStat where
  mode : UInt32
  uid : UInt32
  gid : UInt32
  size : UInt64
  mtime : Int64
  mtimeNsec : Int64
  nlink : UInt64
  dev : UInt64
  ino : UInt64
  rdev : UInt64
deriving DecidableEq

namespace FileStat

def isDir (stat : FileStat) : Bool := stat.mode &&& 0o170000 == 0o040000
def isFile (stat : FileStat) : Bool := stat.mode &&& 0o170000 == 0o100000
def isSymlink (stat : FileStat) : Bool := stat.mode &&& 0o170000 == 0o120000

end FileStat

/-- A path of the source: its name as it is displayed, and what calls on it answer. `entries`
is what reading it as a directory lists, in the order of `read_dir`. -/
structure Source where
  path : String
  stat : IoResult FileStat
  xattrs : XattrSource
  readDir : IoResult Unit
  iterate : IoResult Unit
  entries : List (List UInt8 × Source)
  file : IoResult (List UInt8)
  link : IoResult (List UInt8)

/-- The order of file names is the order of their bytes. -/
def sortByFileName (entries : List (List UInt8 × Source)) : List (List UInt8 × Source) :=
  entries.mergeSort fun a b => !decide (b.1 < a.1)

theorem sortByFileName_perm (entries : List (List UInt8 × Source)) :
    (sortByFileName entries).Perm entries := List.mergeSort_perm _ _

theorem Source.sizeOf_entries (source : Source) :
    sizeOf (sortByFileName source.entries) < sizeOf source := by
  rw [(sortByFileName_perm source.entries).sizeOf_eq_sizeOf]
  cases source
  simp
  omega

structure TreeState where
  inodes : List InodeInfo
  inoCounter : Nat
  hardlinkMap : UInt64 × UInt64 → Option Nat
  blobWriter : BlobWriter

/-- `inodes.push(..)`: the index of the new inode. -/
def TreeState.push (st : TreeState) (inode : InodeInfo) : Nat × TreeState :=
  (st.inodes.length, { st with inodes := st.inodes ++ [inode] })

def TreeState.link (st : TreeState) (key : UInt64 × UInt64) (idx : Nat) : TreeState :=
  { st with hardlinkMap := fun k => if k = key then some idx else st.hardlinkMap k }

/-- An inode with what the metadata of its path says. -/
def FileStat.inode (stat : FileStat) (ino : Nat) (size : UInt64) (data : InodeData)
    (xattrs : List Xattr) : InodeInfo :=
  { mode := stat.mode.toUInt16
    uid := stat.uid
    gid := stat.gid
    size
    mtime := stat.mtime.toUInt64
    mtimeNsec := stat.mtimeNsec.toUInt64.toUInt32
    nlink := stat.nlink.toUInt32
    ino := UInt32.ofNat ino
    isExtended := isExtendedFor stat.size.toNat stat.uid stat.gid stat.nlink.toUInt32
    data
    xattrs }

/-- The format that is chosen for the path. -/
def extendedStat (stat : FileStat) : Bool :=
  isExtendedFor stat.size.toNat stat.uid stat.gid stat.nlink.toUInt32

def InodeInfo.setChildren (children : List DirEntry) (inode : InodeInfo) : InodeInfo :=
  match inode.data with
  | .directory _ startblk dirDataSize parentNid =>
    { inode with data := .directory children startblk dirDataSize parentNid }
  | _ => inode

/-- More than one name, and no directory. -/
def FileStat.isHardlinked (stat : FileStat) : Bool := !stat.isDir && decide (stat.nlink > 1)

def FileStat.key (stat : FileStat) : UInt64 × UInt64 := (stat.dev, stat.ino)

variable (hash : List UInt8 → Digest)

mutual

/-- Returns the index of the path's inode. -/
def buildTreeRecursive (source : Source) (st : TreeState) : BuildResult (Nat × TreeState) := do
  let stat ← withContext s!"failed to stat: {source.path}" source.stat
  let ino ← checkedAdd 32 st.inoCounter 1
  let st := { st with inoCounter := ino }
  let xattrs := readXattrsFromPath source.xattrs
  if stat.isDir then do
    let (inodeIdx, st) := st.push (stat.inode ino 0 (.directory [] 0 0 0) xattrs)
    let _ ← withContext s!"failed to read directory: {source.path}" source.readDir
    let _ ← withContext s!"failed to iterate directory: {source.path}" source.iterate
    let (children, st) ← buildEntries (sortByFileName source.entries) st
    let inodes ← updateAt st.inodes inodeIdx (InodeInfo.setChildren children)
    pure (inodeIdx, { st with inodes })
  else if stat.isFile then do
    let (chunkIndexes, blobWriter) ←
      st.blobWriter.writeFileChunks hash source.path source.file stat.size.toNat
    let st := { st with blobWriter }
    pure (st.push (stat.inode ino stat.size (.regularFile chunkIndexes) xattrs))
  else if stat.isSymlink then do
    let target ← withContext s!"failed to read symlink: {source.path}" source.link
    let size := UInt64.ofNat target.length
    pure (st.push (stat.inode ino size (.symlink target) xattrs))
  else
    let mode := stat.mode.toUInt16
    let isDev := mode &&& 0o170000 = 0o020000 ∨ mode &&& 0o170000 = 0o060000
    let data := if isDev then .specialDev stat.rdev.toUInt32 else .specialNoData
    pure (st.push (stat.inode ino 0 data xattrs))
termination_by sizeOf source
decreasing_by exact source.sizeOf_entries

/-- The loop over the sorted entries of a directory: the children recorded for them. -/
def buildEntries (entries : List (List UInt8 × Source)) (st : TreeState) :
    BuildResult (List DirEntry × TreeState) :=
  match entries with
  | [] => pure ([], st)
  | (fileName, child) :: entries => do
    let stat ← withContext s!"failed to stat: {child.path}" child.stat
    let name := toStringLossy fileName
    let fileType := modeToFileType stat.mode.toUInt16
    let existing := if stat.isHardlinked then st.hardlinkMap stat.key else none
    let (inodeIdx, st) ←
      (match existing with
        | some existingIdx => pure (existingIdx, st)
        | none => do
          let (childIdx, st) ← buildTreeRecursive child st
          pure (childIdx, if stat.isHardlinked then st.link stat.key childIdx else st))
    let (children, st) ← buildEntries entries st
    pure ({ name, fileType, inodeIdx } :: children, st)
termination_by sizeOf entries
decreasing_by
  all_goals simp; try omega

end

/-- The inodes in the order of the walk, the root first. -/
def buildTree (source : Source) (blobWriter : BlobWriter) :
    BuildResult (List InodeInfo × BlobWriter) := do
  let st : TreeState := { inodes := [], inoCounter := 0, hardlinkMap := fun _ => none, blobWriter }
  let (_, st) ← buildTreeRecursive hash source st
  pure (st.inodes, st.blobWriter)

/-! ## What the walk records -/

variable {hash}

def Source.isDir (source : Source) : Bool :=
  match source.stat with
  | .ok stat => stat.isDir
  | .error _ => false

/-- The inode has the metadata of the path. -/
def InodeInfo.IsOf (source : Source) (inode : InodeInfo) : Prop :=
  ∃ stat ino size data, source.stat = .ok stat ∧
    inode = stat.inode ino size data (readXattrsFromPath source.xattrs)

theorem InodeInfo.IsOf.setChildren {source : Source} {inode : InodeInfo} (h : inode.IsOf source)
    (children : List DirEntry) : (inode.setChildren children).IsOf source := by
  obtain ⟨stat, ino, size, data, hstat, rfl⟩ := h
  cases data with
  | directory _ startblk dirDataSize parentNid =>
    exact ⟨stat, ino, size, .directory children startblk dirDataSize parentNid, hstat, rfl⟩
  | regularFile | symlink | specialDev | specialNoData => exact ⟨_, _, _, _, hstat, rfl⟩

def MadeFrom (inodes : List InodeInfo) (source : Source) (idx : Nat) : Prop :=
  ∃ inode, inodes[idx]? = some inode ∧ inode.IsOf source

/-- Two paths of one file. -/
def SameFile (source other : Source) : Prop :=
  ∃ stat stat', source.stat = .ok stat ∧ other.stat = .ok stat' ∧ stat.key = stat'.key

/-- The inode at `idx` is that of the file: made from this path or from another one of it. -/
def FileAt (inodes : List InodeInfo) (source : Source) (idx : Nat) : Prop :=
  ∃ other, MadeFrom inodes other idx ∧ (other = source ∨ SameFile source other)

/-- The child recorded for an entry of a source directory. -/
structure EntryOf (inodes : List InodeInfo) (e : List UInt8 × Source) (de : DirEntry) : Prop where
  name : de.name = toStringLossy e.1
  fileType : ∃ stat, e.2.stat = .ok stat ∧ de.fileType = modeToFileType stat.mode.toUInt16
  file : FileAt inodes e.2 de.inodeIdx

theorem names_of_entries {inodes : List InodeInfo} {entries : List (List UInt8 × Source)}
    {children : List DirEntry} (h : List.Forall₂ (EntryOf inodes) entries children) :
    children.map DirEntry.name = entries.map fun e => toStringLossy e.1 := by
  induction h with
  | nil => rfl
  | cons he _ ih => rw [List.map_cons, List.map_cons, he.name, ih]

/-- The inode at `idx` is that of the directory: its children are the entries in sorted order,
and those that are directories are recorded behind it. -/
inductive Recorded (inodes : List InodeInfo) : Source → Nat → Prop
  | dir {source : Source} {idx : Nat} {inode : InodeInfo} (hi : inodes[idx]? = some inode)
      (hentries : List.Forall₂ (EntryOf inodes) (sortByFileName source.entries)
        inode.data.children)
      (hbehind : ∀ (k : Nat) (e : List UInt8 × Source) (de : DirEntry),
        (sortByFileName source.entries)[k]? = some e → inode.data.children[k]? = some de →
          e.2.isDir = true → idx < de.inodeIdx)
      (hsub : ∀ (k : Nat) (e : List UInt8 × Source) (de : DirEntry),
        (sortByFileName source.entries)[k]? = some e → inode.data.children[k]? = some de →
          e.2.isDir = true → Recorded inodes e.2 de.inodeIdx) :
      Recorded inodes source idx

theorem isDir_of_ok {source : Source} {stat : FileStat} (h : source.stat = .ok stat) :
    source.isDir = stat.isDir := by rw [Source.isDir, h]

theorem isHardlinked_of_isDir {stat : FileStat} (h : stat.isDir = true) :
    stat.isHardlinked = false := by rw [FileStat.isHardlinked, h]; rfl

/-- The inode of one entry: one that another name has, or that of a recursive call. -/
def entryInode (hash : List UInt8 → Digest) (stat : FileStat) (child : Source) (st : TreeState) :
    BuildResult (Nat × TreeState) :=
  match if stat.isHardlinked then st.hardlinkMap stat.key else none with
  | some existingIdx => pure (existingIdx, st)
  | none => do
    let (childIdx, st) ← buildTreeRecursive hash child st
    pure (childIdx, if stat.isHardlinked then st.link stat.key childIdx else st)

theorem sizeOf_entry_lt {source : Source} {e : List UInt8 × Source}
    (he : e ∈ sortByFileName source.entries) : sizeOf e.2 < sizeOf source := by
  have hmem := List.sizeOf_lt_of_mem he
  have hentries := source.sizeOf_entries
  obtain ⟨fileName, child⟩ := e
  simp only [Prod.mk.sizeOf_spec] at hmem
  show sizeOf child < sizeOf source
  omega

/-! ## Directories of a tree -/

/-- The directories of the tree below `source`. -/
inductive Within (source : Source) : Source → Prop
  | root : Within source source
  | entry {dir : Source} {e : List UInt8 × Source} (h : Within source dir) (he : e ∈ dir.entries)
      (hdir : e.2.isDir = true) : Within source e.2

/-- Following the entries from the root leads to the directory and to its inode. -/
inductive RecordedAs (inodes : List InodeInfo) (source : Source) : Source → Nat → Prop
  | root : RecordedAs inodes source source 0
  | entry {dir : Source} {idx k : Nat} {inode : InodeInfo} {e : List UInt8 × Source} {de : DirEntry}
      (h : RecordedAs inodes source dir idx) (hi : inodes[idx]? = some inode)
      (he : (sortByFileName dir.entries)[k]? = some e) (hde : inode.data.children[k]? = some de)
      (hdir : e.2.isDir = true) : RecordedAs inodes source e.2 de.inodeIdx

theorem RecordedAs.recorded {inodes : List InodeInfo} {source dir : Source} {idx : Nat}
    (h : RecordedAs inodes source dir idx) (hroot : Recorded inodes source 0) :
    Recorded inodes dir idx := by
  induction h with
  | root => exact hroot
  | @entry dir idx k inode e de _ hi he hde hdir ih =>
    obtain ⟨hi', -, -, hsub⟩ := ih
    rw [hi] at hi'
    cases hi'
    exact hsub k e de he hde hdir

/-- Every directory of the tree has its inode. -/
theorem Within.recordedAs {inodes : List InodeInfo} {source dir : Source} (h : Within source dir)
    (hroot : Recorded inodes source 0) : ∃ idx, RecordedAs inodes source dir idx := by
  induction h with
  | root => exact ⟨0, .root⟩
  | @entry dir e _ he hdir ih =>
    obtain ⟨idx, hat⟩ := ih
    obtain ⟨hi, hentries, -, -⟩ := hat.recorded hroot
    obtain ⟨k, hk⟩ := List.mem_iff_getElem?.mp ((sortByFileName_perm dir.entries).mem_iff.mpr he)
    have hlt := hentries.length_eq ▸ (List.getElem?_eq_some_iff.mp hk).1
    exact ⟨_, .entry hat hi hk (List.getElem?_eq_getElem hlt) hdir⟩

end ErofsUtils.Build
