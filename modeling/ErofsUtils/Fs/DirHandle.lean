import ErofsUtils.Fs.Fuse

/-! # Directory handles

An open directory is a handle: a number under which a shared table keeps the entries that
were read when it was opened. The table and the counter that numbers the handles are
reached in single atomic steps, from any number of calls at once. -/
namespace ErofsUtils.Fs
open ErofsUtils.Rust ErofsUtils.Bytes ErofsUtils.Metadata

def sIfdir : UInt32 := 0o040000

def ebadf : Nat := 9
def enotdir : Nat := 20

def erofsFtToDt (ft : UInt8) : UInt32 :=
  if ft = erofsFtRegFile then 8
  else if ft = erofsFtDir then 4
  else if ft = erofsFtChrdev then 2
  else if ft = erofsFtBlkdev then 6
  else if ft = erofsFtFifo then 1
  else if ft = erofsFtSock then 12
  else if ft = erofsFtSymlink then 10
  else 0

structure DirHandle where
  entries : List CachedDirEntry
deriving DecidableEq

structure FuseDirEntry where
  ino : Nat
  offset : Nat
  type : UInt32
  name : List UInt8
deriving DecidableEq

/-- The shared state: the table of open directories and the next handle. -/
structure DirHandles where
  dirHandles : Nat → Option DirHandle
  nextDirHandle : Nat

namespace DirHandles

def new : DirHandles := { dirHandles := fun _ => none, nextDirHandle := 1 }

/-- `fetch_add(1)`: the handle taken and the state behind it. -/
def fetchAdd (st : DirHandles) : Nat × DirHandles :=
  (st.nextDirHandle, { st with nextDirHandle := (st.nextDirHandle + 1) % 2 ^ 64 })

def insert (st : DirHandles) (handle : Nat) (d : DirHandle) : DirHandles :=
  { st with dirHandles := fun h => if h = handle then some d else st.dirHandles h }

def remove (st : DirHandles) (handle : Nat) : DirHandles :=
  { st with dirHandles := fun h => if h = handle then none else st.dirHandles h }

end DirHandles

/-- A reply buffer of state `σ` takes a value and answers how many bytes it took. -/
abbrev AddEntry (σ α : Type) := σ → α → Except IoError (σ × Nat)

namespace ErofsFs

def readDirEntries (fs : ErofsFs) (inode : Nat) : IoResult (List CachedDirEntry) := do
  let nid ← fs.toNid inode
  let vi ← fs.reader.inode nid
  fs.reader.readDirCached nid vi

def createDirHandle (fs : ErofsFs) (st : DirHandles) (inode : Nat) : IoResult (Nat × DirHandles) := do
  let entries ← fs.readDirEntries inode
  let (handle, st) := st.fetchAdd
  pure (handle, st.insert handle { entries })

def getDirHandle (st : DirHandles) (handle : Nat) : IoResult DirHandle :=
  match st.dirHandles handle with
  | some d => pure d
  | none => osError ebadf

/-- The inode of a request is a directory. -/
def checkDir (fs : ErofsFs) (inode : Nat) : IoResult Unit := do
  let nid ← fs.toNid inode
  let vi ← fs.reader.inode nid
  if vi.mode.toUInt32 &&& sIfmt ≠ sIfdir then osError enotdir else pure ()

def opendir (fs : ErofsFs) (st : DirHandles) (inode : Nat) : IoResult (Nat × DirHandles) := do
  fs.checkDir inode
  fs.createDirHandle st inode

/-- Offers the entries from index `idx` on until the buffer takes none. -/
def addEntries {σ α : Type} (value : Nat → CachedDirEntry → IoResult α) (add : AddEntry σ α) :
    (idx : Nat) → List CachedDirEntry → σ → IoResult σ
  | _, [], s => pure s
  | idx, e :: rest, s => do
    let x ← value idx e
    match add s x with
    | .error e => fail e
    | .ok (s, 0) => pure s
    | .ok (s, _) => addEntries value add (idx + 1) rest s

/-- What `readdir` offers for entry `idx`. -/
def dirEntry (fs : ErofsFs) (idx : Nat) (e : CachedDirEntry) : IoResult FuseDirEntry := do
  let ino ← fs.toIno e.nid
  pure { ino, offset := idx + 1, type := erofsFtToDt e.fileType, name := e.name }

/-- What `readdirplus` offers for entry `idx`. -/
def dirEntryPlus (fs : ErofsFs) (idx : Nat) (e : CachedDirEntry) :
    IoResult (FuseDirEntry × Entry) := do
  let childInode ← fs.reader.inode e.nid
  let fuseEntry ← fs.makeEntry e.nid childInode
  let dirEntry ← fs.dirEntry idx e
  pure (dirEntry, fuseEntry)

def readdir {σ : Type} (fs : ErofsFs) (st : DirHandles) (handle offset : Nat)
    (add : AddEntry σ FuseDirEntry) (s : σ) : IoResult σ := do
  let dirHandle ← getDirHandle st handle
  addEntries fs.dirEntry add offset (dirHandle.entries.drop offset) s

def readdirplus {σ : Type} (fs : ErofsFs) (st : DirHandles) (handle offset : Nat)
    (add : AddEntry σ (FuseDirEntry × Entry)) (s : σ) : IoResult σ := do
  let dirHandle ← getDirHandle st handle
  addEntries fs.dirEntryPlus add offset (dirHandle.entries.drop offset) s

def releasedir (st : DirHandles) (handle : Nat) : DirHandles := st.remove handle

end ErofsFs
end ErofsUtils.Fs
