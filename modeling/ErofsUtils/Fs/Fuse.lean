import ErofsUtils.Fs.Data

/-! # The FUSE file system

Requests name inodes by number; number 1 is the root, every other number is one
more than the NID. -/
namespace ErofsUtils.Fs
open ErofsUtils.Rust ErofsUtils.Bytes ErofsUtils.Metadata

def fuseRootId : Nat := 1

/-- Ten years, in seconds. -/
def erofsFuseTimeout : Nat := 86400 * 365 * 10

def sIfmt : UInt32 := 0o170000
def sIfchr : UInt32 := 0o020000
def sIfblk : UInt32 := 0o060000

def enoent : Nat := 2
def erange : Nat := 34
def enodata : Nat := 61

structure Stat64 where
  stIno : Nat
  stMode : UInt32
  stNlink : UInt32
  stSize : Int64
  stBlocks : Int64
  stUid : UInt32
  stGid : UInt32
  stAtime : Int64
  stMtime : Int64
  stCtime : Int64
  stAtimeNsec : UInt32
  stMtimeNsec : UInt32
  stCtimeNsec : UInt32
  stBlksize : Int64
  stRdev : UInt32
deriving DecidableEq

structure Entry where
  inode : Nat
  generation : Nat
  attr : Stat64
  attrFlags : Nat
  attrTimeout : Nat
  entryTimeout : Nat
deriving DecidableEq

inductive GetxattrReply where
  | count (n : UInt32)
  | value (bytes : List UInt8)
deriving DecidableEq

inductive ListxattrReply where
  | count (n : UInt32)
  | names (bytes : List UInt8)
deriving DecidableEq

structure ErofsFs where
  reader : ErofsReader

namespace ErofsFs

def toNid (fs : ErofsFs) (ino : Nat) : IoResult Nat :=
  if ino = fuseRootId then pure fs.reader.sb.rootNid else checkedSub ino fuseRootId

def toIno (fs : ErofsFs) (nid : Nat) : IoResult Nat :=
  if nid = fs.reader.sb.rootNid then pure fuseRootId else checkedAdd 64 nid fuseRootId

def makeStat (fs : ErofsFs) (nid : Nat) (v : ErofsInode) : IoResult Stat64 := do
  let ino ← fs.toIno nid
  let sb := fs.reader.sb
  let blockSize ← checkedShl 64 sb.blkszbits.toNat
  let mtime ← v.mtime sb.epoch
  let mtimeNsec := v.mtimeNsec
  let size := v.size.toNat
  let padded ← checkedSub (← checkedAdd 64 size blockSize) 1
  let mode := v.mode.toUInt32
  pure {
    stIno := ino
    stMode := mode
    stNlink := v.nlink
    stSize := v.size.toInt64
    stBlocks := (UInt64.ofNat (padded / blockSize * blockSize / 512)).toInt64
    stUid := v.uid
    stGid := v.gid
    stAtime := mtime.toInt64
    stMtime := mtime.toInt64
    stCtime := mtime.toInt64
    stAtimeNsec := mtimeNsec
    stMtimeNsec := mtimeNsec
    stCtimeNsec := mtimeNsec
    stBlksize := (UInt64.ofNat blockSize).toInt64
    stRdev := if mode &&& sIfmt = sIfchr ∨ mode &&& sIfmt = sIfblk then v.rdev else 0 }

def makeEntry (fs : ErofsFs) (nid : Nat) (v : ErofsInode) : IoResult Entry := do
  let ino ← fs.toIno nid
  let attr ← fs.makeStat nid v
  pure { inode := ino, generation := 0, attr, attrFlags := 0,
         attrTimeout := erofsFuseTimeout, entryTimeout := erofsFuseTimeout }

def iterateDir {σ : Type} (fs : ErofsFs) (inode : Nat) (cb : DirCallback σ) (s : σ) :
    IoResult σ := do
  let nid ← fs.toNid inode
  let vi ← fs.reader.inode nid
  fs.reader.forEachDirEntry nid vi cb s

/-- Stops at the first entry of that name. -/
def findName (target : List UInt8) : DirCallback (Option Nat) := fun found e =>
  if e.name = target then .ok (some e.nid, false) else .ok (found, true)

def lookup (fs : ErofsFs) (parent : Nat) (name : List UInt8) : IoResult Entry := do
  let found ← fs.iterateDir parent (findName name) none
  match found with
  | some childNid => do
    let childInode ← fs.reader.inode childNid
    fs.makeEntry childNid childInode
  | none => osError enoent

def getattr (fs : ErofsFs) (inode : Nat) : IoResult (Stat64 × Nat) := do
  let nid ← fs.toNid inode
  let vi ← fs.reader.inode nid
  let st ← fs.makeStat nid vi
  pure (st, erofsFuseTimeout)

def read (fs : ErofsFs) (inode size offset : Nat) : IoResult (List UInt8 × Nat) := do
  let nid ← fs.toNid inode
  let vi ← fs.reader.inode nid
  fs.reader.writeFileDataTo nid vi offset size

def readlink (fs : ErofsFs) (inode : Nat) : IoResult (List UInt8) := do
  let nid ← fs.toNid inode
  let vi ← fs.reader.inode nid
  fs.reader.readSymlink nid vi

/-- The reply of `getxattr` from the attributes of the inode. -/
def getxattrReply (name : List UInt8) (size : Nat) :
    List (List UInt8 × List UInt8) → IoResult GetxattrReply
  | [] => osError enodata
  | (xname, xvalue) :: rest =>
    if xname = name then
      if size = 0 then pure (.count (UInt32.ofNat xvalue.length))
      else if size < xvalue.length then osError erange
      else pure (.value xvalue)
    else getxattrReply name size rest

def getxattr (fs : ErofsFs) (inode : Nat) (name : List UInt8) (size : Nat) :
    IoResult GetxattrReply := do
  let nid ← fs.toNid inode
  let vi ← fs.reader.inode nid
  let xattrs ← fs.reader.readXattrs nid vi
  getxattrReply name size xattrs

/-- Every name, each followed by a NUL. -/
def namesBuf (xattrs : List (List UInt8 × List UInt8)) : List UInt8 :=
  xattrs.foldl (fun buf x => buf ++ x.1 ++ [0]) []

def listxattr (fs : ErofsFs) (inode size : Nat) : IoResult ListxattrReply := do
  let nid ← fs.toNid inode
  let vi ← fs.reader.inode nid
  let xattrs ← fs.reader.readXattrs nid vi
  let names := namesBuf xattrs
  if size = 0 then pure (.count (UInt32.ofNat names.length))
  else if size < names.length then osError erange
  else pure (.names names)

end ErofsFs
end ErofsUtils.Fs
