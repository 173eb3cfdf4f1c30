import ErofsUtils.Fs.Listing
import ErofsUtils.Fs.Numbers
import ErofsUtils.Refine.Session

/-! # The server

Every request that the file system is asked, and its reply. The table of open directories is
all that a request changes; requests to change files are refused. -/
namespace ErofsUtils.Fs
open ErofsUtils.Rust ErofsUtils.Bytes ErofsUtils.Metadata ErofsUtils.Refine

def eisdir : Nat := 21
def erofs : Nat := 30

def sIfreg : UInt32 := 0o100000
def oWronly : UInt32 := 1
def oRdwr : UInt32 := 2

structure Statvfs64 where
  fBsize : Nat
  fFrsize : Nat
  fBlocks : Nat
  fFiles : Nat
  fNamemax : Nat
deriving DecidableEq

namespace ErofsFs

/-- `open`: the handle of a file is its NID. -/
def openFile (fs : ErofsFs) (inode : Nat) (flags : UInt32) : IoResult Nat :=
  if flags &&& (oWronly ||| oRdwr) ≠ 0 then osError erofs
  else do
    let nid ← fs.toNid inode
    let vi ← fs.reader.inode nid
    if vi.mode.toUInt32 &&& sIfmt ≠ sIfreg then osError eisdir else pure nid

def statfs (fs : ErofsFs) : IoResult Statvfs64 := do
  let sb := fs.reader.sb
  let blockSize ← checkedShl 64 sb.blkszbits.toNat
  pure { fBsize := blockSize, fFrsize := blockSize, fBlocks := sb.blocks, fFiles := sb.inos.toNat
         fNamemax := 255 }

/-- The data are read first, and written then as a whole. -/
def asyncRead (fs : ErofsFs) (inode size offset : Nat) : IoResult (List UInt8 × Nat) := do
  let nid ← fs.toNid inode
  let vi ← fs.reader.inode nid
  let data ← fs.reader.readFileDataSync nid vi offset size
  pure (data, data.length)

/-- `async_setattr`, `async_create`, `async_write` and `async_fallocate`. -/
def refuseChange {α : Type} : IoResult α := osError erofs

end ErofsFs

/-! ## Requests and replies -/

/-- The room for the reply of a listing: how many bytes a value takes behind those that were
accepted, none if it does not fit. -/
structure ReplySpace (α : Type) where
  bytes : List α → α → Nat
  takesOne : ∀ x, bytes [] x ≠ 0

def ReplySpace.buffer {α : Type} (space : ReplySpace α) : ReplyBuffer α where
  σ := List α
  start := []
  add := fun l x => .ok (l ++ [x], space.bytes l x)
  takesOne := fun x _ h => space.takesOne x (congrArg Prod.snd (Except.ok.inj h))
  noError := fun _ _ _ h => by cases h

/-- A request that names inodes by values of `ι`. -/
inductive Request (ι : Type) where
  | lookup (parent : ι) (name : List UInt8)
  | forget (inode : ι)
  | getattr (inode : ι)
  | openFile (inode : ι) (flags : UInt32)
  | release (inode : ι)
  | read (inode : ι) (size offset : Nat)
  | asyncRead (inode : ι) (size offset : Nat)
  | readlink (inode : ι)
  | opendir (inode : ι)
  | readdir (handle offset : Nat) (space : ReplySpace FuseDirEntry)
  | readdirplus (handle offset : Nat) (space : ReplySpace (FuseDirEntry × Entry))
  | releasedir (handle : Nat)
  | statfs
  | access (inode : ι) (mask : UInt32)
  | getxattr (inode : ι) (name : List UInt8) (size : Nat)
  | listxattr (inode : ι) (size : Nat)
  | asyncFsync (inode : ι)
  | change (inode : ι)

/-- The same request with other names for the inodes. -/
def Request.map {ι κ : Type} (f : ι → κ) : Request ι → Request κ
  | .lookup parent name => .lookup (f parent) name
  | .forget inode => .forget (f inode)
  | .getattr inode => .getattr (f inode)
  | .openFile inode flags => .openFile (f inode) flags
  | .release inode => .release (f inode)
  | .read inode size offset => .read (f inode) size offset
  | .asyncRead inode size offset => .asyncRead (f inode) size offset
  | .readlink inode => .readlink (f inode)
  | .opendir inode => .opendir (f inode)
  | .readdir handle offset space => .readdir handle offset space
  | .readdirplus handle offset space => .readdirplus handle offset space
  | .releasedir handle => .releasedir handle
  | .statfs => .statfs
  | .access inode mask => .access (f inode) mask
  | .getxattr inode name size => .getxattr (f inode) name size
  | .listxattr inode size => .listxattr (f inode) size
  | .asyncFsync inode => .asyncFsync (f inode)
  | .change inode => .change (f inode)

inductive Reply where
  | entry (e : Entry)
  | attr (st : Stat64) (timeout : Nat)
  | opened (handle : Nat)
  | data (bytes : List UInt8) (count : Nat)
  | target (bytes : List UInt8)
  | listed (page : List FuseDirEntry)
  | listedPlus (page : List (FuseDirEntry × Entry))
  | statvfs (st : Statvfs64)
  | xattr (reply : GetxattrReply)
  | xattrs (reply : ListxattrReply)
  | done

namespace ErofsFs

/-- The reply, and the open directories behind it. -/
def serveRequest (fs : ErofsFs) : Server DirHandles (Request Nat) (IoResult Reply) := fun st q =>
  match q with
  | .lookup parent name => (st, .entry <$> fs.lookup parent name)
  | .getattr inode => (st, (fun r => .attr r.1 r.2) <$> fs.getattr inode)
  | .openFile inode flags => (st, .opened <$> fs.openFile inode flags)
  | .read inode size offset => (st, (fun r => .data r.1 r.2) <$> fs.read inode size offset)
  | .asyncRead inode size offset => (st, (fun r => .data r.1 r.2) <$> fs.asyncRead inode size offset)
  | .readlink inode => (st, .target <$> fs.readlink inode)
  | .opendir inode =>
    match fs.opendir st inode with
    | .ok (handle, st) => (st, pure (.opened handle))
    | .error e => (st, .error e)
  | .readdir handle offset space => (st, (fun r => .listed r.2) <$>
      fs.readdir st handle offset space.buffer.logged (space.buffer.start, []))
  | .readdirplus handle offset space => (st, (fun r => .listedPlus r.2) <$>
      fs.readdirplus st handle offset space.buffer.logged (space.buffer.start, []))
  | .releasedir handle => (releasedir st handle, pure .done)
  | .statfs => (st, .statvfs <$> fs.statfs)
  | .getxattr inode name size => (st, .xattr <$> fs.getxattr inode name size)
  | .listxattr inode size => (st, .xattrs <$> fs.listxattr inode size)
  | .change _ => (st, refuseChange)
  | .forget _ | .release _ | .access .. | .asyncFsync _ => (st, pure .done)

/-! ## One call in terms of another -/

variable {fs : ErofsFs} {st : DirHandles} {inode handle offset idx : Nat} {stat : Stat64}
  {timeout : Nat} {entries : List CachedDirEntry} {name : List UInt8} {e : CachedDirEntry}

/-- The mode reported is that of the inode. -/
theorem mode_of_getattr (h : fs.getattr inode = .ok (stat, timeout)) : ∃ nid vi,
    fs.toNid inode = .ok nid ∧ fs.reader.inode nid = .ok vi ∧ vi.mode.toUInt32 = stat.stMode := by
  obtain ⟨nid, hnid, h⟩ := bind_eq_ok.mp h
  obtain ⟨vi, hvi, h⟩ := bind_eq_ok.mp h
  obtain ⟨st, hst, h⟩ := bind_eq_ok.mp h
  cases h
  refine ⟨nid, vi, hnid, hvi, ?_⟩
  simp only [makeStat, bind_eq_ok] at hst
  obtain ⟨_, -, _, -, _, -, _, -, _, -, hst⟩ := hst
  cases hst
  rfl

theorem checkDir_of_getattr (h : fs.getattr inode = .ok (stat, timeout)) :
    fs.checkDir inode = if stat.stMode &&& sIfmt ≠ sIfdir then osError enotdir else pure () := by
  obtain ⟨nid, vi, hnid, hvi, hmode⟩ := mode_of_getattr h
  rw [checkDir, hnid, bind_ok, hvi, bind_ok, hmode]

theorem openFile_of_getattr (h : fs.getattr inode = .ok (stat, timeout)) (flags : UInt32) :
    ∃ nid, fs.openFile inode flags =
      if flags &&& (oWronly ||| oRdwr) ≠ 0 then osError erofs
      else if stat.stMode &&& sIfmt ≠ sIfreg then osError eisdir else pure nid := by
  obtain ⟨nid, vi, hnid, hvi, hmode⟩ := mode_of_getattr h
  refine ⟨nid, ?_⟩
  rw [openFile, hnid, bind_ok, hvi, bind_ok, hmode]

/-- A lookup in a directory that can be listed finds the first entry of the name. -/
theorem lookup_of_listed (hread : fs.readDirEntries inode = .ok entries) (name : List UInt8) :
    fs.lookup inode name = match entries.find? fun e => e.name = name with
      | some e => fs.reader.inode e.nid >>= fs.makeEntry e.nid
      | none => osError enoent := by
  simp only [readDirEntries, bind_eq_ok] at hread
  obtain ⟨nid, hnid, vi, hvi, hcached⟩ := hread
  have hscan : fs.reader.forEachDirEntry nid vi (findName name) none =
      .ok ((entries.find? fun e => e.name = name).map CachedDirEntry.nid) := by
    rw [ErofsReader.forEachDirEntry_of_cached hcached, runCallback, runScan_findName]
    cases entries.find? fun e => e.name = name <;> rfl
  rw [lookup, iterateDir, hnid, bind_ok, hvi, bind_ok, hscan, bind_ok]
  cases entries.find? fun e => e.name = name <;> rfl

/-! ## Pages -/

section
variable {α : Type} {value : Nat → CachedDirEntry → IoResult α} {b : ReplyBuffer α} {s : b.σ}
  {page : List α}

/-- The entries on a page are those from its offset on, and an empty page is behind the last. -/
theorem page_of_addEntries
    (h : addEntries value b.logged offset (entries.drop offset) (b.start, []) = .ok (s, page)) :
    Spells (shownAt value entries) offset page ∧ (page = [] → entries.length ≤ offset) := by
  obtain ⟨new, hnew, hspells, hnil⟩ := addEntries_logged b rfl h
  rw [List.nil_append] at hnew
  subst hnew
  exact ⟨hspells, fun h => List.drop_eq_nil_iff.mp (hnil rfl h)⟩

end

/-- An entry of `readdirplus` carries the attributes of its own inode. -/
theorem entry_of_dirEntryPlus {x : FuseDirEntry × Entry} (h : fs.dirEntryPlus idx e = .ok x) :
    fs.reader.inode e.nid >>= fs.makeEntry e.nid = .ok x.2 ∧ x.1.name = e.name ∧
      fs.toIno e.nid = .ok x.1.ino ∧ x.2.inode = x.1.ino := by
  obtain ⟨hino, hinode⟩ := @ino_of_dirEntryPlus _ _ _ x.1 x.2 h
  have hname := (offset_of_dirEntry (dirEntry_of_dirEntryPlus h)).1
  have hsame := hinode
  rw [hino, Except.ok.injEq] at hsame
  refine ⟨?_, hname, hino, hsame.symm⟩
  obtain ⟨vi, hvi, h⟩ := bind_eq_ok.mp h
  obtain ⟨entry, hentry, h⟩ := bind_eq_ok.mp h
  obtain ⟨de, -, h⟩ := bind_eq_ok.mp h
  cases h
  rw [hvi, bind_ok, hentry]

/-- **What `readdirplus` tells of a name** is what a lookup of it would tell, on every image: the
name and the number of the entry at its position, and where no entry before has the name, the
whole reply. -/
theorem readdirplus_lookup {b : ReplyBuffer (FuseDirEntry × Entry)} {s : b.σ}
    {page : List (FuseDirEntry × Entry)} (hread : fs.readDirEntries inode = .ok entries)
    (hopen : getDirHandle st handle = .ok { entries })
    (hpage : fs.readdirplus st handle offset b.logged (b.start, []) = .ok (s, page)) :
    ∀ i x, page[i]? = some x → ∃ e, entries[offset + i]? = some e ∧ x.1.name = e.name ∧
      fs.toIno e.nid = .ok x.1.ino ∧ x.2.inode = x.1.ino ∧
      ((∀ e' ∈ entries.take (offset + i), e'.name ≠ x.1.name) →
        fs.lookup inode x.1.name = .ok x.2) := by
  intro i x hx
  rw [readdirplus, hopen, bind_ok] at hpage
  dsimp only at hpage
  have hspells := (page_of_addEntries hpage).1 i (List.getElem?_eq_some_iff.mp hx).1
  rw [hx] at hspells
  obtain ⟨e, he, hvalue⟩ := shownAt_eq_some.mp hspells
  obtain ⟨hentry, hname, hino, hinode⟩ := entry_of_dirEntryPlus hvalue
  refine ⟨e, he, hname, hino, hinode, fun hfirst => ?_⟩
  have hfind : (entries.find? fun e' => e'.name = x.1.name) = some e := by
    obtain ⟨hlt, rfl⟩ := List.getElem?_eq_some_iff.mp he
    refine List.find?_eq_some_iff_getElem.mpr ⟨by simpa using hname.symm, offset + i, hlt, rfl, ?_⟩
    intro j hj
    have hmem : entries[j] ∈ entries.take (offset + i) :=
      List.mem_take_iff_getElem.mpr ⟨j, by omega, rfl⟩
    simpa using hfirst _ hmem
  rw [lookup_of_listed hread, hfind]
  exact hentry

/-- A buffer with room for every entry. -/
def roomy {α : Type} : ReplyBuffer α where
  σ := Unit
  start := ()
  add _ _ := .ok ((), 24)
  takesOne := by simp
  noError := by simp

/-- The root that lists a file is open. -/
def flatFileOpen : DirHandles := DirHandles.new.insert 1 { entries := flatFileEntries }

/-- A page from the second entry on. -/
theorem readdirplus_lookup_flatFile : ∃ page,
    flatFileFs.readdirplus flatFileOpen 1 1 roomy.logged (roomy.start, []) = .ok ((), page) ∧
      page.map (fun x => (x.1.name, x.1.ino)) = [([46, 46], 1), ([97], 5)] ∧
      ∀ x ∈ page, flatFileFs.lookup 1 x.1.name = .ok x.2 := by
  have hrun : (flatFileFs.readdirplus flatFileOpen 1 1 roomy.logged (roomy.start, [])).map
      (fun r => r.2.map fun x => (x.1.name, x.1.ino)) = .ok [([46, 46], 1), ([97], 5)] := by
    decide +kernel
  cases hpage : flatFileFs.readdirplus flatFileOpen 1 1 roomy.logged (roomy.start, []) with
  | error e =>
    rw [hpage] at hrun
    cases hrun
  | ok r =>
    rw [hpage] at hrun
    have hnames : r.2.map (fun x => (x.1.name, x.1.ino)) = [([46, 46], 1), ([97], 5)] :=
      Except.ok.inj hrun
    refine ⟨r.2, rfl, hnames, fun x hx => ?_⟩
    obtain ⟨i, hi, rfl⟩ := List.mem_iff_getElem.mp hx
    obtain ⟨e, he, hname, -, -, hlookup⟩ :=
      readdirplus_lookup flatFileFs_root rfl hpage i _ (List.getElem?_eq_getElem hi)
    refine hlookup ?_
    have hlen : r.2.length = 2 := by simpa using congrArg List.length hnames
    rw [hname]
    obtain rfl | rfl : i = 0 ∨ i = 1 := by omega
    · cases he
      decide
    · cases he
      decide

end ErofsFs
end ErofsUtils.Fs
