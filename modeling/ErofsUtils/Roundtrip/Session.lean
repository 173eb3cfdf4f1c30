import ErofsUtils.Fs.Workers
import ErofsUtils.Roundtrip.Mirror

/-! # Sessions on a source

A source as a server would answer for it: requests name its paths, and open directories are
paths. The file system over an image of the source answers every session of requests as that
server may. -/
namespace ErofsUtils.Roundtrip
open ErofsUtils.Rust ErofsUtils.Bytes ErofsUtils.Build ErofsUtils.Fs ErofsUtils.Refine
open ErofsUtils.Store ErofsUtils.Concurrent

/-- The directories that are open. -/
structure OpenPaths where
  opened : Nat → Option (List Nat)
  next : Nat

namespace OpenPaths

def new : OpenPaths := { opened := fun _ => none, next := 1 }

def add (s : OpenPaths) (p : List Nat) : OpenPaths :=
  { opened := fun h => if h = s.next then some p else s.opened h, next := (s.next + 1) % 2 ^ 64 }

def remove (s : OpenPaths) (handle : Nat) : OpenPaths :=
  { s with opened := fun h => if h = handle then none else s.opened h }

theorem opened_add (s : OpenPaths) (p : List Nat) (handle : Nat) :
    (s.add p).opened handle = if handle = s.next then some p else s.opened handle := rfl

theorem opened_remove (s : OpenPaths) (handle other : Nat) :
    (s.remove handle).opened other = if other = handle then none else s.opened other := rfl

end OpenPaths

/-- A listed name is shown so at index `i`. -/
def fuseEntryOf (i : Nat) (x : Nat × UInt8 × List UInt8) : FuseDirEntry :=
  { ino := x.1, offset := i + 1, type := erofsFtToDt x.2.1, name := x.2.2 }

/-- The page has the names of the listing from its offset on, and some where there are some. -/
structure PageOf (listing : List (Nat × UInt8 × List UInt8)) (offset : Nat)
    (page : List FuseDirEntry) : Prop where
  names : Spells (fun i => listing[i]?.map (fuseEntryOf i)) offset page
  nonempty : page = [] → listing.length ≤ offset

section
variable (root : Source) (epoch : UInt64) (number : List Nat → Nat) (stats : Statvfs64)

/-- The attributes of the path that has the number. -/
def AttrOf (ino : Nat) (st : Stat64) : Prop :=
  ∃ p node stat, Occurs root p node ∧ node.stat = .ok stat ∧ number p = ino ∧
    ShownAs epoch ino node stat st

/-- What the server for a source may answer. -/
inductive Answers : Spec OpenPaths (Request (List Nat)) (IoResult Reply)
  | lookup {s p dir name q st} (hocc : Occurs root p dir) (hname : NameAt dir p name q)
      (hst : AttrOf root epoch number (number q) st) :
      Answers s (.lookup p name) s (.ok (.entry (entryOf st)))
  | missing {s p dir name} (hocc : Occurs root p dir) (hname : ∀ q, ¬ NameAt dir p name q) :
      Answers s (.lookup p name) s (osError enoent)
  | getattr {s p st} (hst : AttrOf root epoch number (number p) st) :
      Answers s (.getattr p) s (.ok (.attr st erofsFuseTimeout))
  | openFile {s p node stat flags} (hocc : Occurs root p node) (hstat : node.stat = .ok stat)
      (hflags : flags &&& (oWronly ||| oRdwr) = 0) (hfile : stat.isFile = true) (handle : Nat) :
      Answers s (.openFile p flags) s (.ok (.opened handle))
  | openOther {s p node stat flags} (hocc : Occurs root p node) (hstat : node.stat = .ok stat)
      (hflags : flags &&& (oWronly ||| oRdwr) = 0) (hfile : stat.isFile = false) :
      Answers s (.openFile p flags) s (osError eisdir)
  | openWrite {s p flags} (hflags : flags &&& (oWronly ||| oRdwr) ≠ 0) :
      Answers s (.openFile p flags) s (osError erofs)
  | read {s p node content size offset} (hocc : Occurs root p node) (hfile : node.file = .ok content) :
      Answers s (.read p size offset) s
        (.ok (.data (window content offset size) (window content offset size).length))
  | asyncRead {s p node content size offset} (hocc : Occurs root p node)
      (hfile : node.file = .ok content) :
      Answers s (.asyncRead p size offset) s
        (.ok (.data (window content offset size) (window content offset size).length))
  | readlink {s p node target} (hocc : Occurs root p node) (hlink : node.link = .ok target) :
      Answers s (.readlink p) s (.ok (.target target))
  | opendir {s p dir} (hocc : Occurs root p dir) (hdir : dir.isDir = true) :
      Answers s (.opendir p) (s.add p) (.ok (.opened s.next))
  | opendirOther {s p node} (hocc : Occurs root p node) (hdir : node.isDir = false) :
      Answers s (.opendir p) s (osError enotdir)
  | readdir {s handle offset space p dir page} (hopen : s.opened handle = some p)
      (hocc : Occurs root p dir) (hpage : PageOf (listingOf number p dir) offset page) :
      Answers s (.readdir handle offset space) s (.ok (.listed page))
  | readdirClosed {s handle offset space} (hopen : s.opened handle = none) :
      Answers s (.readdir handle offset space) s (osError ebadf)
  | readdirplus {s handle offset space p dir page} (hopen : s.opened handle = some p)
      (hocc : Occurs root p dir)
      (hpage : PageOf (listingOf number p dir) offset (page.map Prod.fst))
      (hattr : ∀ x ∈ page, ∃ st, AttrOf root epoch number x.1.ino st ∧ x.2 = entryOf st) :
      Answers s (.readdirplus handle offset space) s (.ok (.listedPlus page))
  | readdirplusClosed {s handle offset space} (hopen : s.opened handle = none) :
      Answers s (.readdirplus handle offset space) s (osError ebadf)
  | releasedir {s handle} : Answers s (.releasedir handle) (s.remove handle) (.ok .done)
  | statfs {s} : Answers s .statfs s (.ok (.statvfs stats))
  | getxattr {s p node name size} (hocc : Occurs root p node) :
      Answers s (.getxattr p name size) s
        (.xattr <$> ErofsFs.getxattrReply name size (shownXattrs node.xattrs))
  | listxattr {s p node size} (hocc : Occurs root p node) :
      Answers s (.listxattr p size) s (.xattrs <$> listxattrReply size (shownXattrs node.xattrs))
  | change {s p} : Answers s (.change p) s (osError erofs)
  | forget {s p} : Answers s (.forget p) s (.ok .done)
  | release {s p} : Answers s (.release p) s (.ok .done)
  | access {s p mask} : Answers s (.access p mask) s (.ok .done)
  | asyncFsync {s p} : Answers s (.asyncFsync p) s (.ok .done)

end

/-- The open directories of the server and those of the source. -/
structure Related (root : Source) (fs : ErofsFs) (number : List Nat → Nat) (st : DirHandles)
    (s : OpenPaths) : Prop where
  next : st.nextDirHandle = s.next
  closed : ∀ handle, s.opened handle = none → st.dirHandles handle = none
  opened : ∀ handle p, s.opened handle = some p → ∃ dir d, Occurs root p dir ∧ dir.isDir = true ∧
    st.dirHandles handle = some d ∧ List.Forall₂ (ShownEntry fs) d.entries (listingOf number p dir)

variable {root node dir : Source} {epoch : UInt64} {fs : ErofsFs} {number : List Nat → Nat}
  {stats : Statvfs64} {st st' : DirHandles} {s : OpenPaths} {p q : List Nat} {stat : FileStat}
  {handle offset : Nat} {d : DirHandle} {listing : List (Nat × UInt8 × List UInt8)}

/-- Above a path there is a path. -/
theorem occurs_dropLast (h : Occurs root p node) : ∃ up, Occurs root p.dropLast up := by
  rcases h.inv with ⟨rfl, -⟩ | ⟨q, dir, k, e, rfl, -, hdir, -⟩
  · exact ⟨root, .root⟩
  · rw [List.dropLast_concat]
    exact ⟨dir, hdir⟩

/-- Whatever is listed is the number of a path. -/
theorem path_of_listed (hocc : Occurs root p dir) (hdir : dir.isDir = true)
    {x : Nat × UInt8 × List UInt8} (hx : x ∈ listingOf number p dir) :
    ∃ q node, Occurs root q node ∧ number q = x.1 := by
  rcases List.mem_cons.mp hx with rfl | hx
  · exact ⟨p, dir, hocc, rfl⟩
  rcases List.mem_cons.mp hx with rfl | hx
  · obtain ⟨up, hup⟩ := occurs_dropLast hocc
    exact ⟨_, up, hup, rfl⟩
  · obtain ⟨k, hk, rfl⟩ := List.mem_mapIdx.mp hx
    exact ⟨p ++ [k], _, .entry hocc hdir (List.getElem?_eq_getElem hk), rfl⟩

/-! ## Pages of a handle -/

theorem ShownEntry.dirEntry {e : CachedDirEntry} {x : Nat × UInt8 × List UInt8}
    (h : ShownEntry fs e x) (idx : Nat) : fs.dirEntry idx e = .ok (fuseEntryOf idx x) := by
  rw [ErofsFs.dirEntry, h.ino, bind_ok, h.type, h.name]
  rfl

theorem ShownEntry.dirEntryPlus {e : CachedDirEntry} {x : Nat × UInt8 × List UInt8}
    (h : ShownEntry fs e x) (idx : Nat) : ∃ st, fs.getattr x.1 = .ok (st, erofsFuseTimeout) ∧
      fs.dirEntryPlus idx e = .ok (fuseEntryOf idx x, entryOf st) := by
  obtain ⟨st, hst, hentry⟩ := h.entry
  obtain ⟨vi, hvi, hentry⟩ := bind_eq_ok.mp hentry
  refine ⟨st, hst, ?_⟩
  rw [ErofsFs.dirEntryPlus, hvi, bind_ok, hentry, bind_ok, h.dirEntry, bind_ok]
  rfl

section
variable (hd : List.Forall₂ (ShownEntry fs) d.entries listing)
include hd

/-- What is shown of an open directory is its listing. -/
theorem shownAt_dirEntry :
    ErofsFs.shownAt fs.dirEntry d.entries = fun i => listing[i]?.map (fuseEntryOf i) := by
  funext i
  rcases forall₂_getElem? hd i with ⟨he, hx⟩ | ⟨e, x, he, hx, hshown⟩
  · rw [ErofsFs.shownAt, he, hx]
    rfl
  · rw [hx]
    exact ErofsFs.shownAt_eq_some.mpr ⟨e, he, hshown.dirEntry i⟩

theorem canShow {e : CachedDirEntry} (he : e ∈ d.entries) (idx : Nat) :
    (∃ x, fs.dirEntry idx e = .ok x) ∧ ∃ x, fs.dirEntryPlus idx e = .ok x := by
  obtain ⟨i, hi⟩ := List.mem_iff_getElem?.mp he
  rcases forall₂_getElem? hd i with ⟨hnone, -⟩ | ⟨e', x, he', -, hshown⟩
  · rw [hi] at hnone
    cases hnone
  · cases hi.symm.trans he'
    obtain ⟨st, -, hplus⟩ := hshown.dirEntryPlus idx
    exact ⟨⟨_, hshown.dirEntry idx⟩, _, hplus⟩

/-- A page of `readdir`. -/
theorem readdir_page (hopen : st.dirHandles handle = some d) (b : ReplyBuffer FuseDirEntry)
    (offset : Nat) : ∃ s page,
      fs.readdir st handle offset b.logged (b.start, []) = .ok (s, page) ∧
        PageOf listing offset page := by
  have hget : ErofsFs.getDirHandle st handle = .ok d := by rw [ErofsFs.getDirHandle, hopen]; rfl
  obtain ⟨⟨s, page⟩, hrun⟩ := @ErofsFs.addEntries_returns _ fs.dirEntry offset b
    (d.entries.drop offset) (fun e he i => (canShow hd (List.mem_of_mem_drop he) i).1) b.start []
  obtain ⟨hspells, hend⟩ := ErofsFs.page_of_addEntries hrun
  refine ⟨s, page, by rw [ErofsFs.readdir, hget, bind_ok, hrun], ?_, ?_⟩
  · rwa [shownAt_dirEntry hd] at hspells
  · exact hd.length_eq ▸ hend

/-- A page of `readdirplus`. -/
theorem readdirplus_page (hopen : st.dirHandles handle = some d)
    (b : ReplyBuffer (FuseDirEntry × Entry)) (offset : Nat) : ∃ s page,
      fs.readdirplus st handle offset b.logged (b.start, []) = .ok (s, page) ∧
        PageOf listing offset (page.map Prod.fst) ∧
          ∀ x ∈ page, ∃ y ∈ listing, x.1.ino = y.1 ∧
            ∃ st, fs.getattr y.1 = .ok (st, erofsFuseTimeout) ∧ x.2 = entryOf st := by
  have hget : ErofsFs.getDirHandle st handle = .ok d := by rw [ErofsFs.getDirHandle, hopen]; rfl
  obtain ⟨⟨s, page⟩, hrun⟩ := @ErofsFs.addEntries_returns _ fs.dirEntryPlus offset b
    (d.entries.drop offset) (fun e he i => (canShow hd (List.mem_of_mem_drop he) i).2) b.start []
  obtain ⟨hspells, hend⟩ := ErofsFs.page_of_addEntries hrun
  have hshown : ∀ (i : Nat) x, page[i]? = some x → ∃ y, listing[offset + i]? = some y ∧
      ∃ st, fs.getattr y.1 = .ok (st, erofsFuseTimeout) ∧
        x = (fuseEntryOf (offset + i) y, entryOf st) := by
    intro i x hx
    have hat := hspells i (List.getElem?_eq_some_iff.mp hx).1
    rw [hx] at hat
    obtain ⟨e, he, hvalue⟩ := ErofsFs.shownAt_eq_some.mp hat
    rcases forall₂_getElem? hd (offset + i) with ⟨hnone, -⟩ | ⟨e', y, he', hy, hsh⟩
    · rw [he] at hnone
      cases hnone
    · cases he.symm.trans he'
      obtain ⟨st, hst, hplus⟩ := hsh.dirEntryPlus (offset + i)
      rw [hvalue] at hplus
      exact ⟨y, hy, st, hst, Except.ok.inj hplus⟩
  refine ⟨s, page, by rw [ErofsFs.readdirplus, hget, bind_ok, hrun], ⟨?_, ?_⟩, ?_⟩
  · intro i hi
    rw [List.length_map] at hi
    obtain ⟨y, hy, st, -, hx⟩ := hshown i _ (List.getElem?_eq_getElem hi)
    dsimp only
    rw [List.getElem?_map, List.getElem?_eq_getElem hi, hx, hy]
    rfl
  · intro hnil
    exact hd.length_eq ▸ hend (List.map_eq_nil_iff.mp hnil)
  · intro x hx
    obtain ⟨i, hi⟩ := List.mem_iff_getElem?.mp hx
    obtain ⟨y, hy, st, hst, rfl⟩ := hshown i x hi
    exact ⟨y, List.mem_of_getElem? hy, rfl, st, hst, rfl⟩

end

/-! ## One request -/

theorem Related.add (h : Related root fs number st s) (hocc : Occurs root p dir)
    (hdir : dir.isDir = true) {entries : List CachedDirEntry}
    (hshown : List.Forall₂ (ShownEntry fs) entries (listingOf number p dir)) :
    Related root fs number (st.fetchAdd.2.insert st.nextDirHandle { entries }) (s.add p) where
  next := congrArg (fun n => (n + 1) % 2 ^ 64) h.next
  closed := by
    intro handle hnone
    rw [OpenPaths.opened_add, ← h.next] at hnone
    split at hnone
    · cases hnone
    · rename_i hne
      exact (if_neg hne).trans (h.closed handle hnone)
  opened := by
    intro handle q hsome
    rw [OpenPaths.opened_add, ← h.next] at hsome
    split at hsome
    · rename_i heq
      cases hsome
      exact ⟨dir, { entries }, hocc, hdir, if_pos heq, hshown⟩
    · rename_i hne
      obtain ⟨dir', d, hocc', hdir', hd, hlist⟩ := h.opened handle q hsome
      exact ⟨dir', d, hocc', hdir', (if_neg hne).trans hd, hlist⟩

theorem Related.remove (h : Related root fs number st s) (handle : Nat) :
    Related root fs number (ErofsFs.releasedir st handle) (s.remove handle) where
  next := h.next
  closed := by
    intro other hnone
    rw [OpenPaths.opened_remove] at hnone
    by_cases heq : other = handle
    · exact if_pos heq
    · rw [if_neg heq] at hnone
      exact (if_neg heq).trans (h.closed other hnone)
  opened := by
    intro other q hsome
    rw [OpenPaths.opened_remove] at hsome
    split at hsome
    · cases hsome
    · rename_i hne
      obtain ⟨dir, d, hocc, hdir, hd, hlist⟩ := h.opened other q hsome
      exact ⟨dir, d, hocc, hdir, (if_neg hne).trans hd, hlist⟩

section
variable (h : Mirrors root epoch fs number)
include h

theorem Mirrors.attrOf {t : Nat} {a : Stat64} (hocc : Occurs root p node)
    (hget : fs.getattr (number p) = .ok (a, t)) : AttrOf root epoch number (number p) a := by
  obtain ⟨stat, b, hstat, hget', hshown⟩ := h.attr p node hocc
  cases hget.symm.trans hget'
  exact ⟨p, node, stat, hocc, hstat, rfl, hshown⟩

/-- The kind of a path is that of its inode. -/
theorem Mirrors.kind (hocc : Occurs root p node) : ∃ stat a, node.stat = .ok stat ∧
    fs.getattr (number p) = .ok (a, erofsFuseTimeout) ∧
      (a.stMode &&& sIfmt = sIfdir ↔ stat.isDir = true) ∧
      (a.stMode &&& sIfmt = sIfreg ↔ stat.isFile = true) := by
  obtain ⟨stat, a, hstat, hget, hshown⟩ := h.attr p node hocc
  refine ⟨stat, a, hstat, hget, ?_, ?_⟩
  · rw [hshown.mode, FileStat.isDir, beq_iff_eq]
    rfl
  · rw [hshown.mode, FileStat.isFile, beq_iff_eq]
    rfl

/-- Opening a directory adds its listing, and nothing else can be opened as one. -/
theorem Mirrors.opendir (hR : Related root fs number st s) (hocc : Occurs root p node) : ∃ s',
    Answers root epoch number stats s (.opendir p) s' (fs.serveRequest st (.opendir (number p))).2 ∧
      Related root fs number (fs.serveRequest st (.opendir (number p))).1 s' := by
  obtain ⟨stat, a, hstat, hget, hdir, -⟩ := h.kind hocc
  have hcheck := ErofsFs.checkDir_of_getattr hget
  by_cases hd : stat.isDir = true
  · have hnode : node.isDir = true := (isDir_of_ok hstat).trans hd
    obtain ⟨entries, hread, hshown⟩ := h.listed p node hocc hnode
    rw [if_neg (not_not.mpr (hdir.mpr hd))] at hcheck
    have hopen : fs.opendir st (number p) =
        .ok (st.nextDirHandle, st.fetchAdd.2.insert st.nextDirHandle { entries }) := by
      rw [ErofsFs.opendir, hcheck, pure_eq_ok, bind_ok, ErofsFs.createDirHandle, hread, bind_ok]
      rfl
    refine ⟨s.add p, ?_, ?_⟩
    · rw [ErofsFs.serveRequest, hopen]
      show Answers root epoch number stats s _ _ (.ok (.opened st.nextDirHandle))
      rw [hR.next]
      exact .opendir hocc hnode
    · rw [ErofsFs.serveRequest, hopen]
      exact hR.add hocc hnode hshown
  · have hnode : node.isDir = false := (isDir_of_ok hstat).trans (Bool.eq_false_iff.mpr hd)
    rw [if_pos (mt hdir.mp hd)] at hcheck
    have hopen : fs.opendir st (number p) = osError enotdir := by
      rw [ErofsFs.opendir, hcheck]
      rfl
    rw [ErofsFs.serveRequest, hopen]
    exact ⟨s, .opendirOther hocc hnode, hR⟩

theorem Mirrors.openFile (hocc : Occurs root p node) (flags : UInt32) :
    Answers root epoch number stats s (.openFile p flags) s
      (.opened <$> fs.openFile (number p) flags) := by
  obtain ⟨stat, a, hstat, hget, -, hfile⟩ := h.kind hocc
  obtain ⟨nid, hopen⟩ := ErofsFs.openFile_of_getattr hget flags
  rw [hopen]
  by_cases hflags : flags &&& (oWronly ||| oRdwr) = 0
  · rw [if_neg (not_not.mpr hflags)]
    by_cases hf : stat.isFile = true
    · rw [if_neg (not_not.mpr (hfile.mpr hf))]
      exact .openFile hocc hstat hflags hf nid
    · rw [if_pos (mt hfile.mp hf)]
      exact .openOther hocc hstat hflags (Bool.eq_false_iff.mpr hf)
  · rw [if_pos hflags]
    exact .openWrite hflags

theorem Mirrors.lookup (hocc : Occurs root p dir) (hdir : dir.isDir = true) (name : List UInt8) :
    Answers root epoch number stats s (.lookup p name) s (.entry <$> fs.lookup (number p) name) := by
  by_cases hname : ∃ q, NameAt dir p name q
  · obtain ⟨q, hq⟩ := hname
    obtain ⟨a, hget, hlookup⟩ := h.found p dir hocc hdir name q hq
    obtain ⟨node, hnode⟩ : ∃ node, Occurs root q node := by
      cases hq with
      | self => exact ⟨dir, hocc⟩
      | up => exact occurs_dropLast hocc
      | entry he => exact ⟨_, .entry hocc hdir he⟩
    rw [hlookup]
    exact .lookup hocc hq (h.attrOf hnode hget)
  · have hno : ∀ q, ¬ NameAt dir p name q := fun q hq => hname ⟨q, hq⟩
    rw [h.missing p dir hocc hdir name hno]
    exact .missing hocc hno

omit h in
/-- A page is one of the directory that was opened. -/
theorem Related.readdir (hR : Related root fs number st s) (handle offset : Nat)
    (space : ReplySpace FuseDirEntry) :
    Answers root epoch number stats s (.readdir handle offset space) s
      (fs.serveRequest st (.readdir handle offset space)).2 := by
  rw [ErofsFs.serveRequest]
  cases hopened : s.opened handle with
  | none =>
    have hread : fs.readdir st handle offset space.buffer.logged
        (space.buffer.start, []) = osError ebadf := by
      rw [ErofsFs.readdir, ErofsFs.getDirHandle, hR.closed handle hopened]
      rfl
    rw [hread]
    exact .readdirClosed hopened
  | some p =>
    obtain ⟨dir, d, hocc, hdir, hd, hlist⟩ := hR.opened handle p hopened
    obtain ⟨_, page, hread, hpage⟩ := readdir_page hlist hd space.buffer offset
    rw [hread]
    exact .readdir hopened hocc hpage

theorem Mirrors.readdirplus (hR : Related root fs number st s) (handle offset : Nat)
    (space : ReplySpace (FuseDirEntry × Entry)) :
    Answers root epoch number stats s (.readdirplus handle offset space) s
      (fs.serveRequest st (.readdirplus handle offset space)).2 := by
  rw [ErofsFs.serveRequest]
  cases hopened : s.opened handle with
  | none =>
    have hread : fs.readdirplus st handle offset space.buffer.logged
        (space.buffer.start, []) = osError ebadf := by
      rw [ErofsFs.readdirplus, ErofsFs.getDirHandle, hR.closed handle hopened]
      rfl
    rw [hread]
    exact .readdirplusClosed hopened
  | some p =>
    obtain ⟨dir, d, hocc, hdir, hd, hlist⟩ := hR.opened handle p hopened
    obtain ⟨_, page, hread, hpage, hattr⟩ := readdirplus_page hlist hd space.buffer offset
    rw [hread]
    refine .readdirplus hopened hocc hpage fun x hx => ?_
    obtain ⟨y, hy, hino, a, hget, hentry⟩ := hattr x hx
    obtain ⟨q, node, hnode, hnumber⟩ := path_of_listed hocc hdir hy
    rw [hino, ← hnumber]
    exact ⟨a, h.attrOf hnode (hnumber ▸ hget), hentry⟩

end

end ErofsUtils.Roundtrip
