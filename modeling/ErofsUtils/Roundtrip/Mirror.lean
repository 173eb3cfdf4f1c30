import ErofsUtils.Roundtrip.Mounted

/-! # An image mirrors its source

Whatever is asked of the file system about a path of the source is answered as the path itself
would answer: its attributes, the names in it, its data, its target, its attributes by name.
Paths have one inode number exactly when they are names of one file. -/
namespace ErofsUtils.Roundtrip
open ErofsUtils.Rust ErofsUtils.Bytes ErofsUtils.Metadata ErofsUtils.Build ErofsUtils.Fs
open ErofsUtils.Store

/-! ## What a source answers -/

/-- The format has an index for the name. -/
def hasPlace (name : List UInt8) : Bool := xattrPrefixes.any (·.isPrefixOf name)

/-- The names that have a place in an image, with their values. A value that could not be read
is empty. -/
def shownXattrs (source : XattrSource) : List (List UInt8 × List UInt8) :=
  match source with
  | none => []
  | some names => names.filterMap fun (name, value) =>
    if hasPlace name then some (name, value.getD []) else none

def listxattrReply (size : Nat) (xattrs : List (List UInt8 × List UInt8)) : IoResult ListxattrReply :=
  let names := xattrs.flatMap fun x => x.1 ++ [0]
  if size = 0 then pure (.count (UInt32.ofNat names.length))
  else if size < names.length then osError erange
  else pure (.names names)

/-- The type of a path in the listing of its directory. -/
def shownType (node : Source) : UInt8 :=
  match node.stat with
  | .ok stat => modeToFileType stat.mode.toUInt16
  | .error _ => 0

/-- In the directory at `p` the name leads to `q`. -/
inductive NameAt (dir : Source) (p : List Nat) : List UInt8 → List Nat → Prop
  | self : NameAt dir p dot p
  | up : NameAt dir p dotdot p.dropLast
  | entry {k : Nat} {e : List UInt8 × Source} (he : (sortByFileName dir.entries)[k]? = some e) :
      NameAt dir p e.1 (p ++ [k])

/-- What the listing of the directory at `p` says: number, type and name of each entry. -/
def listingOf (number : List Nat → Nat) (p : List Nat) (dir : Source) :
    List (Nat × UInt8 × List UInt8) :=
  (number p, erofsFtDir, dot) :: (number p.dropLast, erofsFtDir, dotdot) ::
    (sortByFileName dir.entries).mapIdx fun k e => (number (p ++ [k]), shownType e.2, e.1)

/-- The reply of a lookup that finds an inode with these attributes. -/
def entryOf (st : Stat64) : Entry :=
  { inode := st.stIno, generation := 0, attr := st, attrFlags := 0
    attrTimeout := erofsFuseTimeout, entryTimeout := erofsFuseTimeout }

/-- An entry of a directory is shown with this number, type and name, and with the attributes
of that number. -/
structure ShownEntry (fs : ErofsFs) (e : CachedDirEntry) (x : Nat × UInt8 × List UInt8) : Prop where
  ino : fs.toIno e.nid = .ok x.1
  type : e.fileType = x.2.1
  name : e.name = x.2.2
  entry : ∃ st, fs.getattr x.1 = .ok (st, erofsFuseTimeout) ∧
    fs.reader.inode e.nid >>= fs.makeEntry e.nid = .ok (entryOf st)

/-- The file system answers for the paths of the source, under these numbers. -/
structure Mirrors (root : Source) (epoch : UInt64) (fs : ErofsFs) (number : List Nat → Nat) :
    Prop where
  start : number [] = fuseRootId
  same : ∀ p a q b, Occurs root p a → Occurs root q b →
    (number p = number q ↔ p = q ∨ LinkedNames a b)
  attr : ∀ p node, Occurs root p node → ∃ stat st, node.stat = .ok stat ∧
    fs.getattr (number p) = .ok (st, erofsFuseTimeout) ∧ ShownAs epoch (number p) node stat st
  found : ∀ p dir, Occurs root p dir → dir.isDir = true → ∀ name q, NameAt dir p name q → ∃ st,
    fs.getattr (number q) = .ok (st, erofsFuseTimeout) ∧ fs.lookup (number p) name = .ok (entryOf st)
  missing : ∀ p dir, Occurs root p dir → dir.isDir = true → ∀ name, (∀ q, ¬ NameAt dir p name q) →
    fs.lookup (number p) name = osError enoent
  listed : ∀ p dir, Occurs root p dir → dir.isDir = true → ∃ entries,
    fs.readDirEntries (number p) = .ok entries ∧
      List.Forall₂ (ShownEntry fs) entries (listingOf number p dir)
  data : ∀ p node stat content, Occurs root p node → node.stat = .ok stat → stat.isFile = true →
    node.file = .ok content → ∀ size offset, fs.read (number p) size offset =
      .ok (window content offset size, (window content offset size).length)
  target : ∀ p node stat target, Occurs root p node → node.stat = .ok stat →
    stat.isSymlink = true → node.link = .ok target → fs.readlink (number p) = .ok target
  xattr : ∀ p node, Occurs root p node → ∀ name size,
    fs.getxattr (number p) name size = ErofsFs.getxattrReply name size (shownXattrs node.xattrs)
  xattrs : ∀ p node, Occurs root p node → ∀ size,
    fs.listxattr (number p) size = listxattrReply size (shownXattrs node.xattrs)

/-! ## Attributes by name -/

theorem hasPlace_iff {name : List UInt8} : hasPlace name = true ↔ SupportedName name := by
  simp only [hasPlace, List.any_eq_true, List.isPrefixOf_iff_prefix, supportedName_iff]

/-- The reader names the attributes that are kept as the path did. -/
theorem map_namedValue (source : XattrSource) :
    (readXattrsFromPath source).map namedValue = shownXattrs source := by
  cases source with
  | none => rfl
  | some names =>
    rw [readXattrsFromPath, shownXattrs, List.map_filterMap]
    refine List.filterMap_congr ?_
    rintro ⟨name, value⟩ -
    dsimp only
    cases hs : erofsXattrNameSplit name with
    | none =>
      have hno : ¬ hasPlace name = true := by
        intro hplace
        obtain ⟨index, suffix, hsome⟩ := erofsXattrNameSplit_isSome (hasPlace_iff.mp hplace)
        rw [hs] at hsome
        cases hsome
      rw [if_neg hno]
      rfl
    | some split =>
      obtain ⟨index, suffix⟩ := split
      obtain ⟨front, hf, hn⟩ := erofsXattrNameSplit_join hs
      rw [if_pos (hasPlace_iff.mpr ⟨index, front, hf, suffix, hn.symm⟩)]
      simp only [Option.map_some, namedValue, fullName, hf, hn]

/-! ## Kinds are distinct -/

theorem isFile_not_isDir {stat : FileStat} (h : stat.isFile = true) : stat.isDir = false := by
  rw [FileStat.isFile, beq_iff_eq] at h
  rw [FileStat.isDir, h]
  decide

theorem kind_of_isSymlink {stat : FileStat} (h : stat.isSymlink = true) :
    stat.isDir = false ∧ stat.isFile = false := by
  rw [FileStat.isSymlink, beq_iff_eq] at h
  rw [FileStat.isDir, FileStat.isFile, h]
  decide

/-- A served file is read in windows. -/
theorem writeFileDataTo_window {r : ErofsReader} {nid : Nat} {v : ErofsInode} {content : List UInt8}
    (h : r.ServesFile nid v (fun k => content.getD k 0) 0 content.length)
    (hsize : v.size.toNat = content.length) (offset size : Nat) :
    r.writeFileDataTo nid v offset size =
      .ok (window content offset size, (window content offset size).length) := by
  by_cases hoff : offset < content.length
  · have hrange : ErofsReader.readRange v offset size = min size (content.length - offset) := by
      rw [ErofsReader.readRange, hsize]
    have hread := (h.reads (Nat.zero_le _) (by rw [hrange]; omega) (hsize ▸ hoff)).1
    rw [hread, hrange, part_getD _ (by omega), window_min, length_window]
  · have hnil : window content offset size = [] := by
      rw [window, List.drop_eq_nil_of_le (by omega), List.take_nil]
    rw [(ErofsReader.reads_past_end r nid (by omega)).1, hnil]
    rfl

/-! ## What is found -/

variable {hash : List UInt8 → Digest} {w₀ w : BlobWriter} {root node dir : Source}
  {os : List (List Nat × Source)} {inodes placed : List InodeInfo} {buf : List UInt8}
  {epoch : UInt64} {bits : Nat} {r : ErofsReader} {p q : List Nat} {i j : Nat} {stat : FileStat}
  {inode pl : InodeInfo} {name : List UInt8}

section
variable (h : Mounted hash w₀ root os inodes placed buf epoch bits w r)
include h

theorem Mounted.toIno (hf : Finds r inodes placed epoch bits node i inode pl) :
    (⟨r⟩ : ErofsFs).toIno (nidAt placed i) = .ok (nidAt placed i + 1) ∧
      (⟨r⟩ : ErofsFs).toNid (nidAt placed i + 1) = .ok (nidAt placed i) :=
  toIno_ok ⟨r⟩ h.tree.opened.rootNid hf.small

/-- The attributes of a path are reported under the number of its inode. -/
theorem Mounted.makeStat (hf : Finds r inodes placed epoch bits node i inode pl)
    (hstat : node.stat = .ok stat) : ∃ st,
      (⟨r⟩ : ErofsFs).makeStat (nidAt placed i) (inodeView pl epoch bits) = .ok st ∧
        ShownAs epoch (nidAt placed i + 1) node stat st :=
  hf.made.shown hf.fits hstat ⟨r⟩ h.tree.opened.rootNid h.tree.opened.blkszbits h.tree.opened.epoch
    h.tree.epochLt hf.small bits

theorem Mounted.getattr (hf : Finds r inodes placed epoch bits node i inode pl) : ∃ stat st,
    node.stat = .ok stat ∧ (⟨r⟩ : ErofsFs).getattr (nidAt placed i + 1) = .ok (st, erofsFuseTimeout) ∧
      (⟨r⟩ : ErofsFs).makeStat (nidAt placed i) (inodeView pl epoch bits) = .ok st ∧
        ShownAs epoch (nidAt placed i + 1) node stat st := by
  obtain ⟨stat, hstat, -⟩ := hf.fits.answers.stat
  obtain ⟨st, hst, hshown⟩ := h.makeStat hf hstat
  refine ⟨stat, st, hstat, ?_, hst, hshown⟩
  rw [ErofsFs.getattr, (h.toIno hf).2, bind_ok, hf.read, bind_ok, hst]
  rfl

/-- The reply for the inode at the index of a path. -/
theorem Mounted.entry (hf : Finds r inodes placed epoch bits node i inode pl) : ∃ st,
    (⟨r⟩ : ErofsFs).getattr (nidAt placed i + 1) = .ok (st, erofsFuseTimeout) ∧
      r.inode (nidAt placed i) >>= (⟨r⟩ : ErofsFs).makeEntry (nidAt placed i) = .ok (entryOf st) := by
  obtain ⟨stat, st, -, hattr, hst, hshown⟩ := h.getattr hf
  refine ⟨st, hattr, ?_⟩
  rw [hf.read, bind_ok, ErofsFs.makeEntry, (h.toIno hf).1, bind_ok, hst, bind_ok, entryOf, hshown.ino]
  rfl

/-! ## Names -/

/-- A name of a directory is seen there, and leads to the inode of its path. -/
theorem Mounted.seen (hf : Finds r inodes placed epoch bits dir i inode pl)
    (hocc : Occurs root p dir) (hdir : dir.isDir = true) (hidx : IndexOf os (p, dir) i) {parent : Nat}
    (hparent : ParentOf inodes parent i) (hname : NameAt dir p name q) :
    ∃ node j e, Occurs root q node ∧ IndexOf os (q, node) j ∧
      e ∈ seenEntries placed i parent inode.data.children ∧ e.name = name ∧ e.nid = nidAt placed j := by
  cases hname with
  | self => exact ⟨dir, i, _, hocc, hidx, List.mem_cons_self, rfl, rfl⟩
  | up =>
    obtain ⟨up, hup, hindex⟩ := h.parent hocc hdir hidx hparent
    exact ⟨up, parent, _, hup, hindex, List.mem_cons_of_mem _ List.mem_cons_self, rfl, rfl⟩
  | entry he =>
    obtain ⟨de, hde, hname, hindex, -⟩ := h.child hocc hdir hidx hf.given he
    exact ⟨_, de.inodeIdx, _, .entry hocc hdir he, hindex, List.mem_cons_of_mem _
      (List.mem_cons_of_mem _ (List.mem_map.mpr ⟨de, List.mem_of_getElem? hde, rfl⟩)), hname, rfl⟩

/-- Whatever is seen in a directory is a name of it. -/
theorem Mounted.nameAt (hf : Finds r inodes placed epoch bits dir i inode pl)
    (hocc : Occurs root p dir) (hdir : dir.isDir = true) (hidx : IndexOf os (p, dir) i) {parent : Nat}
    {e : CachedDirEntry} (he : e ∈ seenEntries placed i parent inode.data.children) :
    ∃ q, NameAt dir p e.name q := by
  have hat := h.built.complete.dir_at hocc hdir hidx
  rcases List.mem_cons.mp he with rfl | he
  · exact ⟨_, .self⟩
  rcases List.mem_cons.mp he with rfl | he
  · exact ⟨_, .up⟩
  obtain ⟨de, hde, rfl⟩ := List.mem_map.mp he
  obtain ⟨p', dir', k, e, hat', -, -, he', -, hname, -⟩ := h.built.child_at hf.given hde
  obtain ⟨rfl, rfl⟩ := Prod.mk.inj (Option.some.inj (hat.symm.trans hat'))
  refine ⟨p ++ [k], ?_⟩
  rw [hname]
  exact .entry he'

omit h in
theorem Finds.isDir (hf : Finds r inodes placed epoch bits dir i inode pl)
    (hdir : dir.isDir = true) : inode.isDir = true := by
  obtain ⟨stat, hstat, -⟩ := hf.fits.answers.stat
  obtain ⟨stat', ino, size, data, hstat', rfl, hdata⟩ := hf.made.made
  rw [isDir_of_ok hstat'] at hdir
  cases hdata with
  | directory => rfl
  | file hd | link hd | special hd =>
    rw [hdir] at hd
    cases hd

theorem Mounted.found (hf : Finds r inodes placed epoch bits dir i inode pl)
    (hocc : Occurs root p dir) (hdir : dir.isDir = true) (hidx : IndexOf os (p, dir) i)
    (hname : NameAt dir p name q) : ∃ node j, Occurs root q node ∧ IndexOf os (q, node) j ∧
      (⟨r⟩ : ErofsFs).lookup (nidAt placed i + 1) name =
        r.inode (nidAt placed j) >>= (⟨r⟩ : ErofsFs).makeEntry (nidAt placed j) := by
  obtain ⟨parent, hparent, -, hlookup⟩ := h.tree.lookup hf.given (hf.isDir hdir) name
  obtain ⟨node, j, e, hnode, hj, hmem, hsame, hnid⟩ := h.seen hf hocc hdir hidx hparent hname
  have hfind := find?_name (h.tree.shape.seen_nodup (List.mem_of_getElem? hf.given) placed i parent) hmem
  rw [hsame] at hfind
  rw [hfind] at hlookup
  exact ⟨node, j, hnode, hj, hnid ▸ hlookup⟩

theorem Mounted.missing (hf : Finds r inodes placed epoch bits dir i inode pl)
    (hocc : Occurs root p dir) (hdir : dir.isDir = true) (hidx : IndexOf os (p, dir) i)
    (hname : ∀ q, ¬ NameAt dir p name q) :
    (⟨r⟩ : ErofsFs).lookup (nidAt placed i + 1) name = osError enoent := by
  obtain ⟨parent, -, -, hlookup⟩ := h.tree.lookup hf.given (hf.isDir hdir) name
  have hfind : ((seenEntries placed i parent inode.data.children).find? fun e => e.name = name) =
      none := by
    rw [List.find?_eq_none]
    intro e he heq
    obtain ⟨q, hq⟩ := h.nameAt hf hocc hdir hidx he
    rw [of_decide_eq_true heq] at hq
    exact hname q hq
  rw [hlookup, hfind]

/-- The listing of a directory. -/
theorem Mounted.listed (hf : Finds r inodes placed epoch bits dir i inode pl)
    (hocc : Occurs root p dir) (hdir : dir.isDir = true) (hidx : IndexOf os (p, dir) i)
    {number : List Nat → Nat} (hnumber : ∀ q node j, Occurs root q node → IndexOf os (q, node) j →
      number q = nidAt placed j + 1) : ∃ entries,
      (⟨r⟩ : ErofsFs).readDirEntries (nidAt placed i + 1) = .ok entries ∧
        List.Forall₂ (ShownEntry ⟨r⟩) entries (listingOf number p dir) := by
  obtain ⟨parent, _, hparent, hpl, -, hforEach⟩ := h.tree.dir hf.given (hf.isDir hdir)
  cases hf.kept.symm.trans hpl
  refine ⟨seenEntries placed i parent inode.data.children, ?_, ?_⟩
  · rw [ErofsFs.readDirEntries, (h.toIno hf).2, bind_ok, hf.read, bind_ok, ErofsReader.readDirCached,
      hforEach, runCallback, runScan_collect]
    rfl
  have hshow : ∀ q node j, Occurs root q node → IndexOf os (q, node) j →
      (⟨r⟩ : ErofsFs).toIno (nidAt placed j) = .ok (number q) ∧
        ∃ st, (⟨r⟩ : ErofsFs).getattr (number q) = .ok (st, erofsFuseTimeout) ∧
          r.inode (nidAt placed j) >>= (⟨r⟩ : ErofsFs).makeEntry (nidAt placed j) =
            .ok (entryOf st) := by
    intro q node j hocc hj
    obtain ⟨_, _, hfinds⟩ := h.finds hocc hj
    rw [hnumber q node j hocc hj]
    exact ⟨(h.toIno hfinds).1, h.entry hfinds⟩
  obtain ⟨up, hup, hparentIdx⟩ := h.parent hocc hdir hidx hparent
  obtain ⟨hself, hselfEntry⟩ := hshow _ _ _ hocc hidx
  obtain ⟨hdotdot, hdotdotEntry⟩ := hshow _ _ _ hup hparentIdx
  refine .cons ⟨hself, rfl, rfl, hselfEntry⟩ (.cons ⟨hdotdot, rfl, rfl, hdotdotEntry⟩ ?_)
  have hat := h.built.complete.dir_at hocc hdir hidx
  have hlen := (h.built.children hat hdir hf.given).length
  rw [List.forall₂_iff_get]
  refine ⟨by rw [List.length_map, List.length_mapIdx, hlen], ?_⟩
  intro k hk hk'
  rw [List.length_mapIdx] at hk'
  obtain ⟨de, hde, hname, hindex, stat, hstat, hft⟩ :=
    h.child hocc hdir hidx hf.given (List.getElem?_eq_getElem hk')
  have hde' := (List.getElem?_eq_some_iff.mp hde).2
  simp only [List.get_eq_getElem, List.getElem_map, List.getElem_mapIdx, hde']
  obtain ⟨hino, hentry⟩ := hshow _ _ _ (.entry hocc hdir (List.getElem?_eq_getElem hk')) hindex
  refine ⟨hino, ?_, hname, hentry⟩
  rw [hft, shownType, hstat]

/-- The target of a link. -/
theorem Mounted.target (hf : Finds r inodes placed epoch bits node i inode pl)
    (hstat : node.stat = .ok stat) (hlink : stat.isSymlink = true) {target : List UInt8}
    (htarget : node.link = .ok target) :
    (⟨r⟩ : ErofsFs).readlink (nidAt placed i + 1) = .ok target := by
  obtain ⟨hpos, hle⟩ := hf.fits.target stat target hstat hlink htarget
  rcases hf.made.cases hstat with ⟨hd, -⟩ | ⟨-, hfile, -⟩ | ⟨-, -, -, target', htarget', hdata, hsize⟩ |
    ⟨-, -, hno, -⟩
  · exact absurd (hd.symm.trans (kind_of_isSymlink hlink).1) (by decide)
  · exact absurd (hfile.symm.trans (kind_of_isSymlink hlink).2) (by decide)
  · cases htarget.symm.trans htarget'
    have hread := ErofsReader.readFlatDataVec_stored
      (storedFlat_symlink hf.stands hf.count hdata (by omega)) (size_symlink hdata hsize (by omega)) hpos
    rw [ErofsFs.readlink, (h.toIno hf).2, bind_ok, hf.read, bind_ok]
    exact hread
  · exact absurd (hlink.symm.trans hno) (by decide)

omit h in
/-- The attributes by name. -/
theorem Finds.xattrs (hf : Finds r inodes placed epoch bits node i inode pl) :
    r.readXattrs (nidAt placed i) (inodeView pl epoch bits) = .ok (shownXattrs node.xattrs) := by
  obtain ⟨stat, ino, size, data, -, hinode, -⟩ := hf.made.made
  obtain ⟨-, -, hxattrs, -⟩ := InodeInfo.eq_of_unplaced hf.made.kept
  have hsame : pl.xattrs = readXattrsFromPath node.xattrs := by rw [hxattrs, hinode]; rfl
  have hread := readXattrs_ok hf.stands hf.count (hsame ▸ hf.fits.xattr)
  rw [hsame, map_namedValue] at hread
  exact hread

/-! ## Data -/

/-- The file is served from the blob. -/
theorem Mounted.servesFile (hf : Finds r inodes placed epoch bits node i inode pl)
    (hocc : Occurs root p node) (hidx : IndexOf os (p, node) i) (hstat : node.stat = .ok stat)
    (hfile : stat.isFile = true) {content : List UInt8} (hcontent : node.file = .ok content) :
    (inodeView pl epoch bits).size.toNat = content.length ∧
      r.ServesFile (nidAt placed i) (inodeView pl epoch bits) (fun k => content.getD k 0) 0
        content.length := by
  obtain ⟨blob, hblob, hbytes⟩ := h.blob
  obtain ⟨hle, hle'⟩ := h.accepted
  obtain ⟨hh, htables⟩ := h.built.fed.stored h.fresh h.chunksize (Nat.two_pow_pos bits)
    (h.built.complete.digestsDiffer h.digests)
  obtain ⟨o, inode', ho, hinode', -, -, -, hostat, hofile⟩ := h.built.inode_of hocc hidx
  cases hf.given.symm.trans hinode'
  -- the kind is that of a regular file
  obtain ⟨hdir, hsize, cis, hdata, hpdata⟩ : stat.isDir = false ∧ pl.size = stat.size ∧
      ∃ cis, inode.data = .regularFile cis ∧ pl.data = .regularFile cis := by
    rcases hf.made.cases hstat with ⟨hd, -⟩ | ⟨hd, -, hsize, hcis⟩ | ⟨-, hno, -⟩ | ⟨-, hno, -⟩
    · exact absurd (hd.symm.trans (isFile_not_isDir hfile)) (by decide)
    · exact ⟨hd, hsize, hcis⟩
    · exact absurd (hfile.symm.trans hno) (by decide)
    · exact absurd (hfile.symm.trans hno) (by decide)
  have hlen : content.length = stat.size.toNat := by
    obtain ⟨stat', hstat', -, hans, -⟩ := hf.fits.answers.stat
    cases hstat.symm.trans hstat'
    obtain ⟨content', hcontent', hlen⟩ := hans hfile
    cases hcontent.symm.trans hcontent'
    exact hlen
  have hcall : o.2.call = some ⟨o.2.path, .ok content, stat.size.toNat⟩ := by
    rw [Source.call, hostat, hstat, hofile, hcontent]
    dsimp only
    rw [hdir, if_neg Bool.false_ne_true, if_pos hfile]
  have hlt := (List.getElem?_eq_some_iff.mp ho).1
  have hlt' := (List.getElem?_eq_some_iff.mp hinode').1
  have htable := (List.forall₂_iff_get.mp htables).2 i hlt hlt'
  rw [List.get_eq_getElem, List.get_eq_getElem, (List.getElem?_eq_some_iff.mp ho).2,
    (List.getElem?_eq_some_iff.mp hinode').2, hcall, hdata] at htable
  cases htable with
  | some hrel =>
    obtain ⟨-, hcis⟩ := hrel
    have hall : BlobWriter.FileCall.content ⟨o.2.path, .ok content, stat.size.toNat⟩ = content := by
      rw [BlobWriter.FileCall.content]
      exact List.take_of_length_le (Nat.le_of_eq hlen)
    rw [BlobWriter.FileCall.chunks, hall] at hcis
    have hregular : RegularInode pl content cis := by
      obtain ⟨-, huid, hgid, -, -, hnlink, hext⟩ := hf.made.meta hstat
      exact ⟨hpdata, by rw [hsize, hlen], by rw [hext, huid, hgid, hnlink, hlen]; rfl, hf.count⟩
    have hbits : r.chunkbits (inodeView pl epoch bits) = bits := by
      rw [ErofsReader.chunkbits, h.tree.opened.blkszbits]
      exact chunkFormat_inodeView hpdata epoch hle (by omega)
    have hn : divCeil (inodeView pl epoch bits).size.toNat (2 ^ bits) = cis.length := by
      rw [hregular.view_size, hcis, List.length_map, length_chunksOf]
    have hmem : ∀ c ∈ chunksOf (2 ^ bits) content, c ∈ putAll [] (BlobWriter.callChunks (2 ^ bits)
        (callsAt os)) := by
      intro c hc
      refine mem_putAll (List.mem_flatMap.mpr ⟨_, List.mem_filterMap.mpr
        ⟨o, List.mem_of_getElem? ho, hcall⟩, ?_⟩) _
      rw [BlobWriter.FileCall.chunks, hall]
      exact hc
    refine ⟨hregular.view_size, ?_, by omega, by rw [hregular.view_size], chunkTable cis, ?_, ?_⟩
    · rw [dataLayout_inodeView, hpdata]
      rfl
    · exact chunkIndexes_ok hf.stands hf.count hpdata hbits (by omega) hn
    · rw [hbits, hcis]
      exact serves_table hh h.blocks hblob hbytes hmem hle (hlen ▸ stat.size.toNat_lt)

end

/-! ## The mirror -/

/-- **An image mirrors its source.** Some numbering of the paths makes the opened image answer
for every one of them. -/
theorem Mounted.mirrors (h : Mounted hash w₀ root os inodes placed buf epoch bits w r) :
    ∃ number, Mirrors root epoch ⟨r⟩ number := by
  classical
  -- the number of a path is that of the inode at its index
  have hexists : ∀ p, ∃ n, ∀ node i, Occurs root p node → IndexOf os (p, node) i →
      n = nidAt placed i + 1 := by
    intro p
    by_cases hp : ∃ node i, Occurs root p node ∧ IndexOf os (p, node) i
    · obtain ⟨node, i, hocc, hidx⟩ := hp
      refine ⟨nidAt placed i + 1, fun node' i' hocc' hidx' => ?_⟩
      cases hocc.unique hocc'
      rw [(h.built.complete.index_unique hidx hidx').mpr rfl]
    · exact ⟨0, fun node i hocc hidx => absurd ⟨node, i, hocc, hidx⟩ hp⟩
  choose number hnumber using hexists
  have hfinds : ∀ p node, Occurs root p node → ∃ i inode pl, IndexOf os (p, node) i ∧
      number p = nidAt placed i + 1 ∧ Finds r inodes placed epoch bits node i inode pl := by
    intro p node hocc
    obtain ⟨i, hidx⟩ := h.index hocc
    obtain ⟨inode, pl, hf⟩ := h.finds hocc hidx
    exact ⟨i, inode, pl, hidx, hnumber p node i hocc hidx, hf⟩
  refine ⟨number, ?_, ?_, ?_, ?_, ?_, ?_, ?_, ?_, ?_, ?_⟩
  · have hroot : IndexOf os ([], root) 0 := ⟨_, h.built.complete.first, rfl, List.lt_irrefl _⟩
    rw [hnumber [] root 0 .root hroot, h.tree.laidOut.rootNid]
    rfl
  · intro p a q b ha hb
    obtain ⟨i, _, pi, hi, hni, hfi⟩ := hfinds p a ha
    obtain ⟨j, _, pj, hj, hnj, hfj⟩ := hfinds q b hb
    rw [← h.built.represents.shared p a q b i j ha hb hi hj, hni, hnj]
    refine ⟨fun hsame => ?_, fun hsame => by rw [hsame]⟩
    have hnid : pi.nid = pj.nid := by
      rw [← nidAt_eq hfi.kept, ← nidAt_eq hfj.kept]
      omega
    exact index_inj_of_nodup (List.pairwise_map.mpr h.tree.laidOut.nids) hfi.kept hfj.kept hnid
  · intro p node hocc
    obtain ⟨i, inode, pl, -, hn, hf⟩ := hfinds p node hocc
    obtain ⟨stat, st, hstat, hattr, -, hshown⟩ := h.getattr hf
    rw [hn]
    exact ⟨stat, st, hstat, hattr, hshown⟩
  · intro p dir hocc hdir name q hname
    obtain ⟨i, inode, pl, hidx, hn, hf⟩ := hfinds p dir hocc
    obtain ⟨node, j, hnode, hj, hlookup⟩ := h.found hf hocc hdir hidx hname
    obtain ⟨_, _, hf'⟩ := h.finds hnode hj
    obtain ⟨st, hattr, hentry⟩ := h.entry hf'
    rw [hn, hnumber q node j hnode hj]
    exact ⟨st, hattr, hlookup.trans hentry⟩
  · intro p dir hocc hdir name hname
    obtain ⟨i, inode, pl, hidx, hn, hf⟩ := hfinds p dir hocc
    rw [hn]
    exact h.missing hf hocc hdir hidx hname
  · intro p dir hocc hdir
    obtain ⟨i, inode, pl, hidx, hn, hf⟩ := hfinds p dir hocc
    rw [hn]
    exact h.listed hf hocc hdir hidx hnumber
  · intro p node stat content hocc hstat hfile hcontent size offset
    obtain ⟨i, inode, pl, hidx, hn, hf⟩ := hfinds p node hocc
    obtain ⟨hsize, hserves⟩ := h.servesFile hf hocc hidx hstat hfile hcontent
    rw [hn, ErofsFs.read, (h.toIno hf).2, bind_ok, hf.read, bind_ok]
    exact writeFileDataTo_window hserves hsize offset size
  · intro p node stat target hocc hstat hlink htarget
    obtain ⟨i, inode, pl, -, hn, hf⟩ := hfinds p node hocc
    rw [hn]
    exact h.target hf hstat hlink htarget
  · intro p node hocc name size
    obtain ⟨i, inode, pl, -, hn, hf⟩ := hfinds p node hocc
    rw [hn, ErofsFs.getxattr, (h.toIno hf).2, bind_ok, hf.read, bind_ok, hf.xattrs]
    rfl
  · intro p node hocc size
    obtain ⟨i, inode, pl, -, hn, hf⟩ := hfinds p node hocc
    rw [hn, ErofsFs.listxattr, (h.toIno hf).2, bind_ok, hf.read, bind_ok, hf.xattrs, bind_ok,
      namesBuf_eq]
    rfl

end ErofsUtils.Roundtrip
