import ErofsUtils.Build.LayOut
import ErofsUtils.Build.Represents
import ErofsUtils.Paths.Resolve

/-! # The source directory and the root of the image

The source is accepted as a directory when its path leads to one over all links. The walk asks
for the metadata of the path without following a link at its end. -/
namespace ErofsUtils.Build
open ErofsUtils.Rust ErofsUtils.Bytes ErofsUtils.Metadata ErofsUtils.Text ErofsUtils.Fs
open ErofsUtils.Paths

/-- A filesystem: the metadata of each node says what it is, and a directory has one entry
of a name. -/
structure FileSystem (ι : Type) extends FileTree ι where
  maxLinks : Nat
  cwd : ι
  stat : ι → FileStat
  isDir_iff : ∀ i, (stat i).isDir = true ↔ ∃ parent entries, node i = .dir parent entries
  isSymlink_iff : ∀ i, (stat i).isSymlink = true ↔ ∃ target, node i = .link target
  names : ∀ i parent entries, node i = .dir parent entries →
    (entries.map Prod.fst).Nodup ∧ ∀ e ∈ entries, e.1.isSpecial = false

namespace FileSystem
variable {ι : Type} (fs : FileSystem ι)

/-- The node of a path; a link at its end is followed or is that node. -/
def find (follow : Bool) (p : Path) : Option ι := fs.resolve fs.maxLinks fs.cwd follow p

def metadata (p : Path) : Option FileStat := (fs.find true p).map fs.stat

def symlinkMetadata (p : Path) : Option FileStat := (fs.find false p).map fs.stat

def isDir (p : Path) : Bool := (fs.metadata p).any FileStat.isDir

/-- The calls of the walk on a path and on those joined from it report an error or what the
filesystem holds. -/
inductive Answers : Path → Source → Prop
  | mk {p : Path} {source : Source}
      (hstat : ∀ stat, source.stat = .ok stat → fs.symlinkMetadata p = some stat)
      (hlist : source.readDir = .ok () → source.iterate = .ok () → ∃ d parent entries,
        fs.find true p = some d ∧ fs.node d = .dir parent entries ∧
          (source.entries.map Prod.fst).Perm (entries.map Prod.fst))
      (hentries : ∀ e ∈ source.entries, Answers (p.join e.1) e.2) : Answers p source

/-- The child that stands for an entry: its inode has the file of the entry. -/
structure ChildFor (inodes : List InodeInfo) (e : Piece × ι) (de : DirEntry) : Prop where
  name : de.name = toStringLossy e.1
  fileType : de.fileType = modeToFileType (fs.stat e.2).mode.toUInt16
  file : ∃ (stat : FileStat) (ino : Nat) (size : UInt64) (data : InodeData) (xattrs : List Xattr),
    inodes[de.inodeIdx]? = some (stat.inode ino size data xattrs) ∧ stat.key = (fs.stat e.2).key

/-- The first inode is a directory whose children are the entries of the directory that the
path leads to over all links. -/
def AcceptedIsRoot (p : Path) (inodes : List InodeInfo) : Prop :=
  ∃ d parent entries root children startblk dirDataSize parentNid sorted,
    fs.find true p = some d ∧ fs.node d = .dir parent entries ∧ inodes[0]? = some root ∧
      root.data = .directory children startblk dirDataSize parentNid ∧
      List.Perm sorted entries ∧ List.Forall₂ (fs.ChildFor inodes) sorted children

/-- There is a link at the end of the path. -/
def EndsInLink (p : Path) : Prop := ∃ i, fs.find false p = some i ∧ (fs.node i).isLink = true

end FileSystem

/-- The superblock of an image of the inodes has the NID of the first one as that of the root. -/
def RootWritten (inodes : List InodeInfo) : Prop :=
  ∀ room epoch chunkbits blobBlocks uuid out,
    writeTree ⟨[], room⟩ inodes epoch chunkbits blobBlocks uuid = .ok out →
      ∃ placed layout root sb, layOut inodes epoch chunkbits = .ok (placed, layout) ∧
        placed[0]? = some root ∧
        ErofsReader.superblockFrom out.bytes erofsSuperOffset = .ok sb ∧ sb.rootNid = root.nid

/-- The source is validated and its tree is built. -/
def buildSource {ι : Type} (hash : List UInt8 → Digest) (fs : FileSystem ι) (p : Path)
    (source : Source) (w : BlobWriter) : BuildResult (List InodeInfo × BlobWriter) :=
  if ¬ fs.isDir p then fail (.bail s!"source {source.path} is not a directory")
  else buildTree hash source w

variable {ι : Type} {fs : FileSystem ι} {p : Path} {source : Source} {inodes : List InodeInfo}
  {w w' : BlobWriter} {hash : List UInt8 → Digest} {d : ι}

/-! ## The root NID -/

theorem rootWritten (inodes : List InodeInfo) : RootWritten inodes := by
  intro room epoch chunkbits blobBlocks uuid out h
  simp only [writeTree, bind_eq_ok, liftIo_eq_ok] at h
  obtain ⟨⟨placed, layout⟩, hlay, root, hroot, h⟩ := h
  split at h
  · cases h
  · rename_i hle
    obtain ⟨-, -, hsb⟩ := writeImage_bytes h rfl
    refine ⟨placed, layout, root, _, hlay, getAt_eq_ok.mp hroot, hsb, ?_⟩
    exact UInt16.toNat_ofNat_of_lt' (Nat.lt_succ_of_le (not_not.mp hle))

/-! ## What the calls of the walk say -/

theorem buildSource_eq_ok : buildSource hash fs p source w = .ok (inodes, w') ↔
    fs.isDir p = true ∧ buildTree hash source w = .ok (inodes, w') := by
  unfold buildSource
  split
  · rename_i hno
    exact ⟨nofun, fun h => absurd h.1 hno⟩
  · rename_i hyes
    exact ⟨fun h => ⟨not_not.mp hyes, h⟩, fun h => h.2⟩

theorem FileSystem.isDir_eq_true : fs.isDir p = true ↔
    ∃ d, fs.find true p = some d ∧ (fs.stat d).isDir = true := by
  unfold FileSystem.isDir FileSystem.metadata
  cases fs.find true p <;> simp

theorem isSymlink_not_isDir {stat : FileStat} (h : stat.isSymlink = true) :
    stat.isDir = false := by
  unfold FileStat.isSymlink at h
  unfold FileStat.isDir
  rw [eq_of_beq h]
  rfl

theorem FileSystem.Answers.stat_eq {stat : FileStat} {i : ι} (h : fs.Answers p source)
    (hstat : source.stat = .ok stat) (hfind : fs.find false p = some i) : stat = fs.stat i := by
  obtain ⟨hanswer, -, -⟩ := h
  have hmeta := hanswer stat hstat
  rw [FileSystem.symlinkMetadata, hfind] at hmeta
  exact (Option.some.inj hmeta).symm

/-- A build asks for the metadata of its path first. -/
theorem buildTree_stat (h : buildTree hash source w = .ok (inodes, w')) :
    ∃ stat, source.stat = .ok stat := by
  obtain ⟨idx, st, hrun, -⟩ := walk_of_buildTree h
  rw [buildTreeRecursive] at hrun
  simp only [bind_eq_ok, withContext_eq_ok] at hrun
  obtain ⟨stat, hstat, -⟩ := hrun
  exact ⟨stat, hstat⟩

/-- The build of a directory reads it. -/
theorem buildTree_reads {stat : FileStat} (hstat : source.stat = .ok stat)
    (hdir : stat.isDir = true) (h : buildTree hash source w = .ok (inodes, w')) :
    source.readDir = .ok () ∧ source.iterate = .ok () := by
  obtain ⟨idx, st, hrun, -⟩ := walk_of_buildTree h
  obtain ⟨-, hread, hiterate, -⟩ := buildTreeRecursive_dir hstat hdir hrun
  exact ⟨hread, hiterate⟩

/-- Whatever is no directory is built as one inode without children. -/
theorem buildTree_leaf {stat : FileStat} (hstat : source.stat = .ok stat)
    (hdir : stat.isDir = false) (h : buildTree hash source w = .ok (inodes, w')) :
    ∃ inode, inodes = [inode] ∧ inode.data.isDirectory = false := by
  obtain ⟨idx, st, hrun, rfl⟩ := walk_of_buildTree h
  obtain ⟨-, -, -, inode, hinodes, -, -, hkind⟩ := buildTreeRecursive_leaf hstat hdir hrun
  exact ⟨inode, hinodes, hkind⟩

/-! ## A path that ends in no link -/

/-- Then both ways lead to the same node. -/
theorem find_of_not_endsInLink (hfind : fs.find true p = some d) (hno : ¬ fs.EndsInLink p) :
    fs.find false p = some d := by
  obtain ⟨i, hi, rfl | hlink⟩ := FileTree.resolve_nofollow hfind
  · exact hi
  · exact absurd ⟨i, hi, hlink⟩ hno

/-- The metadata of a listed name is that of the entry. -/
theorem stat_of_entry {parent : ι} {entries : List (Piece × ι)} {e : Piece × ι} {child : Source}
    {stat : FileStat} (hfind : fs.find true p = some d) (hnode : fs.node d = .dir parent entries)
    (he : e ∈ entries) (hans : fs.Answers (p.join e.1) child) (hstat : child.stat = .ok stat) :
    stat = fs.stat e.2 := by
  obtain ⟨hnodup, hspecial⟩ := fs.names d parent entries hnode
  have hjoin : fs.find false (p.join e.1) = some e.2 :=
    (FileTree.resolve_join hfind e.1).trans
      (FileTree.enter_entry hnode hnodup (hspecial e he) he)
  exact hans.stat_eq hstat hjoin

/-- The child recorded for a listed name stands for the entry of that name. -/
theorem childFor_of_entryOf {e : Piece × ι} {named : List UInt8 × Source} {de : DirEntry}
    (hname : named.1 = e.1) (hstat : ∀ stat, named.2.stat = .ok stat → stat = fs.stat e.2)
    (h : EntryOf inodes named de) : fs.ChildFor inodes e de := by
  obtain ⟨stat, hok, htype⟩ := h.fileType
  obtain rfl := hstat stat hok
  obtain ⟨other, ⟨inode, hat, stat', ino, size, data, hother, rfl⟩, hsame⟩ := h.file
  refine ⟨h.name.trans (congrArg toStringLossy hname), htype, stat', ino, size, data, _, hat, ?_⟩
  rcases hsame with rfl | ⟨s, s', hs, hs', hkey⟩
  · rw [hstat stat' hother]
  · rw [hother] at hs'
    cases hs'
    rw [← hkey, hstat s hs]

/-- The children of the first inode stand for the entries of the directory. -/
theorem children_of_answers {parent : ι} {entries : List (Piece × ι)} {children : List DirEntry}
    (hfind : fs.find true p = some d) (hnode : fs.node d = .dir parent entries)
    (hans : fs.Answers p source)
    (hnames : (source.entries.map Prod.fst).Perm (entries.map Prod.fst))
    (hchildren : List.Forall₂ (EntryOf inodes) (sortByFileName source.entries) children) :
    ∃ sorted, List.Perm sorted entries ∧ List.Forall₂ (fs.ChildFor inodes) sorted children := by
  have hperm := sortByFileName_perm source.entries
  have hsorted : ((sortByFileName source.entries).map Prod.fst).Perm (entries.map Prod.fst) :=
    (hperm.map _).trans hnames
  obtain ⟨sorted, hmap, hsame⟩ : ∃ sorted, (sortByFileName source.entries).map Prod.fst =
      sorted.map Prod.fst ∧ List.Perm sorted entries := by
    have hcomp := congrFun₂ (List.eq_map_comp_perm Prod.fst)
      ((sortByFileName source.entries).map Prod.fst) entries
    exact hcomp.mpr hsorted
  refine ⟨sorted, hsame, ?_⟩
  obtain ⟨hlen, hname⟩ := List.forall₂_iff_get.mp (forall₂_of_map_eq hmap)
  obtain ⟨hcount, heach⟩ := List.forall₂_iff_get.mp hchildren
  refine List.forall₂_iff_get.mpr ⟨hlen.symm.trans hcount, fun i hi hi' => ?_⟩
  have hlt : i < (sortByFileName source.entries).length := hlen ▸ hi
  obtain ⟨-, -, hbelow⟩ := hans
  refine childFor_of_entryOf (hname i hlt hi) (fun stat hstat => ?_) (heach i hlt hi')
  refine stat_of_entry hfind hnode (hsame.mem_iff.mp (List.getElem_mem hi)) ?_ hstat
  rw [← hname i hlt hi]
  exact hbelow _ (hperm.mem_iff.mp (List.getElem_mem hlt))

/-- **The accepted directory** becomes the root when the path ends in no link. -/
theorem acceptedIsRoot_of_not_endsInLink (hans : fs.Answers p source)
    (hno : ¬ fs.EndsInLink p) (hdir : fs.isDir p = true)
    (hbuild : buildTree hash source w = .ok (inodes, w')) : fs.AcceptedIsRoot p inodes := by
  obtain ⟨d, hfind, hisDir⟩ := FileSystem.isDir_eq_true.mp hdir
  obtain ⟨stat, hstat⟩ := buildTree_stat hbuild
  obtain rfl := hans.stat_eq hstat (find_of_not_endsInLink hfind hno)
  have hsource : source.isDir = true := (isDir_of_ok hstat).trans hisDir
  obtain ⟨hread, hiterate⟩ := buildTree_reads hstat hisDir hbuild
  obtain ⟨-, hlist, -⟩ := id hans
  obtain ⟨d', parent, entries, hfind', hnode, hnames⟩ := hlist hread hiterate
  rw [hfind] at hfind'
  obtain rfl := Option.some.inj hfind'
  obtain ⟨os, hcomplete⟩ := buildTree_complete hbuild hsource
  obtain ⟨root, hroot, hmade⟩ := hcomplete.made_at hcomplete.first
  obtain ⟨hroot', hchildren, -, -⟩ := buildTree_recorded hbuild hsource
  rw [hroot] at hroot'
  obtain rfl := Option.some.inj hroot'
  obtain ⟨sorted, hperm, hfor⟩ := children_of_answers hfind hnode hans hnames hchildren
  have hkind := hmade.isDir.trans hsource
  cases hdata : root.data with
  | directory children startblk dirDataSize parentNid =>
    rw [hdata] at hfor
    exact ⟨d, parent, entries, root, children, startblk, dirDataSize, parentNid, sorted, hfind,
      hnode, hroot, hdata, hperm, hfor⟩
  | regularFile | symlink | specialDev | specialNoData =>
    rw [hdata] at hkind
    cases hkind

/-! ## A path that ends in a link -/

/-- Then the link is built, and nothing else. -/
theorem not_acceptedIsRoot_of_endsInLink (hans : fs.Answers p source) (hlink : fs.EndsInLink p)
    (hbuild : buildTree hash source w = .ok (inodes, w')) : ¬ fs.AcceptedIsRoot p inodes := by
  obtain ⟨i, hfind, hisLink⟩ := hlink
  obtain ⟨stat, hstat⟩ := buildTree_stat hbuild
  obtain rfl := hans.stat_eq hstat hfind
  have hsymlink : (fs.stat i).isSymlink = true := by
    rw [fs.isSymlink_iff]
    cases hnode : fs.node i with
    | link target => exact ⟨target, rfl⟩
    | dir | other =>
      rw [hnode] at hisLink
      cases hisLink
  obtain ⟨inode, rfl, hkind⟩ := buildTree_leaf hstat (isSymlink_not_isDir hsymlink) hbuild
  rintro ⟨_, _, _, root, _, _, _, _, _, -, -, hroot, hdata, -⟩
  cases hroot
  rw [hdata] at hkind
  cases hkind

/-- **What is accepted as a source directory** becomes the root of the image exactly when its
path does not end in a link. -/
theorem buildSource_root_iff (hans : fs.Answers p source)
    (h : buildSource hash fs p source w = .ok (inodes, w')) :
    fs.AcceptedIsRoot p inodes ∧ RootWritten inodes ↔ ¬ fs.EndsInLink p := by
  obtain ⟨hdir, hbuild⟩ := buildSource_eq_ok.mp h
  constructor
  · rintro ⟨hroot, -⟩ hlink
    exact not_acceptedIsRoot_of_endsInLink hans hlink hbuild hroot
  · intro hno
    exact ⟨acceptedIsRoot_of_not_endsInLink hans hno hdir hbuild, rootWritten inodes⟩

/-! ## A directory and a link to it -/

inductive LinkedNode where
  | top | dir | file | link
deriving DecidableEq

/-- At the top are the directory `d`, with an empty file `a`, and the link `l` to `d`. -/
def linkedFs : FileSystem LinkedNode where
  root := .top
  node
    | .top => .dir .top [([100], .dir), ([108], .link)]
    | .dir => .dir .top [([97], .file)]
    | .file => .other
    | .link => .link { absolute := false, pieces := [[100]] }
  maxLinks := 40
  cwd := .top
  stat
    | .top => statOf 0o040755 4
    | .dir => statOf 0o040755 1
    | .file => statOf 0o100644 2
    | .link => statOf 0o120777 3
  isDir_iff := by
    intro i
    cases i <;> simp [FileStat.isDir, statOf] <;> decide
  isSymlink_iff := by
    intro i
    cases i <;> simp [FileStat.isSymlink, statOf] <;> decide
  names := by
    intro i parent entries h
    cases i <;> cases h <;> decide

def pathTo (name : Piece) : Path := { absolute := false, pieces := [name] }

def listedDir : Source := filesDir [([97], plainFile 2)]

/-- What the calls on a link to the directory answer. -/
def linkToDir : Source :=
  { listedDir with path := "l", stat := .ok (statOf 0o120777 3), link := .ok [100] }

theorem answers_plainFile {p : Path} (h : linkedFs.symlinkMetadata p = some (statOf 0o100644 2)) :
    linkedFs.Answers p (plainFile 2) :=
  .mk (fun _ hstat => by cases hstat; exact h) nofun nofun

theorem answers_listed {p : Path} {source : Source} {stat : FileStat}
    (hok : source.stat = .ok stat) (hentries : source.entries = [([97], plainFile 2)])
    (hstat : linkedFs.symlinkMetadata p = some stat) (hfind : linkedFs.find true p = some .dir)
    (hfile : linkedFs.symlinkMetadata (p.join [97]) = some (statOf 0o100644 2)) :
    linkedFs.Answers p source := by
  refine .mk (fun stat' hstat' => ?_) (fun _ _ => ?_) (fun e he => ?_)
  · rw [hok] at hstat'
    cases hstat'
    exact hstat
  · rw [hentries]
    exact ⟨.dir, .top, _, hfind, rfl, .refl _⟩
  · rw [hentries, List.mem_singleton] at he
    rw [he]
    exact answers_plainFile hfile

theorem buildSource_root_iff_listedDir : ∃ inodes w',
    buildSource noDigest linkedFs (pathTo [100]) listedDir emptyBlob = .ok (inodes, w') ∧
      (linkedFs.AcceptedIsRoot (pathTo [100]) inodes ∧ RootWritten inodes ↔
        ¬ linkedFs.EndsInLink (pathTo [100])) := by
  have hans : linkedFs.Answers (pathTo [100]) listedDir :=
    answers_listed rfl rfl (by decide) (by decide) (by decide)
  have hfiles : ∀ e ∈ [(([97] : List UInt8), plainFile 2)], ∃ ino, e.2 = plainFile ino :=
    fun e he => ⟨2, by rw [List.mem_singleton.mp he]⟩
  obtain ⟨inodes, w', hbuild⟩ := buildTree_filesDir hfiles noDigest (by decide)
  have h : buildSource noDigest linkedFs (pathTo [100]) listedDir emptyBlob = .ok (inodes, w') :=
    buildSource_eq_ok.mpr ⟨by decide, hbuild⟩
  exact ⟨inodes, w', h, buildSource_root_iff hans h⟩

/-- The link is accepted as a source directory, and it becomes the root. -/
theorem not_acceptedIsRoot_linkToDir : linkedFs.Answers (pathTo [108]) linkToDir ∧
    ∃ inodes w',
      buildSource noDigest linkedFs (pathTo [108]) linkToDir emptyBlob = .ok (inodes, w') ∧
        ¬ linkedFs.AcceptedIsRoot (pathTo [108]) inodes := by
  have hans : linkedFs.Answers (pathTo [108]) linkToDir :=
    answers_listed rfl rfl (by decide) (by decide) (by decide)
  have hnot : linkToDir.isDir = false := by decide
  have hio : NoIoError linkToDir := by
    intro p node hocc
    obtain ⟨-, rfl⟩ := hocc.of_not_isDir hnot
    exact ⟨_, rfl, fun h => absurd h (by decide), fun h => absurd h (by decide), fun _ => ⟨_, rfl⟩⟩
  have htotal : ∀ f, linkToDir.total f = f linkToDir := by
    intro f
    rw [Source.total_entries, hnot, if_neg Bool.false_ne_true, Nat.add_zero]
  obtain ⟨inodes, w', hbuild⟩ := buildTree_returns noDigest hio (w := emptyBlob)
    (by rw [htotal]; decide) (by decide) (by rw [htotal]; exact ⟨by decide, by decide, by decide⟩)
  exact ⟨hans, inodes, w', buildSource_eq_ok.mpr ⟨by decide, hbuild⟩,
    not_acceptedIsRoot_of_endsInLink hans ⟨.link, by decide, rfl⟩ hbuild⟩

end ErofsUtils.Build
