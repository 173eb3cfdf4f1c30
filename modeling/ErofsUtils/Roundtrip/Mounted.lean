import ErofsUtils.Roundtrip.FileData
import ErofsUtils.Roundtrip.Shown
import ErofsUtils.Roundtrip.Symlink

/-! # A source behind an image

A source is built, laid out, written and opened again, with its blob as the device. Each path
of it has an index, and the inode that a reader finds there was made for the path. -/
namespace ErofsUtils.Roundtrip
open ErofsUtils.Rust ErofsUtils.Bytes ErofsUtils.Metadata ErofsUtils.Build ErofsUtils.Fs
open ErofsUtils.Store

/-- The source went through a new blob writer into an image, and the image is open. -/
structure Mounted (hash : List UInt8 → Digest) (w₀ : BlobWriter) (root : Source)
    (os : List (List Nat × Source)) (inodes placed : List InodeInfo) (buf : List UInt8)
    (epoch : UInt64) (bits : Nat) (w : BlobWriter) (r : ErofsReader) : Prop where
  built : Built hash w₀ root os inodes w
  tree : OpenedTree r inodes placed buf epoch bits
  fresh : BlobWriter.Holds hash w₀ []
  chunksize : w₀.chunksize = 2 ^ bits
  accepted : 12 ≤ bits ∧ bits ≤ 31
  digests : TreeDigestsDiffer hash (2 ^ bits) root
  blocks : w.totalBlocks < 2 ^ 48 - 1
  blob : ∃ blob, r.blobMmap = some blob ∧ blob.bytes = w.file.bytes

/-- What stands at the index of a path. -/
structure Finds (r : ErofsReader) (inodes placed : List InodeInfo) (epoch : UInt64) (bits : Nat)
    (node : Source) (i : Nat) (inode p : InodeInfo) : Prop where
  given : inodes[i]? = some inode
  kept : placed[i]? = some p
  made : PlacedFor node inode p
  read : r.inode (nidAt placed i) = .ok (inodeView p epoch bits)
  small : nidAt placed i < 2 ^ 55
  stands : r.StandsAt (nidAt placed i) (inodeBytes p epoch bits)
  fits : NodeFits node
  count : CountFits p

variable {hash : List UInt8 → Digest} {w₀ w : BlobWriter} {root node dir : Source}
  {os : List (List Nat × Source)} {inodes placed : List InodeInfo} {buf : List UInt8}
  {epoch : UInt64} {bits : Nat} {r : ErofsReader} {p : List Nat} {i : Nat} {stat : FileStat}

/-- The size of a directory is that of its serialized data. -/
theorem OpenedTree.dir_size (h : OpenedTree r inodes placed buf epoch bits) {dir q : InodeInfo}
    (hi : inodes[i]? = some dir) (hdir : dir.isDir = true) (hq : placed[i]? = some q) :
    q.size = UInt64.ofNat (dirBlocks (dir.data.children.map DirEntry.name) * erofsBlockSize) := by
  obtain ⟨q', hq', he⟩ := kept_getElem? h.laidOut.kept.symm hi
  rw [hq] at hq'
  cases hq'
  obtain ⟨hisDir, hchildren, -⟩ := InodeInfo.eq_of_unplaced he
  obtain ⟨parent, _, -, -, hall, hsome⟩ := h.parent hi hdir
  obtain ⟨data, off, hser, -, hsize, -⟩ := h.laidOut.dir i q hq (hisDir ▸ hdir) _ hall hsome
  have hnames : (nidEntries placed q.data.children).map DirChild.name =
      dir.data.children.map DirEntry.name := by
    rw [nidEntries, List.map_map, hchildren]
    rfl
  rw [hsize, length_serializeDirectory hser, hnames]

section
variable (h : Mounted hash w₀ root os inodes placed buf epoch bits w r)
include h

/-- A path of the source has an index. -/
theorem Mounted.index (hocc : Occurs root p node) : ∃ i, IndexOf os (p, node) i :=
  h.built.complete.indexed p node hocc

/-- At the index of a path stands what was made for it. -/
theorem Mounted.finds (hocc : Occurs root p node) (hidx : IndexOf os (p, node) i) :
    ∃ inode q, Finds r inodes placed epoch bits node i inode q := by
  obtain ⟨o, inode, ho, hinode, hmade, -, hisDir, -⟩ := h.built.inode_of hocc hidx
  obtain ⟨q, hq, he⟩ := kept_getElem? h.tree.laidOut.kept.symm hinode
  obtain ⟨hdir, -, hxattrs, -⟩ := InodeInfo.eq_of_unplaced he
  have hmem := List.mem_of_getElem? hinode
  have hcount : CountFits q := by
    unfold CountFits
    rw [← hxattrs]
    exact h.tree.shape.xattrs inode hmem
  have hstands := h.tree.opened.standsAt (h.tree.laidOut.inode q (List.mem_of_getElem? hq))
    (inodeBytes_ne_nil q epoch bits)
  rw [← nidAt_eq hq] at hstands
  refine ⟨inode, q, hinode, hq, ⟨hmade, he.symm, ?_⟩, h.tree.inode_ok hq, h.tree.nid_lt hq, hstands,
    h.built.fits p node hocc, hcount⟩
  intro hqdir
  have hinodeDir : inode.isDir = true := hdir.trans hqdir
  have hdir' : node.isDir = true := hisDir.symm.trans hinodeDir
  have hat := h.built.complete.dir_at hocc hdir' hidx
  rw [h.tree.dir_size hinode hinodeDir hq, h.built.names hat hdir' hinode]

/-- The parent of a directory's index is the index of the path above it. -/
theorem Mounted.parent (hocc : Occurs root p dir) (hdir : dir.isDir = true)
    (hidx : IndexOf os (p, dir) i) {parent : Nat} (hparent : ParentOf inodes parent i) :
    ∃ up, Occurs root p.dropLast up ∧ IndexOf os (p.dropLast, up) parent := by
  have hroot : IndexOf os ([], root) 0 := ⟨_, h.built.complete.first, rfl, List.lt_irrefl _⟩
  unfold ParentOf at hparent
  split at hparent
  · rename_i hzero
    subst hzero hparent
    have hid := (h.built.complete.index_unique hidx hroot).mp rfl
    rw [identity_of_isDir (o := (p, dir)) hdir, identity_of_isDir (o := ([], root)) h.built.dir] at hid
    obtain rfl : p = [] := Identity.place.inj hid
    exact ⟨root, .root, hroot⟩
  · obtain ⟨up, hup, de, hde, rfl⟩ := hparent
    obtain ⟨q, updir, k, e, hat, -, hocc', -, -, -, hidx'⟩ := h.built.child_at hup hde
    have hid := (h.built.complete.index_unique hidx hidx').mp rfl
    rw [identity_of_isDir (o := (p, dir)) hdir] at hid
    obtain rfl : q ++ [k] = p := place_of_identity hid.symm
    rw [List.dropLast_concat]
    exact ⟨updir, hocc', _, hat, rfl, List.lt_irrefl _⟩

/-- The children of a directory stand at the indexes of its entries. -/
theorem Mounted.child (hocc : Occurs root p dir) (hdir : dir.isDir = true)
    (hidx : IndexOf os (p, dir) i) {inode : InodeInfo} (hinode : inodes[i]? = some inode) {k : Nat}
    {e : List UInt8 × Source} (he : (sortByFileName dir.entries)[k]? = some e) :
    ∃ de, inode.data.children[k]? = some de ∧ de.name = e.1 ∧
      IndexOf os (p ++ [k], e.2) de.inodeIdx ∧ ∃ stat, e.2.stat = .ok stat ∧
        de.fileType = modeToFileType stat.mode.toUInt16 := by
  have hat := h.built.complete.dir_at hocc hdir hidx
  have hchildren := h.built.children hat hdir hinode
  have hlt := hchildren.length ▸ (List.getElem?_eq_some_iff.mp he).1
  obtain ⟨de, hde⟩ : ∃ de, inode.data.children[k]? = some de := ⟨_, List.getElem?_eq_getElem hlt⟩
  obtain ⟨-, hindex, child, hchild, hft⟩ := hchildren.each k e de he hde
  have hname := congrArg (fun l => l[k]?) (h.built.names hat hdir hinode)
  rw [List.getElem?_map, List.getElem?_map, hde, he] at hname
  obtain ⟨c, q, hfinds⟩ := h.finds (.entry hocc hdir he) hindex
  obtain ⟨stat, ino, size, data, hstat, rfl, -⟩ := hfinds.made.made
  obtain rfl := Option.some.inj (hchild.symm.trans hfinds.given)
  exact ⟨de, hde, Option.some.inj hname, hindex, stat, hstat, hft⟩

end

end ErofsUtils.Roundtrip
