import ErofsUtils.Build.Main
import ErofsUtils.Build.TreeBlob

/-! # The size of an image

How large an image gets is a matter of the source alone: a block for the superblock, the blocks
of the inode slots, one slot for each file however many names it has, and the blocks of each
directory. -/
namespace ErofsUtils.Build
open ErofsUtils.Rust ErofsUtils.Bytes ErofsUtils.Metadata ErofsUtils.Store ErofsUtils.Text
open BlobWriter (FileCall writeCalls)

/-! ## Sizes of a source -/

/-- What follows the attributes in the slot of a path: an entry for each chunk, or a target. -/
def Source.tailSize (cs : Nat) (source : Source) (stat : FileStat) : Nat :=
  if stat.isDir then 0
  else if stat.isFile then divCeil stat.size.toNat cs * erofsChunkIndexSize
  else if stat.isSymlink then
    match source.link with
    | .ok target => target.length
    | .error _ => 0
  else 0

/-- The slot of a path. -/
def Source.slotSize (cs : Nat) (source : Source) : Nat :=
  match source.stat with
  | .ok stat =>
    let base := if isExtendedFor stat.size.toNat stat.uid stat.gid stat.nlink.toUInt32 then
      erofsInodeExtendedSize else erofsInodeCompactSize
    alignUp (base + xattrIbodySize (readXattrsFromPath source.xattrs) + source.tailSize cs stat) 32
  | .error _ => 0

/-- The blocks of a path that is a directory. -/
def Source.dirBlocks (source : Source) : Nat :=
  if source.isDir then
    Build.dirBlocks ((sortByFileName source.entries).map fun e => toStringLossy e.1)
  else 0

/-- The blocks of an image with these paths in it. -/
def imageBlocks (cs : Nat) (places : List (List Nat × Source)) : Nat :=
  1 + divCeil (load (fun o => o.2.slotSize cs) places) erofsBlockSize +
    load (fun o => o.2.dirBlocks) places

/-- One place for each file of the tree. -/
structure EachFile (root : Source) (places : List (List Nat × Source)) : Prop where
  occurs : ∀ o ∈ places, Occurs root o.1 o.2
  apart : (places.map identity).Nodup
  covers : ∀ p node, Occurs root p node → identity (p, node) ∈ places.map identity

variable {hash : List UInt8 → Digest} {root node : Source} {os places others : List (List Nat × Source)}
  {inodes : List InodeInfo} {w w' : BlobWriter} {cs : Nat}

theorem Complete.eachFile (h : Complete root os inodes) : EachFile root os where
  occurs := by
    intro o ho
    obtain ⟨i, hi⟩ := List.mem_iff_getElem?.mp ho
    obtain ⟨_, -, hmade⟩ := h.made_at hi
    exact hmade.occurs
  apart := h.apart
  covers := by
    intro p node hocc
    obtain ⟨i, o, ho, hid, -⟩ := h.indexed p node hocc
    exact List.mem_map.mpr ⟨o, List.mem_of_getElem? ho, hid⟩

/-- Names of one file take the same. -/
theorem Snapshot.sizes (h : Snapshot root) {o o' : List Nat × Source} (ho : Occurs root o.1 o.2)
    (ho' : Occurs root o'.1 o'.2) (hid : identity o = identity o') :
    o.2.slotSize cs = o'.2.slotSize cs ∧ o.2.dirBlocks = o'.2.dirBlocks := by
  obtain ⟨hstat, -, hlink, hxattrs⟩ := h.same ho ho' hid
  constructor
  · unfold Source.slotSize Source.tailSize
    rw [hstat, hlink, hxattrs]
  · unfold Source.dirBlocks
    rcases (identity_eq_iff ho ho').mp hid with hp | ⟨stat, stat', hs, hs', hl, hl', -⟩
    · rw [ho.unique (hp ▸ ho')]
    · have hnot : ∀ {node : Source} {stat : FileStat}, node.stat = .ok stat →
          stat.isHardlinked = true → ¬ node.isDir = true := by
        intro node stat hs hl hdir
        rw [isHardlinked_of_isDir ((isDir_of_ok hs).symm.trans hdir)] at hl
        cases hl
      rw [if_neg (hnot hs hl), if_neg (hnot hs' hl')]

theorem EachFile.mem_of_mem (h : EachFile root places) (h' : EachFile root others) {k : Identity}
    (hk : k ∈ places.map identity) : k ∈ others.map identity := by
  obtain ⟨o, ho, rfl⟩ := List.mem_map.mp hk
  exact h'.covers o.1 o.2 (h.occurs o ho)

/-- All lists of the files are as long. -/
theorem EachFile.length_eq (h : EachFile root places) (h' : EachFile root others) :
    places.length = others.length := by
  have hperm : (places.map identity).Perm (others.map identity) :=
    (List.perm_ext_iff_of_nodup h.apart h'.apart).mpr fun _ => ⟨h.mem_of_mem h', h'.mem_of_mem h⟩
  have hlen := hperm.length_eq
  rwa [List.length_map, List.length_map] at hlen

/-- Whichever name of a file stands for it. -/
theorem EachFile.imageBlocks_eq (h : EachFile root places) (h' : EachFile root others)
    (hsnap : Snapshot root) : imageBlocks cs places = imageBlocks cs others := by
  have hkeys : ∀ k, k ∈ places.map identity ↔ k ∈ others.map identity :=
    fun _ => ⟨h.mem_of_mem h', h'.mem_of_mem h⟩
  have hsame : ∀ o ∈ places, ∀ o' ∈ others, identity o = identity o' →
      o.2.slotSize cs = o'.2.slotSize cs ∧ o.2.dirBlocks = o'.2.dirBlocks :=
    fun o ho o' ho' => hsnap.sizes (h.occurs o ho) (h'.occurs o' ho')
  rw [imageBlocks, imageBlocks,
    load_eq_of_keys h.apart h'.apart hkeys fun o ho o' ho' hid => (hsame o ho o' ho' hid).1,
    load_eq_of_keys h.apart h'.apart hkeys fun o ho o' ho' hid => (hsame o ho o' ho' hid).2]

/-! ## Chunk tables -/

theorem writeChunk_chunksize {chunk : List UInt8} {ci : ChunkIndex}
    (h : BlobWriter.writeChunk hash w chunk = .ok (ci, w')) : w'.chunksize = w.chunksize :=
  (BlobWriter.writeChunk_accounted h).2

theorem length_writeChunksFrom {path : String} {fileSize n i : Nat} {f : List UInt8}
    {cis : List ChunkIndex}
    (h : BlobWriter.writeChunksFrom hash path fileSize cs n i f w = .ok (cis, w')) :
    cis.length = n ∧ w'.chunksize = w.chunksize := by
  induction n generalizing i f w cis with
  | zero =>
    cases h
    exact ⟨rfl, rfl⟩
  | succ n ih =>
    simp only [BlobWriter.writeChunksFrom, bind_eq_ok, pure_eq_ok, Except.ok.injEq, Prod.exists,
      Prod.mk.injEq] at h
    obtain ⟨_, -, _, -, chunk, f', -, ci, w₁, hstep, cis', w₂, hrest, rfl, rfl⟩ := h
    obtain ⟨hlen, hsize⟩ := ih hrest
    exact ⟨congrArg (· + 1) hlen, hsize.trans (writeChunk_chunksize hstep)⟩

theorem length_writeFileChunks {path : String} {file : IoResult (List UInt8)} {fileSize : Nat}
    {cis : List ChunkIndex} (h : BlobWriter.writeFileChunks hash w path file fileSize = .ok (cis, w')) :
    cis.length = divCeil fileSize w.chunksize ∧ w'.chunksize = w.chunksize := by
  unfold BlobWriter.writeFileChunks at h
  split at h
  · rename_i hzero
    cases h
    refine ⟨?_, rfl⟩
    rw [hzero, divCeil, Nat.zero_add, List.length_nil]
    exact (Nat.div_eq_zero_iff.mpr (by omega)).symm
  · obtain ⟨f, -, h⟩ := bind_eq_ok.mp h
    exact length_writeChunksFrom h

/-- A table has an entry for each chunk. -/
theorem lengths_writeCalls {calls : List FileCall} {tables : List (List ChunkIndex)}
    (h : writeCalls hash calls w = .ok (tables, w')) :
    List.Forall₂ (fun call cis => cis.length = divCeil call.fileSize w.chunksize) calls tables := by
  induction calls generalizing w tables with
  | nil =>
    cases h
    exact .nil
  | cons call calls ih =>
    simp only [writeCalls, bind_eq_ok, pure_eq_ok, Except.ok.injEq, Prod.exists,
      Prod.mk.injEq] at h
    obtain ⟨cis, w₁, hfile, tables', w₂, hrest, rfl, rfl⟩ := h
    obtain ⟨hlen, hsize⟩ := length_writeFileChunks hfile
    exact .cons hlen (hsize ▸ ih hrest)

/-! ## Inodes -/

/-- The slot that is allocated for the inode of a path. -/
theorem slot_of_madeFor {inode : InodeInfo} (h : inode.MadeFor node)
    (htable : Option.Rel (fun call cis => cis.length = divCeil call.fileSize cs) node.call
      inode.data.table) (chunkbits : Nat) :
    alignUp (inodeMetaSize inode chunkbits 12) 32 = node.slotSize cs := by
  obtain ⟨stat, ino, size, data, hstat, rfl, hdata⟩ := h
  have hbase : (stat.inode ino size data (readXattrsFromPath node.xattrs)).base =
      if isExtendedFor stat.size.toNat stat.uid stat.gid stat.nlink.toUInt32 then
        erofsInodeExtendedSize else erofsInodeCompactSize := rfl
  have htail : (inodeTail (stat.inode ino size data (readXattrsFromPath node.xattrs))).length =
      node.tailSize cs stat := by
    rw [Source.tailSize]
    cases hdata with
    | directory hdir => rw [if_pos hdir]; rfl
    | @file cis hdir hfile =>
      rw [Source.call, hstat] at htable
      dsimp only at htable
      rw [hdir, if_neg Bool.false_ne_true, if_pos hfile] at htable
      cases htable with
      | some hlen =>
        rw [hdir, if_neg Bool.false_ne_true, if_pos hfile]
        exact (length_chunkTable cis).trans (congrArg (· * 8) hlen)
    | link hdir hfile hlink htarget =>
      rw [hdir, hfile, if_neg Bool.false_ne_true, if_neg Bool.false_ne_true, if_pos hlink, htarget]
      rfl
    | special hdir hfile hlink hdata =>
      rw [hdir, hfile, hlink, if_neg Bool.false_ne_true, if_neg Bool.false_ne_true,
        if_neg Bool.false_ne_true]
      split at hdata
      all_goals rw [hdata]; rfl
  rw [inodeMetaSize_eq, htail, hbase, Source.slotSize, hstat]
  rfl

/-- The slots of a build. -/
theorem Fed.slotSpace {w₀ : BlobWriter} (h : Fed hash w₀ os inodes w) (chunkbits : Nat) :
    slotSpace chunkbits inodes = load (fun o => o.2.slotSize w₀.chunksize) os := by
  have htables : List.Forall₂ (fun (o : List Nat × Source) (inode : InodeInfo) =>
      Option.Rel (fun call cis => cis.length = divCeil call.fileSize w₀.chunksize) o.2.call
        inode.data.table) os inodes :=
    forall₂_of_filterMap (h.each.imp fun _ _ hab => hab.2) (lengths_writeCalls h.run)
  have hslots : List.Forall₂ (fun (o : List Nat × Source) (inode : InodeInfo) =>
      o.2.slotSize w₀.chunksize = alignUp (inodeMetaSize inode chunkbits 12) 32) os inodes :=
    List.Forall₂.mp (fun _ _ hmade htable => (slot_of_madeFor hmade.1 htable chunkbits).symm)
      h.each htables
  have hsame : os.map (fun o => o.2.slotSize w₀.chunksize) =
      inodes.map fun inode => alignUp (inodeMetaSize inode chunkbits 12) 32 := by
    rw [← List.forall₂_eq_eq_eq, List.forall₂_map_left_iff, List.forall₂_map_right_iff]
    exact hslots
  rw [Build.slotSpace, load, hsame]

/-- A directory of a build has the names of its path. -/
theorem names_of_childrenFrom {p : List Nat} {k : Nat} {es : List (List UInt8 × Source)}
    {des : List DirEntry} (h : ChildrenFrom os p k es des) :
    des.map DirEntry.name = es.map fun e => toStringLossy e.1 := by
  induction h with
  | nil => rfl
  | cons hname _ _ _ ih => rw [List.map_cons, List.map_cons, hname, ih]

theorem Complete.dirBlocks (h : Complete root os inodes) :
    inodes.map InodeInfo.dirBlocks = os.map fun o => o.2.dirBlocks := by
  refine List.ext_getElem? fun i => ?_
  rw [List.getElem?_map, List.getElem?_map]
  cases ho : os[i]? with
  | none =>
    have hle := List.getElem?_eq_none_iff.mp ho
    rw [List.getElem?_eq_none (h.length ▸ hle)]
    rfl
  | some o =>
    obtain ⟨inode, hinode, hmade⟩ := h.made_at ho
    have hkind : inode.isDir = o.2.isDir := hmade.isDir
    rw [hinode, Option.map_some, Option.map_some, InodeInfo.dirBlocks, Source.dirBlocks, hkind]
    by_cases hdir : o.2.isDir = true
    · rw [if_pos hdir, if_pos hdir, names_of_childrenFrom (h.filled i o inode ho hinode hdir)]
    · rw [if_neg hdir, if_neg hdir]

/-! ## Images -/

variable {calls : MkfsCalls} {prep : Prepared}

/-- The image of a run has the blocks of its source. -/
theorem length_imageBytes (hprep : prepare hash calls = .ok prep)
    (hdir : calls.source.isDir = true) (hsnap : Snapshot calls.source)
    (hplaces : EachFile calls.source places) (uuid : Vector UInt8 16) :
    (prep.imageBytes uuid).length =
      imageBlocks calls.chunksize.toNat places * erofsBlockSize := by
  obtain ⟨w₀, layout, hready⟩ := prepare_eq_ok hprep
  obtain ⟨os, hcomplete, hfed⟩ := buildTree_fed hready.tree hdir
  have hsize : w₀.chunksize = calls.chunksize.toNat := by
    obtain ⟨d, -, hnew⟩ := bind_eq_ok.mp hready.blobdev
    cases hnew
    rfl
  have hlen := length_layOut hready.laidOut
  rw [hready.buf, hfed.slotSpace, hcomplete.dirBlocks, hsize] at hlen
  rw [hplaces.imageBlocks_eq hcomplete.eachFile hsnap, Prepared.imageBytes, List.length_append,
    length_block0Bytes, hlen, imageBlocks, erofsBlockSize, load, load]
  omega

/-- **The room an image takes.** A run that got as far as the image file makes an image of as
many blocks as its source needs, whichever path stands for a file of several names, and it
succeeds exactly if the image file has room for these. -/
theorem main_succeeds_iff {d : Device} (hprep : prepare hash calls = .ok prep)
    (himage : calls.image = .ok d) (hempty : d.bytes = []) (hdir : calls.source.isDir = true)
    (hsnap : Snapshot calls.source) (hplaces : EachFile calls.source places) :
    (prep.imageBytes calls.uuid).length =
        imageBlocks calls.chunksize.toNat places * erofsBlockSize ∧
      ((Mkfs.main hash calls).1 = .ok () ↔
        imageBlocks calls.chunksize.toNat places * erofsBlockSize ≤ d.room) := by
  have hlen := length_imageBytes hprep hdir hsnap hplaces calls.uuid
  refine ⟨hlen, ?_⟩
  obtain ⟨w₀, layout, hready⟩ := prepare_eq_ok hprep
  obtain ⟨_, -, -, -, hiff⟩ := hready.reports hprep himage hempty
  have htwo := hready.wholeBlocks.2.2 hdir
  rw [hiff, hlen]
  exact or_iff_right (by omega)

/-! ## The image of the small tree -/

theorem sorted_helloTree : sortByFileName helloTree.entries =
    [([97], helloFile "src/a"), ([98], helloFile "src/b"), ([108], helloLink)] := by
  simp [sortByFileName, helloTree, filesDir, List.mergeSort, List.MergeSort.Internal.splitInTwo,
    show ([97] : List UInt8) < [98] by decide, show ([98] : List UInt8) < [108] by decide]

theorem place_helloTree {p : List Nat} (h : Occurs helloTree p node) :
    (p = [] ∧ node = helloTree) ∨ (p = [0] ∧ node = helloFile "src/a") ∨
      (p = [1] ∧ node = helloFile "src/b") ∨ (p = [2] ∧ node = helloLink) := by
  have hfile : ∀ path, ¬ (helloFile path).isDir = true := fun _ =>
    show ¬ ((0o100644 : UInt32) &&& 0o170000 == 0o040000) = true by decide
  induction h with
  | root => exact .inl ⟨rfl, rfl⟩
  | @entry p dir k e _ hdir he ih =>
    rcases ih with ⟨rfl, rfl⟩ | ⟨-, rfl⟩ | ⟨-, rfl⟩ | ⟨-, rfl⟩
    · rw [sorted_helloTree] at he
      match k, he with
      | 0, he => cases he; exact .inr (.inl ⟨rfl, rfl⟩)
      | 1, he => cases he; exact .inr (.inr (.inl ⟨rfl, rfl⟩))
      | 2, he => cases he; exact .inr (.inr (.inr ⟨rfl, rfl⟩))
    · exact absurd hdir (hfile _)
    · exact absurd hdir (hfile _)
    · exact absurd hdir (by decide)

/-- The file with two names has one place. -/
def helloPlaces : List (List Nat × Source) :=
  [([], helloTree), ([0], helloFile "src/a"), ([2], helloLink)]

theorem eachFile_helloTree : EachFile helloTree helloPlaces where
  occurs := by
    have hentry : ∀ k e, (sortByFileName helloTree.entries)[k]? = some e →
        Occurs helloTree [k] e.2 := fun k e he => .entry (p := []) .root (by decide) he
    intro o ho
    simp only [helloPlaces, List.mem_cons, List.not_mem_nil, or_false] at ho
    rcases ho with rfl | rfl | rfl
    · exact .root
    · exact hentry 0 ([97], helloFile "src/a") (by rw [sorted_helloTree]; rfl)
    · exact hentry 2 ([108], helloLink) (by rw [sorted_helloTree]; rfl)
  apart := by
    show [Identity.place [], .file (statOf 0o100644 3).key, .place [2]].Nodup
    simp
  covers := by
    intro p node hocc
    rcases place_helloTree hocc with ⟨rfl, rfl⟩ | ⟨rfl, rfl⟩ | ⟨rfl, rfl⟩ | ⟨rfl, rfl⟩
    · exact List.mem_cons_self
    · exact List.mem_cons_of_mem _ List.mem_cons_self
    · exact List.mem_cons_of_mem _ List.mem_cons_self
    · exact List.mem_cons_of_mem _ (List.mem_cons_of_mem _ List.mem_cons_self)

/-- A block each for the superblock, the slots and the directory. -/
theorem imageBlocks_helloTree : imageBlocks 4096 helloPlaces = 3 := by
  have htext : ∀ c : UInt8, c = 97 ∨ c = 98 ∨ c = 108 → toStringLossy [c] = [c] := by
    rintro c (rfl | rfl | rfl)
    · exact toStringLossy_of_isUtf8 ⟨[97], by simp [Text.IsScalar], rfl⟩
    · exact toStringLossy_of_isUtf8 ⟨[98], by simp [Text.IsScalar], rfl⟩
    · exact toStringLossy_of_isUtf8 ⟨[108], by simp [Text.IsScalar], rfl⟩
  have hnames : (sortByFileName helloTree.entries).map (fun e => toStringLossy e.1) =
      [[97], [98], [108]] := by
    rw [sorted_helloTree]
    simp [htext]
  have hdir : helloTree.dirBlocks = 1 := by
    rw [Source.dirBlocks, if_pos (by decide), hnames, Build.dirBlocks, List.map_cons, pack_cons]
    simp [takeFit, pack_nil, dot, dotdot, erofsDirentSize, erofsBlockSize]
  rw [imageBlocks, helloPlaces, load_cons, load_cons, load_cons, load_nil, load_cons, load_cons,
    load_cons, load_nil, hdir]
  decide

end ErofsUtils.Build
