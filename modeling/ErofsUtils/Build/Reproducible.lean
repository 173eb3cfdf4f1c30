import ErofsUtils.Build.CopiedInodes
import ErofsUtils.Build.Enumeration
import ErofsUtils.Build.Main
import ErofsUtils.Build.TreeBlob

/-! # Reproducible builds

A copy of a source, made on another host, has its files under other numbers, its directories
list their entries in another order, its path is another one, and of its times only that much is
the same as the image keeps. Digests only tell chunks apart. So a run on the copy, with another
hash, goes step by step as the run on the source and leaves the same image and the same blob. -/
namespace ErofsUtils.Build
open ErofsUtils.Rust ErofsUtils.Bytes ErofsUtils.Metadata ErofsUtils.Store

/-! ## Copies -/

/-- The metadata of a path and of its copy: they agree on what an image keeps. Only files of
several names are looked up by their number; `renumber` says under which the copy has it. -/
structure FileStat.CopyOf (epoch : UInt64) (renumber : UInt64 × UInt64 → UInt64 × UInt64)
    (stat copy : FileStat) : Prop where
  mode : copy.mode = stat.mode
  owner : copy.uid = stat.uid ∧ copy.gid = stat.gid
  nlink : copy.nlink = stat.nlink
  size : stat.isFile = true → copy.size = stat.size
  format : extendedStat copy = extendedStat stat
  time : (copy.mtime.toUInt64 - epoch).toUInt32 = (stat.mtime.toUInt64 - epoch).toUInt32
  exact : extendedStat stat = true → copy.mtime = stat.mtime ∧ copy.mtimeNsec = stat.mtimeNsec
  rdev : stat.isDir = false → stat.isFile = false → stat.isSymlink = false → copy.rdev = stat.rdev
  key : stat.isHardlinked = true → copy.key = renumber stat.key

/-- What is found below a path, and a copy of it. -/
inductive Source.CopyOf (epoch : UInt64) (renumber : UInt64 × UInt64 → UInt64 × UInt64) :
    Source → Source → Prop where
  | mk {a b : Source} (hstat : Agree (FileStat.CopyOf epoch renumber) a.stat b.stat)
      (hxattrs : readXattrsFromPath a.xattrs = readXattrsFromPath b.xattrs)
      (hreadDir : Agree Eq a.readDir b.readDir) (hiterate : Agree Eq a.iterate b.iterate)
      (hfile : Agree Eq a.file b.file) (hlink : Agree Eq a.link b.link)
      (hnames : (a.entries.map Prod.fst).Perm (b.entries.map Prod.fst))
      (hchild : ∀ e ∈ a.entries, ∀ f ∈ b.entries, e.1 = f.1 →
        Source.CopyOf epoch renumber e.2 f.2) :
      Source.CopyOf epoch renumber a b

theorem agree_withContext {α β : Type} {R : α → β → Prop} {x : IoResult α} {y : IoResult β}
    (h : Agree R x y) (msg msg' : String) : Agree R (withContext msg x) (withContext msg' y) := by
  cases h with
  | ok h => exact .ok h
  | error e e' => cases e <;> cases e' <;> exact .error _ _

/-! ## The blob writer under two hashes -/

/-- The two hashes tell the same chunks apart. -/
def SameCollisions (hash hash' : List UInt8 → Digest) (chunks : Set (List UInt8)) : Prop :=
  ∀ c ∈ chunks, ∀ d ∈ chunks, hash c = hash d ↔ hash' c = hash' d

namespace BlobWriter

/-- Writers in the same state, each with the digests of its own hash. -/
structure Alike (hash hash' : List UInt8 → Digest) (chunks : Set (List UInt8)) (cs : Nat)
    (w w' : BlobWriter) : Prop where
  file : w.file = w'.file
  chunksize : w.chunksize = cs
  chunksize' : w'.chunksize = cs
  next : w.nextBlkaddr = w'.nextBlkaddr
  saved : w.savedByDedup = w'.savedByDedup
  dedup : ∀ c ∈ chunks, w.dedup (hash c) = w'.dedup (hash' c)

variable {hash hash' : List UInt8 → Digest} {chunks : Set (List UInt8)} {cs : Nat}
  {w w' : BlobWriter} {chunk : List UInt8}

theorem Alike.writeChunk (h : Alike hash hash' chunks cs w w')
    (hsame : SameCollisions hash hash' chunks) (hc : chunk ∈ chunks) :
    Agree (fun x y => x.1 = y.1 ∧ Alike hash hash' chunks cs x.2 y.2)
      (BlobWriter.writeChunk hash w chunk) (BlobWriter.writeChunk hash' w' chunk) := by
  have hknown := h.dedup chunk hc
  unfold BlobWriter.writeChunk
  dsimp only
  rw [← hknown]
  cases w.dedup (hash chunk) with
  | some existing =>
    dsimp only
    rw [h.saved]
    refine (agree_self (fun _ => rfl) _).bind_same fun saved => ?_
    exact .ok ⟨rfl, h.file, h.chunksize, h.chunksize', h.next, rfl, h.dedup⟩
  | none =>
    dsimp only
    rw [h.file, h.next]
    refine (agree_self (fun _ => rfl) _).bind_same fun file => ?_
    refine (agree_self (fun _ => rfl) _).bind_same fun file => ?_
    refine (agree_self (fun _ => rfl) _).bind_same fun next => ?_
    refine .ok ⟨rfl, rfl, h.chunksize, h.chunksize', rfl, h.saved, fun c hmem => ?_⟩
    -- the new digest is that of the chunk and of what collides with it
    have hiff := hsame c hmem chunk hc
    dsimp only
    by_cases heq : hash c = hash chunk
    · rw [if_pos heq, if_pos (hiff.mp heq)]
    · rw [if_neg heq, if_neg fun heq' => heq (hiff.mpr heq'), h.dedup c hmem]

/-- New writers know no digest. -/
theorem agree_new {file file' : IoResult Device} {path path' : String} (h : Agree Eq file file') :
    Agree (fun w w' => w = w' ∧ w.chunksize = cs ∧ w.dedup = fun _ => none)
      (BlobWriter.new file path cs) (BlobWriter.new file' path' cs) :=
  (agree_withContext h _ _).bind_same fun _ => .ok ⟨rfl, rfl, rfl⟩

/-- What the loop reads at step `i` is chunk `i` of the bytes it was asked for. -/
theorem mem_chunksOf_of_readExact {bytes rest : List UInt8} {fileSize i : Nat} (hcs : 0 < cs)
    (hi : i * cs < fileSize) (h : readExact (bytes.drop (i * cs)) (min (fileSize - i * cs) cs) =
      .ok (chunk, rest)) : chunk ∈ chunksOf cs (bytes.take fileSize) := by
  have hlen : min (fileSize - i * cs) cs ≤ (bytes.drop (i * cs)).length := by
    unfold readExact at h
    split at h
    · assumption
    · cases h
  rw [List.length_drop] at hlen
  have hlt : i < divCeil (bytes.take fileSize).length cs := by
    rw [lt_divCeil_iff hcs, List.length_take]
    omega
  refine List.mem_map.mpr ⟨i, List.mem_range'_1.mpr ⟨Nat.zero_le i, by omega⟩, ?_⟩
  rw [(readExact_eq_ok h).1, window, List.drop_take, List.take_take, Nat.min_comm]

theorem Alike.writeChunksFrom {path path' : String} {bytes f : List UInt8} {fileSize n i : Nat}
    (h : Alike hash hash' chunks cs w w') (hsame : SameCollisions hash hash' chunks) (hcs : 0 < cs)
    (hin : ∀ c ∈ chunksOf cs (bytes.take fileSize), c ∈ chunks)
    (hn : n ≠ 0 → f = bytes.drop (i * cs) ∧ (i + n - 1) * cs < fileSize) :
    Agree (fun x y => x.1 = y.1 ∧ Alike hash hash' chunks cs x.2 y.2)
      (BlobWriter.writeChunksFrom hash path fileSize cs n i f w)
      (BlobWriter.writeChunksFrom hash' path' fileSize cs n i f w') := by
  induction n generalizing i f w w' with
  | zero => exact .ok ⟨rfl, h⟩
  | succ n ih =>
    obtain ⟨rfl, hlast⟩ := hn (Nat.succ_ne_zero n)
    have hi : i * cs < fileSize :=
      Nat.lt_of_le_of_lt (Nat.mul_le_mul_right cs (show i ≤ i + (n + 1) - 1 by omega)) hlast
    unfold BlobWriter.writeChunksFrom
    refine (agree_same _).bind ?_
    rintro start _ ⟨rfl, hstart⟩
    obtain ⟨-, rfl⟩ := checkedMul_eq_ok.mp hstart
    refine (agree_same _).bind ?_
    rintro remaining _ ⟨rfl, hremaining⟩
    obtain ⟨-, rfl⟩ := checkedSub_eq_ok.mp hremaining
    refine (agree_withContext (agree_same _) _ _).bind ?_
    rintro ⟨chunk, rest⟩ _ ⟨rfl, hread⟩
    refine (h.writeChunk hsame (hin _ (mem_chunksOf_of_readExact hcs hi hread))).bind ?_
    rintro ⟨ci, w₁⟩ ⟨_, w₁'⟩ ⟨rfl, h₁⟩
    refine (ih h₁ fun hne => ?_).bind ?_
    · -- another chunk follows, so this one was not cut
      have hnext : (i + 1) * cs < fileSize :=
        Nat.lt_of_le_of_lt (Nat.mul_le_mul_right cs (show i + 1 ≤ i + (n + 1) - 1 by omega)) hlast
      rw [(readExact_eq_ok hread).2, List.drop_drop]
      rw [Nat.succ_mul] at hnext
      refine ⟨congrArg (bytes.drop ·) ?_, by rwa [show i + 1 + n - 1 = i + (n + 1) - 1 by omega]⟩
      rw [Nat.succ_mul]
      omega
    · rintro ⟨cis, w₂⟩ ⟨_, w₂'⟩ ⟨rfl, h₂⟩
      exact .ok ⟨rfl, h₂⟩

theorem Alike.writeFileChunks {path path' : String} {file file' : IoResult (List UInt8)}
    {fileSize : Nat} (h : Alike hash hash' chunks cs w w') (hsame : SameCollisions hash hash' chunks)
    (hcs : 0 < cs) (hfile : Agree Eq file file')
    (hin : ∀ c ∈ (FileCall.mk path file fileSize).chunks cs, c ∈ chunks) :
    Agree (fun x y => x.1 = y.1 ∧ Alike hash hash' chunks cs x.2 y.2)
      (BlobWriter.writeFileChunks hash w path file fileSize)
      (BlobWriter.writeFileChunks hash' w' path' file' fileSize) := by
  unfold BlobWriter.writeFileChunks
  split
  · exact .ok ⟨rfl, h⟩
  · refine (agree_withContext hfile.returned _ _).bind ?_
    rintro bytes _ ⟨rfl, rfl⟩
    dsimp only
    rw [h.chunksize, h.chunksize']
    refine h.writeChunksFrom hsame hcs hin fun hne => ⟨by rw [Nat.zero_mul, List.drop_zero], ?_⟩
    rw [← lt_divCeil_iff hcs]
    omega

end BlobWriter

/-! ## The walk of a copy -/

section
variable (epoch : UInt64) (renumber : UInt64 × UInt64 → UInt64 × UInt64)
  (hash hash' : List UInt8 → Digest) (chunks : Set (List UInt8)) (cs : Nat)

/-- The walks have made inodes that are stored alike, and know the same files, each by its own
numbers. -/
structure TreeState.Alike (st st' : TreeState) : Prop where
  inodes : List.Forall₂ (InodeInfo.CopyOf epoch) st.inodes st'.inodes
  counter : st.inoCounter = st'.inoCounter
  links : ∀ key, st.hardlinkMap key = st'.hardlinkMap (renumber key)
  blob : st.blobWriter.Alike hash hash' chunks cs st'.blobWriter

/-- The loop over the entries finds the same in both paths. -/
structure WalksAs (a b : Source) : Prop where
  stat : Agree (FileStat.CopyOf epoch renumber) a.stat b.stat
  walk : ∀ st st', TreeState.Alike epoch renumber hash hash' chunks cs st st' →
    Agree (fun x y => x.1 = y.1 ∧ TreeState.Alike epoch renumber hash hash' chunks cs x.2 y.2)
      (buildTreeRecursive hash a st) (buildTreeRecursive hash' b st')

end

variable {epoch : UInt64} {renumber : UInt64 × UInt64 → UInt64 × UInt64}
  {hash hash' : List UInt8 → Digest} {chunks : Set (List UInt8)} {cs : Nat} {st st' : TreeState}
  {stat copy : FileStat} {a b : Source}

theorem FileStat.CopyOf.kind (h : stat.CopyOf epoch renumber copy) : copy.isDir = stat.isDir ∧
    copy.isFile = stat.isFile ∧ copy.isSymlink = stat.isSymlink := by
  unfold FileStat.isDir FileStat.isFile FileStat.isSymlink
  rw [h.mode]
  exact ⟨rfl, rfl, rfl⟩

theorem FileStat.CopyOf.isHardlinked (h : stat.CopyOf epoch renumber copy) :
    copy.isHardlinked = stat.isHardlinked := by
  rw [FileStat.isHardlinked, FileStat.isHardlinked, h.kind.1, h.nlink]

/-- Inodes made for both are stored alike. -/
theorem FileStat.CopyOf.inode (h : stat.CopyOf epoch renumber copy) (ino : Nat) (size : UInt64)
    (data : InodeData) (xattrs : List Xattr) :
    (stat.inode ino size data xattrs).CopyOf epoch (copy.inode ino size data xattrs) := by
  have hsame : copy.inode ino size data xattrs = (stat.inode ino size data xattrs).withTimes
      copy.mtime.toUInt64 copy.mtimeNsec.toUInt64.toUInt32 := by
    have hformat := h.format
    unfold extendedStat at hformat
    unfold FileStat.inode InodeInfo.withTimes
    rw [hformat, h.mode, h.owner.1, h.owner.2, h.nlink]
  rw [hsame]
  refine .mk h.time fun hext => ?_
  obtain ⟨hmtime, hnsec⟩ := h.exact hext
  rw [hmtime, hnsec]
  exact ⟨rfl, rfl⟩

theorem TreeState.Alike.push (h : TreeState.Alike epoch renumber hash hash' chunks cs st st')
    {inode inode' : InodeInfo} (hinode : inode.CopyOf epoch inode') :
    (st.push inode).1 = (st'.push inode').1 ∧
      TreeState.Alike epoch renumber hash hash' chunks cs (st.push inode).2 (st'.push inode').2 :=
  ⟨h.inodes.length_eq, List.rel_append h.inodes (.cons hinode .nil), h.counter, h.links, h.blob⟩

/-- A number is given to one file only, in the source and in the copy. -/
theorem TreeState.Alike.link (h : TreeState.Alike epoch renumber hash hash' chunks cs st st')
    (hinj : Function.Injective renumber) (hcopy : stat.CopyOf epoch renumber copy)
    (hmany : stat.isHardlinked = true) (idx : Nat) :
    TreeState.Alike epoch renumber hash hash' chunks cs (st.link stat.key idx)
      (st'.link copy.key idx) where
  inodes := h.inodes
  counter := h.counter
  links := by
    intro key
    show (if key = stat.key then _ else _) = if renumber key = copy.key then _ else _
    simp only [hcopy.key hmany, hinj.eq_iff, h.links]
  blob := h.blob

theorem entryInode_alike (hinj : Function.Injective renumber)
    (hst : TreeState.Alike epoch renumber hash hash' chunks cs st st')
    (hcopy : stat.CopyOf epoch renumber copy)
    (hwalk : WalksAs epoch renumber hash hash' chunks cs a b) :
    Agree (fun x y => x.1 = y.1 ∧ TreeState.Alike epoch renumber hash hash' chunks cs x.2 y.2)
      (entryInode hash stat a st) (entryInode hash' copy b st') := by
  have hexisting : (if copy.isHardlinked then st'.hardlinkMap copy.key else none) =
      if stat.isHardlinked then st.hardlinkMap stat.key else none := by
    rw [hcopy.isHardlinked]
    split
    · rename_i hmany
      rw [hcopy.key hmany, hst.links]
    · rfl
  unfold entryInode
  rw [hexisting]
  cases if stat.isHardlinked then st.hardlinkMap stat.key else none with
  | some existingIdx => exact .ok ⟨rfl, hst⟩
  | none =>
    refine (hwalk.walk st st' hst).bind ?_
    rintro ⟨childIdx, st₁⟩ ⟨_, st₁'⟩ ⟨rfl, hst₁⟩
    refine .ok ⟨rfl, ?_⟩
    dsimp only
    rw [hcopy.isHardlinked]
    split
    · rename_i hmany
      exact hst₁.link hinj hcopy hmany childIdx
    · exact hst₁

theorem buildEntries_alike (hinj : Function.Injective renumber)
    {entries listed : List (List UInt8 × Source)}
    (h : List.Forall₂ (fun e f => e.1 = f.1 ∧ WalksAs epoch renumber hash hash' chunks cs e.2 f.2)
      entries listed) (hst : TreeState.Alike epoch renumber hash hash' chunks cs st st') :
    Agree (fun x y => x.1 = y.1 ∧ TreeState.Alike epoch renumber hash hash' chunks cs x.2 y.2)
      (buildEntries hash entries st) (buildEntries hash' listed st') := by
  induction h generalizing st st' with
  | nil =>
    rw [buildEntries, buildEntries]
    exact .ok ⟨rfl, hst⟩
  | @cons e f entries listed hef _ ih =>
    obtain ⟨name, child⟩ := e
    obtain ⟨_, child'⟩ := f
    obtain ⟨rfl, hwalk⟩ := hef
    rw [buildEntries, buildEntries]
    refine (agree_withContext hwalk.stat _ _).bind fun stat copy hcopy => ?_
    refine Agree.bind (entryInode_alike hinj hst hcopy hwalk) ?_
    rintro ⟨inodeIdx, st₁⟩ ⟨_, st₁'⟩ ⟨rfl, hst₁⟩
    refine (ih hst₁).bind ?_
    rintro ⟨children, st₂⟩ ⟨_, st₂'⟩ ⟨rfl, hst₂⟩
    refine .ok ⟨?_, hst₂⟩
    dsimp only
    rw [hcopy.mode]

/-- **The walk of a copy** goes step by step as the walk of the source. -/
theorem Source.CopyOf.walksAs (h : a.CopyOf epoch renumber b) (hinj : Function.Injective renumber)
    (hcs : 0 < cs) (hsame : SameCollisions hash hash' chunks) {root : Source}
    (hchunks : ∀ p node, Occurs root p node → ∀ c ∈ node.chunks cs, c ∈ chunks)
    (hocc : ∃ p, Occurs root p a) : WalksAs epoch renumber hash hash' chunks cs a b := by
  induction h with
  | @mk a b hstat hxattrs hreadDir hiterate hfile hlink hnames hchild ih =>
    obtain ⟨p, hocc⟩ := hocc
    refine ⟨hstat, fun st st' hst => ?_⟩
    rw [buildTreeRecursive, buildTreeRecursive]
    refine (agree_withContext hstat.returned _ _).bind ?_
    rintro stat copy ⟨hcopy, hs⟩
    obtain ⟨hkindDir, hkindFile, hkindLink⟩ := hcopy.kind
    rw [hst.counter, ← hxattrs, hkindDir, hkindFile, hkindLink]
    refine (agree_self (fun _ => rfl) _).bind_same fun counter => ?_
    have hst₁ : TreeState.Alike epoch renumber hash hash' chunks cs
        { st with inoCounter := counter } { st' with inoCounter := counter } :=
      ⟨hst.inodes, rfl, hst.links, hst.blob⟩
    dsimp only
    by_cases hdir : stat.isDir = true
    · rw [if_pos hdir, if_pos hdir]
      have hpush := hst₁.push (hcopy.inode counter 0 (.directory [] 0 0 0)
        (readXattrsFromPath a.xattrs))
      refine (agree_withContext hreadDir _ _).bind_same fun _ => ?_
      refine (agree_withContext hiterate _ _).bind_same fun _ => ?_
      have hentries : List.Forall₂
          (fun e f => e.1 = f.1 ∧ WalksAs epoch renumber hash hash' chunks cs e.2 f.2)
          (sortByFileName a.entries) (sortByFileName b.entries) := by
        refine forall₂_sortByFileName hnames fun e he f hf hef => ih e he f hf hef ?_
        obtain ⟨k, hk⟩ := List.mem_iff_getElem?.mp ((sortByFileName_perm a.entries).mem_iff.mpr he)
        exact ⟨_, hocc.entry ((isDir_of_ok hs).trans hdir) hk⟩
      refine (buildEntries_alike hinj hentries hpush.2).bind ?_
      rintro ⟨children, st₂⟩ ⟨_, st₂'⟩ ⟨rfl, hst₂⟩
      dsimp only
      rw [← hpush.1]
      refine (agree_updateAt hst₂.inodes (fun _ _ h => h.setChildren children) _).bind
        fun _ _ hinodes => ?_
      exact .ok ⟨rfl, hinodes, hst₂.counter, hst₂.links, hst₂.blob⟩
    rw [if_neg hdir, if_neg hdir]
    by_cases hreg : stat.isFile = true
    · rw [if_pos hreg, if_pos hreg, hcopy.size hreg]
      have hcall : a.call = some ⟨a.path, a.file, stat.size.toNat⟩ := by
        rw [Source.call, hs]
        dsimp only
        rw [if_neg hdir, if_pos hreg]
      have hin := hchunks p a hocc
      rw [Source.chunks, hcall] at hin
      refine (hst₁.blob.writeFileChunks hsame hcs hfile hin).bind ?_
      rintro ⟨chunkIndexes, blobWriter⟩ ⟨_, blobWriter'⟩ ⟨rfl, hblob⟩
      have hst₂ : TreeState.Alike epoch renumber hash hash' chunks cs
          { st with inoCounter := counter, blobWriter }
          { st' with inoCounter := counter, blobWriter := blobWriter' } :=
        ⟨hst₁.inodes, rfl, hst₁.links, hblob⟩
      exact .ok (hst₂.push (hcopy.inode counter stat.size (.regularFile chunkIndexes)
        (readXattrsFromPath a.xattrs)))
    rw [if_neg hreg, if_neg hreg]
    by_cases hsym : stat.isSymlink = true
    · rw [if_pos hsym, if_pos hsym]
      refine (agree_withContext hlink _ _).bind_same fun target => ?_
      exact .ok (hst₁.push (hcopy.inode counter _ (.symlink target) (readXattrsFromPath a.xattrs)))
    · rw [if_neg hsym, if_neg hsym, hcopy.mode,
        hcopy.rdev (Bool.eq_false_iff.mpr hdir) (Bool.eq_false_iff.mpr hreg)
          (Bool.eq_false_iff.mpr hsym)]
      exact .ok (hst₁.push (hcopy.inode counter 0 _ (readXattrsFromPath a.xattrs)))

/-! ## The build and the run -/

/-- The hashes tell the same chunks of the tree apart. -/
def SameTreeCollisions (hash hash' : List UInt8 → Digest) (cs : Nat) (root : Source) : Prop :=
  ∀ p a q b, Occurs root p a → Occurs root q b → ∀ c ∈ a.chunks cs, ∀ d ∈ b.chunks cs,
    hash c = hash d ↔ hash' c = hash' d

/-- Hashes without collisions do. -/
theorem TreeDigestsDiffer.sameCollisions {root : Source} (h : TreeDigestsDiffer hash cs root)
    (h' : TreeDigestsDiffer hash' cs root) : SameTreeCollisions hash hash' cs root :=
  fun p a q b ha hb c hc d hd => ⟨fun he => congrArg hash' (h p a q b ha hb c hc d hd he),
    fun he => congrArg hash (h' p a q b ha hb c hc d hd he)⟩

/-- Inodes that are stored alike, and blobs that hold the same. -/
structure SameBuild (epoch : UInt64) (x y : List InodeInfo × BlobWriter) : Prop where
  inodes : List.Forall₂ (InodeInfo.CopyOf epoch) x.1 y.1
  file : x.2.file = y.2.file
  next : x.2.nextBlkaddr = y.2.nextBlkaddr
  saved : x.2.savedByDedup = y.2.savedByDedup

theorem buildTree_copy {w w' : BlobWriter} (h : a.CopyOf epoch renumber b)
    (hinj : Function.Injective renumber) (hcs : 0 < w.chunksize)
    (hsame : SameTreeCollisions hash hash' w.chunksize a)
    (hw : w' = w) (hnew : w.dedup = fun _ => none) :
    Agree (SameBuild epoch) (buildTree hash a w) (buildTree hash' b w') := by
  subst hw
  obtain ⟨chunks, hchunks⟩ : ∃ chunks : Set (List UInt8),
      chunks = { c | ∃ p node, Occurs a p node ∧ c ∈ node.chunks w'.chunksize } := ⟨_, rfl⟩
  have hcollide : SameCollisions hash hash' chunks := by
    rw [hchunks]
    rintro c ⟨p, x, hx, hc⟩ d ⟨q, y, hy, hd⟩
    exact hsame p x q y hx hy c hc d hd
  have hwalk := h.walksAs hinj hcs hcollide
    (fun p node hocc c hc => by rw [hchunks]; exact ⟨p, node, hocc, hc⟩) ⟨[], .root⟩
  have hstart : TreeState.Alike epoch renumber hash hash' chunks w'.chunksize
      { inodes := [], inoCounter := 0, hardlinkMap := fun _ => none, blobWriter := w' }
      { inodes := [], inoCounter := 0, hardlinkMap := fun _ => none, blobWriter := w' } :=
    ⟨.nil, rfl, fun _ => rfl, rfl, rfl, rfl, rfl, rfl, fun _ _ => by rw [hnew]⟩
  refine (hwalk.walk _ _ hstart).bind ?_
  rintro ⟨idx, st⟩ ⟨_, st'⟩ ⟨-, hst⟩
  exact .ok ⟨hst.inodes, hst.blob.file, hst.blob.next, hst.blob.saved⟩

/-- What the calls of a run answer, and those of a run on a copy: the clock, the identifier and
the files to write are the same. -/
structure MkfsCalls.CopyOf (renumber : UInt64 × UInt64 → UInt64 × UInt64) (calls copy : MkfsCalls) :
    Prop where
  chunksize : calls.chunksize = copy.chunksize
  sourceIsDir : calls.sourceIsDir = copy.sourceIsDir
  sinceEpoch : calls.sinceEpoch = copy.sinceEpoch
  blobdev : Agree Eq calls.blobdev copy.blobdev
  source : ∀ epoch, calls.sinceEpoch = some epoch → calls.source.CopyOf epoch renumber copy.source
  uuid : calls.uuid = copy.uuid
  image : Agree Eq calls.image copy.image

/-- The same image is ready, and the blob devices hold the same. -/
structure SamePrepared (x y : Prepared) : Prop where
  metadataBuf : x.metadataBuf = y.metadataBuf
  rootNid : x.rootNid = y.rootNid
  inodes : x.inodes.length = y.inodes.length
  epoch : x.epoch = y.epoch
  file : x.blobWriter.file = y.blobWriter.file
  blocks : x.blobWriter.totalBlocks = y.blobWriter.totalBlocks

theorem agree_liftIo {α β : Type} {R : α → β → Prop} {x : IoResult α} {y : IoResult β}
    (h : Agree R x y) : Agree R (liftIo x) (liftIo y) := by
  cases h with
  | ok h => exact .ok h
  | error e e' => cases e <;> cases e' <;> exact .error _ _

theorem prepare_copy {calls copied : MkfsCalls} (h : calls.CopyOf renumber copied)
    (hinj : Function.Injective renumber)
    (hsame : SameTreeCollisions hash hash' calls.chunksize.toNat calls.source) :
    Agree SamePrepared (prepare hash calls) (prepare hash' copied) := by
  have hsource := h.source
  unfold prepare
  rw [← h.chunksize, ← h.sourceIsDir, ← h.sinceEpoch]
  refine (agree_same _).bind ?_
  rintro chunkbits _ ⟨rfl, hvalid⟩
  obtain ⟨-, hsize⟩ := validateChunksize_eq_ok.mp hvalid
  split
  · exact .error _ _
  cases hclock : calls.sinceEpoch with
  | none => exact .error _ _
  | some epoch =>
    simp only [pure_eq_ok, bind_ok]
    refine (BlobWriter.agree_new h.blobdev).bind ?_
    rintro w _ ⟨rfl, hcs, hnew⟩
    rw [← hcs] at hsame
    have htree := buildTree_copy (hsource epoch hclock) hinj
      (by rw [hcs, hsize]; exact Nat.two_pow_pos chunkbits) hsame rfl hnew
    refine htree.bind ?_
    rintro ⟨inodes, w₁⟩ ⟨inodes', w₁'⟩ ⟨hinodes, hfile, hnext, hsaved⟩
    refine (agree_liftIo (layOut_copies hinodes chunkbits)).bind ?_
    rintro ⟨placed, layout⟩ ⟨placed', _⟩ ⟨hplaced, rfl⟩
    refine (agree_getAt hplaced 0).bind fun root root' hroot => ?_
    have hnid : root'.nid = root.nid := hroot.same (f := InodeInfo.nid) fun _ _ _ => rfl
    rw [hnid]
    split
    · exact .error _ _
    · exact .ok ⟨rfl, rfl, hinodes.length_eq, rfl, hfile, hnext⟩

/-- **Reproducible builds.** A run on a copy of the source, with a hash that tells the same
chunks apart, agrees with the run on the source: it reports the same, and it leaves the same
image file and the same blob. -/
theorem Mkfs.main_reproducible {calls copied : MkfsCalls} (h : calls.CopyOf renumber copied)
    (hinj : Function.Injective renumber)
    (hsame : SameTreeCollisions hash hash' calls.chunksize.toNat calls.source) :
    Agree SamePrepared (prepare hash calls) (prepare hash' copied) ∧
      Agree Eq (Mkfs.main hash calls).1 (Mkfs.main hash' copied).1 ∧
        (Mkfs.main hash calls).2 = (Mkfs.main hash' copied).2 := by
  have hprep := prepare_copy h hinj hsame
  refine ⟨hprep, ?_⟩
  unfold Mkfs.main
  generalize prepare hash calls = x at hprep
  generalize prepare hash' copied = y at hprep
  cases hprep with
  | error e e' => exact ⟨.error e e', rfl⟩
  | @ok prep prep' hsame =>
    obtain ⟨hbuf, hroot, hcount, hepoch, -, hblocks⟩ := hsame
    have himage := agree_withContext h.image s!"failed to create image: {calls.imagePath}"
      s!"failed to create image: {copied.imagePath}"
    generalize withContext s!"failed to create image: {calls.imagePath}" calls.image = u at himage
    generalize withContext s!"failed to create image: {copied.imagePath}" copied.image = v at himage
    cases himage with
    | error e e' => exact ⟨.error e e', rfl⟩
    | ok hfile =>
      dsimp only
      rw [hfile, hbuf, hroot, hcount, hepoch, hblocks, h.uuid]
      exact ⟨agree_self (fun _ => rfl) _, rfl⟩

/-! ## A copy -/

/-- The copy of the file, under another number. -/
def helloFileCopy (path : String) : Source :=
  { helloFile path with stat := .ok { statOf 0o100644 13 with nlink := 2, size := 5, dev := 8 } }

/-- The copy of the link, made some nanoseconds later. -/
def helloLinkCopy : Source :=
  { helloLink with
      path := "copy/l", stat := .ok { statOf 0o120777 14 with size := 1, mtimeNsec := 500, dev := 8 } }

/-- The copy of `helloTree`, listed in the order of the names. Its directory has a size on this
host. -/
def helloCopy : Source :=
  { filesDir [([97], helloFileCopy "copy/a"), ([98], helloFileCopy "copy/b"), ([108], helloLinkCopy)]
    with
      path := "copy"
      stat := .ok { statOf 0o040755 11 with size := 4096, mtimeNsec := 900, dev := 8 } }

def runOn (source : Source) : MkfsCalls where
  chunksize := 4096
  sourceIsDir := true
  sinceEpoch := some 1700000000
  blobdevPath := "blob"
  blobdev := .ok ⟨[], 8192⟩
  source
  uuid := Vector.replicate 16 0
  imagePath := "image"
  image := .ok ⟨[], 16384⟩

def renumbered (key : UInt64 × UInt64) : UInt64 × UInt64 := (key.1 + 7, key.2 + 10)

theorem copyOf_helloTree : Source.CopyOf 1700000000 renumbered helloTree helloCopy := by
  have hfile : ∀ path path', Source.CopyOf 1700000000 renumbered (helloFile path)
      (helloFileCopy path') := fun path path' =>
    .mk (.ok ⟨rfl, ⟨rfl, rfl⟩, rfl, fun _ => rfl, by decide, rfl, fun _ => ⟨rfl, rfl⟩,
      fun _ _ _ => rfl, fun _ => by decide⟩) rfl (.error _ _) (.error _ _) (.ok rfl) (.error _ _)
      (List.Perm.refl _) nofun
  have hlink : Source.CopyOf 1700000000 renumbered helloLink helloLinkCopy :=
    .mk (.ok ⟨rfl, ⟨rfl, rfl⟩, rfl, fun _ => rfl, by decide, rfl, fun h => absurd h (by decide),
      fun _ _ _ => rfl, fun h => absurd h (by decide)⟩) rfl (.error _ _) (.error _ _) (.error _ _)
      (.ok rfl) (List.Perm.refl _) nofun
  refine .mk (.ok ⟨rfl, ⟨rfl, rfl⟩, rfl, fun h => absurd h (by decide), by decide, rfl,
    fun h => absurd h (by decide), fun _ _ _ => rfl, fun h => absurd h (by decide)⟩) rfl (.ok rfl)
    (.ok rfl) (.error _ _) (.error _ _) (by decide) ?_
  intro e he f hf hef
  simp only [helloTree, helloCopy, filesDir, List.mem_cons, List.not_mem_nil, or_false] at he hf
  rcases he with rfl | rfl | rfl <;> rcases hf with rfl | rfl | rfl
  all_goals first
    | exact absurd hef (by decide)
    | exact hfile _ _
    | exact hlink

theorem Mkfs.main_reproducible_helloCopy :
    Agree SamePrepared (prepare helloHash (runOn helloTree)) (prepare helloHash (runOn helloCopy)) ∧
      Agree Eq (Mkfs.main helloHash (runOn helloTree)).1 (Mkfs.main helloHash (runOn helloCopy)).1 ∧
        (Mkfs.main helloHash (runOn helloTree)).2 = (Mkfs.main helloHash (runOn helloCopy)).2 := by
  have hcopy : MkfsCalls.CopyOf renumbered (runOn helloTree) (runOn helloCopy) := by
    refine ⟨rfl, rfl, rfl, .ok rfl, ?_, rfl, .ok rfl⟩
    rintro epoch ⟨⟩
    exact copyOf_helloTree
  have hinj : Function.Injective renumbered := by
    intro a b hab
    simpa [renumbered, Prod.ext_iff] using hab
  have hdiffer := digestsDiffer_helloTree helloHash
  exact Mkfs.main_reproducible hcopy hinj (hdiffer.sameCollisions hdiffer)

end ErofsUtils.Build
