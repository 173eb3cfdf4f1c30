import ErofsUtils.Build.Walk

/-! # A walk that meets no I/O error

The walk of a tree whose calls all answer returns, as long as its paths can be counted in
the 32 bits of an inode number and the data of its files has room. -/
namespace ErofsUtils.Build
open ErofsUtils.Rust ErofsUtils.Bytes ErofsUtils.Metadata ErofsUtils.Store ErofsUtils.Text

/-- The sum of `f` over the paths of the tree. -/
def Source.total (f : Source → Nat) (source : Source) : Nat :=
  f source + if source.isDir then (source.entries.attach.map fun e => e.1.2.total f).sum else 0
termination_by sizeOf source
decreasing_by
  have hmem := (sortByFileName_perm source.entries).mem_iff.mpr e.2
  exact sizeOf_entry_lt hmem

theorem Source.total_entries (f : Source → Nat) (source : Source) :
    source.total f =
      f source + if source.isDir then (source.entries.map fun e => e.2.total f).sum else 0 := by
  have hattach : (source.entries.attach.map fun e => e.1.2.total f) =
      source.entries.map fun e => e.2.total f :=
    List.attach_map_val (l := source.entries) (f := fun e => e.2.total f)
  rw [Source.total, hattach]

/-- The order of the entries does not matter. -/
theorem Source.total_eq (f : Source → Nat) (source : Source) :
    source.total f = f source + if source.isDir then
      ((sortByFileName source.entries).map fun e => e.2.total f).sum else 0 := by
  have hsum : ((sortByFileName source.entries).map fun e => e.2.total f).sum =
      (source.entries.map fun e => e.2.total f).sum :=
    ((sortByFileName_perm source.entries).map _).sum_eq
  rw [Source.total_entries, hsum]

/-- The room that the chunks of a file take when none of them is known. -/
def Source.space (chunksize : Nat) (source : Source) : Nat :=
  match source.file with
  | .ok content => BlobWriter.spaceOf (chunksOf chunksize content)
  | .error _ => 0

/-- The calls on a path answer: a file has as many bytes as its metadata says. -/
structure Source.Answers (source : Source) : Prop where
  stat : ∃ stat, source.stat = .ok stat ∧
    (stat.isDir = true → source.readDir = .ok () ∧ source.iterate = .ok ()) ∧
    (stat.isFile = true → ∃ content, source.file = .ok content ∧ content.length = stat.size.toNat) ∧
    (stat.isSymlink = true → ∃ target, source.link = .ok target)

/-- No call of the walk reports an error. -/
def NoIoError (root : Source) : Prop := ∀ p node, Occurs root p node → node.Answers

theorem Occurs.cons {root node : Source} {k : Nat} {e : List UInt8 × Source} {q : List Nat}
    (hdir : root.isDir = true) (he : (sortByFileName root.entries)[k]? = some e)
    (h : Occurs e.2 q node) : Occurs root (k :: q) node := by
  induction h with
  | root => exact .entry (p := []) .root hdir he
  | entry _ hd he' ih => exact .entry ih hd he'

theorem NoIoError.entry {root : Source} (h : NoIoError root) (hdir : root.isDir = true)
    {e : List UInt8 × Source} (he : e ∈ sortByFileName root.entries) : NoIoError e.2 := by
  obtain ⟨k, hk⟩ := List.mem_iff_getElem?.mp he
  exact fun q node hq => h (k :: q) node (hq.cons hdir hk)

/-- The state takes `n` more inodes, and `m` more bytes in chunks of `chunksize`. -/
structure TreeState.Ready (st : TreeState) (chunksize n m : Nat) : Prop where
  counter : st.inoCounter + n < 2 ^ 32
  chunksize : st.blobWriter.chunksize = chunksize
  spare : st.blobWriter.Spare m

variable {hash : List UInt8 → Digest} {st : TreeState} {chunksize n m : Nat}

theorem TreeState.Ready.mono {n' m' : Nat} (h : st.Ready chunksize n m) (hn : n' ≤ n)
    (hm : m' ≤ m) : st.Ready chunksize n' m' := by
  obtain ⟨hcounter, hsize, hroom, hsaved, hnext⟩ := h
  exact ⟨by omega, hsize, by omega, by omega, by omega⟩

/-- The walk of a path returns from any state that is ready for its tree. -/
def Returns (hash : List UInt8 → Digest) (chunksize : Nat) (source : Source) : Prop :=
  ∀ st n m, st.Ready chunksize (source.total (fun _ => 1) + n)
      (source.total (Source.space chunksize) + m) →
    ∃ idx st', buildTreeRecursive hash source st = .ok (idx, st') ∧ st'.Ready chunksize n m ∧
      st.inodes.length ≤ st'.inodes.length

theorem returns_leaf {source : Source} {stat : FileStat} (hcs : 0 < chunksize)
    (hstat : source.stat = .ok stat) (hdir : stat.isDir = false) (hans : source.Answers) :
    Returns hash chunksize source := by
  intro st n m hready
  have hd : source.isDir = false := (isDir_of_ok hstat).trans hdir
  rw [Source.total_eq, Source.total_eq, hd, if_neg Bool.false_ne_true, if_neg Bool.false_ne_true]
    at hready
  obtain ⟨hcounter, hsize, hspare⟩ := hready
  obtain ⟨stat', hstat', -, hfile, hlink⟩ := hans.stat
  rw [hstat] at hstat'
  cases hstat'
  have hspace : m ≤ source.space chunksize + 0 + m := by omega
  have hless : st.blobWriter.Spare m :=
    ⟨hspace.trans hspare.room, Nat.lt_of_le_of_lt (Nat.add_le_add_left hspace _) hspare.saved,
      Nat.lt_of_le_of_lt (Nat.add_le_add_left hspace _) hspare.next⟩
  have hpush : ∀ inode, st.inodes.length ≤ (st.inodes ++ [inode]).length :=
    fun inode => by rw [List.length_append]; exact Nat.le_add_right _ _
  rw [buildTreeRecursive, hstat, withContext_ok, bind_ok, checkedAdd_ok (by omega), bind_ok]
  dsimp only
  rw [if_neg (by rw [hdir]; exact Bool.false_ne_true)]
  split
  · rename_i hisFile
    obtain ⟨content, hcontent, hlen⟩ := hfile hisFile
    rw [Source.space, hcontent] at hspare
    dsimp only at hspare
    rw [Nat.add_zero, ← hsize] at hspare
    obtain ⟨cis, w', hrun, hspare', hsize'⟩ : ∃ cis w', BlobWriter.writeFileChunks hash
        st.blobWriter source.path (.ok content) content.length = .ok (cis, w') ∧ w'.Spare m ∧
        w'.chunksize = st.blobWriter.chunksize :=
      hspare.writeFileChunks (by rw [hsize]; exact hcs) (by rw [hlen]; exact stat.size.toNat_lt)
    rw [hcontent, ← hlen, hrun, bind_ok]
    exact ⟨_, _, rfl, ⟨by dsimp only [TreeState.push]; omega, hsize'.trans hsize, hspare'⟩, hpush _⟩
  split
  · rename_i hisSymlink
    obtain ⟨target, htarget⟩ := hlink hisSymlink
    rw [htarget, withContext_ok, bind_ok]
    exact ⟨_, _, rfl, ⟨by dsimp only [TreeState.push]; omega, hsize, hless⟩, hpush _⟩
  · exact ⟨_, _, rfl, ⟨by dsimp only [TreeState.push]; omega, hsize, hless⟩, hpush _⟩

/-- The loop, given that its recursive calls return. -/
theorem buildEntries_returns (hash : List UInt8 → Digest) {entries : List (List UInt8 × Source)}
    (ih : ∀ e ∈ entries, Returns hash chunksize e.2) (hans : ∀ e ∈ entries, e.2.Answers)
    (hready : st.Ready chunksize ((entries.map fun e => e.2.total fun _ => 1).sum + n)
      ((entries.map fun e => e.2.total (Source.space chunksize)).sum + m)) :
    ∃ children st', buildEntries hash entries st = .ok (children, st') ∧ st'.Ready chunksize n m ∧
      st.inodes.length ≤ st'.inodes.length := by
  induction entries generalizing st with
  | nil =>
    rw [buildEntries]
    exact ⟨[], st, rfl, hready.mono (Nat.le_add_left _ _) (Nat.le_add_left _ _), Nat.le_refl _⟩
  | cons entry entries ihs =>
    obtain ⟨fileName, child⟩ := entry
    obtain ⟨stat, hstat, -⟩ := (hans _ List.mem_cons_self).stat
    rw [List.map_cons, List.sum_cons, List.map_cons, List.sum_cons, Nat.add_assoc,
      Nat.add_assoc] at hready
    have hentry : ∃ idx st₁, entryInode hash stat child st = .ok (idx, st₁) ∧
        st₁.Ready chunksize ((entries.map fun e => e.2.total fun _ => 1).sum + n)
          ((entries.map fun e => e.2.total (Source.space chunksize)).sum + m) ∧
        st.inodes.length ≤ st₁.inodes.length := by
      unfold entryInode
      split
      · exact ⟨_, st, rfl, hready.mono (Nat.le_add_left _ _) (Nat.le_add_left _ _), Nat.le_refl _⟩
      · obtain ⟨idx, st₁, hrun, hready₁, hlen⟩ := ih _ List.mem_cons_self _ _ _ hready
        rw [hrun, bind_ok]
        refine ⟨idx, _, rfl, ?_⟩
        split
        · exact ⟨⟨hready₁.counter, hready₁.chunksize, hready₁.spare⟩, hlen⟩
        · exact ⟨hready₁, hlen⟩
    obtain ⟨idx, st₁, hfirst, hready₁, hlen₁⟩ := hentry
    obtain ⟨children, st₂, hrest, hready₂, hlen₂⟩ :=
      ihs (fun e he => ih e (List.mem_cons_of_mem _ he))
        (fun e he => hans e (List.mem_cons_of_mem _ he)) hready₁
    rw [entryInode] at hfirst
    rw [buildEntries, hstat, withContext_ok, bind_ok]
    dsimp only
    rw [hfirst, bind_ok]
    dsimp only
    rw [hrest, bind_ok]
    exact ⟨_, _, rfl, hready₂, hlen₁.trans hlen₂⟩

/-- **The walk returns.** -/
theorem returns_of_noIoError (hash : List UInt8 → Digest) (hcs : 0 < chunksize) (source : Source)
    (hans : NoIoError source) :
    Returns hash chunksize source := by
  induction hn : sizeOf source using Nat.strongRecOn generalizing source with
  | ind n ih =>
    obtain ⟨stat, hstat, hread, -⟩ := (hans [] source .root).stat
    have hdir := isDir_of_ok hstat
    cases hd : stat.isDir with
    | false => exact returns_leaf hcs hstat hd (hans [] source .root)
    | true =>
      intro st k m hready
      rw [Source.total_eq, Source.total_eq, hdir.trans hd, if_pos rfl, if_pos rfl] at hready
      obtain ⟨hreadDir, hiterate⟩ := hread hd
      obtain ⟨hcounter, hsize, hspare⟩ := hready
      have hready₀ : TreeState.Ready
          { st with
            inodes := st.inodes ++ [stat.inode (st.inoCounter + 1) 0 (.directory [] 0 0 0)
              (readXattrsFromPath source.xattrs)]
            inoCounter := st.inoCounter + 1 } chunksize
          (((sortByFileName source.entries).map fun e => e.2.total fun _ => 1).sum + k)
          (((sortByFileName source.entries).map fun e =>
            e.2.total (Source.space chunksize)).sum + m) := by
        refine TreeState.Ready.mono ⟨?_, hsize, hspare⟩ (Nat.le_refl _) (by omega)
        dsimp only
        omega
      obtain ⟨children, st₁, hrun, hready₁, hlen⟩ := buildEntries_returns hash
        (fun e he => ih _ (hn ▸ sizeOf_entry_lt he) e.2 (hans.entry (hdir.trans hd) he) rfl)
        (fun e he => hans.entry (hdir.trans hd) he [] e.2 .root) hready₀
      rw [List.length_append, List.length_singleton] at hlen
      rw [buildTreeRecursive, hstat, withContext_ok, bind_ok, checkedAdd_ok (by omega), bind_ok]
      dsimp only
      rw [if_pos hd, hreadDir, withContext_ok, bind_ok, hiterate, withContext_ok, bind_ok]
      dsimp only [TreeState.push]
      rw [hrun, bind_ok]
      dsimp only
      rw [updateAt_ok (by omega), bind_ok]
      refine ⟨_, _, rfl, ⟨hready₁.counter, hready₁.chunksize, hready₁.spare⟩, ?_⟩
      dsimp only
      rw [List.length_modify]
      omega

/-- **A build returns** when no call reports an error, every path has a number, and the
blob device has room for the data. -/
theorem buildTree_returns (hash : List UInt8 → Digest) {source : Source} {w : BlobWriter}
    (hans : NoIoError source) (hcount : source.total (fun _ => 1) < 2 ^ 32) (hcs : 0 < w.chunksize)
    (hspare : w.Spare (source.total (Source.space w.chunksize))) :
    ∃ inodes w', buildTree hash source w = .ok (inodes, w') := by
  obtain ⟨idx, st, hrun, -⟩ := returns_of_noIoError hash hcs source hans
    { inodes := [], inoCounter := 0, hardlinkMap := fun _ => none, blobWriter := w } 0 0
    ⟨by simpa using hcount, rfl, hspare⟩
  rw [buildTree, hrun]
  exact ⟨_, _, rfl⟩

/-! ## Directories of empty files -/

def statOf (mode : UInt32) (ino : UInt64) : FileStat :=
  { mode, uid := 0, gid := 0, size := 0, mtime := 1700000000, mtimeNsec := 0, nlink := 1
    dev := 1, ino, rdev := 0 }

def plainFile (ino : UInt64) : Source :=
  { path := "src/file", stat := .ok (statOf 0o100644 ino), xattrs := some []
    readDir := osError 20, iterate := osError 20, entries := [], file := .ok []
    link := osError 22 }

def filesDir (entries : List (List UInt8 × Source)) : Source :=
  { path := "src", stat := .ok (statOf 0o040755 1), xattrs := some [], readDir := .ok ()
    iterate := .ok (), entries, file := osError 21, link := osError 22 }

/-- Trees of empty files have no chunk to digest. -/
def noDigest : List UInt8 → Digest := fun _ => Vector.replicate 32 0

def emptyBlob : BlobWriter :=
  { file := { bytes := [], room := 4096 }, chunksize := 4096, nextBlkaddr := 0, dedup := fun _ => none
    savedByDedup := 0 }

theorem plainFile_isDir (ino : UInt64) : (plainFile ino).isDir = false :=
  show ((0o100644 : UInt32) &&& 0o170000 == 0o040000) = false by decide

theorem filesDir_isDir (entries : List (List UInt8 × Source)) : (filesDir entries).isDir = true :=
  show ((0o040755 : UInt32) &&& 0o170000 == 0o040000) = true by decide

section
variable {entries : List (List UInt8 × Source)}
  (hfiles : ∀ e ∈ entries, ∃ ino, e.2 = plainFile ino)
include hfiles

theorem occurs_filesDir {p : List Nat} {node : Source} (h : Occurs (filesDir entries) p node) :
    node = filesDir entries ∨ ∃ e ∈ entries, node = e.2 := by
  refine h.closed (P := fun node => node = filesDir entries ∨ ∃ e ∈ entries, node = e.2)
    (.inl rfl) ?_
  rintro dir (rfl | ⟨e', he', rfl⟩) hdir e he
  · exact .inr ⟨e, he, rfl⟩
  · obtain ⟨ino, hino⟩ := hfiles e' he'
    rw [hino, plainFile_isDir] at hdir
    cases hdir

theorem noIoError_filesDir : NoIoError (filesDir entries) := by
  intro p node hocc
  rcases occurs_filesDir hfiles hocc with rfl | ⟨e, he, rfl⟩
  · exact ⟨_, rfl, fun _ => ⟨rfl, rfl⟩, fun h => absurd h (by decide), fun h => absurd h (by decide)⟩
  · obtain ⟨ino, hino⟩ := hfiles e he
    rw [hino]
    exact ⟨_, rfl, fun h => absurd h (Bool.eq_false_iff.mp (plainFile_isDir ino)),
      fun _ => ⟨[], rfl, rfl⟩, fun h => absurd h
        (show ¬ ((0o100644 : UInt32) &&& 0o170000 == 0o120000) = true by decide)⟩

theorem total_filesDir (f : Source → Nat) : (filesDir entries).total f =
    f (filesDir entries) + (entries.map fun e => f e.2).sum := by
  rw [Source.total_entries, filesDir_isDir, if_pos rfl]
  refine congrArg (fun l => f (filesDir entries) + List.sum l) (List.map_congr_left fun e he => ?_)
  obtain ⟨ino, hino⟩ := hfiles e he
  rw [hino, Source.total_entries, plainFile_isDir, if_neg Bool.false_ne_true, Nat.add_zero]

theorem buildTree_filesDir (hash : List UInt8 → Digest) (hlen : entries.length + 1 < 2 ^ 32) :
    ∃ inodes w', buildTree hash (filesDir entries) emptyBlob = .ok (inodes, w') := by
  have hspace : ∀ ino, (plainFile ino).space 4096 = 0 := fun ino => rfl
  refine buildTree_returns hash (noIoError_filesDir hfiles) ?_ (by decide) ?_
  · rw [total_filesDir hfiles]
    simpa [Nat.add_comm] using hlen
  · rw [total_filesDir hfiles]
    have hzero : (entries.map fun e => e.2.space 4096) = entries.map fun _ => 0 :=
      List.map_congr_left fun e he => by
        obtain ⟨ino, hino⟩ := hfiles e he
        rw [hino, hspace]
    show emptyBlob.Spare (0 + (entries.map fun e => e.2.space 4096).sum)
    rw [hzero]
    simp
    exact ⟨by decide, by decide, by decide⟩

end

end ErofsUtils.Build
