import ErofsUtils.Build.Returns

/-! # The list of inodes represents the source tree

Every path of a static source tree has one inode, the names of a file share theirs, and the
entries of a directory are those of the source. -/
namespace ErofsUtils.Build
open ErofsUtils.Rust ErofsUtils.Bytes ErofsUtils.Metadata ErofsUtils.Store ErofsUtils.Text

/-- While the tree is walked no metadata changes: all names of a file tell the same of it. -/
def Static (root : Source) : Prop :=
  ∀ p a q b stat stat', Occurs root p a → Occurs root q b → a.stat = .ok stat →
    b.stat = .ok stat' → stat.key = stat'.key → stat = stat'

/-- The two paths are names of one file that has several. -/
def LinkedNames (a b : Source) : Prop :=
  ∃ stat stat', a.stat = .ok stat ∧ b.stat = .ok stat' ∧ stat.isHardlinked = true ∧
    stat'.isHardlinked = true ∧ stat.key = stat'.key

/-- The child at position `k` of the directory at `p` is the entry of that position. -/
structure ChildOf (os : List (List Nat × Source)) (inodes : List InodeInfo) (p : List Nat)
    (k : Nat) (e : List UInt8 × Source) (de : DirEntry) : Prop where
  name : de.name = toStringLossy e.1
  index : IndexOf os (p ++ [k], e.2) de.inodeIdx
  fileType : ∃ inode, inodes[de.inodeIdx]? = some inode ∧ de.fileType = modeToFileType inode.mode

/-- The children of an inode are the entries of the directory at `p`, in byte order of their
names, one child for each. -/
structure ChildrenOf (os : List (List Nat × Source)) (inodes : List InodeInfo) (p : List Nat)
    (dir : Source) (children : List DirEntry) : Prop where
  sorted : (sortByFileName dir.entries).Pairwise fun a b => ¬ b.1 < a.1
  entries : (sortByFileName dir.entries).Perm dir.entries
  length : children.length = (sortByFileName dir.entries).length
  each : ∀ (k : Nat) e de, (sortByFileName dir.entries)[k]? = some e → children[k]? = some de →
    ChildOf os inodes p k e de

/-- The inode at `i` is child `k` of the inode at `j`. -/
def IsChild (inodes : List InodeInfo) (j k i : Nat) : Prop :=
  ∃ inode de, inodes[j]? = some inode ∧ inode.data.children[k]? = some de ∧ de.inodeIdx = i

/-- The inodes were made at the places `os`. -/
structure RepresentsAt (root : Source) (inodes : List InodeInfo) (os : List (List Nat × Source)) :
    Prop where
  length : os.length = inodes.length
  first : os[0]? = some ([], root)
  preorder : os.Pairwise fun o o' => o.1 < o'.1
  made : ∀ (i : Nat) o inode, os[i]? = some o → inodes[i]? = some inode → Made root i o inode
  indexed : ∀ p node, Occurs root p node → ∃! i, IndexOf os (p, node) i
  shared : ∀ p a q b i j, Occurs root p a → Occurs root q b → IndexOf os (p, a) i →
    IndexOf os (q, b) j → (i = j ↔ p = q ∨ LinkedNames a b)
  children : ∀ (i : Nat) p dir (inode : InodeInfo), os[i]? = some (p, dir) → dir.isDir = true →
    inodes[i]? = some inode → ChildrenOf os inodes p dir inode.data.children
  parent : ∀ (i : Nat) p dir, os[i]? = some (p, dir) → dir.isDir = true → i ≠ 0 →
    ∃! jk : Nat × Nat, IsChild inodes jk.1 jk.2 i

def Represents (root : Source) (inodes : List InodeInfo) : Prop :=
  ∃ os, RepresentsAt root inodes os

/-! ## Entries in byte order -/

theorem sortByFileName_sorted (entries : List (List UInt8 × Source)) :
    (sortByFileName entries).Pairwise fun a b => ¬ b.1 < a.1 := by
  have hle : ∀ a b : List UInt8 × Source, (!decide (b.1 < a.1)) = true ↔ ¬ b.1 < a.1 := by
    intro a b
    rw [Bool.not_eq_true', decide_eq_false_iff_not]
  have htrans : ∀ a b c : List UInt8 × Source, (!decide (b.1 < a.1)) = true →
      (!decide (c.1 < b.1)) = true → (!decide (c.1 < a.1)) = true := by
    intro a b c hab hbc
    rw [hle] at *
    exact List.not_lt.mpr (List.le_trans (List.not_lt.mp hab) (List.not_lt.mp hbc))
  have htotal : ∀ a b : List UInt8 × Source,
      (!decide (b.1 < a.1) || !decide (a.1 < b.1)) = true := by
    intro a b
    rw [Bool.or_eq_true, hle, hle]
    exact (List.le_total a.1 b.1).imp List.not_lt.mpr List.not_lt.mpr
  exact (List.pairwise_mergeSort htrans htotal entries).imp fun h => (hle _ _).mp h

/-- Lists with the same image agree element by element. -/
theorem forall₂_of_map_eq {α β γ : Type} {f : α → γ} {g : β → γ} {l : List α} {m : List β}
    (h : l.map f = m.map g) : List.Forall₂ (fun a b => f a = g b) l m := by
  rwa [← List.forall₂_eq_eq_eq, List.forall₂_map_left_iff, List.forall₂_map_right_iff] at h

/-! ## A complete walk represents the tree -/

variable {root : Source} {os : List (List Nat × Source)} {inodes : List InodeInfo}

theorem Static.mode_eq (hstatic : Static root) {p q : List Nat} {a b : Source} {stat : FileStat}
    (ha : Occurs root p a) (hb : Occurs root q b) (hsame : b = a ∨ SameFile a b)
    (hstat : a.stat = .ok stat) : b.stat = .ok stat := by
  rcases hsame with rfl | ⟨s, s', hs, hs', hkey⟩
  · exact hstat
  · rw [hstat] at hs
    cases hs
    rw [hs', hstatic p a q b stat s' ha hb hstat hs' hkey]

/-- The type recorded for an entry is that of the inode it leads to. -/
theorem Complete.fileType (h : Complete root os inodes) (hstatic : Static root) {p : List Nat}
    {node : Source} {i : Nat} {stat : FileStat} (hocc : Occurs root p node)
    (hidx : IndexOf os (p, node) i) (hstat : node.stat = .ok stat) :
    ∃ inode, inodes[i]? = some inode ∧
      modeToFileType stat.mode.toUInt16 = modeToFileType inode.mode := by
  obtain ⟨o, ho, hid, -⟩ := hidx
  obtain ⟨inode, hinode, hmade⟩ := h.made_at ho
  have hsame := same_of_identity hmade.occurs hocc hid
  obtain ⟨stat', ino, size, data, hstat', hof⟩ := hmade.isOf
  rw [hstatic.mode_eq hocc hmade.occurs hsame hstat] at hstat'
  cases hstat'
  exact ⟨inode, hinode, by rw [hof]; rfl⟩

theorem Complete.childrenOf (h : Complete root os inodes) (hstatic : Static root) {i : Nat}
    {p : List Nat} {dir : Source} {inode : InodeInfo} (hat : os[i]? = some (p, dir))
    (hdir : dir.isDir = true) (hinode : inodes[i]? = some inode) :
    ChildrenOf os inodes p dir inode.data.children := by
  have hchildren := h.filled i _ inode hat hinode hdir
  have hmade := h.made i _ inode hat hinode
  refine ⟨sortByFileName_sorted _, sortByFileName_perm _, hchildren.length, ?_⟩
  intro k e de he hde
  obtain ⟨hname, ⟨stat, hstat, htype⟩, hidx⟩ := hchildren.get he hde
  rw [Nat.zero_add] at hidx
  obtain ⟨inode', hinode', hmode⟩ :=
    h.fileType hstatic (.entry hmade.occurs hdir he) hidx hstat
  exact ⟨hname, hidx, inode', hinode', htype.trans hmode⟩

theorem Complete.index_unique (h : Complete root os inodes) {o o' : List Nat × Source} {i j : Nat}
    (hi : IndexOf os o i) (hj : IndexOf os o' j) : i = j ↔ identity o = identity o' := by
  obtain ⟨a, ha, hida, -⟩ := hi
  obtain ⟨b, hb, hidb, -⟩ := hj
  constructor
  · rintro rfl
    rw [ha] at hb
    cases hb
    exact hida.symm.trans hidb
  · intro hid
    exact index_inj_of_nodup h.apart ha hb (hida.trans (hid.trans hidb.symm))

theorem identity_eq_iff {p q : List Nat} {a b : Source} (ha : Occurs root p a)
    (hb : Occurs root q b) : identity (p, a) = identity (q, b) ↔ p = q ∨ LinkedNames a b := by
  constructor
  · intro hid
    cases hb' : b.stat with
    | error e =>
      have hq : identity (q, b) = .place q := by rw [identity, hb']
      exact .inl (place_of_identity (hid.trans hq))
    | ok stat' =>
      rw [identity_of_ok hb'] at hid
      split at hid
      · rename_i hlinked'
        right
        unfold identity at hid
        split at hid
        · rename_i stat ha'
          split at hid
          · rename_i hlinked
            exact ⟨stat, stat', ha', hb', hlinked, hlinked', Identity.file.inj hid⟩
          · cases hid
        · cases hid
      · exact .inl (place_of_identity hid)
  · rintro (rfl | ⟨stat, stat', ha', hb', hlinked, hlinked', hkey⟩)
    · rw [ha.unique hb]
    · rw [identity_of_ok ha', identity_of_ok hb', if_pos hlinked, if_pos hlinked', hkey]

/-- An inode with children is that of a directory. -/
theorem Complete.isDir_of_child (h : Complete root os inodes) {j k i : Nat}
    (hchild : IsChild inodes j k i) : ∃ p dir inode e de, os[j]? = some (p, dir) ∧
      dir.isDir = true ∧ inodes[j]? = some inode ∧ Occurs root p dir ∧
      (sortByFileName dir.entries)[k]? = some e ∧ inode.data.children[k]? = some de ∧
      de.inodeIdx = i ∧ IndexOf os (p ++ [k], e.2) i := by
  obtain ⟨inode, de, hinode, hde, rfl⟩ := hchild
  have hlt := h.length ▸ (List.getElem?_eq_some_iff.mp hinode).1
  obtain ⟨⟨p, dir⟩, hat⟩ : ∃ o, os[j]? = some o := ⟨_, List.getElem?_eq_getElem hlt⟩
  have hmade := h.made j _ inode hat hinode
  have hdir : dir.isDir = true := by
    have hkind := hmade.isDir
    cases hdata : inode.data with
    | directory => rw [hdata] at hkind; exact hkind.symm
    | regularFile | symlink | specialDev | specialNoData =>
      rw [hdata] at hde
      cases hde
  have hchildren := h.filled j _ inode hat hinode hdir
  have hk := hchildren.length ▸ (List.getElem?_eq_some_iff.mp hde).1
  obtain ⟨-, -, hidx⟩ := hchildren.get (List.getElem?_eq_getElem hk) hde
  rw [Nat.zero_add] at hidx
  exact ⟨p, dir, inode, _, de, hat, hdir, hinode, hmade.occurs, List.getElem?_eq_getElem hk, hde, rfl,
    hidx⟩

/-- A directory below the root is the child of one directory, once. -/
theorem Complete.parent (h : Complete root os inodes) {i : Nat} {p : List Nat} {dir : Source}
    (hat : os[i]? = some (p, dir)) (hdir : dir.isDir = true) (hi : i ≠ 0) :
    ∃! jk : Nat × Nat, IsChild inodes jk.1 jk.2 i := by
  obtain ⟨_, -, hmade⟩ := h.made_at hat
  have hown : IndexOf os (p, dir) i := ⟨(p, dir), hat, rfl, List.lt_irrefl _⟩
  have hid : identity (p, dir) = .place p := identity_of_isDir hdir
  rcases hmade.occurs.inv with ⟨hp, -⟩ | ⟨q, up, k, e, hp, hnode, hq, hup, he⟩
  · have hroot : IndexOf os ([], root) 0 := ⟨_, h.first, rfl, List.lt_irrefl _⟩
    dsimp only at hp
    subst hp
    have hsame := hmade.occurs.unique .root
    dsimp only at hsame
    subst hsame
    exact absurd ((h.index_unique hown hroot).mpr rfl) hi
  dsimp only at hp hnode
  subst hp hnode
  obtain ⟨j, hj⟩ := h.indexed q up hq
  have hupAt := h.dir_at hq hup hj
  obtain ⟨inode, hinode, -⟩ := h.made_at hupAt
  have hchildren := h.filled j _ inode hupAt hinode hup
  have hlt := hchildren.length ▸ (List.getElem?_eq_some_iff.mp he).1
  obtain ⟨-, -, hidx⟩ := hchildren.get he (List.getElem?_eq_getElem hlt)
  rw [Nat.zero_add] at hidx
  refine ⟨(j, k), ⟨inode, _, hinode, List.getElem?_eq_getElem hlt, (h.index_unique hidx hown).mpr rfl⟩,
    ?_⟩
  rintro ⟨j', k'⟩ hchild
  obtain ⟨p', dir', -, e', -, hat', -, -, hocc', he', -, -, hidx'⟩ := h.isDir_of_child hchild
  have hplace := place_of_identity (((h.index_unique hidx' hown).mp rfl).trans hid)
  obtain ⟨rfl, hk⟩ := List.append_inj' hplace rfl
  obtain rfl := List.singleton_inj.mp hk
  have hidx'' : IndexOf os (p', up) j' := by
    rw [hq.unique hocc']
    exact ⟨_, hat', rfl, List.lt_irrefl _⟩
  rw [(h.index_unique hidx'' hj).mpr rfl]

/-- The inodes of a complete walk represent the tree. -/
theorem Complete.represents (h : Complete root os inodes) (hstatic : Static root) :
    RepresentsAt root inodes os where
  length := h.length
  first := h.first
  preorder := h.preorder
  made := h.made
  indexed := by
    intro p node hocc
    obtain ⟨i, hi⟩ := h.indexed p node hocc
    exact ⟨i, hi, fun j hj => (h.index_unique hj hi).mpr rfl⟩
  shared := fun p a q b i j ha hb hi hj => (h.index_unique hi hj).trans (identity_eq_iff ha hb)
  children := fun i p dir inode hat hdir hinode => h.childrenOf hstatic hat hdir hinode
  parent := fun i p dir hat hdir hi => h.parent hat hdir hi

/-- **A build represents its source.** Whatever it returns for a static tree below a directory
is a list of inodes that represents the tree, and it returns when no call reports an
error, every path has a number, and the blob device has room for the data. -/
theorem buildTree_represents (hash : List UInt8 → Digest) {source : Source} (w : BlobWriter)
    (hdir : source.isDir = true) (hstatic : Static source) :
    (∀ inodes w', buildTree hash source w = .ok (inodes, w') → Represents source inodes) ∧
      (NoIoError source → source.total (fun _ => 1) < 2 ^ 32 → 0 < w.chunksize →
        w.Spare (source.total (Source.space w.chunksize)) →
        ∃ inodes w', buildTree hash source w = .ok (inodes, w')) := by
  constructor
  · intro inodes w' h
    obtain ⟨os, hcomplete⟩ := buildTree_complete h hdir
    exact ⟨os, hcomplete.represents hstatic⟩
  · exact fun hans hcount hcs hspare => buildTree_returns hash hans hcount hcs hspare

/-- The numbers of the inodes end before 32 bits do. -/
theorem Complete.length_lt (h : Complete root os inodes) : os.length < 2 ^ 32 := by
  by_contra hge
  obtain ⟨o, ho⟩ : ∃ o, os[2 ^ 32 - 1]? = some o := ⟨_, List.getElem?_eq_getElem (by omega)⟩
  obtain ⟨inode, -, hmade⟩ := h.made_at ho
  have hlt := inode.ino.toNat_lt
  have hino := hmade.ino
  omega

/-- A directory of files with one name each has fewer entries than there are numbers. -/
theorem Complete.entries_lt (h : Complete root os inodes) (hdir : root.isDir = true)
    (hone : ∀ e ∈ root.entries, ∃ stat, e.2.stat = .ok stat ∧ stat.isHardlinked = false) :
    root.entries.length < 2 ^ 32 := by
  have hperm := sortByFileName_perm root.entries
  have hsub : (List.range root.entries.length).map (fun k => [k]) ⊆ os.map Prod.fst := by
    intro p hp
    obtain ⟨k, hk, rfl⟩ := List.mem_map.mp hp
    rw [List.mem_range, ← hperm.length_eq] at hk
    obtain ⟨i, o, ho, hid, -⟩ := h.indexed _ _ (.entry .root hdir (List.getElem?_eq_getElem hk))
    obtain ⟨stat, hstat, hnot⟩ := hone _ (hperm.mem_iff.mp (List.getElem_mem hk))
    rw [identity_of_ok hstat, hnot, if_neg Bool.false_ne_true] at hid
    exact List.mem_map.mpr ⟨o, List.mem_of_getElem? ho, place_of_identity hid⟩
  have hnodup : ((List.range root.entries.length).map fun k => [k]).Nodup :=
    List.nodup_range.map fun _ _ h => List.singleton_inj.mp h
  have hle := (List.subperm_of_subset hnodup hsub).length_le
  rw [List.length_map, List.length_map, List.length_range] at hle
  exact Nat.lt_of_le_of_lt hle h.length_lt

/-! ## A tree with a hard link, and one with too many files -/

/-- A file with two names. -/
def linkedFile (path : String) : Source :=
  { plainFile 3 with path, stat := .ok { statOf 0o100644 3 with nlink := 2 } }

def linkedDir : Source :=
  { filesDir [([99], linkedFile "src/a/c")] with path := "src/a", stat := .ok (statOf 0o040755 2) }

/-- The file is `b`, and `c` in the directory `a`. -/
def linkedTree : Source := filesDir [([98], linkedFile "src/b"), ([97], linkedDir)]

theorem occurs_linkedTree {p : List Nat} {node : Source} (h : Occurs linkedTree p node) :
    node = linkedTree ∨ node = linkedDir ∨ ∃ path, node = linkedFile path := by
  refine h.closed (P := fun node => node = linkedTree ∨ node = linkedDir ∨
    ∃ path, node = linkedFile path) (.inl rfl) ?_
  rintro dir (rfl | rfl | ⟨path, rfl⟩) hdir e he
  · simp only [linkedTree, filesDir, List.mem_cons, List.not_mem_nil, or_false] at he
    rcases he with rfl | rfl
    · exact .inr (.inr ⟨_, rfl⟩)
    · exact .inr (.inl rfl)
  · simp only [linkedDir, filesDir, List.mem_cons, List.not_mem_nil, or_false] at he
    rw [he]
    exact .inr (.inr ⟨_, rfl⟩)
  · cases he

theorem noIoError_linkedTree : NoIoError linkedTree := by
  intro p node h
  rcases occurs_linkedTree h with rfl | rfl | ⟨path, rfl⟩
  · exact ⟨_, rfl, fun _ => ⟨rfl, rfl⟩, fun h => absurd h (by decide), fun h => absurd h (by decide)⟩
  · exact ⟨_, rfl, fun _ => ⟨rfl, rfl⟩, fun h => absurd h (by decide), fun h => absurd h (by decide)⟩
  · exact ⟨_, rfl, fun h => absurd h (by decide), fun _ => ⟨[], rfl, rfl⟩,
      fun h => absurd h (by decide)⟩

theorem static_linkedTree : Static linkedTree := by
  have hstat : ∀ p node stat, Occurs linkedTree p node → node.stat = .ok stat →
      stat = statOf 0o040755 1 ∨ stat = statOf 0o040755 2 ∨
        stat = { statOf 0o100644 3 with nlink := 2 } := by
    intro p node stat hocc hs
    rcases occurs_linkedTree hocc with rfl | rfl | ⟨path, rfl⟩
    · cases hs
      exact .inl rfl
    · cases hs
      exact .inr (.inl rfl)
    · cases hs
      exact .inr (.inr rfl)
  intro p a q b stat stat' ha hb hs hs' hkey
  rcases hstat p a stat ha hs with rfl | rfl | rfl <;>
    rcases hstat q b stat' hb hs' with rfl | rfl | rfl
  all_goals first
    | rfl
    | exact absurd hkey (by decide)

theorem total_linkedTree (f : Source → Nat) : linkedTree.total f =
    f linkedTree + (f (linkedFile "src/b") + (f linkedDir + f (linkedFile "src/a/c"))) := by
  have hleaf : ∀ path, (linkedFile path).total f = f (linkedFile path) := by
    intro path
    have hnot : ¬ (linkedFile path).isDir = true :=
      show ¬ ((0o100644 : UInt32) &&& 0o170000 == 0o040000) = true by decide
    rw [Source.total_entries, if_neg hnot, Nat.add_zero]
  have hdir : linkedDir.total f = f linkedDir + f (linkedFile "src/a/c") := by
    rw [Source.total_entries, if_pos (by decide)]
    simp [linkedDir, filesDir, hleaf]
  rw [Source.total_entries, if_pos (by decide)]
  simp [linkedTree, filesDir, hleaf, hdir]

theorem buildTree_represents_linkedTree : ∃ inodes w',
    buildTree noDigest linkedTree emptyBlob = .ok (inodes, w') ∧ Represents linkedTree inodes := by
  obtain ⟨hrep, hret⟩ := buildTree_represents noDigest emptyBlob
    (show linkedTree.isDir = true by decide) static_linkedTree
  obtain ⟨inodes, w', h⟩ := hret noIoError_linkedTree (by rw [total_linkedTree]; decide) (by decide)
    (by rw [total_linkedTree]; exact ⟨by decide, by decide, by decide⟩)
  exact ⟨inodes, w', h, hrep inodes w' h⟩

theorem static_filesDir {entries : List (List UInt8 × Source)}
    (hfiles : ∀ e ∈ entries, ∃ ino, ino ≠ 1 ∧ e.2 = plainFile ino) : Static (filesDir entries) := by
  have hplain : ∀ e ∈ entries, ∃ ino, e.2 = plainFile ino :=
    fun e he => (hfiles e he).imp fun _ h => h.2
  have hstat : ∀ p node stat, Occurs (filesDir entries) p node → node.stat = .ok stat →
      stat = statOf 0o040755 1 ∨ ∃ ino, ino ≠ 1 ∧ stat = statOf 0o100644 ino := by
    intro p node stat hocc hs
    rcases occurs_filesDir hplain hocc with rfl | ⟨e, he, rfl⟩
    · cases hs
      exact .inl rfl
    · obtain ⟨ino, hne, hino⟩ := hfiles e he
      rw [hino] at hs
      cases hs
      exact .inr ⟨ino, hne, rfl⟩
  intro p a q b stat stat' ha hb hs hs' hkey
  rcases hstat p a stat ha hs with rfl | ⟨ino, hne, rfl⟩ <;>
    rcases hstat q b stat' hb hs' with rfl | ⟨ino', hne', rfl⟩
  · rfl
  · exact absurd (congrArg Prod.snd hkey).symm hne'
  · exact absurd (congrArg Prod.snd hkey) hne
  · exact congrArg (statOf 0o100644) (congrArg Prod.snd hkey)

/-- `n` empty files, named by their number. -/
def numberedFiles (n : Nat) : List (List UInt8 × Source) :=
  (List.range n).map fun i =>
    ((Nat.toDigits 10 i).map fun c => UInt8.ofNat c.toNat, plainFile (UInt64.ofNat (i + 2)))

section
variable {n : Nat} (hn : n ≤ 2 ^ 32)
include hn

theorem mem_numberedFiles : ∀ e ∈ numberedFiles n, ∃ ino, ino ≠ 1 ∧ e.2 = plainFile ino := by
  intro e he
  obtain ⟨i, hi, rfl⟩ := List.mem_map.mp he
  rw [List.mem_range] at hi
  refine ⟨_, ?_, rfl⟩
  intro h
  have hlt : i + 2 < 2 ^ 64 := by omega
  have hnat : (UInt64.ofNat (i + 2)).toNat = i + 2 := UInt64.toNat_ofNat_of_lt' hlt
  rw [h] at hnat
  have hone : (1 : UInt64).toNat = 1 := rfl
  omega

theorem noIoError_numberedFiles : NoIoError (filesDir (numberedFiles n)) :=
  noIoError_filesDir fun e he => (mem_numberedFiles hn e he).imp fun _ h => h.2

/-- A build that returns has numbered all of them. -/
theorem numberedFiles_lt {hash : List UInt8 → Digest} {w w' : BlobWriter}
    (h : buildTree hash (filesDir (numberedFiles n)) w = .ok (inodes, w')) : n < 2 ^ 32 := by
  obtain ⟨os, hcomplete⟩ := buildTree_complete h (filesDir_isDir _)
  have hone : ∀ e ∈ numberedFiles n, ∃ stat, e.2.stat = .ok stat ∧ stat.isHardlinked = false := by
    intro e he
    obtain ⟨ino, -, hino⟩ := mem_numberedFiles hn e he
    have hlink : decide ((1 : UInt64) > 1) = false := by decide
    rw [hino]
    exact ⟨_, rfl, (congrArg _ hlink).trans (Bool.and_false _)⟩
  have hlt : (numberedFiles n).length < 2 ^ 32 := hcomplete.entries_lt (filesDir_isDir _) hone
  rwa [numberedFiles, List.length_map, List.length_range] at hlt

end

/-- The walk of 2^32 files runs out of inode numbers, though no call fails. -/
theorem not_buildTree_numberedFiles :
    (filesDir (numberedFiles (2 ^ 32))).isDir = true ∧
      Static (filesDir (numberedFiles (2 ^ 32))) ∧ NoIoError (filesDir (numberedFiles (2 ^ 32))) ∧
      ∀ hash w inodes w',
        buildTree hash (filesDir (numberedFiles (2 ^ 32))) w ≠ .ok (inodes, w') := by
  have hn : (2 ^ 32 : Nat) ≤ 2 ^ 32 := Nat.le_refl _
  generalize hmany : (2 ^ 32 : Nat) = n at hn ⊢
  refine ⟨filesDir_isDir _, static_filesDir (mem_numberedFiles (hmany ▸ Nat.le_refl _)),
    noIoError_numberedFiles (hmany ▸ Nat.le_refl _), ?_⟩
  intro hash w inodes w' h
  exact absurd (numberedFiles_lt (hmany ▸ Nat.le_refl _) h) (hmany ▸ Nat.lt_irrefl _)

end ErofsUtils.Build
