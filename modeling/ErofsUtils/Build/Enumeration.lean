import ErofsUtils.Build.Represents

/-! # The order in which directories are listed

`read_dir` lists the entries of a directory in any order. Sorting their names leaves one order,
a name stands for one entry, and so two walks of one tree do the same at every step. -/
namespace ErofsUtils.Build
open ErofsUtils.Rust ErofsUtils.Bytes ErofsUtils.Metadata ErofsUtils.Store

/-- One tree, whose directories may list their entries in two different orders: what is found
under a name is the same up to the order in the directories below it. -/
inductive Source.Reordered : Source → Source → Prop where
  | mk {path : String} {stat : IoResult FileStat} {xattrs : XattrSource}
      {readDir iterate : IoResult Unit} {file link : IoResult (List UInt8)}
      {entries listed : List (List UInt8 × Source)}
      (hnames : (entries.map Prod.fst).Perm (listed.map Prod.fst))
      (hchild : ∀ e ∈ entries, ∀ f ∈ listed, e.1 = f.1 → Source.Reordered e.2 f.2) :
      Source.Reordered ⟨path, stat, xattrs, readDir, iterate, entries, file, link⟩
        ⟨path, stat, xattrs, readDir, iterate, listed, file, link⟩

variable {hash : List UInt8 → Digest} {entries listed : List (List UInt8 × Source)}
  {a b : Source}

/-- Sorting leaves one order of the names. -/
theorem names_sortByFileName (hnames : (entries.map Prod.fst).Perm (listed.map Prod.fst)) :
    (sortByFileName entries).map Prod.fst = (sortByFileName listed).map Prod.fst := by
  have hsorted : ∀ es : List (List UInt8 × Source),
      ((sortByFileName es).map Prod.fst).Pairwise fun x y => ¬ y < x :=
    fun es => List.pairwise_map.mpr (sortByFileName_sorted es)
  have hperm : ((sortByFileName entries).map Prod.fst).Perm
      ((sortByFileName listed).map Prod.fst) :=
    (((sortByFileName_perm entries).map _).trans hnames).trans
      ((sortByFileName_perm listed).map _).symm
  refine List.Perm.eq_of_pairwise (fun x y _ _ hxy hyx => ?_) (hsorted entries) (hsorted listed)
    hperm
  exact List.le_antisymm (List.not_lt.mp hxy) (List.not_lt.mp hyx)

/-- The sorted entries agree name by name. -/
theorem forall₂_sortByFileName {R : Source → Source → Prop}
    (hnames : (entries.map Prod.fst).Perm (listed.map Prod.fst))
    (hchild : ∀ e ∈ entries, ∀ f ∈ listed, e.1 = f.1 → R e.2 f.2) :
    List.Forall₂ (fun e f => e.1 = f.1 ∧ R e.2 f.2) (sortByFileName entries)
      (sortByFileName listed) := by
  obtain ⟨hlen, hname⟩ := List.forall₂_iff_get.mp (forall₂_of_map_eq (names_sortByFileName hnames))
  refine List.forall₂_iff_get.mpr ⟨hlen, fun i hi hi' => ⟨hname i hi hi', ?_⟩⟩
  exact hchild _ ((sortByFileName_perm entries).mem_iff.mp (List.getElem_mem hi)) _
    ((sortByFileName_perm listed).mem_iff.mp (List.getElem_mem hi')) (hname i hi hi')

/-- What the loop over the entries uses of two paths is the same. -/
structure WalkedAlike (hash : List UInt8 → Digest) (a b : Source) : Prop where
  path : a.path = b.path
  stat : a.stat = b.stat
  walk : ∀ st, buildTreeRecursive hash a st = buildTreeRecursive hash b st

theorem buildEntries_congr
    (h : List.Forall₂ (fun e f => e.1 = f.1 ∧ WalkedAlike hash e.2 f.2) entries listed)
    (st : TreeState) : buildEntries hash entries st = buildEntries hash listed st := by
  induction h generalizing st with
  | nil => rfl
  | @cons e f entries listed hef _ ih =>
    obtain ⟨name, child⟩ := e
    obtain ⟨name', child'⟩ := f
    obtain ⟨hname, hwalk⟩ := hef
    dsimp only at hname hwalk
    rw [buildEntries, buildEntries, hwalk.path, hwalk.stat, hname]
    simp only [hwalk.walk, ih]

/-- **The walk** of a reordered tree is the same from every state. -/
theorem Source.Reordered.walkedAlike (h : Source.Reordered a b) : WalkedAlike hash a b := by
  induction h with
  | @mk path stat xattrs readDir iterate file link entries listed hnames _ ih =>
    have hentries := buildEntries_congr (forall₂_sortByFileName hnames ih)
    refine ⟨rfl, rfl, fun st => ?_⟩
    rw [buildTreeRecursive, buildTreeRecursive]
    simp only [hentries]

/-- **The order of listing** does not matter: the walk of one tree ends with the same inodes and
the same blob, or with the same error, in whatever order its directories are listed. -/
theorem buildTree_reordered (h : Source.Reordered a b) (w : BlobWriter) :
    buildTree hash a w = buildTree hash b w := by
  rw [buildTree, buildTree, h.walkedAlike.walk]

/-- Two empty files, listed in both orders. -/
theorem buildTree_reordered_twoFiles :
    buildTree noDigest (filesDir [([97], plainFile 2), ([98], plainFile 3)]) emptyBlob =
      buildTree noDigest (filesDir [([98], plainFile 3), ([97], plainFile 2)]) emptyBlob := by
  have hfile : ∀ ino, Source.Reordered (plainFile ino) (plainFile ino) :=
    fun ino => .mk (List.Perm.refl _) nofun
  have hboth : Source.Reordered (filesDir [([97], plainFile 2), ([98], plainFile 3)])
      (filesDir [([98], plainFile 3), ([97], plainFile 2)]) := by
    refine .mk (List.Perm.swap [98] [97] []) ?_
    intro e he f hf hef
    simp only [List.mem_cons, List.not_mem_nil, or_false] at he hf
    rcases he with rfl | rfl <;> rcases hf with rfl | rfl
    · exact absurd hef (by decide)
    · exact hfile 2
    · exact hfile 3
    · exact absurd hef (by decide)
  exact buildTree_reordered hboth emptyBlob

end ErofsUtils.Build
