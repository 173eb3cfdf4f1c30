import ErofsUtils.Build.Tree
import ErofsUtils.Store.Places

/-! # The walk over the source tree

Every inode is made at a place of the tree. The places are taken in pre-order; a file of
several names is made at the first of its places, and at the later ones its inode is looked
up. One invariant says so, and the walk of a path and the loop over entries keep it. -/
namespace ErofsUtils.Build
open ErofsUtils.Rust ErofsUtils.Bytes ErofsUtils.Metadata ErofsUtils.Store ErofsUtils.Text

variable {hash : List UInt8 → Digest} {root : Source}

/-! ## Places of the source tree -/

/-- The path at a place: each position counts the sorted entries of a directory. -/
inductive Occurs (root : Source) : List Nat → Source → Prop
  | root : Occurs root [] root
  | entry {p : List Nat} {dir : Source} {k : Nat} {e : List UInt8 × Source} (h : Occurs root p dir)
      (hdir : dir.isDir = true) (he : (sortByFileName dir.entries)[k]? = some e) :
      Occurs root (p ++ [k]) e.2

theorem Occurs.inv {p : List Nat} {node : Source} (h : Occurs root p node) :
    (p = [] ∧ node = root) ∨ ∃ q dir k e, p = q ++ [k] ∧ node = e.2 ∧ Occurs root q dir ∧
      dir.isDir = true ∧ (sortByFileName dir.entries)[k]? = some e := by
  cases h with
  | root => exact .inl ⟨rfl, rfl⟩
  | entry h hdir he => exact .inr ⟨_, _, _, _, rfl, rfl, h, hdir, he⟩

/-- A place has one path. -/
theorem Occurs.unique {p : List Nat} {a b : Source} (h : Occurs root p a) (h' : Occurs root p b) :
    a = b := by
  induction h generalizing b with
  | root =>
    rcases h'.inv with ⟨-, hb⟩ | ⟨q, _, k, _, hnil, -⟩
    · exact hb.symm
    · exact absurd hnil (by simp)
  | entry _ _ he ih =>
    rcases h'.inv with ⟨hnil, -⟩ | ⟨q, dir, k, e, hp, rfl, hq, -, he'⟩
    · exact absurd hnil (by simp)
    · obtain ⟨rfl, hk⟩ := List.append_inj' hp rfl
      obtain rfl := List.singleton_inj.mp hk
      cases ih hq
      rw [he] at he'
      cases he'
      rfl

/-- A place below a path is the path's own or lies below one of its entries. -/
theorem Occurs.split {q : List Nat} {node : Source} (h : Occurs root q node) :
    (q = [] ∧ node = root) ∨ ∃ k r e, q = k :: r ∧ root.isDir = true ∧
      (sortByFileName root.entries)[k]? = some e ∧ Occurs e.2 r node := by
  induction h with
  | root => exact .inl ⟨rfl, rfl⟩
  | @entry p dir j e' h hdir he ih =>
    right
    rcases ih with ⟨rfl, rfl⟩ | ⟨k, r, e, rfl, hroot, hk, hr⟩
    · exact ⟨j, [], e', rfl, hdir, he, .root⟩
    · exact ⟨k, r ++ [j], e, rfl, hroot, hk, .entry hr hdir he⟩

theorem Occurs.of_not_isDir {q : List Nat} {node : Source} (h : Occurs root q node)
    (hdir : root.isDir = false) : q = [] ∧ node = root := by
  rcases h.split with h | ⟨_, _, _, _, hd, _⟩
  · exact h
  · rw [hdir] at hd
    cases hd

/-- What holds of the root and of the entries of a directory it holds of, holds everywhere. -/
theorem Occurs.closed {P : Source → Prop} (hroot : P root)
    (hstep : ∀ dir, P dir → dir.isDir = true → ∀ e ∈ dir.entries, P e.2) {p : List Nat}
    {node : Source} (h : Occurs root p node) : P node := by
  induction h with
  | root => exact hroot
  | entry _ hdir he ih =>
    exact hstep _ ih hdir _ ((sortByFileName_perm _).mem_iff.mp (List.mem_of_getElem? he))

/-- What tells inodes apart: files of several names by device and number, all others by
where they stand. -/
inductive Identity where
  | place (p : List Nat)
  | file (key : UInt64 × UInt64)

def identity (o : List Nat × Source) : Identity :=
  match o.2.stat with
  | .ok stat => if stat.isHardlinked then .file stat.key else .place o.1
  | .error _ => .place o.1

theorem identity_of_ok {p : List Nat} {node : Source} {stat : FileStat}
    (h : node.stat = .ok stat) :
    identity (p, node) = if stat.isHardlinked then .file stat.key else .place p := by
  rw [identity, h]

theorem identity_of_isDir {o : List Nat × Source} (h : o.2.isDir = true) :
    identity o = .place o.1 := by
  cases hstat : o.2.stat with
  | error e =>
    rw [Source.isDir, hstat] at h
    cases h
  | ok stat =>
    rw [isDir_of_ok hstat] at h
    refine (identity_of_ok hstat).trans (if_neg ?_)
    rw [isHardlinked_of_isDir h]
    exact Bool.false_ne_true

theorem place_of_identity {o : List Nat × Source} {p : List Nat} (h : identity o = .place p) :
    o.1 = p := by
  unfold identity at h
  split at h
  · split at h
    · cases h
    · exact Identity.place.inj h
  · exact Identity.place.inj h

/-- The inode at `i` is that of the path: made there, or before at another place of the
same file. -/
def IndexOf (os : List (List Nat × Source)) (o : List Nat × Source) (i : Nat) : Prop :=
  ∃ o', os[i]? = some o' ∧ identity o' = identity o ∧ ¬ o.1 < o'.1

theorem IndexOf.append {os : List (List Nat × Source)} {o : List Nat × Source} {i : Nat}
    (h : IndexOf os o i) (new : List (List Nat × Source)) : IndexOf (os ++ new) o i := by
  obtain ⟨o', ho, hid, hle⟩ := h
  exact ⟨o', by rw [List.getElem?_append_left (List.getElem?_eq_some_iff.mp ho).1, ho], hid, hle⟩

/-! ## The invariant -/

def InodeData.isDirectory : InodeData → Bool
  | .directory .. => true
  | _ => false

/-- The inode at index `i` was made of the path at `o`. -/
structure Made (root : Source) (i : Nat) (o : List Nat × Source) (inode : InodeInfo) : Prop where
  occurs : Occurs root o.1 o.2
  isOf : inode.IsOf o.2
  ino : inode.ino.toNat = i + 1
  isDir : inode.data.isDirectory = o.2.isDir

theorem Made.setChildren {i : Nat} {o : List Nat × Source} {inode : InodeInfo}
    (h : Made root i o inode) (children : List DirEntry) :
    Made root i o (inode.setChildren children) := by
  obtain ⟨mode, uid, gid, size, mtime, mtimeNsec, nlink, ino, nid, metaOffset, ext, data, xattrs⟩ :=
    inode
  refine ⟨h.occurs, h.isOf.setChildren children, ?_, ?_⟩
  · have hino := h.ino
    cases data <;> exact hino
  · have hd := h.isDir
    cases data <;> exact hd

/-- The inodes of the state were made at the places `os`, in pre-order, no two of them for
one file, and the map of hard links has exactly the files of several names. -/
structure Origins (root : Source) (os : List (List Nat × Source)) (st : TreeState) : Prop where
  length : os.length = st.inodes.length
  counter : st.inoCounter = st.inodes.length
  made : ∀ i o inode, os[i]? = some o → st.inodes[i]? = some inode → Made root i o inode
  preorder : os.Pairwise fun o o' => o.1 < o'.1
  apart : (os.map identity).Nodup
  links : ∀ key i, st.hardlinkMap key = some i ↔ ∃ o, os[i]? = some o ∧ identity o = .file key

variable {os os' : List (List Nat × Source)} {st st' : TreeState}

theorem getElem?_append_singleton {α : Type} {l : List α} {i : Nat} {a b : α} :
    (l ++ [a])[i]? = some b ↔ l[i]? = some b ∨ (i = l.length ∧ a = b) := by
  rcases Nat.lt_trichotomy i l.length with hlt | rfl | hgt
  · rw [List.getElem?_append_left hlt]
    simp
    omega
  · simp
  · rw [List.getElem?_append_right (by omega), List.getElem?_eq_none (by simp; omega),
      List.getElem?_eq_none (by omega)]
    simp
    omega

/-- A new inode keeps the invariant, when its place comes behind the others and its file is
not among theirs. -/
theorem Origins.push (h : Origins root os st) {o : List Nat × Source} {inode : InodeInfo}
    (hmade : Made root st.inodes.length o inode) (hfront : ∀ o' ∈ os, o'.1 < o.1)
    (hnew : ∀ o' ∈ os, identity o' ≠ identity o) (hinodes : st'.inodes = st.inodes ++ [inode])
    (hcounter : st'.inoCounter = st.inoCounter + 1)
    (hlinks : ∀ key i, st'.hardlinkMap key = some i ↔
      st.hardlinkMap key = some i ∨ (i = st.inodes.length ∧ identity o = .file key)) :
    Origins root (os ++ [o]) st' where
  length := by rw [hinodes, List.length_append, List.length_append, h.length]; rfl
  counter := by rw [hcounter, hinodes, h.counter, List.length_append]; rfl
  made := by
    intro i o' inode' ho hi
    rw [hinodes] at hi
    rcases getElem?_append_singleton.mp ho with ho | ⟨rfl, rfl⟩
    · have hlt := (List.getElem?_eq_some_iff.mp ho).1
      rw [List.getElem?_append_left (h.length ▸ hlt)] at hi
      exact h.made i o' inode' ho hi
    · rw [h.length, List.getElem?_concat_length] at hi
      cases hi
      exact h.length ▸ hmade
  preorder := List.pairwise_append.mpr
    ⟨h.preorder, List.pairwise_singleton _ _, fun a ha b hb => List.mem_singleton.mp hb ▸ hfront a ha⟩
  apart := by
    rw [List.map_append, List.nodup_append]
    refine ⟨h.apart, List.nodup_singleton _, ?_⟩
    intro a ha b hb
    obtain ⟨o', ho', rfl⟩ := List.mem_map.mp ha
    cases List.mem_singleton.mp hb
    exact hnew o' ho'
  links := by
    intro key i
    rw [hlinks, h.links]
    constructor
    · rintro (⟨o', ho', hid⟩ | ⟨rfl, hid⟩)
      · exact ⟨o', getElem?_append_singleton.mpr (.inl ho'), hid⟩
      · exact ⟨o, getElem?_append_singleton.mpr (.inr ⟨h.length.symm, rfl⟩), hid⟩
    · rintro ⟨o', ho', hid⟩
      rcases getElem?_append_singleton.mp ho' with ho' | ⟨rfl, rfl⟩
      · exact .inl ⟨o', ho', hid⟩
      · exact .inr ⟨h.length, hid⟩

/-- The children of an inode are no part of the invariant. -/
theorem Origins.setChildren (h : Origins root os st) (idx : Nat) (children : List DirEntry) :
    Origins root os { st with
      inodes := st.inodes.modify idx (InodeInfo.setChildren children) } where
  length := by rw [h.length, List.length_modify]
  counter := by rw [h.counter, List.length_modify]
  made := by
    intro i o inode ho hi
    dsimp only at hi
    by_cases heq : idx = i
    · subst heq
      rw [List.getElem?_modify_eq] at hi
      obtain ⟨old, hold, rfl⟩ := Option.map_eq_some_iff.mp hi
      exact (h.made _ o old ho hold).setChildren children
    · rw [List.getElem?_modify_ne _ _ heq] at hi
      exact h.made i o inode ho hi
  preorder := h.preorder
  apart := h.apart
  links := h.links

/-! ## What a stretch of the walk does -/

/-- The children recorded for the entries of the directory at `p`, from position `k` on. -/
inductive ChildrenFrom (os : List (List Nat × Source)) (p : List Nat) :
    Nat → List (List UInt8 × Source) → List DirEntry → Prop
  | nil {k : Nat} : ChildrenFrom os p k [] []
  | cons {k : Nat} {e : List UInt8 × Source} {de : DirEntry} {es : List (List UInt8 × Source)}
      {des : List DirEntry} (hname : de.name = toStringLossy e.1)
      (htype : ∃ stat, e.2.stat = .ok stat ∧ de.fileType = modeToFileType stat.mode.toUInt16)
      (hidx : IndexOf os (p ++ [k], e.2) de.inodeIdx) (hrest : ChildrenFrom os p (k + 1) es des) :
      ChildrenFrom os p k (e :: es) (de :: des)

theorem ChildrenFrom.append {p : List Nat} {k : Nat} {es : List (List UInt8 × Source)}
    {des : List DirEntry} (h : ChildrenFrom os p k es des) (new : List (List Nat × Source)) :
    ChildrenFrom (os ++ new) p k es des := by
  induction h with
  | nil => exact .nil
  | cons hname htype hidx _ ih => exact .cons hname htype (hidx.append new) ih

/-- The inode at `i`, if it is a directory, has its children. -/
def Filled (os : List (List Nat × Source)) (inodes : List InodeInfo) (i : Nat) : Prop :=
  ∀ o inode, os[i]? = some o → inodes[i]? = some inode → o.2.isDir = true →
    ChildrenFrom os o.1 0 (sortByFileName o.2.entries) inode.data.children

theorem Filled.append {inodes : List InodeInfo} {i : Nat} (h : Filled os inodes i)
    (hlen : os.length = inodes.length) (hi : i < os.length) (new : List (List Nat × Source))
    (newInodes : List InodeInfo) : Filled (os ++ new) (inodes ++ newInodes) i := by
  intro o inode ho hinode hdir
  rw [List.getElem?_append_left hi] at ho
  rw [List.getElem?_append_left (hlen ▸ hi)] at hinode
  exact (h o inode ho hinode hdir).append new

/-- A stretch of the walk appends inodes, made at places with the property `P`, and gives the
directories among them their children. -/
structure Stretch (root : Source) (P : List Nat → Prop) (os : List (List Nat × Source))
    (st : TreeState) (os' : List (List Nat × Source)) (st' : TreeState) : Prop where
  inodes : ∃ new, st'.inodes = st.inodes ++ new
  places : ∃ new, os' = os ++ new ∧ ∀ o ∈ new, P o.1
  origins : Origins root os' st'
  filled : ∀ i, os.length ≤ i → Filled os' st'.inodes i

variable {P : List Nat → Prop}

theorem Stretch.refl (h : Origins root os st) : Stretch root P os st os st where
  inodes := ⟨[], (List.append_nil _).symm⟩
  places := ⟨[], (List.append_nil _).symm, nofun⟩
  origins := h
  filled := fun i hi o _ ho => by rw [List.getElem?_eq_none hi] at ho; cases ho

theorem Stretch.mono {Q : List Nat → Prop} (h : Stretch root P os st os' st')
    (hpq : ∀ p, P p → Q p) : Stretch root Q os st os' st' := by
  obtain ⟨new, hnew, hp⟩ := h.places
  exact ⟨h.inodes, ⟨new, hnew, fun o ho => hpq _ (hp o ho)⟩, h.origins, h.filled⟩

theorem Stretch.trans {os'' : List (List Nat × Source)} {st'' : TreeState}
    (h : Stretch root P os st os' st') (h' : Stretch root P os' st' os'' st'') :
    Stretch root P os st os'' st'' := by
  obtain ⟨newI, hnewI⟩ := h'.inodes
  obtain ⟨new, hnew, hp⟩ := h.places
  obtain ⟨new', hnew', hp'⟩ := h'.places
  refine ⟨?_, ⟨new ++ new', by rw [hnew', hnew, List.append_assoc], ?_⟩, h'.origins, ?_⟩
  · obtain ⟨newI₁, hnewI₁⟩ := h.inodes
    exact ⟨newI₁ ++ newI, by rw [hnewI, hnewI₁, List.append_assoc]⟩
  · intro o ho
    rcases List.mem_append.mp ho with ho | ho
    · exact hp o ho
    · exact hp' o ho
  · intro i hi
    by_cases hlt : i < os'.length
    · rw [hnewI, hnew']
      exact (h.filled i hi).append h.origins.length hlt _ _
    · exact h'.filled i (by omega)

/-- The walk of the path at `p`: its inode is at `idx`, and every path below has one. -/
structure Walked (root : Source) (p : List Nat) (source : Source)
    (os : List (List Nat × Source)) (st : TreeState) (idx : Nat)
    (os' : List (List Nat × Source)) (st' : TreeState) : Prop where
  stretch : Stretch root (fun q => ∃ r, q = p ++ r) os st os' st'
  index : IndexOf os' (p, source) idx
  complete : ∀ q node, Occurs source q node → ∃ i, IndexOf os' (p ++ q, node) i

/-- The loop over the entries of the directory at `p`, from position `k` on. -/
structure WalkedEntries (root : Source) (p : List Nat) (k : Nat)
    (entries : List (List UInt8 × Source)) (os : List (List Nat × Source)) (st : TreeState)
    (children : List DirEntry) (os' : List (List Nat × Source)) (st' : TreeState) : Prop where
  stretch : Stretch root (fun q => ∃ j r, k ≤ j ∧ q = p ++ j :: r) os st os' st'
  children : ChildrenFrom os' p k entries children
  complete : ∀ (j : Nat) e q node, entries[j]? = some e → Occurs e.2 q node →
    ∃ i, IndexOf os' (p ++ (k + j) :: q, node) i

/-! ## The walk keeps the invariant -/

/-- Whatever is no directory gets one inode. -/
theorem buildTreeRecursive_leaf {source : Source} {stat : FileStat} {idx : Nat}
    (hstat : source.stat = .ok stat) (hdir : stat.isDir = false)
    (h : buildTreeRecursive hash source st = .ok (idx, st')) :
    idx = st.inodes.length ∧ st'.inoCounter = st.inoCounter + 1 ∧
      st'.hardlinkMap = st.hardlinkMap ∧ ∃ inode, st'.inodes = st.inodes ++ [inode] ∧
        inode.IsOf source ∧ inode.ino.toNat = st.inoCounter + 1 ∧
        inode.data.isDirectory = false := by
  rw [buildTreeRecursive, hstat, withContext_ok, bind_ok] at h
  obtain ⟨ino, hino, h⟩ := bind_eq_ok.mp h
  obtain ⟨hlt, rfl⟩ := checkedAdd_eq_ok.mp hino
  have hof : ∀ size data, (stat.inode (st.inoCounter + 1) size data
      (readXattrsFromPath source.xattrs)).IsOf source :=
    fun size data => ⟨stat, _, size, data, hstat, rfl⟩
  have hino' : (UInt32.ofNat (st.inoCounter + 1)).toNat = st.inoCounter + 1 :=
    UInt32.toNat_ofNat_of_lt' hlt
  dsimp only at h
  rw [if_neg (by rw [hdir]; exact Bool.false_ne_true)] at h
  split at h
  · obtain ⟨⟨chunkIndexes, blobWriter⟩, -, h⟩ := bind_eq_ok.mp h
    cases h
    exact ⟨rfl, rfl, rfl, _, rfl, hof _ _, hino', rfl⟩
  split at h
  · obtain ⟨target, -, h⟩ := bind_eq_ok.mp h
    cases h
    exact ⟨rfl, rfl, rfl, _, rfl, hof _ _, hino', rfl⟩
  · cases h
    refine ⟨rfl, rfl, rfl, _, rfl, hof _ _, hino', ?_⟩
    show InodeData.isDirectory (if _ then _ else _) = false
    split <;> rfl

/-- A directory gets its inode, then its entries are walked, then it gets its children. -/
theorem buildTreeRecursive_dir {source : Source} {stat : FileStat} {idx : Nat}
    (hstat : source.stat = .ok stat) (hdir : stat.isDir = true)
    (h : buildTreeRecursive hash source st = .ok (idx, st')) :
    idx = st.inodes.length ∧ source.readDir = .ok () ∧ source.iterate = .ok () ∧
      ∃ inode children st₁, inode.IsOf source ∧ inode.ino.toNat = st.inoCounter + 1 ∧
      inode.data = .directory [] 0 0 0 ∧ inode.size = 0 ∧
      buildEntries hash (sortByFileName source.entries)
        { st with inodes := st.inodes ++ [inode], inoCounter := st.inoCounter + 1 } =
          .ok (children, st₁) ∧
      st' = { st₁ with inodes := st₁.inodes.modify idx (InodeInfo.setChildren children) } := by
  rw [buildTreeRecursive, hstat, withContext_ok, bind_ok] at h
  obtain ⟨ino, hino, h⟩ := bind_eq_ok.mp h
  obtain ⟨hlt, rfl⟩ := checkedAdd_eq_ok.mp hino
  dsimp only at h
  rw [if_pos hdir] at h
  simp only [bind_eq_ok, withContext_eq_ok] at h
  obtain ⟨_, hread, _, hiterate, ⟨children, st₁⟩, hrun, inodes, hset, h⟩ := h
  obtain ⟨-, rfl⟩ := updateAt_eq_ok.mp hset
  cases h
  exact ⟨rfl, hread, hiterate, _, children, st₁, ⟨stat, _, _, _, hstat, rfl⟩,
    UInt32.toNat_ofNat_of_lt' hlt, rfl, rfl, hrun, rfl⟩

theorem modify_length_append {α : Type} (f : α → α) (l : List α) (a : α) (rest : List α) :
    (l ++ a :: rest).modify l.length f = l ++ f a :: rest := by
  induction l with
  | nil => rfl
  | cons b l ih => rw [List.cons_append, List.length_cons, List.modify_succ_cons, ih, List.cons_append]

/-- The path at the end of the places has its inode. -/
theorem indexOf_last (os : List (List Nat × Source)) (o : List Nat × Source) :
    IndexOf (os ++ [o]) o os.length :=
  ⟨o, getElem?_append_singleton.mpr (.inr ⟨rfl, rfl⟩), rfl, List.lt_irrefl _⟩

theorem walked_leaf {p : List Nat} {child : Source} {stat : FileStat} {idx : Nat} {st₁ : TreeState}
    (ho : Origins root os st) (hocc : Occurs root p child) (hfront : ∀ o ∈ os, o.1 < p)
    (hstat : child.stat = .ok stat) (hdir : stat.isDir = false)
    (hunknown : stat.isHardlinked = true → st.hardlinkMap stat.key = none)
    (h : buildTreeRecursive hash child st = .ok (idx, st₁)) :
    Walked root p child os st idx (os ++ [(p, child)])
      (if stat.isHardlinked then st₁.link stat.key idx else st₁) := by
  obtain ⟨rfl, hcounter, hmap, inode, hinodes, hof, hino, hkind⟩ :=
    buildTreeRecursive_leaf hstat hdir h
  have hleaf : child.isDir = false := (isDir_of_ok hstat).trans hdir
  have hid := identity_of_ok (p := p) hstat
  have hnew : ∀ o ∈ os, identity o ≠ identity (p, child) := by
    intro o hmem heq
    rw [hid] at heq
    split at heq
    · rename_i hlinked
      obtain ⟨i, hi⟩ := List.mem_iff_getElem?.mp hmem
      have hknown := (ho.links stat.key i).mpr ⟨o, hi, heq⟩
      rw [hunknown hlinked] at hknown
      cases hknown
    · exact List.lt_irrefl p (place_of_identity heq ▸ hfront o hmem)
  have hinodes' : (if stat.isHardlinked = true then st₁.link stat.key st.inodes.length
      else st₁).inodes = st.inodes ++ [inode] := by split <;> exact hinodes
  have horigins : Origins root (os ++ [(p, child)])
      (if stat.isHardlinked then st₁.link stat.key st.inodes.length else st₁) := by
    refine ho.push ⟨hocc, hof, by rw [hino, ho.counter], hkind.trans hleaf.symm⟩ hfront hnew hinodes'
      (by split <;> exact hcounter) ?_
    intro key i
    rw [hid]
    split
    · rename_i hlinked
      have hnone := hunknown hlinked
      simp only [TreeState.link, hmap, Identity.file.injEq]
      split
      · rename_i hkey
        subst hkey
        simp [hnone, eq_comm]
      · rename_i hkey
        simp [Ne.symm hkey]
    · simp [hmap]
  refine ⟨⟨⟨[inode], hinodes'⟩, ⟨[(p, child)], rfl, ?_⟩, horigins, ?_⟩, ?_, ?_⟩
  · intro o hmem
    exact ⟨[], by rw [List.mem_singleton.mp hmem, List.append_nil]⟩
  · intro i hi o _ hat _ hd
    rcases getElem?_append_singleton.mp hat with hat | ⟨-, rfl⟩
    · rw [List.getElem?_eq_none hi] at hat
      cases hat
    · rw [hleaf] at hd
      cases hd
  · exact ho.length ▸ indexOf_last os (p, child)
  · intro q node hq
    obtain ⟨rfl, rfl⟩ := hq.of_not_isDir hleaf
    exact ⟨os.length, by rw [List.append_nil]; exact indexOf_last _ _⟩

/-- What every step of the walk keeps: the inode of whatever is no directory, the inode of a
directory, and the children it gets. -/
structure WalkInvariant (root : Source) (hash : List UInt8 → Digest)
    (I : List (List Nat × Source) → List InodeInfo → BlobWriter → Prop) : Prop where
  leaf : ∀ {os st p child stat idx st'}, I os st.inodes st.blobWriter → Occurs root p child →
    child.stat = .ok stat → stat.isDir = false →
    buildTreeRecursive hash child st = .ok (idx, st') →
    I (os ++ [(p, child)]) st'.inodes st'.blobWriter
  dir : ∀ {os inodes w p dir inode}, I os inodes w → Occurs root p dir → dir.isDir = true →
    inode.IsOf dir → inode.data = .directory [] 0 0 0 → inode.size = 0 →
    I (os ++ [(p, dir)]) (inodes ++ [inode]) w
  children : ∀ {os inodes w}, I os inodes w → ∀ idx children,
    I os (inodes.modify idx (InodeInfo.setChildren children)) w

variable {I : List (List Nat × Source) → List InodeInfo → BlobWriter → Prop}

/-- One entry: its file is known, or it is walked. -/
theorem walked_entry (hI : WalkInvariant root hash I) {p : List Nat} {child : Source}
    {stat : FileStat} {idx : Nat} (ho : Origins root os st) (hkept : I os st.inodes st.blobWriter)
    (hocc : Occurs root p child) (hfront : ∀ o ∈ os, o.1 < p) (hstat : child.stat = .ok stat)
    (ih : child.isDir = true → ∀ idx st', buildTreeRecursive hash child st = .ok (idx, st') →
      ∃ os', Walked root p child os st idx os' st' ∧ I os' st'.inodes st'.blobWriter)
    (h : entryInode hash stat child st = .ok (idx, st')) :
    ∃ os', Walked root p child os st idx os' st' ∧ I os' st'.inodes st'.blobWriter := by
  have hdir := isDir_of_ok hstat
  unfold entryInode at h
  split at h
  · rename_i hex
    cases h
    split at hex
    · rename_i hlinked
      obtain ⟨o, hat, hid⟩ := (ho.links _ _).mp hex
      have hidx : IndexOf os (p, child) idx := by
        refine ⟨o, hat, ?_, List.lt_asymm (hfront o (List.mem_of_getElem? hat))⟩
        rw [hid, identity_of_ok hstat, if_pos hlinked]
      have hleaf : child.isDir = false := by
        rw [hdir, ← Bool.not_eq_true]
        intro hd
        rw [isHardlinked_of_isDir hd] at hlinked
        cases hlinked
      refine ⟨os, ⟨.refl ho, hidx, ?_⟩, hkept⟩
      intro q node hq
      obtain ⟨rfl, rfl⟩ := hq.of_not_isDir hleaf
      exact ⟨idx, by rw [List.append_nil]; exact hidx⟩
    · cases hex
  · rename_i hnone
    obtain ⟨⟨childIdx, st₁⟩, hrun, h⟩ := bind_eq_ok.mp h
    cases h
    cases hd : stat.isDir with
    | true =>
      rw [if_neg (by rw [isHardlinked_of_isDir hd]; exact Bool.false_ne_true)]
      exact ih (hdir.trans hd) _ _ hrun
    | false =>
      refine ⟨_, walked_leaf ho hocc hfront hstat hd ?_ hrun, ?_⟩
      · intro hlinked
        rwa [if_pos hlinked] at hnone
      · have hleaf := hI.leaf hkept hocc hstat hd hrun
        split <;> exact hleaf

/-- The loop, given what its recursive calls do. -/
theorem walkedEntries (hI : WalkInvariant root hash I) {p : List Nat} {k : Nat}
    {entries : List (List UInt8 × Source)}
    (ih : ∀ e ∈ entries, e.2.isDir = true → ∀ p os st idx st', Origins root os st →
      I os st.inodes st.blobWriter → Occurs root p e.2 → (∀ o ∈ os, o.1 < p) →
      buildTreeRecursive hash e.2 st = .ok (idx, st') →
      ∃ os', Walked root p e.2 os st idx os' st' ∧ I os' st'.inodes st'.blobWriter)
    (ho : Origins root os st) (hkept : I os st.inodes st.blobWriter)
    (hocc : ∀ (j : Nat) e, entries[j]? = some e → Occurs root (p ++ [k + j]) e.2)
    (hfront : ∀ o ∈ os, o.1 < p ++ [k]) {children : List DirEntry}
    (h : buildEntries hash entries st = .ok (children, st')) :
    ∃ os', WalkedEntries root p k entries os st children os' st' ∧
      I os' st'.inodes st'.blobWriter := by
  induction entries generalizing k os st children with
  | nil =>
    rw [buildEntries] at h
    cases h
    exact ⟨os, ⟨.refl ho, .nil, fun j e q node hj => by simp at hj⟩, hkept⟩
  | cons entry entries ihs =>
    obtain ⟨fileName, child⟩ := entry
    rw [buildEntries] at h
    simp only [bind_eq_ok, withContext_eq_ok] at h
    obtain ⟨stat, hstat, ⟨inodeIdx, st₁⟩, hfirst, ⟨rest, st₂⟩, hrest, h⟩ := h
    cases h
    have hchild : Occurs root (p ++ [k]) child := hocc 0 _ rfl
    obtain ⟨os₁, hw₁, hkept₁⟩ := walked_entry hI ho hkept hchild hfront hstat
      (fun hd idx st' hrun => ih _ List.mem_cons_self hd _ _ _ _ _ ho hkept hchild hfront hrun) hfirst
    have hfront₁ : ∀ o ∈ os₁, o.1 < p ++ [k + 1] := by
      obtain ⟨new, hnew, hplaces⟩ := hw₁.stretch.places
      intro o hmem
      rw [hnew] at hmem
      have hstep := below_lt_later p (Nat.lt_succ_self k) [] []
      rcases List.mem_append.mp hmem with hmem | hmem
      · exact List.lt_trans (hfront o hmem) hstep
      · obtain ⟨r, hr⟩ := hplaces o hmem
        rw [hr, List.append_assoc]
        exact below_lt_later p (Nat.lt_succ_self k) r []
    have hocc₁ : ∀ (j : Nat) e, entries[j]? = some e → Occurs root (p ++ [k + 1 + j]) e.2 := by
      intro j e he
      rw [Nat.add_assoc, Nat.add_comm 1 j]
      exact hocc (j + 1) e he
    obtain ⟨os₂, hw₂, hkept₂⟩ := ihs (fun e he => ih e (List.mem_cons_of_mem _ he))
      hw₁.stretch.origins hkept₁ hocc₁ hfront₁ hrest
    obtain ⟨new₂, hnew₂, -⟩ := hw₂.stretch.places
    refine ⟨os₂, ⟨(hw₁.stretch.mono ?_).trans (hw₂.stretch.mono ?_), ?_, ?_⟩, hkept₂⟩
    · rintro q ⟨r, rfl⟩
      exact ⟨k, r, Nat.le_refl k, by rw [List.append_assoc]; rfl⟩
    · rintro q ⟨j, r, hj, rfl⟩
      exact ⟨j, r, by omega, rfl⟩
    · exact .cons rfl ⟨stat, hstat, rfl⟩ (hnew₂ ▸ hw₁.index.append new₂) hw₂.children
    · intro j e q node he hq
      cases j with
      | zero =>
        cases he
        obtain ⟨i, hi⟩ := hw₁.complete q node hq
        rw [List.append_assoc] at hi
        exact ⟨i, hnew₂ ▸ hi.append new₂⟩
      | succ j =>
        rw [show k + (j + 1) = k + 1 + j by omega]
        exact hw₂.complete j e q node he hq

/-- The directory branch, given what the loop does. -/
theorem walked_dir {p : List Nat} {source : Source} {inode : InodeInfo} {children : List DirEntry}
    {st₀ st₁ : TreeState} (ho : Origins root os st) (hdir : source.isDir = true)
    (hdata : inode.data = .directory [] 0 0 0) (hst₀ : st₀.inodes = st.inodes ++ [inode])
    (h : WalkedEntries root p 0 (sortByFileName source.entries) (os ++ [(p, source)]) st₀ children
      os' st₁) :
    Walked root p source os st st.inodes.length os' { st₁ with
      inodes := st₁.inodes.modify st.inodes.length (InodeInfo.setChildren children) } := by
  obtain ⟨new, hnew, hplaces⟩ := h.stretch.places
  obtain ⟨newI, hnewI⟩ := h.stretch.inodes
  have hidx : IndexOf os' (p, source) st.inodes.length := by
    refine ⟨(p, source), ?_, rfl, List.lt_irrefl _⟩
    rw [hnew, List.append_assoc, ← ho.length, List.getElem?_append_right (Nat.le_refl _),
      Nat.sub_self]
    rfl
  have hat : st₁.inodes[st.inodes.length]? = some inode := by
    rw [hnewI, hst₀, List.append_assoc, List.getElem?_append_right (Nat.le_refl _), Nat.sub_self]
    rfl
  have hset : (inode.setChildren children).data.children = children := by
    rw [InodeInfo.setChildren, hdata]
    rfl
  refine ⟨⟨⟨inode.setChildren children :: newI, ?_⟩, ⟨(p, source) :: new, ?_, ?_⟩,
    h.stretch.origins.setChildren _ _, ?_⟩, hidx, ?_⟩
  · show st₁.inodes.modify st.inodes.length (InodeInfo.setChildren children) = _
    rw [hnewI, hst₀, List.append_assoc, List.singleton_append, modify_length_append]
  · rw [hnew, List.append_assoc, List.singleton_append]
  · intro o hmem
    rcases List.mem_cons.mp hmem with rfl | hmem
    · exact ⟨[], (List.append_nil _).symm⟩
    · obtain ⟨j, r, -, hr⟩ := hplaces o hmem
      exact ⟨j :: r, hr⟩
  · intro i hi o inode' hoi hinode hd
    dsimp only at hinode
    by_cases heq : st.inodes.length = i
    · subst heq
      obtain ⟨o', ho', -, -⟩ := hidx
      rw [List.getElem?_modify_eq, hat] at hinode
      cases hinode
      have hplace : o = (p, source) := by
        rw [hnew, List.append_assoc, ← ho.length, List.getElem?_append_right (Nat.le_refl _),
          Nat.sub_self] at hoi
        cases hoi
        rfl
      rw [hplace, hset]
      exact h.children
    · rw [List.getElem?_modify_ne _ _ heq] at hinode
      have hlen := ho.length
      exact h.stretch.filled i (by rw [List.length_append, List.length_singleton]; omega) o inode'
        hoi hinode hd
  · intro q node hq
    rcases hq.split with ⟨rfl, rfl⟩ | ⟨k, r, e, rfl, -, he, hr⟩
    · exact ⟨_, by rw [List.append_nil]; exact hidx⟩
    · obtain ⟨i, hi⟩ := h.complete k e r node he hr
      rw [Nat.zero_add] at hi
      exact ⟨i, hi⟩

/-- **The walk** of a directory keeps the invariant: the inodes are made in pre-order, and
every path below has its inode. -/
theorem buildTreeRecursive_walked (hI : WalkInvariant root hash I) (source : Source)
    (hdir : source.isDir = true) :
    ∀ p os st idx st', Origins root os st → I os st.inodes st.blobWriter → Occurs root p source →
      (∀ o ∈ os, o.1 < p) → buildTreeRecursive hash source st = .ok (idx, st') →
      ∃ os', Walked root p source os st idx os' st' ∧ I os' st'.inodes st'.blobWriter := by
  induction hn : sizeOf source using Nat.strongRecOn generalizing source with
  | ind n ih =>
    intro p os st idx st' ho hkept hocc hfront h
    obtain ⟨stat, hstat⟩ : ∃ stat, source.stat = .ok stat := by
      unfold Source.isDir at hdir
      cases hs : source.stat with
      | ok stat => exact ⟨stat, rfl⟩
      | error e => rw [hs] at hdir; cases hdir
    obtain ⟨rfl, -, -, inode, children, st₁, hof, hino, hdata, hsize, hrun, rfl⟩ :=
      buildTreeRecursive_dir hstat ((isDir_of_ok hstat).symm.trans hdir) h
    have hid : identity (p, source) = .place p := identity_of_isDir hdir
    have ho₁ : Origins root (os ++ [(p, source)])
        { st with inodes := st.inodes ++ [inode], inoCounter := st.inoCounter + 1 } := by
      refine ho.push ⟨hocc, hof, by rw [hino, ho.counter], by rw [hdata, hdir]; rfl⟩ hfront ?_ rfl rfl
        ?_
      · intro o hmem heq
        exact List.lt_irrefl p (place_of_identity (heq.trans hid) ▸ hfront o hmem)
      · intro key i
        rw [hid]
        simp
    have hfront₁ : ∀ o ∈ os ++ [(p, source)], o.1 < p ++ [0] := by
      intro o hmem
      rcases List.mem_append.mp hmem with hmem | hmem
      · exact List.lt_trans (hfront o hmem) (lt_below p 0 [])
      · rw [List.mem_singleton.mp hmem]
        exact lt_below p 0 []
    obtain ⟨os', hw, hkept'⟩ := walkedEntries hI (p := p) (k := 0)
      (fun e he hd => ih _ (hn ▸ sizeOf_entry_lt he) e.2 hd rfl) ho₁
      (hI.dir hkept hocc hdir hof hdata hsize)
      (fun j e he => by rw [Nat.zero_add]; exact .entry hocc hdir he) hfront₁ hrun
    exact ⟨os', walked_dir ho hdir hdata rfl hw, hI.children hkept' _ _⟩

/-! ## Whole trees -/

theorem ChildrenFrom.length {p : List Nat} {k : Nat} {es : List (List UInt8 × Source)}
    {des : List DirEntry} (h : ChildrenFrom os p k es des) : des.length = es.length := by
  induction h with
  | nil => rfl
  | cons _ _ _ _ ih => rw [List.length_cons, List.length_cons, ih]

theorem ChildrenFrom.get {p : List Nat} {k j : Nat} {es : List (List UInt8 × Source)}
    {des : List DirEntry} (h : ChildrenFrom os p k es des) {e : List UInt8 × Source} {de : DirEntry}
    (he : es[j]? = some e) (hde : des[j]? = some de) :
    de.name = toStringLossy e.1 ∧
      (∃ stat, e.2.stat = .ok stat ∧ de.fileType = modeToFileType stat.mode.toUInt16) ∧
      IndexOf os (p ++ [k + j], e.2) de.inodeIdx := by
  induction h generalizing j with
  | nil => cases he
  | cons hname htype hidx _ ih =>
    cases j with
    | zero =>
      cases he
      cases hde
      exact ⟨hname, htype, hidx⟩
    | succ j =>
      rw [Nat.add_comm j 1, ← Nat.add_assoc]
      exact ih he hde

/-- The inodes of a finished walk: where they were made, and that every directory has its
children and every path its inode. -/
structure Complete (root : Source) (os : List (List Nat × Source)) (inodes : List InodeInfo) :
    Prop where
  length : os.length = inodes.length
  first : os[0]? = some ([], root)
  made : ∀ i o inode, os[i]? = some o → inodes[i]? = some inode → Made root i o inode
  preorder : os.Pairwise fun o o' => o.1 < o'.1
  apart : (os.map identity).Nodup
  filled : ∀ i, Filled os inodes i
  indexed : ∀ p node, Occurs root p node → ∃ i, IndexOf os (p, node) i

/-- A build is the walk from the empty state. -/
theorem walk_of_buildTree {source : Source} {w w' : BlobWriter} {inodes : List InodeInfo}
    (h : buildTree hash source w = .ok (inodes, w')) : ∃ idx st,
      buildTreeRecursive hash source
        { inodes := [], inoCounter := 0, hardlinkMap := fun _ => none, blobWriter := w } =
          .ok (idx, st) ∧ st.inodes = inodes := by
  simp only [buildTree, bind_eq_ok] at h
  obtain ⟨⟨idx, st⟩, hrun, h⟩ := h
  cases h
  exact ⟨idx, st, hrun, rfl⟩

/-- **A built tree** is complete, and has what every step of the walk keeps. -/
theorem buildTree_kept {source : Source} {w w' : BlobWriter} {inodes : List InodeInfo}
    (hI : WalkInvariant source hash I) (hzero : I [] [] w)
    (h : buildTree hash source w = .ok (inodes, w')) (hdir : source.isDir = true) :
    ∃ os, Complete source os inodes ∧ I os inodes w' := by
  simp only [buildTree, bind_eq_ok] at h
  obtain ⟨⟨idx, st⟩, hrun, h⟩ := h
  cases h
  have hstart : Origins source []
      { inodes := [], inoCounter := 0, hardlinkMap := fun _ => none, blobWriter := w } :=
    { length := rfl, counter := rfl, made := nofun, preorder := .nil, apart := .nil
      links := fun key i => ⟨nofun, nofun⟩ }
  obtain ⟨os, hw, hkept⟩ := buildTreeRecursive_walked hI source hdir [] [] _ _ _ hstart hzero .root
    nofun hrun
  have ho := hw.stretch.origins
  refine ⟨os, ⟨ho.length, ?_, ho.made, ho.preorder, ho.apart,
    fun i => hw.stretch.filled i (Nat.zero_le _), hw.complete⟩, hkept⟩
  -- the root's own place stands first: no other one comes before it
  obtain ⟨o, hat, hid, -⟩ := hw.index
  have hplace : o.1 = [] := place_of_identity (hid.trans (identity_of_isDir hdir))
  have hlt := (List.getElem?_eq_some_iff.mp hat).1
  have hnode : o.2 = source := by
    have hmade := ho.made idx o _ hat (List.getElem?_eq_getElem (ho.length ▸ hlt))
    exact (hplace ▸ hmade.occurs).unique .root
  have hfirst : idx = 0 := by
    by_contra hne
    obtain ⟨o₀, hat₀⟩ : ∃ o₀, os[0]? = some o₀ := ⟨_, List.getElem?_eq_getElem (by omega)⟩
    have hbefore := List.pairwise_iff_getElem.mp ho.preorder 0 idx (by omega) hlt (by omega)
    rw [(List.getElem?_eq_some_iff.mp hat).2, hplace] at hbefore
    exact List.not_lt_nil _ hbefore
  rw [hfirst] at hat
  rw [hat, ← hplace, ← hnode]

theorem buildTree_complete {source : Source} {w w' : BlobWriter} {inodes : List InodeInfo}
    (h : buildTree hash source w = .ok (inodes, w')) (hdir : source.isDir = true) :
    ∃ os, Complete source os inodes := by
  have hI : WalkInvariant source hash fun _ _ _ => True :=
    ⟨fun _ _ _ _ _ => trivial, fun _ _ _ _ _ _ => trivial, fun _ _ _ => trivial⟩
  obtain ⟨os, hcomplete, -⟩ := buildTree_kept hI trivial h hdir
  exact ⟨os, hcomplete⟩

section
variable {inodes : List InodeInfo}

theorem Complete.made_at (h : Complete root os inodes) {i : Nat} {o : List Nat × Source}
    (ho : os[i]? = some o) : ∃ inode, inodes[i]? = some inode ∧ Made root i o inode := by
  have hlt := h.length ▸ (List.getElem?_eq_some_iff.mp ho).1
  exact ⟨_, List.getElem?_eq_getElem hlt, h.made i o _ ho (List.getElem?_eq_getElem hlt)⟩

/-- The paths of one identity are one path, or names of one file. -/
theorem same_of_identity {p q : List Nat} {a b : Source} (ha : Occurs root p a)
    (hb : Occurs root q b) (hid : identity (p, a) = identity (q, b)) : a = b ∨ SameFile b a := by
  cases hstat : b.stat with
  | error e =>
    have hq : identity (q, b) = .place q := by rw [identity, hstat]
    obtain rfl : p = q := place_of_identity (hid.trans hq)
    exact .inl (ha.unique hb)
  | ok stat =>
    rw [identity_of_ok hstat] at hid
    split at hid
    · right
      unfold identity at hid
      split at hid
      · rename_i stat' hstat'
        split at hid
        · exact ⟨stat, stat', hstat, hstat', (Identity.file.inj hid).symm⟩
        · cases hid
      · cases hid
    · obtain rfl : p = q := place_of_identity hid
      exact .inl (ha.unique hb)

theorem Complete.fileAt (h : Complete root os inodes) {p : List Nat} {node : Source} {i : Nat}
    (hocc : Occurs root p node) (hidx : IndexOf os (p, node) i) : FileAt inodes node i := by
  obtain ⟨o, ho, hid, -⟩ := hidx
  obtain ⟨inode, hinode, hmade⟩ := h.made_at ho
  exact ⟨o.2, ⟨inode, hinode, hmade.isOf⟩, same_of_identity hmade.occurs hocc hid⟩

/-- A directory has its own inode, at the index of its place. -/
theorem Complete.dir_at (h : Complete root os inodes) {p : List Nat} {dir : Source} {i : Nat}
    (hocc : Occurs root p dir) (hdir : dir.isDir = true) (hidx : IndexOf os (p, dir) i) :
    os[i]? = some (p, dir) := by
  obtain ⟨o, ho, hid, -⟩ := hidx
  obtain ⟨inode, -, hmade⟩ := h.made_at ho
  have hplace : o.1 = p :=
    place_of_identity (hid.trans (identity_of_isDir (o := (p, dir)) hdir))
  have hnode : o.2 = dir := (hplace ▸ hmade.occurs).unique hocc
  rw [ho, ← hplace, ← hnode]

theorem Complete.recorded (h : Complete root os inodes) {p : List Nat} {dir : Source} {i : Nat}
    (hat : os[i]? = some (p, dir)) (hdir : dir.isDir = true) : Recorded inodes dir i := by
  induction hn : sizeOf dir using Nat.strongRecOn generalizing dir p i with
  | ind n ih =>
    obtain ⟨inode, hinode, hmade⟩ := h.made_at hat
    have hchildren := h.filled i _ inode hat hinode hdir
    have hget : ∀ (k : Nat) e de, (sortByFileName dir.entries)[k]? = some e →
        inode.data.children[k]? = some de → Occurs root (p ++ [k]) e.2 ∧
          de.name = toStringLossy e.1 ∧
          (∃ stat, e.2.stat = .ok stat ∧ de.fileType = modeToFileType stat.mode.toUInt16) ∧
          IndexOf os (p ++ [k], e.2) de.inodeIdx := by
      intro k e de he hde
      have hchild := hchildren.get he hde
      rw [Nat.zero_add] at hchild
      exact ⟨.entry hmade.occurs hdir he, hchild⟩
    refine .dir hinode ?_ ?_ ?_
    · rw [List.forall₂_iff_get]
      refine ⟨hchildren.length.symm, fun k hk hk' => ?_⟩
      obtain ⟨hocc, hname, htype, hidx⟩ := hget k _ _ (List.getElem?_eq_getElem hk)
        (List.getElem?_eq_getElem hk')
      exact ⟨hname, htype, h.fileAt hocc hidx⟩
    · intro k e de he hde hd
      obtain ⟨hocc, -, -, hidx⟩ := hget k e de he hde
      exact index_lt_of_pairwise (fun _ _ => List.lt_asymm) h.preorder hat
        (h.dir_at hocc hd hidx) (lt_below p k [])
    · intro k e de he hde hd
      obtain ⟨hocc, -, -, hidx⟩ := hget k e de he hde
      exact ih _ (hn ▸ sizeOf_entry_lt (List.mem_of_getElem? he)) (h.dir_at hocc hd hidx) hd rfl

end

theorem buildTree_recorded {source : Source} {w w' : BlobWriter} {inodes : List InodeInfo}
    (h : buildTree hash source w = .ok (inodes, w')) (hdir : source.isDir = true) :
    Recorded inodes source 0 := by
  obtain ⟨os, hcomplete⟩ := buildTree_complete h hdir
  exact hcomplete.recorded hcomplete.first hdir

end ErofsUtils.Build
