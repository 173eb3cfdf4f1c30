import ErofsUtils.Build.Mkfs

/-! # What laying out the inodes leaves

Each loop of `layOut` only touches what it is for: slots are placed apart, wiring parents
changes parents, storing a directory changes its size and where its data starts. So the
final inodes are the ones given, with places, and the buffer holds every directory's data
and every inode. -/
namespace ErofsUtils.Build
open ErofsUtils.Rust ErofsUtils.Bytes ErofsUtils.Metadata ErofsUtils.Store

variable {inodes : List InodeInfo} {layout : MetadataLayout} {chunkbits : Nat} {epoch : UInt64}

/-! ## What stays as it is -/

def InodeInfo.isDir (inode : InodeInfo) : Bool :=
  match inode.data with
  | .directory .. => true
  | _ => false

/-- The inode without its parent and the place and size of its directory data. -/
def InodeInfo.fixed (inode : InodeInfo) : InodeInfo :=
  match inode.data with
  | .directory children .. => { inode with data := .directory children 0 0 0, size := 0 }
  | _ => inode

theorem InodeInfo.isDir_iff {inode : InodeInfo} :
    inode.isDir = true ↔ ∃ cs b s p, inode.data = .directory cs b s p := by
  unfold InodeInfo.isDir
  cases inode.data <;> simp

@[simp] theorem fixed_setParentNid (nid : Nat) (inode : InodeInfo) :
    (inode.setParentNid nid).fixed = inode.fixed := by
  unfold InodeInfo.setParentNid
  cases h : inode.data <;> simp [InodeInfo.fixed, h]

theorem fixed_setDirData {inode : InodeInfo} (h : inode.isDir = true) (startblk len : Nat) :
    (inode.setDirData startblk len).fixed = inode.fixed := by
  obtain ⟨cs, b, s, p, hd⟩ := InodeInfo.isDir_iff.mp h
  simp [InodeInfo.setDirData, InodeInfo.fixed, hd]

theorem fixed_place (off nid : Nat) (inode : InodeInfo) :
    (inode.place off nid).fixed = inode.fixed.place off nid := by
  obtain ⟨_, _, _, _, _, _, _, _, _, _, _, data, _⟩ := inode
  cases data <;> rfl

/-- The inode without its place as well. -/
def InodeInfo.unplaced (inode : InodeInfo) : InodeInfo := inode.fixed.place 0 0

/-- Inodes that agree in what stays agree in what is read off it. -/
theorem InodeInfo.eq_of_fixed {a b : InodeInfo} (h : a.fixed = b.fixed) :
    a.nid = b.nid ∧ a.metaOffset = b.metaOffset ∧ a.isDir = b.isDir ∧
      a.data.children = b.data.children ∧ a.xattrs = b.xattrs ∧ a.isExtended = b.isExtended ∧
      (a.isDir = false → a = b) ∧ ∀ chunkbits, inodeMetaSize a chunkbits 12 =
        inodeMetaSize b chunkbits 12 := by
  obtain ⟨modeA, uidA, gidA, sizeA, mtA, mtnA, nlA, inoA, nidA, offA, extA, dataA, xA⟩ := a
  obtain ⟨modeB, uidB, gidB, sizeB, mtB, mtnB, nlB, inoB, nidB, offB, extB, dataB, xB⟩ := b
  cases dataA <;> cases dataB <;> cases h <;>
    exact ⟨rfl, rfl, rfl, rfl, rfl, rfl, by first | exact fun _ => rfl | nofun, fun _ => rfl⟩

/-! ## Slots -/

/-- What the slots of the inodes take. -/
def slotRequests (chunkbits : Nat) (inodes : List InodeInfo) : List Request :=
  inodes.map fun inode => MetadataLayout.inodeRequest (inodeMetaSize inode chunkbits 12)

/-- The slot of a placed inode. -/
def InodeInfo.slot (chunkbits : Nat) (inode : InodeInfo) : Region :=
  ⟨inode.metaOffset, inodeMetaSize inode chunkbits 12⟩

theorem inodeMetaSize_place (off nid : Nat) (inode : InodeInfo) :
    inodeMetaSize (inode.place off nid) chunkbits 12 = inodeMetaSize inode chunkbits 12 := rfl

/-- The slots are placed one after another, each NID being the slot's number. -/
theorem allocInodes_spec (h : layout.Wf) (chunkbits : Nat) (inodes : List InodeInfo) :
    ∃ placed last, allocInodes layout chunkbits 12 inodes = (placed, last) ∧ last.Wf ∧
      last.cursor = endCursor layout.cursor (slotRequests chunkbits inodes) ∧
      placed.map (InodeInfo.slot chunkbits) =
        placeAll layout.cursor (slotRequests chunkbits inodes) ∧
      placed.map InodeInfo.unplaced = inodes.map InodeInfo.unplaced ∧
      ∀ p ∈ placed, p.metaOffset = p.nid * 32 := by
  induction inodes generalizing layout with
  | nil => exact ⟨[], layout, rfl, h, rfl, rfl, rfl, nofun⟩
  | cons inode inodes ih =>
    obtain ⟨hwf, hcur, hslot⟩ := h.allocInode (inodeMetaSize inode chunkbits 12)
    obtain ⟨placed, last, hrun, hend, hcursor, hregions, hfixed, hnid⟩ := ih hwf
    rw [Prod.ext_iff] at hslot
    refine ⟨_, last, by rw [allocInodes]; dsimp only; rw [hrun], hend, ?_, ?_, ?_, ?_⟩
    · rw [hcursor, hcur]
      rfl
    · rw [List.map_cons, hregions, hcur, InodeInfo.slot, inodeMetaSize_place, InodeInfo.place,
        hslot.1]
      rfl
    · rw [List.map_cons, List.map_cons, hfixed, InodeInfo.unplaced, fixed_place]
      rfl
    · intro p hp
      rcases List.mem_cons.mp hp with rfl | hp
      · have hdvd := Nat.div_mul_cancel h.slot
        rw [InodeInfo.place, hslot.1, hslot.2]
        dsimp only
        rw [hdvd]
        exact alignUp_of_dvd (show 0 < 32 by decide) h.slot
      · exact hnid p hp

/-! ## Parents -/

theorem getAt_eq_ok {ε α : Type} {l : List α} {i : Nat} {a : α} :
    (getAt l i : Outcome ε α) = .ok a ↔ l[i]? = some a := by
  unfold getAt
  cases l[i]? <;> simp

/-- The inode and the NID of the parent of each subdirectory wired. -/
def parentUpdates (inodes : List InodeInfo) : List (Nat × Nat) :=
  (inodes.filterMap childDirs).flatMap fun info => info.2.map fun idx => (idx, info.1)

theorem mem_parentUpdates {u : Nat × Nat} :
    u ∈ parentUpdates inodes ↔ ∃ inode ∈ inodes, ∃ de ∈ inode.data.children,
      de.fileType = erofsFtDir ∧ de.inodeIdx = u.1 ∧ inode.nid = u.2 := by
  obtain ⟨idx, nid⟩ := u
  simp only [parentUpdates, List.mem_flatMap, List.mem_filterMap, List.mem_map, Prod.mk.injEq]
  constructor
  · rintro ⟨⟨p, idxs⟩, ⟨inode, hi, hc⟩, _, hidx, rfl, rfl⟩
    refine ⟨inode, hi, ?_⟩
    unfold childDirs at hc
    cases hd : inode.data with
    | directory children =>
      rw [hd] at hc
      dsimp only at hc
      split at hc
      · cases hc
      · cases hc
        obtain ⟨de, hde, rfl⟩ := List.mem_map.mp hidx
        obtain ⟨hmem, hft⟩ := List.mem_filter.mp hde
        exact ⟨de, hmem, of_decide_eq_true hft, rfl, rfl⟩
    | regularFile | symlink | specialDev | specialNoData =>
      rw [hd] at hc
      cases hc
  · rintro ⟨inode, hi, de, hde, hft, rfl, rfl⟩
    cases hd : inode.data with
    | directory children =>
      rw [hd] at hde
      have hmem : de.inodeIdx ∈
          (children.filter fun de => de.fileType = erofsFtDir).map DirEntry.inodeIdx :=
        List.mem_map.mpr ⟨de, List.mem_filter.mpr ⟨hde, decide_eq_true hft⟩, rfl⟩
      refine ⟨(inode.nid, _), ⟨inode, hi, ?_⟩, de.inodeIdx, hmem, rfl, rfl⟩
      rw [childDirs, hd]
      dsimp only
      rw [if_neg]
      intro hempty
      rw [List.isEmpty_iff.mp hempty] at hmem
      cases hmem
    | regularFile | symlink | specialDev | specialNoData =>
      rw [hd] at hde
      cases hde

theorem setParents_ok {parentNid : Nat} {idxs : List Nat} (h : ∀ i ∈ idxs, i < inodes.length) :
    setParents inodes parentNid idxs =
      .ok (updateAll InodeInfo.setParentNid inodes (idxs.map fun i => (i, parentNid))) := by
  induction idxs generalizing inodes with
  | nil => rfl
  | cons i idxs ih =>
    rw [setParents, updateAt_ok (h i List.mem_cons_self), bind_ok, ih fun k hk => by
      rw [List.length_modify]
      exact h k (List.mem_cons_of_mem _ hk)]
    rfl

theorem setParentsAll_ok {infos : List (Nat × List Nat)}
    (h : ∀ info ∈ infos, ∀ i ∈ info.2, i < inodes.length) :
    setParentsAll inodes infos = .ok (updateAll InodeInfo.setParentNid inodes
      (infos.flatMap fun info => info.2.map fun i => (i, info.1))) := by
  induction infos generalizing inodes with
  | nil => rfl
  | cons info infos ih =>
    obtain ⟨nid, idxs⟩ := info
    rw [setParentsAll, setParents_ok (h _ List.mem_cons_self), bind_ok, ih fun k hk => by
      rw [length_updateAll]
      exact h k (List.mem_cons_of_mem _ hk), List.flatMap_cons, updateAll_append]

/-- Every entry stands for an inode of the list. -/
def EntriesIn (inodes : List InodeInfo) : Prop :=
  ∀ inode ∈ inodes, ∀ de ∈ inode.data.children, de.inodeIdx < inodes.length

theorem childDirs_setParentNid (nid : Nat) (inode : InodeInfo) :
    childDirs (inode.setParentNid nid) = childDirs inode := by
  unfold InodeInfo.setParentNid
  cases h : inode.data <;> simp [childDirs, h]

/-- Wiring updates the root first, then every subdirectory. -/
theorem setParentNids_ok {root : InodeInfo} (hroot : inodes[0]? = some root)
    (h : EntriesIn inodes) :
    setParentNids inodes = .ok (updateAll InodeInfo.setParentNid inodes
      ((0, root.nid) :: parentUpdates inodes)) := by
  have hlen : 0 < inodes.length := (List.getElem?_eq_some_iff.mp hroot).1
  have hsame : (inodes.modify 0 (InodeInfo.setParentNid root.nid)).filterMap childDirs =
      inodes.filterMap childDirs := by
    cases inodes with
    | nil => rfl
    | cons inode rest =>
      rw [List.modify_zero_cons, List.filterMap_cons, List.filterMap_cons, childDirs_setParentNid]
  have hin : ∀ info ∈ inodes.filterMap childDirs, ∀ i ∈ info.2, i < inodes.length := by
    intro info hinfo i hi
    have hmem : (i, info.1) ∈ parentUpdates inodes :=
      List.mem_flatMap.mpr ⟨info, hinfo, List.mem_map.mpr ⟨i, hi, rfl⟩⟩
    obtain ⟨inode, hinode, de, hde, -, rfl, -⟩ := mem_parentUpdates.mp hmem
    exact h inode hinode de hde
  rw [setParentNids, getAt_eq_ok.mpr hroot, bind_ok, updateAt_ok hlen, bind_ok]
  dsimp only
  rw [hsame, setParentsAll_ok fun info hi i h => by
    rw [List.length_modify]
    exact hin info hi i h]
  rfl

theorem map_updateAll_of_fixed {ε : Type} {g : InodeInfo → ε}
    (hg : ∀ nid inode, g (inode.setParentNid nid) = g inode) (updates : List (Nat × Nat)) :
    (updateAll InodeInfo.setParentNid inodes updates).map g = inodes.map g := by
  induction updates generalizing inodes with
  | nil => rfl
  | cons u updates ih =>
    rw [updateAll_cons, ih]
    refine List.ext_getElem? ?_
    intro i
    rw [List.getElem?_map, List.getElem?_map, List.getElem?_modify]
    cases inodes[i]? with
    | none => rfl
    | some inode =>
      by_cases hi : u.1 = i
      · simp [hi, hg]
      · simp [hi]

/-! ## Directory data -/

/-- The NID of inode `i`. -/
def nidAt (inodes : List InodeInfo) (i : Nat) : Nat :=
  match inodes[i]? with
  | some inode => inode.nid
  | none => 0

theorem nidAt_eq {i : Nat} {inode : InodeInfo} (h : inodes[i]? = some inode) :
    nidAt inodes i = inode.nid := by rw [nidAt, h]

/-- The entries with the NIDs of their inodes. -/
def nidEntries (inodes : List InodeInfo) (des : List DirEntry) : List DirChild :=
  des.map fun de => { name := de.name, nid := nidAt inodes de.inodeIdx, fileType := de.fileType }

theorem dirChildren_ok {des : List DirEntry} (h : ∀ de ∈ des, de.inodeIdx < inodes.length) :
    dirChildren inodes des = .ok (nidEntries inodes des) := by
  induction des with
  | nil => rfl
  | cons de des ih =>
    have hde := List.getElem?_eq_getElem (h de List.mem_cons_self)
    rw [dirChildren, getAt_eq_ok.mpr hde, bind_ok, ih fun d hd => h d (List.mem_cons_of_mem _ hd),
      bind_ok, ← nidAt_eq hde]
    rfl

/-- A directory as it is to be stored. -/
def dirInfoAt (inodes : List InodeInfo) (idx : Nat) (inode : InodeInfo) : Option DirInfo :=
  match inode.data with
  | .directory children _ _ parentNid =>
    some { idx, children := nidEntries inodes children, selfNid := inode.nid, parentNid }
  | _ => none

/-- The directories of the list from inode `idx` on. -/
def dirInfosAt (inodes : List InodeInfo) (idx : Nat) (rest : List InodeInfo) : List DirInfo :=
  (rest.zipIdx idx).filterMap fun inode => dirInfoAt inodes inode.2 inode.1

theorem dirInfosAt_cons (idx : Nat) (inode : InodeInfo) (rest : List InodeInfo) :
    dirInfosAt inodes idx (inode :: rest) =
      (dirInfoAt inodes idx inode).toList ++ dirInfosAt inodes (idx + 1) rest := by
  rw [dirInfosAt, List.zipIdx_cons, List.filterMap_cons]
  cases dirInfoAt inodes idx inode <;> rfl

theorem dirInfosFrom_ok {rest : List InodeInfo} (idx : Nat)
    (h : ∀ inode ∈ rest, ∀ de ∈ inode.data.children, de.inodeIdx < inodes.length) :
    dirInfosFrom inodes idx rest = .ok (dirInfosAt inodes idx rest) := by
  induction rest generalizing idx with
  | nil => rfl
  | cons inode rest ih =>
    have hrest := ih (idx + 1) fun i hi => h i (List.mem_cons_of_mem _ hi)
    have hhead := h inode List.mem_cons_self
    rw [dirInfosFrom, hrest, dirInfosAt_cons, dirInfoAt]
    cases hd : inode.data with
    | directory children startblk size parentNid =>
      rw [hd] at hhead
      have hchildren : dirChildren inodes children = .ok (nidEntries inodes children) :=
        dirChildren_ok hhead
      dsimp only
      rw [hchildren]
      rfl
    | regularFile | symlink | specialDev | specialNoData => rfl

theorem mem_dirInfosAt {idx : Nat} {rest : List InodeInfo} {info : DirInfo} :
    info ∈ dirInfosAt inodes idx rest ↔
      ∃ i inode, rest[i]? = some inode ∧ dirInfoAt inodes (idx + i) inode = some info := by
  simp only [dirInfosAt, List.mem_filterMap, Prod.exists, List.mk_mem_zipIdx_iff_le_and_getElem?_sub]
  constructor
  · rintro ⟨inode, j, ⟨hle, hj⟩, hinfo⟩
    obtain ⟨i, rfl⟩ := Nat.exists_eq_add_of_le hle
    rw [Nat.add_sub_cancel_left] at hj
    exact ⟨i, inode, hj, hinfo⟩
  · rintro ⟨i, inode, hi, hinfo⟩
    exact ⟨inode, idx + i, ⟨Nat.le_add_right _ _, by rwa [Nat.add_sub_cancel_left]⟩, hinfo⟩

theorem dirInfoAt_eq_some {idx : Nat} {inode : InodeInfo} {info : DirInfo} :
    dirInfoAt inodes idx inode = some info ↔ ∃ children startblk size parentNid,
      inode.data = .directory children startblk size parentNid ∧
        info = ⟨idx, nidEntries inodes children, inode.nid, parentNid⟩ := by
  unfold dirInfoAt
  cases inode.data <;> simp [eq_comm]

theorem idx_of_dirInfoAt {idx : Nat} {inode : InodeInfo} {info : DirInfo}
    (h : dirInfoAt inodes idx inode = some info) : info.idx = idx := by
  obtain ⟨_, _, _, _, -, rfl⟩ := dirInfoAt_eq_some.mp h
  rfl

theorem exists_dirInfo {i : Nat} {inode : InodeInfo} (hi : inodes[i]? = some inode)
    (hdir : inode.isDir = true) : ∃ info, info ∈ dirInfosAt inodes 0 inodes := by
  obtain ⟨_, _, _, _, hd⟩ := InodeInfo.isDir_iff.mp hdir
  exact ⟨_, mem_dirInfosAt.mpr ⟨i, inode, hi, dirInfoAt_eq_some.mpr ⟨_, _, _, _, hd, rfl⟩⟩⟩

/-- Every directory is stored once. -/
theorem dirInfosAt_pairwise (idx : Nat) (rest : List InodeInfo) :
    (dirInfosAt inodes idx rest).Pairwise fun a b => a.idx ≠ b.idx := by
  induction rest generalizing idx with
  | nil => exact List.Pairwise.nil
  | cons inode rest ih =>
    rw [dirInfosAt_cons]
    cases hinfo : dirInfoAt inodes idx inode with
    | none => exact ih (idx + 1)
    | some info =>
      refine List.Pairwise.cons ?_ (ih (idx + 1))
      intro b hb
      obtain ⟨i, c, -, hc⟩ := mem_dirInfosAt.mp hb
      rw [idx_of_dirInfoAt hinfo, idx_of_dirInfoAt hc]
      omega

/-! ## Storing directory data -/

theorem window_growTo {buf : List UInt8} {n off len : Nat} (h : off + len ≤ buf.length) :
    window (growTo buf n) off len = window buf off len := window_append_left h

/-- The data of a directory stands in the buffer, and the inode says where. -/
def DirStored (layout : MetadataLayout) (before after : List InodeInfo) (low : Nat)
    (info : DirInfo) : Prop :=
  ∃ data off, serializeDirectory info.children info.selfNid info.parentNid = .ok data ∧
    low ≤ off ∧ 4096 ∣ off ∧ off + data.length ≤ layout.cursor ∧
    window layout.buf off data.length = data ∧
    after[info.idx]? = before[info.idx]?.map (InodeInfo.setDirData (1 + off / 4096) data.length)

/-- Storing one directory writes behind everything that stands already. -/
theorem storeDir_ok {info : DirInfo} (h : layout.Wf) (hidx : info.idx < inodes.length)
    {data : List UInt8}
    (hdata : serializeDirectory info.children info.selfNid info.parentNid = .ok data) :
    ∃ stored after, storeDir layout inodes info = .ok (stored, after) ∧ stored.Wf ∧
      layout.cursor ≤ stored.cursor ∧ after.length = inodes.length ∧
      (∀ off n, off + n ≤ layout.cursor → window stored.buf off n = window layout.buf off n) ∧
      (∀ i, i ≠ info.idx → after[i]? = inodes[i]?) ∧
      DirStored stored inodes after layout.cursor info := by
  obtain ⟨hwf, hcur, hplace⟩ := h.allocDirData data.length
  have hbounds := (MetadataLayout.dirRequest data.length).le_next (c := layout.cursor)
    (show 0 < 4096 by decide)
  have hoff : 4096 ∣ ((MetadataLayout.dirRequest data.length).place layout.cursor).off :=
    dvd_alignUp _ 4096
  have hsize : (MetadataLayout.dirRequest data.length).size = data.length := rfl
  have hbuf : (layout.allocDirData data.length).2.buf =
      growTo layout.buf (layout.allocDirData data.length).2.cursor := rfl
  generalize ((MetadataLayout.dirRequest data.length).place layout.cursor).off = off at *
  generalize (MetadataLayout.dirRequest data.length).next layout.cursor = cursor at *
  have hfits : off + data.length ≤ (layout.allocDirData data.length).2.buf.length := by
    rw [hwf.len, hcur]
    omega
  obtain ⟨stored, hwrite, hwfS, hcurS, hbufS⟩ := hwf.writeAt (hwf.len ▸ hfits)
  rw [Prod.ext_iff] at hplace
  refine ⟨stored, _, ?_, hwfS, by omega, List.length_modify _ _ _, ?_, ?_,
    data, off, hdata, hbounds.1, hoff, by omega, ?_, List.getElem?_modify_eq _ _ _⟩
  · rw [storeDir, hdata, bind_ok]
    dsimp only
    rw [hplace.1, hplace.2, hwrite, bind_ok, updateAt_ok hidx, bind_ok]
    rfl
  · intro i n hin
    rw [hbufS, window_overwrite_before (by omega) hfits, hbuf,
      window_growTo (by rw [h.len]; exact hin)]
  · intro i hi
    exact List.getElem?_modify_ne _ _ (Ne.symm hi)
  · rw [hbufS]
    exact window_overwrite_same hfits

/-- **Storing the directories**: each one's data stands where its inode says, and what stood
in the buffer before still does. -/
theorem storeDirs_ok {infos : List DirInfo} (h : layout.Wf)
    (hidx : ∀ info ∈ infos, info.idx < inodes.length)
    (hdata : ∀ info ∈ infos, ∃ data,
      serializeDirectory info.children info.selfNid info.parentNid = .ok data)
    (hone : infos.Pairwise fun a b => a.idx ≠ b.idx) :
    ∃ stored after, storeDirs layout inodes infos = .ok (stored, after) ∧ stored.Wf ∧
      layout.cursor ≤ stored.cursor ∧ after.length = inodes.length ∧
      (∀ off n, off + n ≤ layout.cursor → window stored.buf off n = window layout.buf off n) ∧
      (∀ i, (∀ info ∈ infos, i ≠ info.idx) → after[i]? = inodes[i]?) ∧
      ∀ info ∈ infos, DirStored stored inodes after layout.cursor info := by
  induction infos generalizing layout inodes with
  | nil => exact ⟨layout, inodes, rfl, h, Nat.le_refl _, rfl, fun _ _ _ => rfl, fun _ _ => rfl, nofun⟩
  | cons info infos ih =>
    obtain ⟨hne, hone⟩ := List.pairwise_cons.mp hone
    obtain ⟨data, hd⟩ := hdata info List.mem_cons_self
    obtain ⟨l₁, in₁, hrun, hwf, hle, hlen, hwin, hother, hstored⟩ :=
      storeDir_ok h (hidx info List.mem_cons_self) hd
    obtain ⟨l₂, in₂, hrun₂, hwf₂, hle₂, hlen₂, hwin₂, hother₂, hstored₂⟩ := ih hwf
      (fun i hi => hlen ▸ hidx i (List.mem_cons_of_mem _ hi))
      (fun i hi => hdata i (List.mem_cons_of_mem _ hi)) hone
    refine ⟨l₂, in₂, by rw [storeDirs, hrun, bind_ok]; exact hrun₂, hwf₂, by omega, by omega, ?_, ?_, ?_⟩
    · intro off n hn
      rw [hwin₂ off n (by omega), hwin off n hn]
    · intro i hi
      rw [hother₂ i fun b hb => hi b (List.mem_cons_of_mem _ hb), hother i (hi info List.mem_cons_self)]
    · intro b hb
      rcases List.mem_cons.mp hb with rfl | hb
      · obtain ⟨data, off, hd, hlow, hdvd, hhigh, hdata, hafter⟩ := hstored
        exact ⟨data, off, hd, hlow, hdvd, by omega, by rw [hwin₂ _ _ hhigh, hdata],
          by rw [hother₂ _ hne, hafter]⟩
      · obtain ⟨data, off, hd, hlow, hdvd, hhigh, hdata, hafter⟩ := hstored₂ b hb
        exact ⟨data, off, hd, by omega, hdvd, hhigh, hdata,
          by rw [hafter, hother _ (Ne.symm (hne b hb))]⟩

/-! ## Storing inodes -/

/-- What is written for each inode, and where. -/
def inodeWrites (epoch : UInt64) (chunkbits : Nat) (inodes : List InodeInfo) :
    List (Nat × List UInt8) :=
  inodes.map fun inode => (inode.metaOffset, inodeBytes inode epoch chunkbits)

theorem storeInodes_ok (h : layout.Wf) (epoch : UInt64) (hc : 12 ≤ chunkbits)
    (hfits : ∀ inode ∈ inodes,
      inode.metaOffset + inodeMetaSize inode chunkbits 12 ≤ layout.cursor) :
    ∃ stored, storeInodes layout epoch chunkbits inodes = .ok stored ∧ stored.Wf ∧
      stored.buf = overwriteAll layout.buf (inodeWrites epoch chunkbits inodes) := by
  induction inodes generalizing layout with
  | nil => exact ⟨layout, rfl, h, rfl⟩
  | cons inode inodes ih =>
    have hlen := length_inodeBytes inode epoch chunkbits
    obtain ⟨l₁, hwrite, hwf₁, hcur₁, hbuf₁⟩ := h.writeAt
      (show inode.metaOffset + (inodeBytes inode epoch chunkbits).length ≤ layout.cursor from
        hlen ▸ hfits inode List.mem_cons_self)
    obtain ⟨stored, hrun, hwf, hbuf⟩ := ih hwf₁ fun i hi => by
      rw [hcur₁]
      exact hfits i (List.mem_cons_of_mem _ hi)
    refine ⟨stored, ?_, hwf, by rw [hbuf, hbuf₁]; rfl⟩
    rw [storeInodes, serializeInode_ok inode epoch hc, bind_ok, hwrite, bind_ok, hrun]

/-! ## The whole layout -/

/-- The lists agree in everything that storing directories and wiring parents keeps. -/
def SameFixed (as bs : List InodeInfo) : Prop := as.map InodeInfo.fixed = bs.map InodeInfo.fixed

variable {as bs : List InodeInfo}

theorem SameFixed.getElem? (h : SameFixed as bs) {i : Nat} {a : InodeInfo} (ha : as[i]? = some a) :
    ∃ b, bs[i]? = some b ∧ a.fixed = b.fixed := by
  have hi := congrArg (fun l => l[i]?) h
  simp only [List.getElem?_map, ha, Option.map_some] at hi
  obtain ⟨b, hb, he⟩ := Option.map_eq_some_iff.mp hi.symm
  exact ⟨b, hb, he.symm⟩

theorem SameFixed.symm (h : SameFixed as bs) : SameFixed bs as := Eq.symm h

theorem fixed_fixed (inode : InodeInfo) : inode.fixed.fixed = inode.fixed := by
  obtain ⟨_, _, _, _, _, _, _, _, _, _, _, data, _⟩ := inode
  cases data <;> rfl

theorem SameFixed.slots (h : SameFixed as bs) :
    as.map (InodeInfo.slot chunkbits) = bs.map (InodeInfo.slot chunkbits) := by
  have hslot : InodeInfo.slot chunkbits ∘ InodeInfo.fixed = InodeInfo.slot chunkbits := by
    funext p
    obtain ⟨-, hoff, -, -, -, -, -, hsize⟩ := InodeInfo.eq_of_fixed (fixed_fixed p)
    rw [Function.comp_apply, InodeInfo.slot, hoff, hsize]
    rfl
  have hmap := congrArg (List.map (InodeInfo.slot chunkbits)) h
  rwa [List.map_map, List.map_map, hslot] at hmap

theorem SameFixed.nidAt (h : SameFixed as bs) (i : Nat) : nidAt as i = nidAt bs i := by
  cases ha : as[i]? with
  | none =>
    have hb : bs[i]? = none := by
      have hi := congrArg (fun l => l[i]?) h
      simpa [ha] using hi.symm
    rw [Build.nidAt, Build.nidAt, ha, hb]
  | some a =>
    obtain ⟨b, hb, he⟩ := h.getElem? ha
    rw [nidAt_eq ha, nidAt_eq hb]
    exact (InodeInfo.eq_of_fixed he).1

theorem SameFixed.nidEntries (h : SameFixed as bs) (des : List DirEntry) :
    nidEntries as des = nidEntries bs des := by
  rw [Build.nidEntries, Build.nidEntries]
  simp only [h.nidAt]

theorem SameFixed.parentUpdates (h : SameFixed as bs) {u : Nat × Nat}
    (hu : u ∈ parentUpdates as) : u ∈ parentUpdates bs := by
  obtain ⟨a, ha, de, hde, hft, hidx, hnid⟩ := mem_parentUpdates.mp hu
  obtain ⟨i, hi⟩ := List.mem_iff_getElem?.mp ha
  obtain ⟨b, hb, he⟩ := h.getElem? hi
  obtain ⟨hn, -, -, hc, -⟩ := InodeInfo.eq_of_fixed he
  exact mem_parentUpdates.mpr
    ⟨b, List.mem_of_getElem? hb, de, hc ▸ hde, hft, hidx, hn ▸ hnid⟩

theorem SameFixed.mem_updates (h : SameFixed as bs) (u : Nat × Nat) :
    u ∈ (0, 0) :: Build.parentUpdates as ↔ u ∈ (0, 0) :: Build.parentUpdates bs := by
  rw [List.mem_cons, List.mem_cons]
  exact or_congr Iff.rfl ⟨h.parentUpdates, h.symm.parentUpdates⟩

theorem SameFixed.kept (h : SameFixed as bs)
    (hk : bs.map InodeInfo.unplaced = inodes.map InodeInfo.unplaced) :
    as.map InodeInfo.unplaced = inodes.map InodeInfo.unplaced := by
  have hplace := congrArg (List.map (InodeInfo.place 0 0)) h
  rw [List.map_map, List.map_map] at hplace
  exact hplace.trans hk

/-- What laying out the inodes gives. -/
structure LaidOut (inodes placed : List InodeInfo) (buf : List UInt8) (epoch : UInt64)
    (chunkbits : Nat) : Prop where
  kept : placed.map InodeInfo.unplaced = inodes.map InodeInfo.unplaced
  rootNid : nidAt placed 0 = 0
  nids : placed.Pairwise fun p q => p.nid ≠ q.nid
  inode : ∀ p ∈ placed, window buf (p.nid * 32) (inodeBytes p epoch chunkbits).length =
    inodeBytes p epoch chunkbits
  room : ∀ p ∈ placed, p.nid * 32 + 64 ≤ buf.length
  dir : ∀ i p, placed[i]? = some p → p.isDir = true → ∀ parentNid,
    (∀ u ∈ (0, 0) :: parentUpdates placed, u.1 = i → u.2 = parentNid) →
    (∃ u ∈ (0, 0) :: parentUpdates placed, u.1 = i) →
    ∃ data off, serializeDirectory (nidEntries placed p.data.children) p.nid parentNid = .ok data ∧
      p.data = .directory p.data.children (1 + off / 4096) data.length parentNid ∧
      p.size = UInt64.ofNat data.length ∧ 4096 ∣ off ∧ off + data.length ≤ buf.length ∧
      window buf off data.length = data

/-! ## Slots are apart -/

/-- The slots of the list are those placed for `inodes`. -/
def Slotted (chunkbits : Nat) (inodes xs : List InodeInfo) : Prop :=
  xs.map (InodeInfo.slot chunkbits) = placeAll 0 (slotRequests chunkbits inodes) ∧
    ∀ p ∈ xs, p.metaOffset = p.nid * 32

theorem slotRequests_align (chunkbits : Nat) (inodes : List InodeInfo) :
    ∀ q ∈ slotRequests chunkbits inodes, 0 < q.align := by
  intro q hq
  obtain ⟨inode, -, rfl⟩ := List.mem_map.mp hq
  exact show 0 < 32 by decide

variable {xs : List InodeInfo}

theorem Slotted.le (h : Slotted chunkbits inodes xs) :
    ∀ p ∈ xs, p.metaOffset + inodeMetaSize p chunkbits 12 ≤
      endCursor 0 (slotRequests chunkbits inodes) := fun p hp =>
  (placeAll_bounds (slotRequests_align chunkbits inodes)
    (h.1 ▸ List.mem_map.mpr ⟨p, hp, rfl⟩)).2

theorem Slotted.apart (h : Slotted chunkbits inodes xs) :
    xs.Pairwise fun p q => (p.slot chunkbits).Apart (q.slot chunkbits) := by
  rw [← List.pairwise_map (f := InodeInfo.slot chunkbits), h.1]
  exact placeAll_apart (slotRequests_align chunkbits inodes)

theorem Slotted.writesApart (h : Slotted chunkbits inodes xs) (epoch : UInt64) :
    (inodeWrites epoch chunkbits xs).Pairwise fun v w => Apart v.1 v.2.length w.1 w.2.length := by
  rw [inodeWrites, List.pairwise_map]
  refine h.apart.imp fun {p q} hpq => ?_
  rwa [length_inodeBytes, length_inodeBytes]

theorem base_le_inodeMetaSize (p : InodeInfo) (chunkbits : Nat) :
    32 ≤ inodeMetaSize p chunkbits 12 := by
  have := p.base_bounds
  rw [inodeMetaSize_eq]
  omega

theorem Slotted.nids (h : Slotted chunkbits inodes xs) :
    xs.Pairwise fun p q => p.nid ≠ q.nid := by
  have hall := h.apart
  refine hall.imp_of_mem fun {p q} hp hq hpq heq => ?_
  have hp' := h.2 p hp
  have hq' := h.2 q hq
  have hsp := base_le_inodeMetaSize p chunkbits
  have hsq := base_le_inodeMetaSize q chunkbits
  simp only [Region.Apart, Apart, InodeInfo.slot] at hpq
  omega

theorem Slotted.rootNid (h : Slotted chunkbits inodes xs) : nidAt xs 0 = 0 := by
  obtain ⟨hslots, hoff⟩ := h
  cases xs with
  | nil => rfl
  | cons p xs =>
    have hp := hoff p List.mem_cons_self
    cases inodes with
    | nil => cases hslots
    | cons inode inodes =>
      have hfirst : p.metaOffset = alignUp 0 32 := congrArg Region.off (List.cons.inj hslots).1
      have hzero : alignUp 0 32 = 0 := by decide
      rw [nidAt_eq (show (p :: xs)[0]? = some p from rfl)]
      omega

theorem Slotted.of_sameFixed {ys : List InodeInfo} (h : Slotted chunkbits inodes ys)
    (hsame : SameFixed xs ys) : Slotted chunkbits inodes xs := by
  refine ⟨hsame.slots.trans h.1, ?_⟩
  intro p hp
  obtain ⟨i, hi⟩ := List.mem_iff_getElem?.mp hp
  obtain ⟨q, hq, he⟩ := hsame.getElem? hi
  obtain ⟨hn, ho, -⟩ := InodeInfo.eq_of_fixed he
  rw [hn, ho]
  exact h.2 q (List.mem_of_getElem? hq)

theorem Slotted.writesFit (h : Slotted chunkbits inodes xs) (epoch : UInt64) {len : Nat}
    (hlen : endCursor 0 (slotRequests chunkbits inodes) ≤ len) :
    ∀ v ∈ inodeWrites epoch chunkbits xs, v.1 + v.2.length ≤ len := by
  intro v hv
  obtain ⟨p, hp, rfl⟩ := List.mem_map.mp hv
  rw [length_inodeBytes]
  exact (h.le p hp).trans hlen

/-! ## Wiring -/

/-- The inodes behind the allocation of their slots and the wiring of parents. -/
structure Wired (chunkbits : Nat) (inodes wired : List InodeInfo) : Prop where
  kept : wired.map InodeInfo.unplaced = inodes.map InodeInfo.unplaced
  slotted : Slotted chunkbits inodes wired
  parent : ∀ i w, wired[i]? = some w → w.isDir = true → ∀ parentNid,
    (∀ u ∈ (0, 0) :: parentUpdates wired, u.1 = i → u.2 = parentNid) →
    (∃ u ∈ (0, 0) :: parentUpdates wired, u.1 = i) →
    ∃ startblk size, w.data = .directory w.data.children startblk size parentNid

theorem kept_getElem? {as bs : List InodeInfo}
    (h : as.map InodeInfo.unplaced = bs.map InodeInfo.unplaced) {i : Nat} {a : InodeInfo}
    (ha : as[i]? = some a) : ∃ b, bs[i]? = some b ∧ a.unplaced = b.unplaced := by
  have hi := congrArg (fun l => l[i]?) h
  simp only [List.getElem?_map, ha, Option.map_some] at hi
  obtain ⟨b, hb, he⟩ := Option.map_eq_some_iff.mp hi.symm
  exact ⟨b, hb, he.symm⟩

/-- Inodes that agree but for their places agree in what is read off them. -/
theorem InodeInfo.eq_of_unplaced {a b : InodeInfo} (h : a.unplaced = b.unplaced) :
    a.isDir = b.isDir ∧ a.data.children = b.data.children ∧ a.xattrs = b.xattrs ∧
      (a.isDir = false → a.data = b.data ∧ a.size = b.size) := by
  rw [InodeInfo.unplaced, InodeInfo.unplaced, ← fixed_place, ← fixed_place] at h
  obtain ⟨-, -, hdir, hchildren, hxattrs, -, hsame, -⟩ := InodeInfo.eq_of_fixed h
  exact ⟨hdir, hchildren, hxattrs,
    fun hd => ⟨(congrArg InodeInfo.data (hsame hd) :), (congrArg InodeInfo.size (hsame hd) :)⟩⟩

theorem kept_mem {a : InodeInfo} {as bs : List InodeInfo}
    (h : as.map InodeInfo.unplaced = bs.map InodeInfo.unplaced) (ha : a ∈ as) :
    ∃ b ∈ bs, a.data.children = b.data.children := by
  obtain ⟨i, hi⟩ := List.mem_iff_getElem?.mp ha
  obtain ⟨b, hb, he⟩ := kept_getElem? h hi
  exact ⟨b, List.mem_of_getElem? hb, (InodeInfo.eq_of_unplaced he).2.1⟩

theorem EntriesIn.of_kept {as bs : List InodeInfo} (hin : EntriesIn bs)
    (h : as.map InodeInfo.unplaced = bs.map InodeInfo.unplaced) :
    EntriesIn as := by
  have hlen := congrArg List.length h
  rw [List.length_map, List.length_map] at hlen
  intro a ha de hde
  obtain ⟨b, hb, hc⟩ := kept_mem h ha
  rw [hlen]
  exact hin b hb de (hc ▸ hde)

theorem setParentNid_dir {inode : InodeInfo} (h : inode.isDir = true) (nid : Nat) :
    ∃ startblk size, (inode.setParentNid nid).data =
      .directory (inode.setParentNid nid).data.children startblk size nid := by
  obtain ⟨cs, b, s, p, hd⟩ := InodeInfo.isDir_iff.mp h
  refine ⟨b, s, ?_⟩
  simp [InodeInfo.setParentNid, hd, InodeData.children]

theorem setParentNid_idem (nid : Nat) (inode : InodeInfo) :
    (inode.setParentNid nid).setParentNid nid = inode.setParentNid nid := by
  unfold InodeInfo.setParentNid
  cases h : inode.data <;> simp [h]

/-- The first two loops succeed and leave the inodes wired. -/
theorem wire_ok {root : InodeInfo} (hroot : inodes[0]? = some root) (hin : EntriesIn inodes)
    (chunkbits : Nat) :
    ∃ placed layout wired, allocInodes .new chunkbits 12 inodes = (placed, layout) ∧
      setParentNids placed = .ok wired ∧ layout.Wf ∧
      layout.cursor = endCursor 0 (slotRequests chunkbits inodes) ∧ Wired chunkbits inodes wired := by
  obtain ⟨placed, layout, hrun, hwf, hcur, hslots, hkept, hoff⟩ :=
    allocInodes_spec MetadataLayout.wf_new chunkbits inodes
  have hslotted : Slotted chunkbits inodes placed := ⟨hslots, hoff⟩
  have hlen := congrArg List.length hkept
  rw [List.length_map, List.length_map] at hlen
  have hpos : 0 < placed.length := hlen ▸ (List.getElem?_eq_some_iff.mp hroot).1
  have hfirst := List.getElem?_eq_getElem hpos
  have hnid : placed[0].nid = 0 := (nidAt_eq hfirst).symm.trans hslotted.rootNid
  have hsame : SameFixed (updateAll InodeInfo.setParentNid placed
      ((0, placed[0].nid) :: parentUpdates placed)) placed :=
    map_updateAll_of_fixed fixed_setParentNid _
  refine ⟨placed, layout, _, hrun, setParentNids_ok hfirst (hin.of_kept hkept), hwf, hcur, ?_⟩
  rw [hnid] at hsame ⊢
  generalize hw : updateAll InodeInfo.setParentNid placed ((0, 0) :: parentUpdates placed) = wired at *
  refine ⟨hsame.kept hkept, hslotted.of_sameFixed hsame, ?_⟩
  intro i w hi hdir parentNid hall hsome
  obtain ⟨u, hu, hui⟩ := hsome
  have hget := getElem?_updateAll_of_forall_eq (l := placed) (setParentNid_idem parentNid)
    (fun u hu => hall u ((hsame.mem_updates u).mpr hu)) ⟨u, (hsame.mem_updates u).mp hu, hui⟩
  rw [hw, hi] at hget
  obtain ⟨q, hq, rfl⟩ := Option.map_eq_some_iff.mp hget.symm
  have hqdir : q.isDir = true := by
    rw [← (InodeInfo.eq_of_fixed (fixed_setParentNid parentNid q)).2.2.1]
    exact hdir
  exact setParentNid_dir hqdir parentNid

/-! ## The run -/

theorem fixed_of_storeDirs {wired placed : List InodeInfo} {layout : MetadataLayout} {low : Nat}
    (hother : ∀ i, (∀ info ∈ dirInfosAt wired 0 wired, i ≠ info.idx) → placed[i]? = wired[i]?)
    (hstored : ∀ info ∈ dirInfosAt wired 0 wired, DirStored layout wired placed low info) :
    SameFixed placed wired := by
  refine List.ext_getElem? ?_
  intro i
  rw [List.getElem?_map, List.getElem?_map]
  by_cases hi : ∃ info ∈ dirInfosAt wired 0 wired, i = info.idx
  · obtain ⟨info, hmem, rfl⟩ := hi
    obtain ⟨_, _, -, -, -, -, -, hafter⟩ := hstored info hmem
    obtain ⟨j, w, hw, hinfo⟩ := mem_dirInfosAt.mp hmem
    obtain ⟨_, _, _, _, hd, rfl⟩ := dirInfoAt_eq_some.mp hinfo
    rw [hafter, Nat.zero_add, hw]
    exact congrArg some (fixed_setDirData (InodeInfo.isDir_iff.mpr ⟨_, _, _, _, hd⟩) _ _)
  · rw [hother i fun info hmem he => hi ⟨info, hmem, he⟩]

/-- Every name fits a block. -/
def NamesFit (inodes : List InodeInfo) : Prop :=
  ∀ inode ∈ inodes, ∀ de ∈ inode.data.children, 12 + de.name.length ≤ 4096

theorem serialize_dirInfos {wired : List InodeInfo} (hnames : NamesFit wired) :
    ∀ info ∈ dirInfosAt wired 0 wired, info.idx < wired.length ∧
      ∃ data, serializeDirectory info.children info.selfNid info.parentNid = .ok data ∧
        4096 ≤ data.length := by
  intro info hmem
  obtain ⟨j, w, hw, hinfo⟩ := mem_dirInfosAt.mp hmem
  obtain ⟨children, _, _, _, hd, rfl⟩ := dirInfoAt_eq_some.mp hinfo
  have hmem := List.mem_of_getElem? hw
  refine ⟨?_, (serializeDirectory_ok ?_ _ _).imp fun _ h => ⟨h.1, h.2.1⟩⟩
  · rw [Nat.zero_add]
    exact (List.getElem?_eq_some_iff.mp hw).1
  · intro c hc
    obtain ⟨de, hde, rfl⟩ := List.mem_map.mp hc
    exact hnames w hmem de (by rw [hd]; exact hde)

/-- A stored directory's inode says where its data stands. -/
theorem stored_dir {wired placed : List InodeInfo} {layout : MetadataLayout} {low i : Nat}
    {p : InodeInfo} (hw : Wired chunkbits inodes wired) (hsame : SameFixed placed wired)
    (hstored : ∀ info ∈ dirInfosAt wired 0 wired, DirStored layout wired placed low info)
    (hp : placed[i]? = some p) (hdir : p.isDir = true) (parentNid : Nat)
    (hall : ∀ u ∈ (0, 0) :: parentUpdates placed, u.1 = i → u.2 = parentNid)
    (hsome : ∃ u ∈ (0, 0) :: parentUpdates placed, u.1 = i) :
    ∃ data off, serializeDirectory (nidEntries placed p.data.children) p.nid parentNid = .ok data ∧
      p.data = .directory p.data.children (1 + off / 4096) data.length parentNid ∧
      p.size = UInt64.ofNat data.length ∧ low ≤ off ∧ 4096 ∣ off ∧
      off + data.length ≤ layout.cursor ∧ window layout.buf off data.length = data := by
  obtain ⟨w, hwi, he⟩ := hsame.getElem? hp
  obtain ⟨hnid, -, hisDir, hchildren, -⟩ := InodeInfo.eq_of_fixed he
  obtain ⟨u, hu, hui⟩ := hsome
  obtain ⟨b, s, hd⟩ := hw.parent i w hwi (hisDir ▸ hdir) parentNid
    (fun u hu => hall u ((hsame.mem_updates u).mpr hu)) ⟨u, (hsame.mem_updates u).mp hu, hui⟩
  obtain ⟨data, off, hser, hlow, hdvd, hhigh, hwin, hafter⟩ := hstored _ (mem_dirInfosAt.mpr
    ⟨i, w, hwi, dirInfoAt_eq_some.mpr ⟨_, _, _, _, hd, rfl⟩⟩)
  dsimp only at hser hafter
  rw [Nat.zero_add, hp, hwi] at hafter
  have hpw : p = w.setDirData (1 + off / 4096) data.length := Option.some.inj hafter
  refine ⟨data, off, ?_, ?_, ?_, hlow, hdvd, hhigh, hwin⟩
  · rw [hsame.nidEntries, hchildren, hnid]
    exact hser
  · rw [hchildren, hpw, InodeInfo.setDirData, hd]
    rfl
  · rw [hpw, InodeInfo.setDirData, hd]

/-- The root's data stands behind every slot, so that a slot has room for any header. -/
theorem room_of_stored {wired placed : List InodeInfo} {layout : MetadataLayout} {root p : InodeInfo}
    (hroot : inodes[0]? = some root) (hdir : root.isDir = true) (hw : Wired chunkbits inodes wired)
    (hslotted : Slotted chunkbits inodes placed)
    (hser : ∀ info ∈ dirInfosAt wired 0 wired, info.idx < wired.length ∧
      ∃ data, serializeDirectory info.children info.selfNid info.parentNid = .ok data ∧
        4096 ≤ data.length) {low : Nat}
    (hlow : endCursor 0 (slotRequests chunkbits inodes) ≤ low)
    (hstored : ∀ info ∈ dirInfosAt wired 0 wired, DirStored layout wired placed low info)
    (hp : p ∈ placed) : p.nid * 32 + 64 ≤ layout.cursor := by
  obtain ⟨w, hw₀, hkept⟩ := kept_getElem? hw.kept.symm hroot
  obtain ⟨_, hinfo⟩ := exists_dirInfo hw₀ ((InodeInfo.eq_of_unplaced hkept).1.symm.trans hdir)
  obtain ⟨-, data, hser₀, hlen⟩ := hser _ hinfo
  obtain ⟨data', off, hser', hoff, -, hhigh, -⟩ := hstored _ hinfo
  rw [hser₀] at hser'
  cases hser'
  have hslot := hslotted.le p hp
  have hbase := base_le_inodeMetaSize p chunkbits
  have hnid := hslotted.2 p hp
  omega

/-- **Laying out** a list whose first inode is a directory, whose entries stand for inodes of
the list and whose names fit, succeeds: every inode is in its slot and every directory's data
where its inode says. -/
theorem layOut_ok {root : InodeInfo} (hroot : inodes[0]? = some root) (hdir : root.isDir = true)
    (hin : EntriesIn inodes) (hnames : NamesFit inodes) (hc : 12 ≤ chunkbits) (epoch : UInt64) :
    ∃ placed layout, layOut inodes epoch chunkbits = .ok (placed, layout) ∧
      LaidOut inodes placed layout.buf epoch chunkbits := by
  obtain ⟨allocated, l₀, wired, halloc, hwire, hwf₀, hcur₀, hw⟩ := wire_ok hroot hin chunkbits
  obtain ⟨hwf₁, hcur₁⟩ := hwf₀.padToBlock
  have hwnames : NamesFit wired := fun w hwmem de hde => by
    obtain ⟨b, hb, hchildren⟩ := kept_mem hw.kept hwmem
    exact hnames b hb de (hchildren ▸ hde)
  have hser := serialize_dirInfos hwnames
  obtain ⟨l₂, placed, hstore, hwf₂, hle₂, -, -, hother, hstored⟩ := storeDirs_ok hwf₁
    (fun i hi => (hser i hi).1) (fun i hi => (hser i hi).2.imp fun _ h => h.1)
    (dirInfosAt_pairwise 0 wired)
  have hsame := fixed_of_storeDirs hother hstored
  have hslotted := hw.slotted.of_sameFixed hsame
  have hend : endCursor 0 (slotRequests chunkbits inodes) ≤ l₀.padToBlock.2.cursor := by
    rw [hcur₁, ← hcur₀]
    exact le_alignUp (by decide)
  have hfits := hslotted.writesFit epoch (hend.trans hle₂)
  obtain ⟨l₃, hinodes, hwf₃, hbuf₃⟩ := storeInodes_ok hwf₂ epoch hc
    fun p hp => (hslotted.le p hp).trans (hend.trans hle₂)
  rw [← hwf₂.len] at hfits
  have hlen₃ : l₃.buf.length = l₂.cursor := by
    rw [hbuf₃, length_overwriteAll hfits, hwf₂.len]
  have hrun : layOut inodes epoch chunkbits = .ok (placed, l₃) := by
    rw [layOut, show erofsBlkszbits.toNat = 12 from rfl, halloc]
    dsimp only
    rw [hwire, bind_ok, dirInfosFrom_ok 0 (hin.of_kept hw.kept), bind_ok, hstore, bind_ok, hinodes]
    rfl
  refine ⟨placed, l₃, hrun, hsame.kept hw.kept, hslotted.rootNid, hslotted.nids, ?_, ?_, ?_⟩
  · intro p hp
    rw [hbuf₃, ← hslotted.2 p hp]
    exact window_overwriteAll hfits (hslotted.writesApart epoch) (List.mem_map.mpr ⟨p, hp, rfl⟩)
  · intro p hp
    rw [hlen₃]
    exact room_of_stored hroot hdir hw hslotted hser hend hstored hp
  · intro i p hp hd parentNid hall hsome
    obtain ⟨data, off, hser, hpd, hsize, hlow, hdvd, hhigh, hwin⟩ :=
      stored_dir hw hsame hstored hp hd parentNid hall hsome
    refine ⟨data, off, hser, hpd, hsize, hdvd, hlen₃ ▸ hhigh, ?_⟩
    rw [hbuf₃, window_overwriteAll_apart hfits, hwin]
    intro v hv
    exact .inl ((hslotted.writesFit epoch hend v hv).trans hlow)

end ErofsUtils.Build
