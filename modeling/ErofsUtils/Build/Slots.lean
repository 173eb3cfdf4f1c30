import ErofsUtils.Build.LayOut

/-! # Inodes fill their slots

The size of an inode is computed twice: when its slot is allocated, and when the inode is
serialized, with its place and the data of its directory filled in meanwhile. None of that
changes the size, and the serialized bytes are as many. -/
namespace ErofsUtils.Build
open ErofsUtils.Rust ErofsUtils.Bytes ErofsUtils.Metadata ErofsUtils.Store

variable {inodes : List InodeInfo} {layout : MetadataLayout} {chunkbits : Nat} {epoch : UInt64}

/-! ## Patches -/

/-- What is filled into an inode after its slot is allocated. -/
inductive Patch where
  | place (off nid : Nat)
  | parentNid (nid : Nat)
  | dirData (startblk len : Nat)

def Patch.apply : Patch → InodeInfo → InodeInfo
  | place off nid => InodeInfo.place off nid
  | parentNid nid => InodeInfo.setParentNid nid
  | dirData startblk len => InodeInfo.setDirData startblk len

def patchAll (patches : List Patch) (inode : InodeInfo) : InodeInfo :=
  patches.foldl (fun inode p => p.apply inode) inode

theorem slot_setParentNid (nid : Nat) (inode : InodeInfo) :
    (inode.setParentNid nid).slot chunkbits = inode.slot chunkbits := by
  unfold InodeInfo.setParentNid InodeInfo.slot inodeMetaSize InodeInfo.base
  cases h : inode.data <;> simp only [h]

theorem slot_setDirData (startblk len : Nat) (inode : InodeInfo) :
    (inode.setDirData startblk len).slot chunkbits = inode.slot chunkbits := by
  unfold InodeInfo.setDirData InodeInfo.slot inodeMetaSize InodeInfo.base
  cases inode.data <;> rfl

theorem inodeMetaSize_apply (p : Patch) (inode : InodeInfo) :
    inodeMetaSize (p.apply inode) chunkbits 12 = inodeMetaSize inode chunkbits 12 := by
  cases p with
  | place off nid => exact inodeMetaSize_place off nid inode
  | parentNid nid =>
    show ((inode.setParentNid nid).slot chunkbits).size = _
    rw [slot_setParentNid]
    rfl
  | dirData startblk len =>
    show ((inode.setDirData startblk len).slot chunkbits).size = _
    rw [slot_setDirData]
    rfl

/-- No patch changes the size of an inode. -/
theorem inodeMetaSize_patchAll (patches : List Patch) (inode : InodeInfo) :
    inodeMetaSize (patchAll patches inode) chunkbits 12 = inodeMetaSize inode chunkbits 12 := by
  induction patches generalizing inode with
  | nil => rfl
  | cons p patches ih =>
    rw [patchAll, List.foldl_cons, ← patchAll, ih, inodeMetaSize_apply]

/-! ## What the bytes are -/

/-- Header, attribute body and tail stand in three regions, one behind the other, that make up
all of the bytes. Only the padding of the attributes, of less than four bytes each, is not
written. -/
structure Fills (inode : InodeInfo) (epoch : UInt64) (chunkbits : Nat) (bytes : List UInt8) :
    Prop where
  header : window bytes 0 inode.base = (inodeView inode epoch chunkbits).asBytes
  body : window bytes inode.base (xattrIbodySize inode.xattrs) = xattrBody inode.xattrs
  tail : window bytes (inode.base + xattrIbodySize inode.xattrs) (inodeTail inode).length =
    inodeTail inode
  cover : bytes.length = inode.base + xattrIbodySize inode.xattrs + (inodeTail inode).length
  padding : ∀ x ∈ inode.xattrs, ∃ n < 4, xattrPadded x = xattrEntry x ++ List.replicate n 0

theorem fills_inodeBytes (inode : InodeInfo) (epoch : UInt64) (chunkbits : Nat) :
    Fills inode epoch chunkbits (inodeBytes inode epoch chunkbits) := by
  have hheader : (inodeView inode epoch chunkbits).asBytes.length = inode.base := by simp
  have hbody := length_xattrBody inode.xattrs
  refine ⟨?_, ?_, ?_, ?_, ?_⟩
  · rw [inodeBytes, List.append_assoc, window_append_left (by omega), ← hheader, window_all]
  · rw [inodeBytes, ← hheader, ← hbody, window_middle]
  · have hfront : inode.base + xattrIbodySize inode.xattrs =
        ((inodeView inode epoch chunkbits).asBytes ++ xattrBody inode.xattrs).length + 0 := by
      rw [List.length_append, hheader, hbody, Nat.add_zero]
    rw [inodeBytes, hfront, window_append_right, window_all]
  · rw [length_inodeBytes, inodeMetaSize_eq]
  · intro x _
    refine ⟨_, ?_, rfl⟩
    rw [alignUp]
    omega

/-! ## Slots of a run -/

theorem map_slot_updateAt {i : Nat} {f : InodeInfo → InodeInfo} {ws : List InodeInfo}
    (hf : ∀ inode, (f inode).slot chunkbits = inode.slot chunkbits)
    (h : (updateAt inodes i f : IoResult (List InodeInfo)) = .ok ws) :
    ws.map (InodeInfo.slot chunkbits) = inodes.map (InodeInfo.slot chunkbits) := by
  obtain ⟨-, rfl⟩ := updateAt_eq_ok.mp h
  refine List.ext_getElem? fun j => ?_
  rw [List.getElem?_map, List.getElem?_map, List.getElem?_modify]
  cases inodes[j]? with
  | none => rfl
  | some inode =>
    by_cases hj : i = j
    · simp [hj, hf]
    · simp [hj]

theorem map_slot_setParents {nid : Nat} {idxs : List Nat} {ws : List InodeInfo}
    (h : setParents inodes nid idxs = .ok ws) :
    ws.map (InodeInfo.slot chunkbits) = inodes.map (InodeInfo.slot chunkbits) := by
  induction idxs generalizing inodes with
  | nil =>
    cases h
    rfl
  | cons i idxs ih =>
    obtain ⟨ys, hys, h⟩ := bind_eq_ok.mp h
    rw [ih h, map_slot_updateAt (slot_setParentNid nid) hys]

theorem map_slot_setParentsAll {infos : List (Nat × List Nat)} {ws : List InodeInfo}
    (h : setParentsAll inodes infos = .ok ws) :
    ws.map (InodeInfo.slot chunkbits) = inodes.map (InodeInfo.slot chunkbits) := by
  induction infos generalizing inodes with
  | nil =>
    cases h
    rfl
  | cons info infos ih =>
    obtain ⟨ys, hys, h⟩ := bind_eq_ok.mp h
    rw [ih h, map_slot_setParents hys]

/-- Wiring the parents leaves the slots. -/
theorem map_slot_setParentNids {ws : List InodeInfo} (h : setParentNids inodes = .ok ws) :
    ws.map (InodeInfo.slot chunkbits) = inodes.map (InodeInfo.slot chunkbits) := by
  obtain ⟨root, -, h⟩ := bind_eq_ok.mp h
  obtain ⟨ys, hys, h⟩ := bind_eq_ok.mp h
  rw [map_slot_setParentsAll h, map_slot_updateAt (slot_setParentNid root.nid) hys]

/-- Storing the directories leaves the slots. -/
theorem map_slot_storeDirs {infos : List DirInfo} {last : MetadataLayout} {ws : List InodeInfo}
    (h : storeDirs layout inodes infos = .ok (last, ws)) :
    ws.map (InodeInfo.slot chunkbits) = inodes.map (InodeInfo.slot chunkbits) := by
  induction infos generalizing layout inodes with
  | nil =>
    cases h
    rfl
  | cons info infos ih =>
    obtain ⟨⟨m, ys⟩, hys, h⟩ := bind_eq_ok.mp h
    obtain ⟨data, -, hys⟩ := bind_eq_ok.mp hys
    obtain ⟨_, -, hys⟩ := bind_eq_ok.mp hys
    obtain ⟨zs, hzs, hys⟩ := bind_eq_ok.mp hys
    cases hys
    rw [ih h, map_slot_updateAt (slot_setDirData _ _) hzs]

/-- The inodes of a layout are in the slots that were allocated for them. -/
theorem map_slot_layOut {placed : List InodeInfo} {last : MetadataLayout}
    (h : layOut inodes epoch chunkbits = .ok (placed, last)) :
    placed.map (InodeInfo.slot chunkbits) = placeAll 0 (slotRequests chunkbits inodes) := by
  obtain ⟨allocated, l, hrun, -, -, hslots, -⟩ :=
    allocInodes_spec MetadataLayout.wf_new chunkbits inodes
  rw [layOut, show erofsBlkszbits.toNat = 12 from rfl, hrun] at h
  obtain ⟨wired, hwired, h⟩ := bind_eq_ok.mp h
  obtain ⟨infos, -, h⟩ := bind_eq_ok.mp h
  obtain ⟨⟨m, stored⟩, hstored, h⟩ := bind_eq_ok.mp h
  obtain ⟨_, -, h⟩ := bind_eq_ok.mp h
  cases h
  rw [map_slot_storeDirs hstored, map_slot_setParentNids hwired, hslots]
  rfl

/-- **The serializer fills the space reserved.** Whatever is filled into an inode after its slot
is allocated, its bytes are as many as were reserved, header, attributes and tail without a gap
between them; and in every layout they end before the slot of any later inode. -/
theorem serializeInode_fills (hc : 12 ≤ chunkbits) (epoch : UInt64) :
    (∀ inode patches, ∃ bytes, serializeInode (patchAll patches inode) epoch chunkbits = .ok bytes ∧
      bytes.length = inodeMetaSize inode chunkbits 12 ∧
      Fills (patchAll patches inode) epoch chunkbits bytes) ∧
    ∀ inodes placed last, layOut inodes epoch chunkbits = .ok (placed, last) →
      ∀ (i : Nat) (inode : InodeInfo), inodes[i]? = some inode → ∃ p bytes, placed[i]? = some p ∧
        serializeInode p epoch chunkbits = .ok bytes ∧
        bytes.length = inodeMetaSize inode chunkbits 12 ∧
        ∀ (j : Nat) (q : InodeInfo), i < j → placed[j]? = some q →
          p.metaOffset + bytes.length ≤ q.metaOffset := by
  refine ⟨fun inode patches => ?_, fun inodes placed last h i inode hi => ?_⟩
  · refine ⟨_, serializeInode_ok _ epoch hc, ?_, fills_inodeBytes _ epoch chunkbits⟩
    rw [length_inodeBytes, inodeMetaSize_patchAll]
  · have hslots := map_slot_layOut h
    have hordered := placeAll_ordered (c := 0) (slotRequests_align chunkbits inodes)
    rw [← hslots, List.pairwise_map, List.pairwise_iff_getElem] at hordered
    have hsizes := congrArg (fun l => (l.map Region.size)[i]?) hslots
    simp only [map_size_placeAll, slotRequests, List.map_map, List.getElem?_map, hi,
      Option.map_some] at hsizes
    obtain ⟨p, hp, hsize⟩ := Option.map_eq_some_iff.mp hsizes
    obtain ⟨hlt, rfl⟩ := List.getElem?_eq_some_iff.mp hp
    have hlen : (inodeBytes placed[i] epoch chunkbits).length = inodeMetaSize inode chunkbits 12 :=
      (length_inodeBytes _ _ _).trans hsize
    refine ⟨_, _, hp, serializeInode_ok _ epoch hc, hlen, fun j q hij hq => ?_⟩
    obtain ⟨hj, rfl⟩ := List.getElem?_eq_some_iff.mp hq
    rw [length_inodeBytes]
    exact hordered i j hlt hj hij

/-- An empty directory with the attribute `user.a`. -/
def userADir : InodeInfo :=
  { mode := 0o040755, uid := 0, gid := 0, size := 0, mtime := 1700000000, mtimeNsec := 0, nlink := 2
    ino := 1, isExtended := isExtendedFor 0 0 0 2, data := .directory [] 0 0 0
    xattrs := [(1, [97], [49])] }

theorem serializeInode_fills_userADir : ∃ bytes, serializeInode
      (patchAll [.place 0 0, .parentNid 0, .dirData 2 4096] userADir) 1700000000 12 = .ok bytes ∧
    bytes.length = 84 := by
  have hc : 12 ≤ 12 := Nat.le_refl 12
  obtain ⟨bytes, hbytes, hlen, -⟩ := (serializeInode_fills hc 1700000000).1 userADir
    [.place 0 0, .parentNid 0, .dirData 2 4096]
  exact ⟨bytes, hbytes, hlen⟩

end ErofsUtils.Build
