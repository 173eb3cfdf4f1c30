import ErofsUtils.Build.DirBlocks
import ErofsUtils.Build.LayOut

/-! # The size of the metadata area

Whatever is laid out, the metadata area is whole blocks: those of the inode slots, and behind
them those of every directory. -/
namespace ErofsUtils.Build
open ErofsUtils.Rust ErofsUtils.Bytes ErofsUtils.Metadata ErofsUtils.Store

variable {inodes placed after : List InodeInfo} {layout stored : MetadataLayout} {epoch : UInt64}
  {chunkbits : Nat}

/-- The blocks that the data of an inode take behind the slots. -/
def InodeInfo.dirBlocks (inode : InodeInfo) : Nat :=
  if inode.isDir then Build.dirBlocks (inode.data.children.map DirEntry.name) else 0

/-- The area is `n` blocks. -/
structure HasBlocks (layout : MetadataLayout) (n : Nat) : Prop where
  wf : layout.Wf
  cursor : layout.cursor = n * 4096

/-- A write that succeeds changes nothing but bytes. -/
theorem wf_of_writeAt {off : Nat} {data : List UInt8} (h : layout.Wf)
    (hwrite : layout.writeAt off data = .ok stored) : stored.Wf ∧ stored.cursor = layout.cursor := by
  have hfits : off + data.length ≤ layout.buf.length := by
    by_contra hlt
    rw [MetadataLayout.writeAt, copyAt, if_neg hlt] at hwrite
    cases hwrite
  obtain ⟨m, hm, hwf, hcur, -⟩ := h.writeAt (h.len ▸ hfits)
  cases hwrite.symm.trans hm
  exact ⟨hwf, hcur⟩

/-! ## Slots -/

/-- The space of all slots. -/
def slotSpace (chunkbits : Nat) (inodes : List InodeInfo) : Nat :=
  (inodes.map fun inode => alignUp (inodeMetaSize inode chunkbits 12) 32).sum

theorem endCursor_slotRequests {c : Nat} (hc : 32 ∣ c) (inodes : List InodeInfo) :
    endCursor c (slotRequests chunkbits inodes) = c + slotSpace chunkbits inodes := by
  induction inodes generalizing c with
  | nil => rfl
  | cons inode inodes ih =>
    have hnext : (MetadataLayout.inodeRequest (inodeMetaSize inode chunkbits 12)).next c =
        c + alignUp (inodeMetaSize inode chunkbits 12) 32 := by
      rw [Request.next]
      exact congrArg (· + _) (alignUp_of_dvd (show 0 < 32 by decide) hc)
    have hdvd : 32 ∣ c + alignUp (inodeMetaSize inode chunkbits 12) 32 :=
      Nat.dvd_add hc (dvd_alignUp _ 32)
    show endCursor (Request.next _ c) (slotRequests chunkbits inodes) = _
    rw [hnext, ih hdvd, slotSpace, slotSpace, List.map_cons, List.sum_cons, Nat.add_assoc]

/-! ## Directory data -/

/-- Storing a directory adds its blocks. -/
theorem HasBlocks.storeDir {n : Nat} {info : DirInfo} (h : HasBlocks layout n)
    (hrun : storeDir layout inodes info = .ok (stored, after)) :
    HasBlocks stored (n + dirBlocks (info.children.map DirChild.name)) := by
  simp only [Build.storeDir, bind_eq_ok, updateAt_eq_ok] at hrun
  obtain ⟨data, hdata, l, hwrite, inodes', -, hrun⟩ := hrun
  cases hrun
  obtain ⟨hwf, hcur, -⟩ := h.wf.allocDirData data.length
  obtain ⟨hwf', hcur'⟩ := wf_of_writeAt hwf hwrite
  have hstart : alignUp layout.cursor 4096 = layout.cursor :=
    alignUp_of_dvd (by decide) (h.cursor ▸ Nat.dvd_mul_left 4096 n)
  have hlen := length_serializeDirectory hdata
  have hdata : alignUp data.length 4096 = data.length :=
    alignUp_of_dvd (by decide) (hlen ▸ Nat.dvd_mul_left 4096 _)
  refine ⟨hwf', ?_⟩
  rw [hcur', hcur, MetadataLayout.dirRequest, Request.next, hstart, hdata, h.cursor, hlen,
    erofsBlockSize, Nat.add_mul]

theorem HasBlocks.storeDirs {n : Nat} {infos : List DirInfo} (h : HasBlocks layout n)
    (hrun : storeDirs layout inodes infos = .ok (stored, after)) :
    HasBlocks stored
      (n + (infos.map fun info => dirBlocks (info.children.map DirChild.name)).sum) := by
  induction infos generalizing layout inodes n with
  | nil =>
    cases hrun
    exact h
  | cons info infos ih =>
    simp only [Build.storeDirs, bind_eq_ok, Prod.exists] at hrun
    obtain ⟨l, inodes', hfirst, hrest⟩ := hrun
    rw [List.map_cons, List.sum_cons, ← Nat.add_assoc]
    exact ih (h.storeDir hfirst) hrest

theorem HasBlocks.storeInodes {n : Nat} (h : HasBlocks layout n)
    (hrun : storeInodes layout epoch chunkbits inodes = .ok stored) : HasBlocks stored n := by
  induction inodes generalizing layout with
  | nil =>
    cases hrun
    exact h
  | cons inode inodes ih =>
    simp only [Build.storeInodes, bind_eq_ok] at hrun
    obtain ⟨bytes, -, l, hwrite, hrest⟩ := hrun
    obtain ⟨hwf, hcur⟩ := wf_of_writeAt h.wf hwrite
    exact ih ⟨hwf, hcur.trans h.cursor⟩ hrest

/-! ## Directories keep their entries -/

theorem dirBlocks_unplaced (inode : InodeInfo) : inode.unplaced.dirBlocks = inode.dirBlocks := by
  obtain ⟨_, _, _, _, _, _, _, _, _, _, _, data, _⟩ := inode
  cases data <;> rfl

theorem dirBlocks_setParentNid (nid : Nat) (inode : InodeInfo) :
    (inode.setParentNid nid).dirBlocks = inode.dirBlocks := by
  obtain ⟨-, -, hdir, hchildren, -⟩ := InodeInfo.eq_of_fixed (fixed_setParentNid nid inode)
  rw [InodeInfo.dirBlocks, InodeInfo.dirBlocks, hdir, hchildren]

theorem dirBlocks_setParents {parentNid : Nat} {idxs : List Nat}
    (h : setParents inodes parentNid idxs = .ok after) :
    after.map InodeInfo.dirBlocks = inodes.map InodeInfo.dirBlocks := by
  induction idxs generalizing inodes with
  | nil =>
    cases h
    rfl
  | cons i idxs ih =>
    simp only [setParents, bind_eq_ok, updateAt_eq_ok] at h
    obtain ⟨_, ⟨-, rfl⟩, h⟩ := h
    rw [ih h, map_modify_of_kept (dirBlocks_setParentNid parentNid)]

theorem dirBlocks_setParentsAll {infos : List (Nat × List Nat)}
    (h : setParentsAll inodes infos = .ok after) :
    after.map InodeInfo.dirBlocks = inodes.map InodeInfo.dirBlocks := by
  induction infos generalizing inodes with
  | nil =>
    cases h
    rfl
  | cons info infos ih =>
    obtain ⟨nid, idxs⟩ := info
    simp only [setParentsAll, bind_eq_ok] at h
    obtain ⟨_, hfirst, h⟩ := h
    rw [ih h, dirBlocks_setParents hfirst]

theorem dirBlocks_setParentNids (h : setParentNids inodes = .ok after) :
    after.map InodeInfo.dirBlocks = inodes.map InodeInfo.dirBlocks := by
  simp only [setParentNids, bind_eq_ok, updateAt_eq_ok] at h
  obtain ⟨root, -, _, ⟨-, rfl⟩, h⟩ := h
  rw [dirBlocks_setParentsAll h, map_modify_of_kept (dirBlocks_setParentNid root.nid)]

theorem names_of_dirChildren {all : List InodeInfo} {des : List DirEntry} {children : List DirChild}
    (h : dirChildren all des = .ok children) :
    children.map DirChild.name = des.map DirEntry.name := by
  induction des generalizing children with
  | nil =>
    cases h
    rfl
  | cons de des ih =>
    simp only [dirChildren, bind_eq_ok] at h
    obtain ⟨child, -, rest, hrest, h⟩ := h
    cases h
    rw [List.map_cons, List.map_cons, ih hrest]

/-- The directories of a list are to be stored, under their names. -/
theorem dirBlocks_dirInfosFrom {all rest : List InodeInfo} {idx : Nat} {infos : List DirInfo}
    (h : dirInfosFrom all idx rest = .ok infos) :
    (infos.map fun info => dirBlocks (info.children.map DirChild.name)).sum =
      (rest.map InodeInfo.dirBlocks).sum := by
  induction rest generalizing idx infos with
  | nil =>
    cases h
    rfl
  | cons inode rest ih =>
    rw [dirInfosFrom] at h
    rw [List.map_cons, List.sum_cons, InodeInfo.dirBlocks, InodeInfo.isDir]
    cases hd : inode.data with
    | directory children _ _ parentNid =>
      simp only [hd, bind_eq_ok] at h
      obtain ⟨cs, hcs, infos', hrest, h⟩ := h
      cases h
      rw [List.map_cons, List.sum_cons, ih hrest, names_of_dirChildren hcs]
      rfl
    | regularFile | symlink | specialDev | specialNoData =>
      simp only [hd] at h
      rw [ih h]
      exact (Nat.zero_add _).symm

/-! ## The area -/

/-- **The metadata area** takes the blocks of the slots, and those of each directory. -/
theorem length_layOut (h : layOut inodes epoch chunkbits = .ok (placed, stored)) :
    stored.buf.length = (divCeil (slotSpace chunkbits inodes) 4096 +
      (inodes.map InodeInfo.dirBlocks).sum) * 4096 := by
  obtain ⟨allocated, l₀, halloc, hwf, hcur, -, hkept, -⟩ :=
    allocInodes_spec MetadataLayout.wf_new chunkbits inodes
  have hdirs : allocated.map InodeInfo.dirBlocks = inodes.map InodeInfo.dirBlocks := by
    have hmap := congrArg (List.map InodeInfo.dirBlocks) hkept
    rw [List.map_map, List.map_map] at hmap
    exact (List.map_congr_left fun inode _ => (dirBlocks_unplaced inode).symm).trans
      (hmap.trans (List.map_congr_left fun inode _ => dirBlocks_unplaced inode))
  rw [layOut, show erofsBlkszbits.toNat = 12 from rfl, halloc] at h
  simp only [bind_eq_ok, Prod.exists] at h
  obtain ⟨wired, hwire, infos, hinfos, l₂, inodes₂, hstore, l₃, hinodes, h⟩ := h
  cases h
  obtain ⟨hwf₁, hcur₁⟩ := hwf.padToBlock
  have hstart : HasBlocks l₀.padToBlock.2 (divCeil (slotSpace chunkbits inodes) 4096) := by
    refine ⟨hwf₁, ?_⟩
    have hend := @endCursor_slotRequests chunkbits 0 (Nat.dvd_zero 32) inodes
    rw [hcur₁, hcur, show MetadataLayout.new.cursor = 0 from rfl, hend, Nat.zero_add]
    rfl
  have hend := (hstart.storeDirs hstore).storeInodes hinodes
  rw [dirBlocks_dirInfosFrom hinfos, dirBlocks_setParentNids hwire, hdirs] at hend
  exact hend.wf.len.trans hend.cursor

/-- The area has a block of slots at least, and one block more if there is a directory. -/
theorem layOut_least (h : layOut inodes epoch chunkbits = .ok (placed, stored)) :
    4096 ≤ stored.buf.length ∧
      ((∃ inode ∈ inodes, inode.isDir = true) → 8192 ≤ stored.buf.length) := by
  have hlen := length_layOut h
  cases inodes with
  | nil => cases h
  | cons root inodes =>
    have hslot := base_le_inodeMetaSize root chunkbits
    have hroot := @le_alignUp (inodeMetaSize root chunkbits 12) 32 (by decide)
    have hspace : 32 ≤ slotSpace chunkbits (root :: inodes) := by
      rw [slotSpace, List.map_cons, List.sum_cons]
      omega
    have hblock : 1 ≤ divCeil (slotSpace chunkbits (root :: inodes)) 4096 := by
      rw [divCeil]
      omega
    refine ⟨by omega, ?_⟩
    rintro ⟨inode, hmem, hdir⟩
    have hone : 1 ≤ inode.dirBlocks := by
      rw [InodeInfo.dirBlocks, if_pos hdir]
      exact dirBlocks_pos _
    have hsum : inode.dirBlocks ≤ ((root :: inodes).map InodeInfo.dirBlocks).sum :=
      size_le_load hmem
    omega

end ErofsUtils.Build
