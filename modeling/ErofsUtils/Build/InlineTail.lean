import ErofsUtils.Build.LayOut
import Mathlib.Algebra.BigOperators.Ring.List

/-! # Targets and blocks

The target of a symlink stands behind its inode, and inodes are packed slot by slot. Whether a
target crosses the end of a block therefore depends on what the inodes before it take. -/
namespace ErofsUtils.Build
open ErofsUtils.Rust ErofsUtils.Bytes ErofsUtils.Metadata ErofsUtils.Fs

variable {layout : MetadataLayout} {chunkbits : Nat} {inodes : List InodeInfo} {i : Nat}
  {inode p : InodeInfo} {target : List UInt8}

/-- The bytes from `off` on lie in one block. -/
def InOneBlock (off len : Nat) : Prop := ∃ k, k * 4096 ≤ off ∧ off + len ≤ (k + 1) * 4096

/-- Header, attributes and target together are not larger than a block. -/
def SmallLink (inode : InodeInfo) (target : List UInt8) : Prop :=
  inode.data = .symlink target ∧
    inode.base + xattrIbodySize inode.xattrs + target.length ≤ 4096

/-- The target lies in one block of the image, where the reader of the inode looks for it. -/
def TargetInBlock (r : ErofsReader) (p : InodeInfo) (epoch : UInt64) (chunkbits : Nat)
    (target : List UInt8) : Prop :=
  InOneBlock (r.slotOffset p.nid + ((inodeView p epoch chunkbits).headerSize +
    (inodeView p epoch chunkbits).xattrSize)) target.length

/-- Every small target of the inodes laid out lies in one block of the image. -/
def TailsInBlocks (chunkbits : Nat) (inodes : List InodeInfo) : Prop :=
  ∀ p ∈ (allocInodes .new chunkbits 12 inodes).1, ∀ target, SmallLink p target →
    ∀ (r : ErofsReader) (epoch : UInt64), r.sb.metaBlkaddr = 1 →
      TargetInBlock r p epoch chunkbits target

/-- What the slots in front of inode `i` take. -/
def slotStart (chunkbits : Nat) (inodes : List InodeInfo) (i : Nat) : Nat :=
  ((inodes.take i).map fun inode => alignUp (inodeMetaSize inode chunkbits 12) 32).sum

/-- What is left of the block in which the slot of inode `i` starts. -/
def roomAt (chunkbits : Nat) (inodes : List InodeInfo) (i : Nat) : Nat :=
  4096 - slotStart chunkbits inodes i % 4096

/-- Every small link ends in the block in which its slot starts, or has its target start in the
next. -/
def TailsFit (chunkbits : Nat) (inodes : List InodeInfo) : Prop :=
  ∀ i inode target, inodes[i]? = some inode → SmallLink inode target →
    inode.base + xattrIbodySize inode.xattrs + target.length ≤ roomAt chunkbits inodes i ∨
      roomAt chunkbits inodes i ≤ inode.base + xattrIbodySize inode.xattrs

/-- Bytes not longer than a block stay inside one, or start in the next. -/
theorem inOneBlock_iff {start head len : Nat} (h : head + len ≤ 4096) :
    InOneBlock (start + head) len ↔
      head + len ≤ 4096 - start % 4096 ∨ 4096 - start % 4096 ≤ head := by
  constructor
  · rintro ⟨k, hlo, hhi⟩
    omega
  · rintro (hfit | hnext)
    · exact ⟨start / 4096, by omega, by omega⟩
    · exact ⟨start / 4096 + 1, by omega, by omega⟩

theorem dvd_slotStart (chunkbits : Nat) (inodes : List InodeInfo) (i : Nat) :
    32 ∣ slotStart chunkbits inodes i := by
  refine List.dvd_sum fun n hn => ?_
  obtain ⟨inode, -, rfl⟩ := List.mem_map.mp hn
  exact dvd_alignUp _ 32

/-- The slot of an inode starts where the slots in front of it end. -/
theorem allocInodes_getElem? (layout : MetadataLayout) (inodes : List InodeInfo) (i : Nat) :
    (allocInodes layout chunkbits 12 inodes).1[i]? = inodes[i]?.map
      (InodeInfo.place (layout.cursor + slotStart chunkbits inodes i)
        ((layout.cursor + slotStart chunkbits inodes i) / 32)) := by
  induction inodes generalizing layout i with
  | nil => rfl
  | cons inode inodes ih =>
    rw [allocInodes]
    cases i with
    | zero => rfl
    | succ i =>
      have hstart : slotStart chunkbits (inode :: inodes) (i + 1) =
          alignUp (inodeMetaSize inode chunkbits 12) 32 + slotStart chunkbits inodes i := by
        rw [slotStart, List.take_succ_cons, List.map_cons, List.sum_cons, slotStart]
      have hcursor : (layout.allocInode (inodeMetaSize inode chunkbits 12)).2.cursor =
          layout.cursor + alignUp (inodeMetaSize inode chunkbits 12) 32 := by
        simp only [MetadataLayout.allocInode, roundUpUsize_slot]
      dsimp only
      rw [List.getElem?_cons_succ, List.getElem?_cons_succ, ih, hcursor, hstart, Nat.add_assoc]

theorem allocInodes_new_getElem? :
    (allocInodes .new chunkbits 12 inodes).1[i]? = inodes[i]?.map
      (InodeInfo.place (slotStart chunkbits inodes i) (slotStart chunkbits inodes i / 32)) := by
  have hget := @allocInodes_getElem? chunkbits MetadataLayout.new inodes i
  rwa [show MetadataLayout.new.cursor = 0 from rfl, Nat.zero_add] at hget

/-- The target of a placed link lies in one block exactly when its sizes allow it. -/
theorem targetInBlock_iff (hlink : SmallLink inode target) {r : ErofsReader}
    (hr : r.sb.metaBlkaddr = 1) (epoch : UInt64) :
    TargetInBlock r (inode.place (slotStart chunkbits inodes i) (slotStart chunkbits inodes i / 32))
        epoch chunkbits target ↔
      inode.base + xattrIbodySize inode.xattrs + target.length ≤ roomAt chunkbits inodes i ∨
        roomAt chunkbits inodes i ≤ inode.base + xattrIbodySize inode.xattrs := by
  obtain ⟨-, hsmall⟩ := hlink
  have hslot : r.slotOffset (slotStart chunkbits inodes i / 32) =
      4096 + slotStart chunkbits inodes i := by
    rw [ErofsReader.slotOffset, hr, erofsSlotsize,
      Nat.div_mul_cancel (dvd_slotStart chunkbits inodes i)]
    rfl
  have hcount : xattrIbodySize inode.xattrs ≤ 262148 := by omega
  have hxattrs := (xattrSize_inodeView_iff (inode.place (slotStart chunkbits inodes i)
    (slotStart chunkbits inodes i / 32)) epoch chunkbits).mpr hcount
  rw [TargetInBlock, hxattrs, headerSize_inodeView]
  show InOneBlock (r.slotOffset (slotStart chunkbits inodes i / 32) +
    (inode.base + xattrIbodySize inode.xattrs)) target.length ↔ _
  rw [hslot, inOneBlock_iff hsmall, roomAt, Nat.add_mod_left]

theorem TailsInBlocks.fits (h : TailsInBlocks chunkbits inodes) (hi : inodes[i]? = some inode)
    (hlink : SmallLink inode target) :
    inode.base + xattrIbodySize inode.xattrs + target.length ≤ roomAt chunkbits inodes i ∨
      roomAt chunkbits inodes i ≤ inode.base + xattrIbodySize inode.xattrs := by
  obtain ⟨r, -, hopened⟩ := exists_opened [] (by decide) 0 0 none
  have hp := @allocInodes_new_getElem? chunkbits inodes i
  rw [hi, Option.map_some] at hp
  exact (targetInBlock_iff hlink hopened.metaBlkaddr 0).mp
    (h _ (List.mem_of_getElem? hp) target hlink r 0 hopened.metaBlkaddr)

/-- **Targets stay in blocks** exactly when the sizes of the inodes in front of them happen to
leave the room. -/
theorem tailsInBlocks_iff (chunkbits : Nat) (inodes : List InodeInfo) :
    TailsInBlocks chunkbits inodes ↔ TailsFit chunkbits inodes := by
  constructor
  · intro h i inode target hi hlink
    exact h.fits hi hlink
  · intro h p hp target hlink r epoch hr
    obtain ⟨i, hi⟩ := List.mem_iff_getElem?.mp hp
    rw [allocInodes_new_getElem?, Option.map_eq_some_iff] at hi
    obtain ⟨inode, hinode, rfl⟩ := hi
    exact (targetInBlock_iff hlink hr epoch).mpr (h i inode target hinode hlink)

/-! ## A target across two blocks -/

def linkTo (target : List UInt8) : InodeInfo :=
  { mode := 0o120777, uid := 0, gid := 0, size := UInt64.ofNat target.length, mtime := 1700000000
    mtimeNsec := 0, nlink := 1, ino := 2, isExtended := isExtendedFor target.length 0 0 1
    data := .symlink target, xattrs := [] }

/-- A directory and its two links. -/
def twoLinks : List InodeInfo :=
  [{ mode := 0o040755, uid := 0, gid := 0, size := 0, mtime := 1700000000, mtimeNsec := 0, nlink := 2
     ino := 1, isExtended := isExtendedFor 0 0 0 2
     data := .directory [⟨[97], 7, 1⟩, ⟨[98], 7, 2⟩] 0 0 0, xattrs := [] },
    linkTo (List.replicate 3900 97), linkTo (List.replicate 100 97)]

/-- The second link starts 96 bytes before the end of a block. -/
theorem not_tailsInBlocks_twoLinks : ¬ TailsInBlocks 12 twoLinks := by
  intro h
  have hlink : SmallLink (linkTo (List.replicate 100 97)) (List.replicate 100 97) :=
    ⟨rfl, by decide⟩
  have hroom : roomAt 12 twoLinks 2 = 96 := by decide +kernel
  have hlast : twoLinks[2]? = some (linkTo (List.replicate 100 97)) := rfl
  have hfits := h.fits hlast hlink
  rw [hroom] at hfits
  exact absurd hfits (by decide)

end ErofsUtils.Build
