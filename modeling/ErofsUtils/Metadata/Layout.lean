import ErofsUtils.Bytes.Placement
import ErofsUtils.Metadata.Format

/-! # Metadata layout allocator

The metadata area is one buffer that starts at block `metaBlkaddr` of the image.
Inode slots come first, block-aligned directory data after them. -/
namespace ErofsUtils.Metadata
open ErofsUtils.Rust ErofsUtils.Bytes

structure MetadataLayout where
  buf : List UInt8
  cursor : Nat
  metaBlkaddr : Nat

def roundUpUsize (val align : Nat) : Nat := andNot (val + align - 1) (align - 1)

@[simp] theorem roundUpUsize_slot (n : Nat) : roundUpUsize n erofsSlotsize = alignUp n 32 :=
  andNot_eq_alignUp n 5
@[simp] theorem roundUpUsize_block (n : Nat) : roundUpUsize n erofsBlockSize = alignUp n 4096 :=
  andNot_eq_alignUp n 12

/-- `if buf.len() < n { buf.resize(n, 0) }`. -/
def growTo (buf : List UInt8) (n : Nat) : List UInt8 := buf ++ List.replicate (n - buf.length) 0

namespace MetadataLayout

def new : MetadataLayout := { buf := [], cursor := 0, metaBlkaddr := 1 }

/-- Returns the offset in the buffer and the NID. -/
def allocInode (l : MetadataLayout) (size : Nat) : (Nat × Nat) × MetadataLayout :=
  let aligned := roundUpUsize size erofsSlotsize
  let offset := l.cursor
  let cursor := l.cursor + aligned
  let nid := offset / erofsSlotsize
  ((offset, nid), { l with cursor, buf := growTo l.buf cursor })

def padToBlock (l : MetadataLayout) : Nat × MetadataLayout :=
  let aligned := roundUpUsize l.cursor erofsBlockSize
  (aligned, { l with cursor := aligned, buf := growTo l.buf aligned })

/-- Returns the offset in the buffer and the start block address. -/
def allocDirData (l : MetadataLayout) (size : Nat) : (Nat × Nat) × MetadataLayout :=
  let offset := roundUpUsize l.cursor erofsBlockSize
  let alignedSize := roundUpUsize size erofsBlockSize
  let cursor := offset + alignedSize
  let startblk := l.metaBlkaddr + offset / erofsBlockSize
  ((offset, startblk), { l with cursor, buf := growTo l.buf cursor })

def writeAt (l : MetadataLayout) (offset : Nat) (data : List UInt8) : IoResult MetadataLayout := do
  let buf ← copyAt l.buf offset data
  pure { l with buf }

def totalBlocks (l : MetadataLayout) : Nat :=
  roundUpUsize l.buf.length erofsBlockSize / erofsBlockSize

/-! ## The allocator places regions -/

/-- The buffer ends at the cursor, which stands at a slot. -/
structure Wf (l : MetadataLayout) : Prop where
  len : l.buf.length = l.cursor
  slot : 32 ∣ l.cursor
  base : l.metaBlkaddr = 1

theorem wf_new : new.Wf := ⟨rfl, by simp [new], rfl⟩

def inodeRequest (size : Nat) : Request := ⟨32, size⟩
def dirRequest (size : Nat) : Request := ⟨4096, size⟩

theorem length_growTo {buf : List UInt8} {n : Nat} (h : buf.length ≤ n) :
    (growTo buf n).length = n := by simp [growTo]; omega

theorem Wf.allocInode {l : MetadataLayout} (h : l.Wf) (size : Nat) :
    (l.allocInode size).2.Wf ∧
      (l.allocInode size).2.cursor = (inodeRequest size).next l.cursor ∧
      (l.allocInode size).1 = (((inodeRequest size).place l.cursor).off, l.cursor / 32) := by
  have hc : alignUp l.cursor 32 = l.cursor := alignUp_of_dvd (by decide) h.slot
  have hnext : (inodeRequest size).next l.cursor = l.cursor + alignUp size 32 := by
    simp [inodeRequest, Request.next, hc]
  refine ⟨⟨?_, ?_, h.base⟩, ?_, ?_⟩
  · simp only [MetadataLayout.allocInode, roundUpUsize_slot]
    exact length_growTo (by rw [h.len]; omega)
  · simp only [MetadataLayout.allocInode, roundUpUsize_slot]
    exact Nat.dvd_add h.slot (dvd_alignUp _ _)
  · simp [MetadataLayout.allocInode, hnext]
  · simp [MetadataLayout.allocInode, inodeRequest, Request.place, hc, erofsSlotsize]

theorem Wf.padToBlock {l : MetadataLayout} (h : l.Wf) :
    l.padToBlock.2.Wf ∧ l.padToBlock.2.cursor = alignUp l.cursor 4096 := by
  refine ⟨⟨?_, ?_, h.base⟩, ?_⟩
  · simp only [MetadataLayout.padToBlock, roundUpUsize_block]
    exact length_growTo (by rw [h.len]; exact le_alignUp (by decide))
  · simp only [MetadataLayout.padToBlock, roundUpUsize_block]
    exact Nat.dvd_trans (by decide) (dvd_alignUp _ 4096)
  · simp [MetadataLayout.padToBlock]

theorem Wf.allocDirData {l : MetadataLayout} (h : l.Wf) (size : Nat) :
    (l.allocDirData size).2.Wf ∧
      (l.allocDirData size).2.cursor = (dirRequest size).next l.cursor ∧
      (l.allocDirData size).1 =
        (((dirRequest size).place l.cursor).off, 1 + ((dirRequest size).place l.cursor).off / 4096) := by
  have hle : l.cursor ≤ alignUp l.cursor 4096 := le_alignUp (by decide)
  refine ⟨⟨?_, ?_, h.base⟩, ?_, ?_⟩
  · simp only [MetadataLayout.allocDirData, roundUpUsize_block]
    exact length_growTo (by rw [h.len]; omega)
  · simp only [MetadataLayout.allocDirData, roundUpUsize_block]
    exact Nat.dvd_trans (by decide) (Nat.dvd_add (dvd_alignUp _ 4096) (dvd_alignUp _ 4096))
  · simp [MetadataLayout.allocDirData, dirRequest, Request.next]
  · simp only [MetadataLayout.allocDirData, roundUpUsize_block, h.base]
    rfl

/-- Writing inside the area changes nothing but the bytes. -/
theorem Wf.writeAt {l : MetadataLayout} {off : Nat} {data : List UInt8} (h : l.Wf)
    (hle : off + data.length ≤ l.cursor) :
    ∃ m, l.writeAt off data = .ok m ∧ m.Wf ∧ m.cursor = l.cursor ∧
      m.buf = overwrite l.buf off data := by
  have hfits : off + data.length ≤ l.buf.length := h.len ▸ hle
  refine ⟨⟨overwrite l.buf off data, l.cursor, l.metaBlkaddr⟩, ?_,
    ⟨(length_overwrite hfits).trans h.len, h.slot, h.base⟩, rfl, rfl⟩
  rw [MetadataLayout.writeAt, copyAt_ok hfits]
  rfl

end MetadataLayout
end ErofsUtils.Metadata
