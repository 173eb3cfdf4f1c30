import ErofsUtils.Fs.Arithmetic

/-! # Flat contents

A flat layout puts the bytes of a file into blocks, or into blocks and a tail behind the
inode. Whichever it is, a read of the whole file returns what was put there. -/
namespace ErofsUtils.Fs
open ErofsUtils.Rust ErofsUtils.Bytes ErofsUtils.Metadata

/-- The content stands where a flat layout puts it: in blocks, or with what does not fill a
block behind the inode and its attributes. -/
inductive StoredFlat (r : ErofsReader) (nid : Nat) (v : ErofsInode) : List UInt8 → Prop where
  | plain {content : List UInt8} (hlay : v.dataLayout = erofsInodeFlatPlain)
      (h : window r.mmap.bytes (v.startblk * 4096) content.length = content) :
      StoredFlat r nid v content
  | inline {blocks tail : List UInt8} (hlay : v.dataLayout = erofsInodeFlatInline)
      (hblocks : 4096 ∣ blocks.length) (htail : tail.length < 4096)
      (h : window r.mmap.bytes (v.startblk * 4096) blocks.length = blocks)
      (h' : window r.mmap.bytes (r.slotOffset nid + (v.headerSize + v.xattrSize)) tail.length =
        tail) : StoredFlat r nid v (blocks ++ tail)

variable {r : ErofsReader} {nid : Nat} {v : ErofsInode} {content : List UInt8}

/-- No content of an image is too large for a buffer. -/
theorem StoredFlat.length_lt (h : StoredFlat r nid v content) : content.length < 2 ^ 63 := by
  have hlt := r.mmap.lenLt
  have hle : ∀ {off : Nat} {bytes : List UInt8}, window r.mmap.bytes off bytes.length = bytes →
      bytes.length ≤ r.mmap.bytes.length := by
    intro off bytes h
    rw [← h, length_window]
    omega
  cases h with
  | plain _ h => exact Nat.lt_of_le_of_lt (hle h) hlt
  | inline _ hblocks htail h _ =>
    have hwhole := Nat.lt_of_le_of_lt (hle h) hlt
    rw [List.length_append]
    omega

namespace ErofsReader

/-- **A stored content** is what the copying read of the whole file returns. -/
theorem readFlatDataVec_stored (h : StoredFlat r nid v content)
    (hsize : v.size.toNat = content.length) (hpos : 0 < content.length) : r.readFlatDataVec nid v 0 v.size.toNat = .ok content := by
  have hlt := v.size.toNat_lt
  rw [readFlatDataVec_eq (hsize ▸ h.length_lt)]
  cases h with
  | plain hlay h =>
    have hne : ¬ v.dataLayout = erofsInodeFlatInline := by
      rw [hlay]
      decide
    rw [flatBytes_eq_ok (.inl hlay) (by omega) (by omega), spells_block fun h => absurd h hne,
      erofsBlockSize, Nat.add_zero]
    exact ⟨hsize.symm, spells_of_window h⟩
  | @inline blocks tail hlay hblocks htail h h' =>
    rw [List.length_append] at hsize hpos
    have hsplit : blocksSize v = blocks.length := by
      rw [blocksSize_eq, erofsBlockSize]
      omega
    rw [flatBytes_eq_ok (.inr hlay) (by omega) (by omega), spells_append, Nat.zero_add,
      spells_block fun _ => by omega, spells_inline hlay (by omega), hsplit, Nat.sub_self,
      erofsBlockSize, Nat.add_zero, Nat.add_zero]
    exact ⟨by rw [List.length_append, hsize], spells_of_window h, spells_of_window h'⟩

end ErofsReader
end ErofsUtils.Fs
