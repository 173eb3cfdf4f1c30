import ErofsUtils.Fs.Images
import ErofsUtils.Fs.Meta

/-! # Inodes at the end of an image

The first bytes of an inode say how long its header is, but a read fetches the longer header
before it looks at them. -/
namespace ErofsUtils.Fs
open ErofsUtils.Rust ErofsUtils.Bytes ErofsUtils.Metadata

namespace ErofsReader
variable {r : ErofsReader} {nid off : Nat}

/-- The length of the header that the format bit of the inode at `off` selects. -/
def headerSizeAt (r : ErofsReader) (off : Nat) : Nat :=
  if (Codec.u16.dec (r.mmap.bytes.drop off) >>> erofsIVersionBit) &&& 1 =
      erofsInodeLayoutCompact then
    erofsInodeCompactSize
  else erofsInodeExtendedSize

/-- The header of the inode at `off` lies in the image. -/
def HeaderInside (r : ErofsReader) (off : Nat) : Prop :=
  off + r.headerSizeAt off ≤ r.mmap.bytes.length

/-- A compact header in the last 64 bytes of the image. -/
def CompactAtEnd (r : ErofsReader) (off : Nat) : Prop :=
  r.headerSizeAt off = erofsInodeCompactSize ∧ off + erofsInodeCompactSize ≤ r.mmap.bytes.length ∧
    r.mmap.bytes.length < off + erofsInodeExtendedSize

theorem headerSizeAt_cases (r : ErofsReader) (off : Nat) :
    r.headerSizeAt off = erofsInodeCompactSize ∨ r.headerSizeAt off = erofsInodeExtendedSize :=
  ite_eq_or_eq _ _ _

/-- Bytes for either header are an inode. -/
theorem cast_returns {data : List UInt8} (h : erofsInodeExtendedSize ≤ data.length) :
    ∃ v, ErofsInode.cast data = .ok v := by
  rw [erofsInodeExtendedSize] at h
  unfold ErofsInode.cast
  dsimp only
  rw [if_neg (by omega)]
  split
  · rw [if_neg (by rw [erofsInodeCompactSize]; omega),
      Codec.castRef_ok _ (by rw [ErofsInodeCompact.codec_size, erofsInodeCompactSize]; omega)]
    exact ⟨_, rfl⟩
  · rw [if_neg (by rw [erofsInodeExtendedSize]; omega),
      Codec.castRef_ok _ (by rw [ErofsInodeExtended.codec_size, erofsInodeExtendedSize]; omega)]
    exact ⟨_, rfl⟩

/-- An inode is read exactly where the image holds 64 bytes from its offset on. -/
theorem inode_returns_iff (hoff : r.nidToOffset nid = .ok off) :
    (∃ v, r.inode nid = .ok v) ↔ off + erofsInodeExtendedSize ≤ r.mmap.bytes.length := by
  rw [inode, hoff, bind_ok]
  constructor
  · rintro ⟨v, h⟩
    obtain ⟨data, hdata, -⟩ := bind_eq_ok.mp h
    exact (mmapSlice_eq_ok.mp hdata).1
  · intro h
    rw [mmapSlice_ok h, bind_ok]
    exact cast_returns (Nat.le_of_eq (length_window_of_le h).symm)

/-- **An inode in the image is readable** unless it is a compact one in the last 64 bytes. -/
theorem inode_readable_iff (hoff : r.nidToOffset nid = .ok off) :
    ((∃ v, r.inode nid = .ok v) ↔ r.HeaderInside off) ↔ ¬ r.CompactAtEnd off := by
  rw [inode_returns_iff hoff, HeaderInside, CompactAtEnd, erofsInodeExtendedSize]
  rcases r.headerSizeAt_cases off with h | h
  · rw [h, erofsInodeCompactSize]
    omega
  · rw [h, erofsInodeExtendedSize]
    omega

/-- A compact inode right behind the superblock, and nothing behind it. -/
def compactAtEnd : ErofsReader :=
  imageReader { magic := erofsSuperMagicV1 }
    (ErofsInodeCompact.asBytes (.new 0 0o100644 0 0 0 0 1 0 0)) none (by decide)

theorem inode_readable_iff_compactAtEnd :
    ((∃ v, compactAtEnd.inode 36 = .ok v) ↔ compactAtEnd.HeaderInside 1152) ↔
      ¬ compactAtEnd.CompactAtEnd 1152 :=
  inode_readable_iff (by decide +kernel)

/-- The inode lies in the image and is not read. -/
theorem compactAtEnd_unreadable : ¬ ∀ (mmap : Mmap) (blob : Option Mmap) (r : ErofsReader),
    openImage (.ok mmap) (blob.map .ok) = .ok r → ∀ nid off, r.nidToOffset nid = .ok off →
      off < mmap.bytes.length → ((∃ v, r.inode nid = .ok v) ↔ r.HeaderInside off) := by
  intro h
  have hoff : compactAtEnd.nidToOffset 36 = .ok 1152 := by decide +kernel
  have hread := h _ none _ (openImage_imageReader rfl _) 36 1152 hoff (by decide +kernel)
  have hinside : compactAtEnd.HeaderInside 1152 := by
    unfold HeaderInside
    decide +kernel
  obtain ⟨v, hv⟩ := hread.mpr hinside
  have hlen := (inode_returns_iff hoff).mp ⟨v, hv⟩
  exact absurd hlen (by decide +kernel)

end ErofsReader
end ErofsUtils.Fs
