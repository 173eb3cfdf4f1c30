import ErofsUtils.Fs.Reader

/-! # Images around a superblock

An image is accepted for its length and the magic number alone: any superblock with the
magic number, in its place, makes an image of whatever bytes follow it. -/
namespace ErofsUtils.Fs
open ErofsUtils.Rust ErofsUtils.Bytes ErofsUtils.Metadata

variable {sb : ErofsSuperblock} {tail : List UInt8} {blob : Option Mmap}

/-- The superblock behind 1024 zeros, and the bytes that follow it. -/
def imageBytes (sb : ErofsSuperblock) (tail : List UInt8) : List UInt8 :=
  List.replicate erofsSuperOffset 0 ++ sb.asBytes ++ tail

theorem length_imageBytes (sb : ErofsSuperblock) (tail : List UInt8) :
    (imageBytes sb tail).length = 1152 + tail.length := by
  rw [imageBytes, List.length_append, List.length_append, List.length_replicate,
    ErofsSuperblock.length_asBytes, erofsSuperOffset]

theorem window_imageBytes (sb : ErofsSuperblock) (tail : List UInt8) (off n : Nat) :
    window (imageBytes sb tail) (1152 + off) n = window tail off n := by
  have hfront : (List.replicate erofsSuperOffset 0 ++ sb.asBytes).length = 1152 := by
    rw [List.length_append, List.length_replicate, ErofsSuperblock.length_asBytes, erofsSuperOffset]
  rw [imageBytes, ← hfront, window_append_right]

theorem imageBytes_append (sb : ErofsSuperblock) (a b : List UInt8) :
    imageBytes sb (a ++ b) = imageBytes sb a ++ b := by
  rw [imageBytes, imageBytes, List.append_assoc _ a b]

theorem drop_imageBytes (sb : ErofsSuperblock) (tail : List UInt8) :
    (imageBytes sb tail).drop erofsSuperOffset = sb.asBytes ++ tail := by
  rw [imageBytes, List.append_assoc]
  exact List.drop_left' List.length_replicate

/-- The reader of such an image. -/
def imageReader (sb : ErofsSuperblock) (tail : List UInt8) (blob : Option Mmap)
    (h : tail.length < 2 ^ 62) : ErofsReader where
  mmap := { bytes := imageBytes sb tail, lenLt := by rw [length_imageBytes]; omega }
  blobMmap := blob
  sbOffset := erofsSuperOffset
  sbFits := by rw [length_imageBytes, erofsSuperOffset, erofsSbBaseSize]; omega

theorem imageReader_sb (h : tail.length < 2 ^ 62) : (imageReader sb tail blob h).sb = sb := by
  rw [ErofsReader.sb]
  show ErofsSuperblock.codec.dec ((imageBytes sb tail).drop erofsSuperOffset) = sb
  rw [drop_imageBytes]
  exact ErofsSuperblock.codec.dec_enc_append _ _

/-- The image is accepted for its magic number. -/
theorem openImage_imageReader (hmagic : sb.magic = erofsSuperMagicV1) (h : tail.length < 2 ^ 62) :
    ErofsReader.openImage (.ok (imageReader sb tail blob h).mmap) (blob.map .ok) =
      .ok (imageReader sb tail blob h) :=
  ErofsReader.openImage_eq_ok.mpr ⟨rfl, rfl, rfl, (imageReader_sb h).symm ▸ hmagic⟩

end ErofsUtils.Fs
