import ErofsUtils.Metadata.Inode
import ErofsUtils.Metadata.Records

/-! # The image reader

The image and the optional blob device are mapped files. A mapping is never longer
than `isize::MAX`, and a reader exists only over an image that holds a superblock. -/
namespace ErofsUtils.Fs
open ErofsUtils.Rust ErofsUtils.Bytes ErofsUtils.Metadata

structure Mmap where
  bytes : List UInt8
  lenLt : bytes.length < 2 ^ 63

structure ErofsReader where
  mmap : Mmap
  blobMmap : Option Mmap
  sbOffset : Nat
  sbFits : sbOffset + erofsSbBaseSize ≤ mmap.bytes.length

namespace ErofsReader

def superblockFrom (mmap : List UInt8) (sbOffset : Nat) : IoResult ErofsSuperblock :=
  let stop := sbOffset + erofsSbBaseSize
  if mmap.length < stop then ioError .unexpectedEof "image too small for superblock"
  else ErofsSuperblock.codec.castRef (mmap.drop sbOffset)

theorem superblockFrom_fits {mmap : List UInt8} {sbOffset : Nat} {sb : ErofsSuperblock}
    (h : superblockFrom mmap sbOffset = .ok sb) : sbOffset + erofsSbBaseSize ≤ mmap.length := by
  unfold superblockFrom at h
  dsimp only at h
  split at h
  · cases h
  · omega

/-- `{:08X}`. -/
def hex8 (v : UInt32) : String :=
  let digits := (Nat.toDigits 16 v.toNat).map Char.toUpper
  String.ofList (List.replicate (8 - digits.length) '0' ++ digits)

/-- `ErofsReader::open` on the mapped files. -/
def openImage (image : IoResult Mmap) (blob : Option (IoResult Mmap)) : IoResult ErofsReader := do
  let mmap ← image
  match hsb : superblockFrom mmap.bytes erofsSuperOffset with
  | .error e => .error e
  | .ok sb =>
    if sb.magic ≠ erofsSuperMagicV1 then
      ioError .invalidData ("bad EROFS magic: 0x" ++ hex8 sb.magic)
    else do
      let blobMmap ← match blob with
        | some b => some <$> b
        | none => pure none
      pure { mmap, blobMmap, sbOffset := erofsSuperOffset, sbFits := superblockFrom_fits hsb }

/-- The superblock; `sbFits` is what the slice and the length assertion ask for. -/
def sb (r : ErofsReader) : ErofsSuperblock :=
  ErofsSuperblock.codec.dec (r.mmap.bytes.drop r.sbOffset)

theorem superblockFrom_ok {mmap : List UInt8} {sbOffset : Nat}
    (h : sbOffset + erofsSbBaseSize ≤ mmap.length) :
    superblockFrom mmap sbOffset = .ok (ErofsSuperblock.codec.dec (mmap.drop sbOffset)) := by
  unfold superblockFrom
  dsimp only
  rw [if_neg (by omega), Codec.castRef_ok _
    (by rw [List.length_drop, ErofsSuperblock.codec_size]; omega)]

/-- An image is accepted for its length and the magic number alone. -/
theorem openImage_eq_ok {mmap : Mmap} {blob : Option Mmap} {r : ErofsReader} :
    openImage (.ok mmap) (blob.map .ok) = .ok r ↔ r.mmap = mmap ∧ r.blobMmap = blob ∧
      r.sbOffset = erofsSuperOffset ∧ r.sb.magic = erofsSuperMagicV1 := by
  unfold openImage
  rw [bind_ok]
  split
  · rename_i he
    simp only [reduceCtorEq, false_iff]
    rintro ⟨rfl, -, hoff, -⟩
    rw [superblockFrom_ok (hoff ▸ r.sbFits)] at he
    cases he
  · rename_i sb hsb
    have hfits := superblockFrom_fits hsb
    rw [superblockFrom_ok hfits, Except.ok.injEq] at hsb
    constructor
    · intro h
      split at h
      · cases h
      · rename_i hmagic
        have hr : r = { mmap, blobMmap := blob, sbOffset := erofsSuperOffset, sbFits := hfits } := by
          cases blob <;> cases h <;> rfl
        subst hr
        refine ⟨rfl, rfl, rfl, ?_⟩
        rw [ErofsReader.sb, hsb]
        exact not_not.mp hmagic
    · rintro ⟨rfl, rfl, hoff, hmagic⟩
      rw [ErofsReader.sb, hoff, hsb] at hmagic
      rw [if_neg (not_not.mpr hmagic)]
      obtain ⟨m, blob, o, hf⟩ := r
      subst hoff
      cases blob <;> rfl

def mmapSlice (r : ErofsReader) (offset len : Nat) : IoResult (List UInt8) :=
  let stop := offset + len
  let mmapLen := r.mmap.bytes.length
  if 2 ^ 64 ≤ stop then ioError .invalidInput "offset + len overflow"
  else if mmapLen < stop then
    ioError .unexpectedEof
      s!"mmap read out of bounds: offset={offset}, len={len}, mmap_len={mmapLen}"
  else slice r.mmap.bytes offset stop

def blobMmapSlice (r : ErofsReader) (offset len : Nat) : IoResult (List UInt8) :=
  match r.blobMmap with
  | none => ioError .notFound "blob device not available"
  | some blob =>
    let stop := offset + len
    let blobLen := blob.bytes.length
    if 2 ^ 64 ≤ stop then ioError .invalidInput "blob offset + len overflow"
    else if blobLen < stop then
      ioError .unexpectedEof
        s!"blob mmap read out of bounds: offset={offset}, len={len}, blob_len={blobLen}"
    else slice blob.bytes offset stop

def nidToOffset (r : ErofsReader) (nid : Nat) : IoResult Nat := do
  let base ← checkedMul 64 r.sb.metaBlkaddr.toNat erofsBlockSize
  let off ← checkedMul 64 nid erofsSlotsize
  checkedAdd 64 base off

/-! ## Slices of the mapped files -/

variable {r : ErofsReader} {offset len nid : Nat} {l : List UInt8}

/-- A slice of the image succeeds exactly inside it. -/
theorem mmapSlice_eq_ok : r.mmapSlice offset len = .ok l ↔
    offset + len ≤ r.mmap.bytes.length ∧ window r.mmap.bytes offset len = l := by
  have hlt := r.mmap.lenLt
  unfold mmapSlice
  dsimp only
  split
  · simp; omega
  · split
    · simp; omega
    · rw [slice_ok (by omega) (by omega)]
      simp; omega

theorem mmapSlice_ok (h : offset + len ≤ r.mmap.bytes.length) :
    r.mmapSlice offset len = .ok (window r.mmap.bytes offset len) := mmapSlice_eq_ok.mpr ⟨h, rfl⟩

theorem blobMmapSlice_eq_ok : r.blobMmapSlice offset len = .ok l ↔
    ∃ blob, r.blobMmap = some blob ∧ offset + len ≤ blob.bytes.length ∧
      window blob.bytes offset len = l := by
  unfold blobMmapSlice
  cases r.blobMmap with
  | none => simp
  | some blob =>
    have hlt := blob.lenLt
    dsimp only
    split
    · simp; omega
    · split
      · simp; omega
      · rw [slice_ok (by omega) (by omega)]
        simp; omega

theorem mmapSlice_noPanic (r : ErofsReader) (offset len : Nat) :
    NoPanic (r.mmapSlice offset len) := by
  unfold mmapSlice
  dsimp only
  split
  · exact noPanic_ioError _ _
  · split
    · exact noPanic_ioError _ _
    · rw [slice_ok (by omega) (by omega)]
      exact noPanic_ok _

theorem blobMmapSlice_noPanic (r : ErofsReader) (offset len : Nat) :
    NoPanic (r.blobMmapSlice offset len) := by
  unfold blobMmapSlice
  cases r.blobMmap with
  | none => exact noPanic_ioError _ _
  | some blob =>
    dsimp only
    split
    · exact noPanic_ioError _ _
    · split
      · exact noPanic_ioError _ _
      · rw [slice_ok (by omega) (by omega)]
        exact noPanic_ok _

/-- Where the slot of `nid` starts in the image. -/
def slotOffset (r : ErofsReader) (nid : Nat) : Nat :=
  r.sb.metaBlkaddr.toNat * erofsBlockSize + nid * erofsSlotsize

theorem nidToOffset_ok (h : r.slotOffset nid < 2 ^ 64) :
    r.nidToOffset nid = .ok (r.slotOffset nid) := by
  unfold slotOffset at *
  unfold nidToOffset
  rw [checkedMul_ok (by omega), bind_ok, checkedMul_ok (by omega), bind_ok, checkedAdd_ok h]

theorem nidToOffset_eq_ok : r.nidToOffset nid = .ok offset ↔
    r.slotOffset nid < 2 ^ 64 ∧ r.slotOffset nid = offset := by
  constructor
  · intro h
    simp only [nidToOffset, bind_eq_ok, checkedMul_eq_ok, checkedAdd_eq_ok] at h
    obtain ⟨_, ⟨-, rfl⟩, _, ⟨-, rfl⟩, h⟩ := h
    exact h
  · rintro ⟨h, rfl⟩
    exact nidToOffset_ok h

theorem nidToOffset_noPanic : NoPanic (r.nidToOffset nid) ↔ r.slotOffset nid < 2 ^ 64 := by
  constructor
  · intro h
    simp only [nidToOffset, noPanic_bind, noPanic_checkedMul, checkedMul_eq_ok,
      noPanic_checkedAdd] at h
    exact (h.2 _ ⟨h.1, rfl⟩).2 _ ⟨(h.2 _ ⟨h.1, rfl⟩).1, rfl⟩
  · intro h
    rw [nidToOffset_ok h]
    exact noPanic_ok _

/-- The bytes stand at the slot of `nid`. -/
def StandsAt (r : ErofsReader) (nid : Nat) (bytes : List UInt8) : Prop :=
  window r.mmap.bytes (r.slotOffset nid) bytes.length = bytes

theorem StandsAt.le {bytes : List UInt8} (h : r.StandsAt nid bytes) (hne : bytes ≠ []) :
    r.slotOffset nid + bytes.length ≤ r.mmap.bytes.length := le_of_window_eq h hne

theorem StandsAt.nidToOffset {bytes : List UInt8} (h : r.StandsAt nid bytes) (hne : bytes ≠ []) :
    r.nidToOffset nid = .ok (r.slotOffset nid) := by
  have := h.le hne
  have := r.mmap.lenLt
  exact nidToOffset_ok (by omega)

/-- What stands behind the front part of the bytes at a slot. -/
theorem StandsAt.mmapSlice {a b c : List UInt8} (h : r.StandsAt nid (a ++ b ++ c))
    (hne : a ++ b ++ c ≠ []) : r.mmapSlice (r.slotOffset nid + a.length) b.length = .ok b := by
  have hle := h.le hne
  have hb := (window_of_append (window_of_append h).1).2
  simp only [List.length_append] at hle
  exact mmapSlice_eq_ok.mpr ⟨by omega, hb⟩

end ErofsReader
end ErofsUtils.Fs
