import ErofsUtils.Build.BlobChunk
import ErofsUtils.Fs.Reader

/-! # Writing the image

Block 0 holds the superblock and one device slot; the metadata area follows it,
filled up to whole blocks. -/
namespace ErofsUtils.Build
open ErofsUtils.Rust ErofsUtils.Bytes ErofsUtils.Metadata ErofsUtils.Fs

/-- `?` on an I/O result. -/
def liftIo {α : Type} : IoResult α → BuildResult α
  | .ok a => .ok a
  | .error (.fail e) => fail (.io e)
  | .error (.panic p) => abort p

@[simp] theorem liftIo_ok {α : Type} (a : α) : liftIo (.ok a) = .ok a := rfl

theorem liftIo_eq_ok {α : Type} {x : IoResult α} {a : α} : liftIo x = .ok a ↔ x = .ok a := by
  unfold liftIo
  split <;> simp

def imageSuperblock (metadataBuf : List UInt8) (rootNid : UInt16) (totalInodes epoch : UInt64)
    (uuid : Vector UInt8 16) : ErofsSuperblock :=
  let metaBlkaddr : UInt32 := 1
  let metaBlocks := divCeil metadataBuf.length erofsBlockSize
  let totalBlocks := 1 + metaBlocks
  let featureCompat := erofsFeatureCompatMtime
  let featureIncompat := erofsFeatureIncompatChunkedFile ||| erofsFeatureIncompatDeviceTable
  let devtSlotoff :=
    UInt16.ofNat (erofsSuperOffset + erofsSbBaseSize) / UInt16.ofNat erofsDeviceslotSize
  .new featureCompat featureIncompat rootNid totalInodes epoch totalBlocks metaBlkaddr 1
    devtSlotoff uuid

def writeBlock0 (sb : ErofsSuperblock) (devslot : ErofsDeviceSlot) : BuildResult (List UInt8) := do
  let block0 := List.replicate erofsBlockSize 0
  let sbOffset := erofsSuperOffset
  let block0 ← copyAt block0 sbOffset sb.asBytes
  let devslotOffset := sbOffset + erofsSbBaseSize
  copyAt block0 devslotOffset devslot.asBytes

def writeImage (image : Device) (metadataBuf : List UInt8) (rootNid : UInt16)
    (totalInodes epoch : UInt64) (blobBlocks : Nat) (uuid : Vector UInt8 16) :
    BuildResult Device := do
  let sb := imageSuperblock metadataBuf rootNid totalInodes epoch uuid
  let block0 ← writeBlock0 sb (.new blobBlocks)
  let image ← liftIo (image.writeAll block0)
  let image ← liftIo (image.writeAll metadataBuf)
  let remainder := metadataBuf.length % erofsBlockSize
  if remainder ≠ 0 then
    liftIo (image.writeAll (List.replicate (erofsBlockSize - remainder) 0))
  else pure image

/-! ## The bytes of an image -/

def block0Bytes (sb : ErofsSuperblock) (devslot : ErofsDeviceSlot) : List UInt8 :=
  List.replicate 1024 0 ++ sb.asBytes ++ (devslot.asBytes ++ List.replicate 2816 0)

@[simp] theorem length_block0Bytes (sb : ErofsSuperblock) (devslot : ErofsDeviceSlot) :
    (block0Bytes sb devslot).length = 4096 := by
  simp only [block0Bytes, List.length_append, List.length_replicate,
    ErofsSuperblock.length_asBytes, ErofsDeviceSlot.length_asBytes]

theorem writeBlock0_ok (sb : ErofsSuperblock) (devslot : ErofsDeviceSlot) :
    writeBlock0 sb devslot = .ok (block0Bytes sb devslot) := by
  have hzeros : List.replicate erofsBlockSize (0 : UInt8) =
      List.replicate 1024 0 ++ List.replicate 128 0 ++ List.replicate 2944 0 := by
    simp only [List.replicate_append_replicate, erofsBlockSize]
  have hrest : List.replicate 2944 (0 : UInt8) = List.replicate 128 0 ++ List.replicate 2816 0 := by
    simp only [List.replicate_append_replicate]
  have hsb : (copyAt (List.replicate erofsBlockSize 0) erofsSuperOffset sb.asBytes :
      BuildResult _) = .ok (List.replicate 1024 0 ++ sb.asBytes ++ List.replicate 2944 0) := by
    rw [hzeros]
    exact copyAt_middle List.length_replicate.symm
      (by rw [ErofsSuperblock.length_asBytes, List.length_replicate])
  have hslot : (copyAt (List.replicate 1024 0 ++ sb.asBytes ++ List.replicate 2944 0)
      (erofsSuperOffset + erofsSbBaseSize) devslot.asBytes : BuildResult _) =
      .ok (List.replicate 1024 0 ++ sb.asBytes ++ devslot.asBytes ++ List.replicate 2816 0) := by
    rw [hrest, ← List.append_assoc]
    exact copyAt_middle
      (by rw [List.length_append, List.length_replicate, ErofsSuperblock.length_asBytes]; rfl)
      (by rw [ErofsDeviceSlot.length_asBytes, List.length_replicate])
  rw [writeBlock0, hsb, bind_ok, block0Bytes, ← List.append_assoc]
  exact hslot

/-- The zeros behind the metadata, up to the next block. -/
theorem length_padded (n : Nat) :
    n + (if n % 4096 ≠ 0 then 4096 - n % 4096 else 0) = divCeil n 4096 * 4096 := by
  rw [divCeil]
  split <;> omega

/-- Block 0 and the metadata, and what fills the last block. -/
theorem writeImage_eq_ok {image out : Device} {metadataBuf : List UInt8} {rootNid : UInt16}
    {totalInodes epoch : UInt64} {blobBlocks : Nat} {uuid : Vector UInt8 16}
    (h : writeImage image metadataBuf rootNid totalInodes epoch blobBlocks uuid = .ok out) :
    ∃ pad, metadataBuf.length + pad = divCeil metadataBuf.length 4096 * 4096 ∧
      out.bytes = image.bytes ++
        block0Bytes (imageSuperblock metadataBuf rootNid totalInodes epoch uuid) (.new blobBlocks) ++
        metadataBuf ++ List.replicate pad 0 := by
  refine ⟨_, length_padded metadataBuf.length, ?_⟩
  rw [writeImage, writeBlock0_ok, bind_ok] at h
  simp only [bind_eq_ok, liftIo_eq_ok] at h
  obtain ⟨d₁, h₁, d₂, h₂, h⟩ := h
  have hb := BlobWriter.writeAll_eq_ok h₂
  rw [BlobWriter.writeAll_eq_ok h₁] at hb
  rw [erofsBlockSize] at h
  split at h
  · rename_i hr
    rw [BlobWriter.writeAll_eq_ok (liftIo_eq_ok.mp h), hb, if_pos hr]
  · rename_i hr
    cases h
    rw [hb, if_neg hr, List.replicate_zero, List.append_nil]

/-- A device with room for two more blocks than the metadata takes the image. -/
theorem writeImage_ok (image : Device) {metadataBuf : List UInt8}
    (h : metadataBuf.length + 8192 ≤ image.room) (rootNid : UInt16) (totalInodes epoch : UInt64)
    (blobBlocks : Nat) (uuid : Vector UInt8 16) :
    ∃ out, writeImage image metadataBuf rootNid totalInodes epoch blobBlocks uuid = .ok out ∧
      out.bytes.length ≤ image.bytes.length + image.room := by
  rw [writeImage, writeBlock0_ok, bind_ok, BlobWriter.writeAll_ok (by rw [length_block0Bytes]; omega),
    liftIo_ok, bind_ok, BlobWriter.writeAll_ok (by rw [length_block0Bytes]; dsimp only; omega), liftIo_ok,
    bind_ok]
  dsimp only
  split
  · rw [BlobWriter.writeAll_ok
      (by rw [length_block0Bytes, List.length_replicate, erofsBlockSize]; dsimp only; omega)]
    refine ⟨_, rfl, ?_⟩
    simp only [List.length_append, length_block0Bytes, List.length_replicate, erofsBlockSize]
    omega
  · refine ⟨_, rfl, ?_⟩
    simp only [List.length_append, length_block0Bytes]
    omega

/-! ## Opening a written image -/

/-- A reader of an image with this metadata area. -/
structure Opened (r : ErofsReader) (metadataBuf : List UInt8) (rootNid : UInt16)
    (epoch : UInt64) : Prop where
  fits : 4096 + metadataBuf.length ≤ r.mmap.bytes.length
  blkszbits : r.sb.blkszbits = erofsBlkszbits
  metaBlkaddr : r.sb.metaBlkaddr = 1
  rootNid : r.sb.rootNid = rootNid.toNat
  epoch : r.sb.epoch = epoch
  area : window r.mmap.bytes 4096 metadataBuf.length = metadataBuf

theorem superblockFrom_block0 (sb : ErofsSuperblock) (devslot : ErofsDeviceSlot)
    (rest : List UInt8) :
    ErofsReader.superblockFrom (block0Bytes sb devslot ++ rest) erofsSuperOffset = .ok sb := by
  have hlen : ¬ (block0Bytes sb devslot ++ rest).length < erofsSuperOffset + erofsSbBaseSize := by
    rw [List.length_append, length_block0Bytes, erofsSuperOffset, erofsSbBaseSize]
    omega
  have hdrop : (block0Bytes sb devslot ++ rest).drop erofsSuperOffset =
      sb.asBytes ++ (devslot.asBytes ++ List.replicate 2816 0 ++ rest) := by
    rw [block0Bytes, List.append_assoc, List.append_assoc]
    exact List.drop_left' List.length_replicate
  unfold ErofsReader.superblockFrom
  dsimp only
  rw [if_neg hlen, hdrop]
  exact ErofsSuperblock.codec.castRef_enc_append _ _

/-- What a written file holds, and the superblock that a reader of it finds. -/
theorem writeImage_bytes {image out : Device} {metadataBuf : List UInt8} {rootNid : UInt16}
    {totalInodes epoch : UInt64} {blobBlocks : Nat} {uuid : Vector UInt8 16}
    (hw : writeImage image metadataBuf rootNid totalInodes epoch blobBlocks uuid = .ok out)
    (himage : image.bytes = []) :
    out.bytes.length = (1 + divCeil metadataBuf.length 4096) * 4096 ∧
      window out.bytes 4096 metadataBuf.length = metadataBuf ∧
      ErofsReader.superblockFrom out.bytes erofsSuperOffset =
        .ok (imageSuperblock metadataBuf rootNid totalInodes epoch uuid) := by
  obtain ⟨pad, hpad, hout⟩ := writeImage_eq_ok hw
  rw [himage, List.nil_append] at hout
  refine ⟨?_, ?_, ?_⟩
  · have hlen := congrArg List.length hout
    rw [List.length_append, List.length_append, length_block0Bytes, List.length_replicate] at hlen
    omega
  · have hmid := window_middle
      (block0Bytes (imageSuperblock metadataBuf rootNid totalInodes epoch uuid) (.new blobBlocks))
      metadataBuf (List.replicate pad 0)
    rwa [length_block0Bytes, ← hout] at hmid
  · rw [hout, List.append_assoc]
    exact superblockFrom_block0 _ _ _

/-- **A written image opens**, and the reader finds the superblock and the metadata
area where the writer put them. -/
theorem openImage_writeImage {image out : Device} {metadataBuf : List UInt8} {rootNid : UInt16}
    {totalInodes epoch : UInt64} {blobBlocks : Nat} {uuid : Vector UInt8 16} {file : Mmap}
    (hw : writeImage image metadataBuf rootNid totalInodes epoch blobBlocks uuid = .ok out)
    (himage : image.bytes = []) (hfile : file.bytes = out.bytes) (blob : Option Mmap) :
    ∃ r, ErofsReader.openImage (.ok file) (blob.map .ok) = .ok r ∧ r.mmap = file ∧
      r.blobMmap = blob ∧ r.sb = imageSuperblock metadataBuf rootNid totalInodes epoch uuid ∧
      Opened r metadataBuf rootNid epoch := by
  obtain ⟨hlen, harea, hsup⟩ := writeImage_bytes hw himage
  rw [← hfile] at hlen harea hsup
  have hfit := ErofsReader.superblockFrom_fits hsup
  have hsb : ErofsReader.sb ⟨file, blob, erofsSuperOffset, hfit⟩ =
      imageSuperblock metadataBuf rootNid totalInodes epoch uuid := by
    rw [ErofsReader.superblockFrom_ok hfit] at hsup
    exact Except.ok.inj hsup
  have hle : metadataBuf.length ≤ divCeil metadataBuf.length 4096 * 4096 := by
    rw [← length_padded]
    exact Nat.le_add_right _ _
  refine ⟨⟨file, blob, erofsSuperOffset, hfit⟩, ?_, rfl, rfl, hsb, ?_⟩
  · exact ErofsReader.openImage_eq_ok.mpr ⟨rfl, rfl, rfl, by rw [hsb]; rfl⟩
  · exact ⟨by dsimp only; omega, by rw [hsb]; rfl, by rw [hsb]; rfl, by rw [hsb]; rfl,
      by rw [hsb]; rfl, harea⟩

/-- Some reader has any metadata area of a usual size opened. -/
theorem exists_opened (buf : List UInt8) (h : buf.length < 2 ^ 60) (rootNid : UInt16)
    (epoch : UInt64) (blob : Option Mmap) : ∃ r, r.blobMmap = blob ∧ Opened r buf rootNid epoch := by
  obtain ⟨out, hout, hle⟩ := writeImage_ok ⟨[], buf.length + 8192⟩ (Nat.le_refl _) rootNid 0 epoch 0
    (Vector.replicate 16 0)
  have hlt : out.bytes.length < 2 ^ 63 := by
    simp only [List.length_nil] at hle
    omega
  obtain ⟨r, -, -, hblob, -, hopened⟩ := openImage_writeImage hout rfl
    (show (⟨out.bytes, hlt⟩ : Mmap).bytes = out.bytes from rfl) blob
  exact ⟨r, hblob, hopened⟩

theorem Opened.slotOffset {r : ErofsReader} {buf : List UInt8} {rootNid : UInt16} {epoch : UInt64}
    (h : Opened r buf rootNid epoch) (nid : Nat) : r.slotOffset nid = 4096 + nid * 32 := by
  rw [ErofsReader.slotOffset, h.metaBlkaddr]
  rfl

/-- What stands at a slot of the metadata area stands at that slot of the image. -/
theorem Opened.standsAt {r : ErofsReader} {buf bytes : List UInt8} {rootNid : UInt16}
    {epoch : UInt64} (h : Opened r buf rootNid epoch) {nid : Nat}
    (hw : window buf (nid * 32) bytes.length = bytes) (hne : bytes ≠ []) : r.StandsAt nid bytes := by
  have hle := le_of_window_eq hw hne
  rw [ErofsReader.StandsAt, h.slotOffset, ← window_window hle, h.area, hw]

end ErofsUtils.Build
