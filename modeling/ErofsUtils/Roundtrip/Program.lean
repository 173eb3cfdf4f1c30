import ErofsUtils.Build.Size
import ErofsUtils.Roundtrip.Mirror

/-! # What the program leaves can be mounted

A run of the program on a source within the limits of an image gets as far as the image file,
and reports whether all of the image went there. If it did, every reader of the image and the
blob answers for the source. -/
namespace ErofsUtils.Roundtrip
open ErofsUtils.Rust ErofsUtils.Bytes ErofsUtils.Metadata ErofsUtils.Build ErofsUtils.Fs
open ErofsUtils.Store

/-- The calls of a run answer, and its source is one that an image can hold. -/
structure Served (hash : List UInt8 → Digest) (calls : MkfsCalls) (blob image : Device) :
    Prop where
  chunksize : ∃ bits, 12 ≤ bits ∧ calls.chunksize.toNat = 2 ^ bits
  sourceIsDir : calls.sourceIsDir = true
  sinceEpoch : ∃ seconds, calls.sinceEpoch = some seconds ∧ seconds.toNat < 2 ^ 63
  blobdev : calls.blobdev = .ok blob ∧ blob.bytes = []
  created : calls.image = .ok image ∧ image.bytes = []
  dir : calls.source.isDir = true
  snapshot : Snapshot calls.source
  fits : FitsImage calls.source
  digests : TreeDigestsDiffer hash calls.chunksize.toNat calls.source
  count : calls.source.total (fun _ => 1) < 2 ^ 32
  room : calls.source.total (Source.space calls.chunksize.toNat) ≤ blob.room
  space : calls.source.total (Source.space calls.chunksize.toNat) < 2 ^ 64

variable {hash : List UInt8 → Digest} {calls : MkfsCalls} {blob image : Device} {prep : Prepared}
  {w₀ : BlobWriter} {layout : MetadataLayout}

section
variable (h : Served hash calls blob image)
include h

/-- A run gets everything ready, and the root has the first slot. -/
theorem Served.prepare : ∃ prep w₀ layout os, Build.prepare hash calls = .ok prep ∧
    Ready hash calls prep w₀ layout ∧ Built hash w₀ calls.source os prep.inodes prep.blobWriter ∧
      LaidOut prep.inodes prep.placed prep.metadataBuf prep.epoch prep.chunkbits ∧
      prep.rootNid = 0 := by
  obtain ⟨bits, hbits, hsize⟩ := h.chunksize
  obtain ⟨seconds, hclock, -⟩ := h.sinceEpoch
  have hvalid : validateChunksize calls.chunksize = .ok bits :=
    validateChunksize_eq_ok.mpr ⟨hbits, hsize⟩
  obtain ⟨w₀, hnew⟩ : ∃ w₀, BlobWriter.new calls.blobdev calls.blobdevPath
      calls.chunksize.toNat = .ok w₀ := by
    rw [h.blobdev.1]
    exact ⟨_, rfl⟩
  have hw₀ : w₀ = { file := blob, chunksize := calls.chunksize.toNat, nextBlkaddr := 0
                    dedup := fun _ => none, savedByDedup := 0 } := by
    rw [h.blobdev.1] at hnew
    exact (Except.ok.inj hnew).symm
  have hspace := h.space
  obtain ⟨inodes, w, htree⟩ := buildTree_returns hash (w := w₀) (fun p node hocc =>
    (h.fits p node hocc).answers) h.count (by rw [hw₀, hsize]; exact Nat.two_pow_pos bits)
    (by rw [hw₀]; exact ⟨h.room, by dsimp only; omega, by dsimp only; omega⟩)
  obtain ⟨os, hcomplete, hfed⟩ := buildTree_fed htree h.dir
  have hbuilt : Built hash w₀ calls.source os inodes w :=
    ⟨h.dir, h.snapshot, h.fits, hcomplete, hfed⟩
  have hshape := hbuilt.treeShape
  obtain ⟨root, hroot, hdir⟩ := hshape.root
  obtain ⟨placed, layout, hlay, hlaid⟩ := layOut_ok hroot hdir hshape.entriesIn hshape.namesFit
    hbits seconds
  obtain ⟨p, hp, -⟩ := kept_getElem? hlaid.kept.symm hroot
  have hnid : p.nid = 0 := (nidAt_eq hp).symm.trans hlaid.rootNid
  have hrun : Build.prepare hash calls = .ok
      { chunkbits := bits, epoch := seconds, inodes, placed, metadataBuf := layout.buf
        rootNid := 0, blobWriter := w } := by
    rw [Build.prepare, hvalid, bind_ok, if_neg (not_not.mpr h.sourceIsDir), hclock]
    simp only [pure_eq_ok, bind_ok, hnew, htree, hlay, liftIo_ok, getAt_eq_ok.mpr hp, hnid]
    rfl
  exact ⟨_, w₀, layout, os, hrun, ⟨hvalid, h.sourceIsDir, hclock, hnew, htree, hlay, rfl, p, hp,
    by rw [hnid]; decide, by rw [hnid]; rfl⟩, hbuilt, hlaid, rfl⟩

/-- Every reader of the image and of the blob answers for the source. -/
theorem Served.mounts {os : List (List Nat × Source)} (hready : Ready hash calls prep w₀ layout)
    (hbuilt : Built hash w₀ calls.source os prep.inodes prep.blobWriter)
    (hlaid : LaidOut prep.inodes prep.placed prep.metadataBuf prep.epoch prep.chunkbits)
    (hroot : prep.rootNid = 0) {imageFile blobFile : Mmap}
    (himage : imageFile.bytes = prep.imageBytes calls.uuid)
    (hblob : blobFile.bytes = prep.blobWriter.file.bytes)
    (hle : imageFile.bytes.length ≤ 2 ^ 60) (hlt : blobFile.bytes.length + 4096 < 2 ^ 60) :
    ∃ r, ErofsReader.openImage (.ok imageFile) (some (.ok blobFile)) = .ok r ∧
      r.sb = imageSuperblock prep.metadataBuf prep.rootNid (UInt64.ofNat prep.inodes.length)
        prep.epoch calls.uuid ∧
      ∃ number, Mirrors calls.source prep.epoch ⟨r⟩ number := by
  obtain ⟨full, hfull, hbytes⟩ := hready.writeImage calls.uuid
  obtain ⟨r, hr, -, hdevice, hsb, hopened⟩ := openImage_writeImage hfull rfl
    (himage.trans hbytes.symm) (some blobFile)
  rw [hroot] at hopened
  obtain ⟨hbits, hsize⟩ := validateChunksize_eq_ok.mp hready.chunksize
  obtain ⟨seconds, hclock, hseconds⟩ := h.sinceEpoch
  obtain ⟨hfresh, hw₀⟩ : BlobWriter.Holds hash w₀ [] ∧ w₀.chunksize = calls.chunksize.toNat :=
    BlobWriter.holds_new h.blobdev.2 (h.blobdev.1 ▸ hready.blobdev)
  have hmounted : Mounted hash w₀ calls.source os prep.inodes prep.placed prep.metadataBuf
      prep.epoch prep.chunkbits prep.blobWriter r := by
    constructor
    · exact hbuilt
    · refine ⟨hbuilt.treeShape, hlaid, hopened, ?_, ?_⟩
      · have hlen := congrArg List.length himage
        rw [Prepared.imageBytes, List.length_append, length_block0Bytes] at hlen
        omega
      · rw [hready.epoch] at hclock
        cases hclock
        exact hseconds
    · exact hfresh
    · exact hw₀.trans hsize
    · refine ⟨hbits, ?_⟩
      by_contra hlarge
      have := Nat.pow_le_pow_right (show 0 < 2 by decide) (show 32 ≤ prep.chunkbits by omega)
      have := calls.chunksize.toNat_lt
      omega
    · exact hsize ▸ h.digests
    · obtain ⟨hstored, -⟩ := hbuilt.fed.stored hfresh hw₀ (hsize ▸ Nat.two_pow_pos _)
        (hbuilt.complete.digestsDiffer h.digests)
      have hlen := length_of_holds hstored
      rw [← hblob, erofsBlockSize] at hlen
      omega
    · exact ⟨blobFile, hdevice, hblob⟩
  exact ⟨r, hr, hsb, hmounted.mirrors⟩

/-- A run on a directory succeeds exactly when the image file has room for all of the image. -/
theorem Served.reports (hprep : Build.prepare hash calls = .ok prep)
    (hready : Ready hash calls prep w₀ layout) : ∃ out, (Mkfs.main hash calls).2 = some out ∧
      ((Mkfs.main hash calls).1 = .ok () ↔ (prep.imageBytes calls.uuid).length ≤ image.room) ∧
      ((Mkfs.main hash calls).1 = .ok () → out.bytes = prep.imageBytes calls.uuid) := by
  obtain ⟨out, hout, -, hall, hiff⟩ := hready.reports hprep h.created.1 h.created.2
  have htwo := hready.wholeBlocks.2.2 h.dir
  have hok : (Mkfs.main hash calls).1 = .ok () ↔
      (prep.imageBytes calls.uuid).length ≤ image.room := by
    rw [hiff]
    exact or_iff_right (by omega)
  exact ⟨out, hout, hok, fun hrun => hall.mpr (hok.mp hrun)⟩

/-- **The program.** Its run on a source that an image can hold succeeds exactly when the image
file has room for the whole image. Every reader of that image and of the blob then answers for
the source, as long as their addresses can name all their blocks. -/
theorem Served.main : ∃ prep out,
    Build.prepare hash calls = .ok prep ∧ (Mkfs.main hash calls).2 = some out ∧
      ((Mkfs.main hash calls).1 = .ok () ↔ (prep.imageBytes calls.uuid).length ≤ image.room) ∧
      ((Mkfs.main hash calls).1 = .ok () → ∀ imageFile blobFile : Mmap,
        imageFile.bytes = out.bytes → blobFile.bytes = prep.blobWriter.file.bytes →
        imageFile.bytes.length ≤ 2 ^ 60 → blobFile.bytes.length + 4096 < 2 ^ 60 →
        ∃ r, ErofsReader.openImage (.ok imageFile) (some (.ok blobFile)) = .ok r ∧
          ∃ number, Mirrors calls.source prep.epoch ⟨r⟩ number) := by
  obtain ⟨prep, w₀, layout, os, hprep, hready, hbuilt, hlaid, hroot⟩ := h.prepare
  obtain ⟨out, hout, hok, hall⟩ := h.reports hprep hready
  refine ⟨prep, out, hprep, hout, hok, ?_⟩
  intro hrun imageFile blobFile himage hblob hle hlt
  obtain ⟨r, hr, -, hmirrors⟩ := h.mounts hready hbuilt hlaid hroot (himage.trans (hall hrun)) hblob
    hle hlt
  exact ⟨r, hr, hmirrors⟩

end

/-- A run on the tree of `helloTree`. -/
def helloCalls : MkfsCalls where
  chunksize := 4096
  sourceIsDir := true
  sinceEpoch := some 1700000000
  blobdevPath := "blob"
  blobdev := .ok ⟨[], 8192⟩
  source := helloTree
  uuid := Vector.replicate 16 0
  imagePath := "image"
  image := .ok ⟨[], 16384⟩

theorem fits_helloTree : FitsImage helloTree := by
  have hplain : ∀ node : Source, node.xattrs = some [] ∨ node.xattrs = none →
      readXattrsFromPath node.xattrs = [] := by
    rintro node (h | h) <;> rw [h] <;> rfl
  intro p node hocc
  have hanswers := answers_helloTree p node hocc
  rcases occurs_helloTree hocc with rfl | rfl | ⟨path, rfl⟩
  · have hnone := hplain helloTree (.inl rfl)
    refine ⟨hanswers, ?_, ?_, by rw [hnone]; nofun, by rw [hnone]; decide, fun _ => ?_⟩
    · intro stat hs
      cases hs
      exact ⟨by decide, by decide, by decide⟩
    · intro stat target hs hlink
      cases hs
      exact absurd hlink (by decide)
    · refine .of_few ⟨by decide, by decide⟩ ?_ (by decide)
      intro e he
      have hone : e.1 = [97] ∨ e.1 = [98] ∨ e.1 = [108] := by
        revert e
        decide
      rcases hone with h | h | h <;> rw [h]
      · exact ⟨[97], by simp [Text.IsScalar], rfl⟩
      · exact ⟨[98], by simp [Text.IsScalar], rfl⟩
      · exact ⟨[108], by simp [Text.IsScalar], rfl⟩
  · have hnone := hplain helloLink (.inr rfl)
    refine ⟨hanswers, ?_, ?_, by rw [hnone]; nofun, by rw [hnone]; decide, fun hdir => ?_⟩
    · intro stat hs
      cases hs
      exact ⟨by decide, by decide, by decide⟩
    · intro stat target hs _ ht
      cases ht
      decide
    · exact absurd hdir (by decide)
  · have hnone := hplain (helloFile path) (.inl rfl)
    refine ⟨hanswers, ?_, ?_, by rw [hnone]; nofun, by rw [hnone]; decide, fun hdir => ?_⟩
    · intro stat hs
      cases hs
      exact ⟨by decide, by decide, by decide⟩
    · intro stat target hs hlink
      cases hs
      exact absurd hlink (by decide)
    · exact absurd hdir (show ¬ ((0o100644 : UInt32) &&& 0o170000 == 0o040000) = true by decide)

theorem served_helloTree : Served helloHash helloCalls ⟨[], 8192⟩ ⟨[], 16384⟩ where
  chunksize := ⟨12, by decide, by decide⟩
  sourceIsDir := rfl
  sinceEpoch := ⟨_, rfl, by decide⟩
  blobdev := ⟨rfl, rfl⟩
  created := ⟨rfl, rfl⟩
  dir := show helloTree.isDir = true by decide
  snapshot := snapshot_helloTree
  fits := fits_helloTree
  digests := digestsDiffer_helloTree helloHash
  count := by
    show helloTree.total _ < _
    rw [total_helloTree]
    decide
  room := by
    show helloTree.total _ ≤ _
    rw [total_helloTree]
    decide
  space := by
    show helloTree.total _ < _
    rw [total_helloTree]
    decide

theorem Served.main_helloTree : ∃ prep out,
    Build.prepare helloHash helloCalls = .ok prep ∧ (Mkfs.main helloHash helloCalls).2 = some out ∧
      ((Mkfs.main helloHash helloCalls).1 = .ok () ↔
        (prep.imageBytes helloCalls.uuid).length ≤ 16384) ∧
      ((Mkfs.main helloHash helloCalls).1 = .ok () → ∀ imageFile blobFile : Mmap,
        imageFile.bytes = out.bytes → blobFile.bytes = prep.blobWriter.file.bytes →
        imageFile.bytes.length ≤ 2 ^ 60 → blobFile.bytes.length + 4096 < 2 ^ 60 →
        ∃ r, ErofsReader.openImage (.ok imageFile) (some (.ok blobFile)) = .ok r ∧
          ∃ number, Mirrors helloTree prep.epoch ⟨r⟩ number) :=
  served_helloTree.main

/-- The image file of this run has the room. -/
theorem main_reports_helloTree : ∃ prep out,
    Build.prepare helloHash helloCalls = .ok prep ∧ (Mkfs.main helloHash helloCalls).2 = some out ∧
      (out.bytes = prep.imageBytes helloCalls.uuid ↔
        (prep.imageBytes helloCalls.uuid).length ≤ 16384) := by
  obtain ⟨prep, -, -, -, hprep, -⟩ := served_helloTree.prepare
  obtain ⟨out, hout, -, hall, -⟩ := main_reports hprep (d := ⟨[], 16384⟩) rfl rfl
  exact ⟨prep, out, hprep, hout, hall⟩

/-- Three blocks are enough. -/
theorem main_succeeds_iff_helloTree : (Mkfs.main helloHash helloCalls).1 = .ok () ∧
    ∃ prep, Build.prepare helloHash helloCalls = .ok prep ∧
      (prep.imageBytes helloCalls.uuid).length = 12288 := by
  obtain ⟨prep, -, -, -, hprep, -⟩ := served_helloTree.prepare
  obtain ⟨hlen, hiff⟩ := main_succeeds_iff hprep (d := ⟨[], 16384⟩) rfl rfl
    (show helloTree.isDir = true by decide) snapshot_helloTree eachFile_helloTree
  rw [show helloCalls.chunksize.toNat = 4096 from rfl, imageBlocks_helloTree] at hlen hiff
  exact ⟨hiff.mpr (by decide), prep, hprep, hlen⟩

end ErofsUtils.Roundtrip
