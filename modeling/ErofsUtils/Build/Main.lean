import ErofsUtils.Build.Area
import ErofsUtils.Build.Device
import ErofsUtils.Build.Walk

/-! # The program

A run of `erofs-mkfs`, from what its calls answer. The inodes are built and laid out before the
image file is touched; the image goes through a buffered writer that is dropped and never
flushed. Its errors are not lost even so, as long as the metadata takes more than one block:
such a write goes through the buffer at once. -/
namespace ErofsUtils.Build
open ErofsUtils.Rust ErofsUtils.Bytes ErofsUtils.Metadata ErofsUtils.Store

/-! ## The image through any writer -/

/-- Writes, one after the other; an error ends them. -/
def writeEach {ω : Type} (writeAll : ω → List UInt8 → ω × Except BuildError Unit) (w : ω) :
    List (List UInt8) → ω × BuildResult Unit
  | [] => (w, pure ())
  | data :: rest =>
    match writeAll w data with
    | (w, .ok ()) => writeEach writeAll w rest
    | (w, .error e) => (w, fail e)

/-- `write_image` through a writer of any kind. -/
def writeImageTo {ω : Type} (writeAll : ω → List UInt8 → ω × Except BuildError Unit) (image : ω)
    (metadataBuf : List UInt8) (rootNid : UInt16) (totalInodes epoch : UInt64) (blobBlocks : Nat)
    (uuid : Vector UInt8 16) : ω × BuildResult Unit :=
  let sb := imageSuperblock metadataBuf rootNid totalInodes epoch uuid
  match writeBlock0 sb (.new blobBlocks) with
  | .error e => (image, .error e)
  | .ok block0 =>
    let remainder := metadataBuf.length % erofsBlockSize
    let pad := if remainder ≠ 0 then [List.replicate (erofsBlockSize - remainder) 0] else []
    writeEach writeAll image (block0 :: metadataBuf :: pad)

/-- Through the file itself, that is `writeImage`. -/
theorem writeImageTo_writeOut {image out : Device} {metadataBuf : List UInt8} {rootNid : UInt16}
    {totalInodes epoch : UInt64} {blobBlocks : Nat} {uuid : Vector UInt8 16} :
    writeImageTo Device.writeOut image metadataBuf rootNid totalInodes epoch blobBlocks uuid =
        (out, .ok ()) ↔
      writeImage image metadataBuf rootNid totalInodes epoch blobBlocks uuid = .ok out := by
  have hstep : ∀ {rest : List (List UInt8)} {d : Device} {data : List UInt8},
      writeEach Device.writeOut d (data :: rest) = (out, .ok ()) ↔
        ∃ d', liftIo (d.writeAll data) = .ok d' ∧
          writeEach Device.writeOut d' rest = (out, .ok ()) := by
    intro rest d data
    rw [writeEach]
    simp only [liftIo_eq_ok, ← writeOut_eq_ok]
    rcases d.writeOut data with ⟨d', _ | u⟩
    · simp
    · simp
  unfold writeImageTo
  rw [writeImage, writeBlock0_ok, bind_ok]
  simp only [bind_eq_ok, writeBlock0_ok]
  rw [hstep]
  refine exists_congr fun d₁ => and_congr_right fun _ => ?_
  rw [hstep]
  refine exists_congr fun d₂ => and_congr_right fun _ => ?_
  split
  · rw [hstep]
    simp [writeEach]
  · simp [writeEach]

/-! ## The run -/

/-- What the calls of a run answer. -/
structure MkfsCalls where
  chunksize : UInt32
  sourceIsDir : Bool
  sinceEpoch : Option UInt64
  blobdevPath : String
  blobdev : IoResult Device
  source : Source
  uuid : Vector UInt8 16
  imagePath : String
  image : IoResult Device

/-- What is ready when the image file is created. -/
structure Prepared where
  chunkbits : Nat
  epoch : UInt64
  inodes : List InodeInfo
  placed : List InodeInfo
  metadataBuf : List UInt8
  rootNid : UInt16
  blobWriter : BlobWriter

/-- Everything that is done before the image file is created. -/
def prepare (hash : List UInt8 → Digest) (calls : MkfsCalls) : BuildResult Prepared := do
  let chunkbits ← validateChunksize calls.chunksize
  if ¬ calls.sourceIsDir then fail (.bail s!"source {calls.source.path} is not a directory")
  else do
    let epoch ←
      match calls.sinceEpoch with
      | some seconds => pure seconds
      | none => fail (.context "system time before UNIX epoch"
          (.bail "second time provided was later than self"))
    let blobWriter ← BlobWriter.new calls.blobdev calls.blobdevPath calls.chunksize.toNat
    let (inodes, blobWriter) ← buildTree hash calls.source blobWriter
    let (placed, layout) ← liftIo (layOut inodes epoch chunkbits)
    let root ← getAt placed 0
    if ¬ root.nid ≤ 2 ^ 16 - 1 then abort (.assertion "root NID exceeds 16-bit range")
    else pure { chunkbits, epoch, inodes, placed, metadataBuf := layout.buf
                rootNid := UInt16.ofNat root.nid, blobWriter }

/-- The result of the run, and the image file as the run leaves it if it creates one. -/
def Mkfs.main (hash : List UInt8 → Digest) (calls : MkfsCalls) : BuildResult Unit × Option Device :=
  match prepare hash calls with
  | .error e => (.error e, none)
  | .ok prep =>
    match withContext s!"failed to create image: {calls.imagePath}" calls.image with
    | .error e => (.error e, none)
    | .ok file =>
      let (writer, result) := writeImageTo (BufWriter.writeAll Device.sink writeZero)
        (.new 8192 file) prep.metadataBuf prep.rootNid (UInt64.ofNat prep.inodes.length) prep.epoch
        prep.blobWriter.totalBlocks calls.uuid
      (result, some (writer.drop Device.sink writeZero))

/-! ## What arrives of an image -/

section
variable {w w' : BufWriter Device} {all : List (List UInt8)} {result : BuildResult Unit}

/-- Writes that succeed are all held, and of those that do not a front part. -/
theorem writeEach_spec (h : writeEach (BufWriter.writeAll Device.sink writeZero) w all = (w', result)) :
    ∃ part, part <+: all.flatten ∧ w'.held Device.sink = w.held Device.sink ++ part ∧
      (result = .ok () ↔ part = all.flatten) := by
  induction all generalizing w with
  | nil =>
    cases h
    exact ⟨[], List.prefix_rfl, (List.append_nil _).symm, iff_of_true rfl rfl⟩
  | cons data rest ih =>
    rw [writeEach] at h
    cases hwrite : w.writeAll Device.sink writeZero data with
    | mk w₁ result₁ =>
      obtain ⟨-, part₁, hpart₁, hheld₁, hiff₁⟩ := BufWriter.writeAll_spec hwrite
      rw [hwrite] at h
      cases result₁ with
      | error e =>
        cases h
        have hne : part₁ ≠ data := fun he => by cases hiff₁.mpr he
        refine ⟨part₁, hpart₁.trans (List.prefix_append _ _), hheld₁, iff_of_false nofun ?_⟩
        intro he
        obtain ⟨left, rfl⟩ := hpart₁
        rw [List.flatten_cons, List.append_assoc, List.self_eq_append_right, List.append_eq_nil_iff] at he
        exact hne (by rw [he.1, List.append_nil])
      | ok u =>
        obtain rfl := hiff₁.mp rfl
        obtain ⟨part, hpart, hheld, hiff⟩ := ih h
        refine ⟨part₁ ++ part, ?_, by rw [hheld, hheld₁, List.append_assoc], ?_⟩
        · rw [List.flatten_cons]
          exact (List.prefix_append_right_inj _).mpr hpart
        · rw [hiff, List.flatten_cons, List.append_cancel_left_eq]

/-- A failed write leaves a full file. -/
theorem writeEach_bounded
    (h : writeEach (BufWriter.writeAll Device.sink writeZero) w all = (w', result)) :
    w'.inner.bytes.length + w'.inner.room = w.inner.bytes.length + w.inner.room ∧
      (result ≠ .ok () → w'.inner.room = 0) := by
  induction all generalizing w with
  | nil =>
    cases h
    exact ⟨rfl, fun hne => absurd rfl hne⟩
  | cons data rest ih =>
    rw [writeEach] at h
    cases hwrite : w.writeAll Device.sink writeZero data with
    | mk w₁ result₁ =>
      obtain ⟨hkept, hfull⟩ := BufWriter.writeAll_bounded Device.sink_bounded hwrite
      rw [hwrite] at h
      cases result₁ with
      | error e =>
        cases h
        exact ⟨hkept, fun _ => hfull nofun⟩
      | ok u =>
        obtain ⟨hkept', hfull'⟩ := ih h
        exact ⟨hkept'.trans hkept, hfull'⟩

/-- **What is left of the writes** to an empty file when the writer is dropped: a front part of
them arrives, all of them if the file has the room, and then no write failed. -/
theorem dropped {capacity : Nat} {d : Device} (hempty : d.bytes = [])
    (h : writeEach (BufWriter.writeAll Device.sink writeZero) (.new capacity d) all = (w', result)) :
    (w'.drop Device.sink writeZero).bytes <+: all.flatten ∧
      ((w'.drop Device.sink writeZero).bytes = all.flatten ↔ all.flatten.length ≤ d.room) ∧
      (all.flatten.length ≤ d.room → result = .ok ()) := by
  obtain ⟨given, hgiven, hheld, hiff⟩ := writeEach_spec h
  obtain ⟨hkept, hfull⟩ := writeEach_bounded h
  obtain ⟨hkept', hdone⟩ := BufWriter.drop_bounded Device.sink_bounded writeZero w'
  have hfront := BufWriter.drop_front Device.sink writeZero w'
  have hnew : BufWriter.held Device.sink (.new capacity d) = [] := by
    rw [BufWriter.held, BufWriter.new, List.append_nil]
    exact hempty
  rw [hheld, hnew, List.nil_append] at hfront hdone
  change (w'.drop Device.sink writeZero).bytes <+: given at hfront
  change (w'.drop Device.sink writeZero).bytes = given ∨ _ at hdone
  change (w'.drop Device.sink writeZero).bytes.length + _ = w'.inner.bytes.length + _ at hkept'
  have hroom : w'.inner.bytes.length + w'.inner.room = d.room := by
    rw [hkept]
    show d.bytes.length + d.room = d.room
    rw [hempty, List.length_nil, Nat.zero_add]
  have hinner : w'.inner.bytes.length ≤ given.length := by
    have hlen := congrArg List.length (hheld.trans (congrArg (· ++ given) hnew))
    rw [BufWriter.held, List.nil_append, List.length_append] at hlen
    exact Nat.le.intro hlen
  have hok : all.flatten.length ≤ d.room → result = .ok () := by
    intro hfits
    by_contra hne
    have hzero := hfull hne
    exact hne (hiff.mpr (hgiven.eq_of_length_le (by omega)))
  have hfront' := hfront.trans hgiven
  refine ⟨hfront', ⟨?_, ?_⟩, hok⟩
  · intro hall
    rw [← hall]
    omega
  · intro hfits
    rcases hdone with hsame | hzero
    · rw [hsame, hiff.mp (hok hfits)]
    · exact hfront'.eq_of_length_le (by omega)

end

/-! ## What the run reports -/

/-- How a run came to what it has ready. -/
structure Ready (hash : List UInt8 → Digest) (calls : MkfsCalls) (prep : Prepared)
    (w₀ : BlobWriter) (layout : MetadataLayout) : Prop where
  chunksize : validateChunksize calls.chunksize = .ok prep.chunkbits
  isDir : calls.sourceIsDir = true
  epoch : calls.sinceEpoch = some prep.epoch
  blobdev : BlobWriter.new calls.blobdev calls.blobdevPath calls.chunksize.toNat = .ok w₀
  tree : buildTree hash calls.source w₀ = .ok (prep.inodes, prep.blobWriter)
  laidOut : layOut prep.inodes prep.epoch prep.chunkbits = .ok (prep.placed, layout)
  buf : layout.buf = prep.metadataBuf
  root : ∃ root, prep.placed[0]? = some root ∧ root.nid < 2 ^ 16 ∧
    prep.rootNid = UInt16.ofNat root.nid

variable {hash : List UInt8 → Digest} {calls : MkfsCalls} {prep : Prepared}

theorem prepare_eq_ok (h : prepare hash calls = .ok prep) :
    ∃ w₀ layout, Ready hash calls prep w₀ layout := by
  unfold prepare at h
  obtain ⟨chunkbits, hsize, h⟩ := bind_eq_ok.mp h
  split at h
  · cases h
  rename_i hdir
  cases hepoch : calls.sinceEpoch with
  | none =>
    rw [hepoch] at h
    cases h
  | some epoch =>
    rw [hepoch] at h
    simp only [pure_eq_ok, bind_ok, bind_eq_ok, Prod.exists, liftIo_eq_ok, getAt_eq_ok] at h
    obtain ⟨w₀, hnew, inodes, w, htree, placed, layout, hlay, root, hroot, h⟩ := h
    split at h
    · cases h
    rename_i hnid
    cases h
    exact ⟨w₀, layout, hsize, not_not.mp hdir, hepoch, hnew, htree, hlay, rfl, root, hroot,
      by omega, rfl⟩

/-- The metadata area of a run is whole blocks, and a run on a directory has two at least. -/
theorem Ready.wholeBlocks {w₀ : BlobWriter} {layout : MetadataLayout}
    (h : Ready hash calls prep w₀ layout) : 4096 ∣ prep.metadataBuf.length ∧
      4096 ≤ prep.metadataBuf.length ∧
      (calls.source.isDir = true → 8192 ≤ prep.metadataBuf.length) := by
  have hlen := length_layOut h.laidOut
  obtain ⟨hleast, htwo⟩ := layOut_least h.laidOut
  rw [h.buf] at hlen hleast htwo
  refine ⟨hlen ▸ Nat.dvd_mul_left 4096 _, hleast, fun hdir => htwo ?_⟩
  obtain ⟨os, hcomplete⟩ := buildTree_complete h.tree hdir
  obtain ⟨inode, hinode, hmade⟩ := hcomplete.made_at hcomplete.first
  exact ⟨inode, List.mem_of_getElem? hinode, hmade.isDir.trans hdir⟩

/-- The bytes of the whole image of a run. -/
def Prepared.imageBytes (prep : Prepared) (uuid : Vector UInt8 16) : List UInt8 :=
  block0Bytes (imageSuperblock prep.metadataBuf prep.rootNid (UInt64.ofNat prep.inodes.length)
    prep.epoch uuid) (.new prep.blobWriter.totalBlocks) ++ prep.metadataBuf

/-- These are the bytes that a file with room enough has in the end. -/
theorem Ready.writeImage {w₀ : BlobWriter} {layout : MetadataLayout}
    (h : Ready hash calls prep w₀ layout) (uuid : Vector UInt8 16) : ∃ out,
      Build.writeImage ⟨[], prep.metadataBuf.length + 8192⟩ prep.metadataBuf prep.rootNid
        (UInt64.ofNat prep.inodes.length) prep.epoch prep.blobWriter.totalBlocks uuid = .ok out ∧
      out.bytes = prep.imageBytes uuid := by
  obtain ⟨⟨n, hn⟩, -, -⟩ := h.wholeBlocks
  obtain ⟨out, hout, -⟩ := writeImage_ok ⟨[], prep.metadataBuf.length + 8192⟩ (Nat.le_refl _)
    prep.rootNid (UInt64.ofNat prep.inodes.length) prep.epoch prep.blobWriter.totalBlocks uuid
  obtain ⟨pad, hpad, hbytes⟩ := writeImage_eq_ok hout
  have hzero : pad = 0 := by
    rw [divCeil] at hpad
    omega
  refine ⟨out, hout, ?_⟩
  rw [hbytes, hzero, List.nil_append, List.replicate_zero, List.append_nil, Prepared.imageBytes]

/-- Metadata of whole blocks is written as it is. -/
theorem writeImageTo_whole {ω : Type} {writeAll : ω → List UInt8 → ω × Except BuildError Unit}
    {image : ω} {metadataBuf : List UInt8} (hwhole : 4096 ∣ metadataBuf.length) (rootNid : UInt16)
    (totalInodes epoch : UInt64) (blobBlocks : Nat) (uuid : Vector UInt8 16) :
    writeImageTo writeAll image metadataBuf rootNid totalInodes epoch blobBlocks uuid =
      writeEach writeAll image [block0Bytes (imageSuperblock metadataBuf rootNid totalInodes epoch
        uuid) (.new blobBlocks), metadataBuf] := by
  have hzero : metadataBuf.length % erofsBlockSize = 0 := Nat.mod_eq_zero_of_dvd hwhole
  unfold writeImageTo
  simp only [writeBlock0_ok]
  generalize metadataBuf.length % erofsBlockSize = remainder at hzero
  subst hzero
  rw [if_neg (not_not.mpr rfl)]

/-- Two blocks of a buffer's size pass without a call, and more than that does not stay in the
buffer. -/
theorem writeEach_pair {d : Device} {block0 metadata : List UInt8} {w' : BufWriter Device}
    {result : BuildResult Unit} (hblock : block0.length = 4096)
    (h : writeEach (BufWriter.writeAll Device.sink writeZero) (.new 8192 d) [block0, metadata] =
      (w', result)) :
    (metadata.length = 4096 → result = .ok ()) ∧
      (8192 ≤ metadata.length → result = .ok () → w'.buffer = []) := by
  have hfirst : (BufWriter.new 8192 d).writeAll Device.sink writeZero block0 =
      ({ inner := d, buffer := block0, capacity := 8192 }, .ok ()) := by
    rw [BufWriter.writeAll, if_pos]
    · rfl
    · rw [hblock]
      exact show 4096 < 8192 - 0 by decide
  have hspare : BufWriter.spareCapacity
      { inner := d, buffer := block0, capacity := 8192 } = 4096 := by
    exact (congrArg (8192 - ·) hblock).trans (by decide)
  simp only [writeEach, hfirst] at h
  constructor
  · intro hlen
    rw [BufWriter.writeAll, hspare, if_neg (by omega), if_neg (by omega)] at h
    dsimp only at h
    rw [if_neg (by omega)] at h
    cases h
    rfl
  · intro hlen hok
    split at h
    · rename_i w hwrite
      cases h
      exact BufWriter.writeAll_large hwrite (show 0 < 8192 by decide) hlen
    · cases h
      cases hok

theorem Ready.reports {w₀ : BlobWriter} {layout : MetadataLayout} {d : Device}
    (hready : Ready hash calls prep w₀ layout) (hprep : prepare hash calls = .ok prep)
    (himage : calls.image = .ok d) (hempty : d.bytes = []) : ∃ out,
      (Mkfs.main hash calls).2 = some out ∧
      out.bytes <+: prep.imageBytes calls.uuid ∧
      (out.bytes = prep.imageBytes calls.uuid ↔
        (prep.imageBytes calls.uuid).length ≤ d.room) ∧
      ((Mkfs.main hash calls).1 = .ok () ↔
        (prep.metadataBuf.length = 4096 ∨ (prep.imageBytes calls.uuid).length ≤ d.room)) := by
  obtain ⟨hwhole, hleast, -⟩ := hready.wholeBlocks
  cases hrun : writeEach (BufWriter.writeAll Device.sink writeZero) (.new 8192 d)
      [block0Bytes (imageSuperblock prep.metadataBuf prep.rootNid (UInt64.ofNat prep.inodes.length)
        prep.epoch calls.uuid) (.new prep.blobWriter.totalBlocks), prep.metadataBuf] with
  | mk w' result =>
    have hmain : Mkfs.main hash calls = (result, some (w'.drop Device.sink writeZero)) := by
      rw [Mkfs.main, hprep, himage, withContext_ok]
      dsimp only
      rw [writeImageTo_whole hwhole, hrun]
    have hflat : List.flatten [block0Bytes (imageSuperblock prep.metadataBuf prep.rootNid
        (UInt64.ofNat prep.inodes.length) prep.epoch calls.uuid)
        (.new prep.blobWriter.totalBlocks), prep.metadataBuf] = prep.imageBytes calls.uuid := by
      rw [List.flatten_cons, List.flatten_singleton, Prepared.imageBytes]
    obtain ⟨hfront, hall, hok⟩ := dropped hempty hrun
    obtain ⟨hsmall, hlarge⟩ := writeEach_pair (length_block0Bytes _ _) hrun
    rw [hflat] at hfront hall hok
    rw [hmain]
    refine ⟨_, rfl, hfront, hall, ⟨fun hres => ?_, ?_⟩⟩
    · by_cases hone : prep.metadataBuf.length = 4096
      · exact .inl hone
      refine .inr (hall.mp ?_)
      have hnil := hlarge (by omega) hres
      obtain ⟨given, -, hheld, hiff⟩ := writeEach_spec hrun
      have hdrop := BufWriter.drop_of_nil Device.sink writeZero hnil
      rw [hheld, hiff.mp hres, hflat, BufWriter.held, BufWriter.new, List.append_nil] at hdrop
      exact hdrop.trans (by rw [show Device.sink.contents d = [] from hempty, List.nil_append])
    · rintro (hone | hfits)
      · exact hsmall hone
      · exact hok hfits

/-- **The report of a run** that had its image file created: the file gets a front part of the
image, and all of it exactly when it has the room. The run succeeds exactly then if the metadata
takes more than a block. Metadata of one block stays in the buffer, and such a run succeeds
whatever becomes of the image. -/
theorem main_reports {d : Device} (hprep : prepare hash calls = .ok prep)
    (himage : calls.image = .ok d) (hempty : d.bytes = []) : ∃ out,
      (Mkfs.main hash calls).2 = some out ∧
      out.bytes <+: prep.imageBytes calls.uuid ∧
      (out.bytes = prep.imageBytes calls.uuid ↔
        (prep.imageBytes calls.uuid).length ≤ d.room) ∧
      ((Mkfs.main hash calls).1 = .ok () ↔
        (prep.metadataBuf.length = 4096 ∨ (prep.imageBytes calls.uuid).length ≤ d.room)) := by
  obtain ⟨w₀, layout, hready⟩ := prepare_eq_ok hprep
  exact hready.reports hprep himage hempty

end ErofsUtils.Build
