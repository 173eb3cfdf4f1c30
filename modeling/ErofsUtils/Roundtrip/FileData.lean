import ErofsUtils.Build.Image
import ErofsUtils.Roundtrip.Inode

/-! # File data survives the build

Files go through one writer, their inodes into the image and their chunks onto the blob
device. The chunk table of a file, read from the image, serves the contents of the file
from the blob: the writer keeps the block store, and an address never moves. -/
namespace ErofsUtils.Roundtrip
open ErofsUtils.Rust ErofsUtils.Bytes ErofsUtils.Metadata ErofsUtils.Build ErofsUtils.Fs
open ErofsUtils.Store

/-- The files went through one new writer with chunks of `2 ^ bits` bytes. -/
structure BlobRun (hash : List UInt8 → Digest) (bits : Nat) (files : List (String × List UInt8))
    (tables : List (List ChunkIndex)) (w : BlobWriter) : Prop where
  accepted : 12 ≤ bits ∧ bits ≤ 31
  run : ∃ d path w₀, d.bytes = [] ∧ BlobWriter.new (.ok d) path (2 ^ bits) = .ok w₀ ∧
    BlobWriter.writeFiles hash files w₀ = .ok (tables, w)
  digests : DigestsDiffer hash (runChunks (2 ^ bits) files)
  blocks : w.totalBlocks < 2 ^ 48 - 1

/-- The inode of a regular file as the tree builder makes it. -/
structure RegularInode (inode : InodeInfo) (content : List UInt8) (cis : List ChunkIndex) :
    Prop where
  data : inode.data = .regularFile cis
  size : inode.size.toNat = content.length
  format : inode.isExtended = isExtendedFor content.length inode.uid inode.gid inode.nlink
  count : CountFits inode

variable {hash : List UInt8 → Digest} {bits : Nat} {files : List (String × List UInt8)}
  {tables : List (List ChunkIndex)} {w : BlobWriter} {inode : InodeInfo} {content : List UInt8}
  {cis : List ChunkIndex} {epoch : UInt64} {r : ErofsReader} {nid : Nat}

theorem RegularInode.fits (h : RegularInode inode content cis) :
    inode.isExtended = true ∨ inode.size.toNat < 2 ^ 32 := by
  rw [h.format, h.size, isExtendedFor]
  by_cases hlt : content.length < 2 ^ 32
  · exact .inr hlt
  · have hgt : content.length > 2 ^ 32 - 1 := by omega
    rw [decide_eq_true hgt]
    exact .inl rfl

theorem RegularInode.view_size (h : RegularInode inode content cis) :
    (inodeView inode epoch bits).size.toNat = content.length := by
  rw [size_inodeView h.fits epoch bits (.inl ⟨cis, h.data⟩), h.size]

/-- The run leaves the store of its chunks, and the tables hold addresses in it. -/
theorem BlobRun.store (h : BlobRun hash bits files tables w) :
    ∃ store, BlobWriter.Holds hash w store ∧
      (∀ file ∈ files, ∀ c ∈ chunksOf (2 ^ bits) file.2, c ∈ store) ∧
      tables = files.map fun file => (chunksOf (2 ^ bits) file.2).map (storedIndex store) := by
  obtain ⟨d, path, w₀, hd, hnew, hrun⟩ := h.run
  obtain ⟨hh, hsize⟩ : BlobWriter.Holds hash w₀ [] ∧ w₀.chunksize = 2 ^ bits :=
    BlobWriter.holds_new hd hnew
  have hcs : 0 < w₀.chunksize := by rw [hsize]; exact Nat.two_pow_pos bits
  have hw := hh.writeFiles hcs h.digests (by simp) (by rw [hsize]; exact fun c hc => hc) hrun
  rw [hsize] at hw
  refine ⟨_, hw.1, ?_, hw.2⟩
  intro file hfile c hc
  exact mem_putAll (List.mem_flatMap.mpr ⟨file, hfile, hc⟩) _

/-! ## A chunk of a file on the blob -/

theorem getElem_chunksOf {cs k : Nat} (hk : k < (chunksOf cs content).length) :
    (chunksOf cs content)[k] = window content (k * cs) cs := by
  simp [chunksOf, chunksFrom]

/-- A piece of a stored chunk is read from the blob at the address of the chunk. -/
theorem chunkSource_stored {store : List (List UInt8)} {chunk : List UInt8} {blob : Mmap}
    (hh : BlobWriter.Holds hash w store) (hblocks : w.totalBlocks < 2 ^ 48 - 1)
    (hblob : r.blobMmap = some blob) (hbytes : blob.bytes = w.file.bytes) (hc : chunk ∈ store)
    {off n : Nat} (hn : off + n ≤ chunk.length) (hpos : 0 < n) :
    r.chunkSource (ErofsChunkIndex.new (storedIndex store chunk).blkaddr
      (storedIndex store chunk).deviceId) off n = .ok (some (window chunk off n)) := by
  have haddr : addr erofsBlockSize store chunk < 2 ^ 48 := by
    have hle := addr_add_blocksOf_le (b := erofsBlockSize) hc
    rw [← hh.next] at hle
    simp only [BlobWriter.totalBlocks] at hblocks
    omega
  obtain ⟨hb, hdev⟩ := ErofsChunkIndex.blkaddr_new haddr 1
  have hwin := window_cells (z := (0 : UInt8)) (show 0 < erofsBlockSize by decide) hc
  rw [← hh.file, ← hbytes] at hwin
  have hle := le_of_window_eq hwin (List.ne_nil_of_length_pos (by omega))
  have hlt := blob.lenLt
  rw [ErofsReader.chunkSource_blob r (by rw [storedIndex, hdev]; decide) (by omega), storedIndex, hb,
    ErofsReader.blobMmapSlice_eq_ok.mpr ⟨blob, hblob, by omega, rfl⟩, ← window_window hn, hwin]
  rfl

/-- The table of a file serves its contents. -/
theorem serves_table {store : List (List UInt8)} {blob : Mmap}
    (hh : BlobWriter.Holds hash w store) (hblocks : w.totalBlocks < 2 ^ 48 - 1)
    (hblob : r.blobMmap = some blob) (hbytes : blob.bytes = w.file.bytes)
    (hmem : ∀ c ∈ chunksOf (2 ^ bits) content, c ∈ store) (hbits : 12 ≤ bits)
    (hlen : content.length < 2 ^ 64) :
    r.Serves (chunkTable ((chunksOf (2 ^ bits) content).map (storedIndex store))) bits
      (fun p => content.getD p 0) 0 content.length := by
  intro k off n _ hhi hoff hpos
  have hk : k < (chunksOf (2 ^ bits) content).length := by
    rw [length_chunksOf, lt_divCeil_iff (Nat.two_pow_pos bits)]
    omega
  have hchunk := getElem_chunksOf hk
  have hpiece : off + n ≤ (chunksOf (2 ^ bits) content)[k].length := by
    rw [hchunk, length_window]
    omega
  have hsrc := chunkSource_stored hh hblocks hblob hbytes (hmem _ (List.getElem_mem hk)) hpiece hpos
  have h64 : k * 8 < 2 ^ 64 := by
    have hpow : 2 ^ 12 ≤ 2 ^ bits := Nat.pow_le_pow_right (by decide) hbits
    have := Nat.mul_le_mul_left k (show 8 ≤ 2 ^ bits by omega)
    omega
  have hk' : k < ((chunksOf (2 ^ bits) content).map (storedIndex store)).length := by
    simpa using hk
  have hidx := chunkIndexAt_chunkTable hk' h64
  rw [List.getElem_map] at hidx
  refine ⟨_, _, hidx, hsrc, ?_⟩
  rw [Option.getD_some, part_getD _ hhi, hchunk, window_window hoff]

/-- A reader that finds the inode of a file of the run in its image and the run's blob as
its device is served the contents of the file. -/
theorem servesFile (hrun : BlobRun hash bits files tables w) {i : Nat} {path : String}
    (hfile : files[i]? = some (path, content)) (htable : tables[i]? = some cis)
    (hinode : RegularInode inode content cis)
    (hstands : r.StandsAt nid (inodeBytes inode epoch bits)) {blob : Mmap}
    (hblob : r.blobMmap = some blob) (hbytes : blob.bytes = w.file.bytes)
    (hblk : r.sb.blkszbits = erofsBlkszbits) :
    r.ServesFile nid (inodeView inode epoch bits) (fun p => content.getD p 0) 0 content.length := by
  obtain ⟨store, hh, hmem, rfl⟩ := hrun.store
  have hcis : cis = (chunksOf (2 ^ bits) content).map (storedIndex store) := by
    rw [List.getElem?_map, hfile] at htable
    exact (Option.some.inj htable).symm
  have hacc := hrun.accepted
  have hbits : r.chunkbits (inodeView inode epoch bits) = bits := by
    rw [ErofsReader.chunkbits, hblk]
    exact chunkFormat_inodeView hinode.data epoch hacc.1 (by omega)
  have hlen : content.length < 2 ^ 64 := hinode.size ▸ inode.size.toNat_lt
  have hn : divCeil (inodeView inode epoch bits).size.toNat (2 ^ bits) = cis.length := by
    rw [hinode.view_size, hcis, List.length_map, length_chunksOf]
  refine ⟨?_, by omega, by rw [hinode.view_size], chunkTable cis, ?_, ?_⟩
  · rw [dataLayout_inodeView, hinode.data]
    rfl
  · exact chunkIndexes_ok hstands hinode.count hinode.data hbits (by omega) hn
  · rw [hbits, hcis]
    exact serves_table hh hrun.blocks hblob hbytes (hmem _ (List.mem_of_getElem? hfile)) hacc.1 hlen

/-- **File data survives the build.** Take any run of files through one writer, the inode of
one of them in a written image and the blob of the run as its device: a read returns the
bytes of that file from the offset on, as many as are asked for or left. -/
theorem writeFileDataTo_writeFiles (hrun : BlobRun hash bits files tables w) {i : Nat}
    {path : String} (hfile : files[i]? = some (path, content)) (htable : tables[i]? = some cis)
    (hinode : RegularInode inode content cis) {bytes : List UInt8}
    (hser : serializeInode inode epoch bits = .ok bytes)
    {image out : Device} {metadataBuf : List UInt8} {rootNid : UInt16} {inos : UInt64}
    {uuid : Vector UInt8 16} (hempty : image.bytes = [])
    (himage : writeImage image metadataBuf rootNid inos epoch w.totalBlocks uuid = .ok out)
    (hslot : window metadataBuf (nid * 32) bytes.length = bytes)
    {imageMap blobMap : Mmap} (himageMap : imageMap.bytes = out.bytes)
    (hblobMap : blobMap.bytes = w.file.bytes)
    (hopen : ErofsReader.openImage (.ok imageMap) (some (.ok blobMap)) = .ok r) :
    ∃ v, ErofsInode.cast bytes = .ok v ∧ ∀ offset size,
      r.writeFileDataTo nid v offset size =
        .ok (window content offset size, (window content offset size).length) := by
  obtain ⟨r', hr', hmap, hblob, -, hopened⟩ :=
    openImage_writeImage himage hempty himageMap (some blobMap)
  rw [Option.map_some, hopen] at hr'
  cases hr'
  rw [serializeInode_ok inode epoch hrun.accepted.1] at hser
  cases hser
  have hcast := cast_inodeBytes inode epoch bits []
  rw [List.append_nil] at hcast
  have hstands := hopened.standsAt hslot (inodeBytes_ne_nil _ _ _)
  have hserves := servesFile hrun hfile htable hinode hstands hblob hblobMap hopened.blkszbits
  refine ⟨_, hcast, ?_⟩
  intro offset size
  by_cases hoff : offset < content.length
  · have hrange : ErofsReader.readRange (inodeView inode epoch bits) offset size =
        min size (content.length - offset) := by rw [ErofsReader.readRange, hinode.view_size]
    have hread := (hserves.reads (Nat.zero_le _) (by rw [hrange]; omega)
      (by rw [hinode.view_size]; exact hoff)).1
    rw [hread, hrange, part_getD _ (by omega), window_min, length_window]
  · have hnil : window content offset size = [] := by
      rw [window, List.drop_eq_nil_of_le (by omega), List.take_nil]
    rw [(ErofsReader.reads_past_end r nid (by rw [hinode.view_size]; omega)).1, hnil]
    rfl

/-! ## A file that holds `abc` -/

def abc : List UInt8 := [97, 98, 99]

/-- The digest of `abc`. -/
def abcDigest : Digest :=
  #v[100, 55, 179, 172, 56, 70, 81, 51, 255, 182, 59, 117, 39, 58, 141, 181, 72, 197, 88, 70, 93,
    121, 219, 3, 253, 53, 156, 108, 213, 189, 157, 133]

def abcWriter : BlobWriter where
  file := { bytes := abc ++ List.replicate 4093 0, room := 0 }
  chunksize := 4096
  nextBlkaddr := 1
  dedup k := if k = abcDigest then some { blkaddr := 0 } else none
  savedByDedup := 0

def abcInode : InodeInfo :=
  { mode := 0o100644, uid := 0, gid := 0, size := 3, mtime := 1700000000, mtimeNsec := 0, nlink := 1
    ino := 2, isExtended := isExtendedFor 3 0 0 1, data := .regularFile [⟨0, 1⟩], xattrs := [] }

set_option maxRecDepth 30000 in
theorem abc_run : BlobRun (fun _ => abcDigest) 12 [("a", abc)] [[⟨0, 1⟩]] abcWriter where
  accepted := by decide
  run := ⟨⟨[], 4096⟩, "blob", _, rfl, rfl, rfl⟩
  digests := by
    intro c hc d hd _
    rw [show runChunks (2 ^ 12) [("a", abc)] = [abc] from rfl, List.mem_singleton] at hc hd
    rw [hc, hd]
  blocks := by decide

theorem abc_inode : RegularInode abcInode abc [⟨0, 1⟩] :=
  ⟨rfl, rfl, rfl, by show 0 ≤ 262148; omega⟩

/-- Two bytes of the file, read from an image and a blob that were written. -/
theorem writeFileDataTo_abc : ∃ (r : ErofsReader) (v : ErofsInode),
    r.writeFileDataTo 0 v 1 10 = .ok ([98, 99], 2) := by
  have hlen : (inodeBytes abcInode 1700000000 12).length = 40 := by
    rw [length_inodeBytes]
    rfl
  have hroom : (inodeBytes abcInode 1700000000 12).length + 8192 ≤ 16384 := by omega
  obtain ⟨out, hout, hle⟩ := writeImage_ok ⟨[], 16384⟩ hroom 0 1 1700000000
    abcWriter.totalBlocks (Vector.replicate 16 0)
  have hblob : abcWriter.file.bytes.length < 2 ^ 63 := by
    simp only [abcWriter, abc, List.length_append, List.length_replicate, List.length_cons]
    decide
  have himage : out.bytes.length < 2 ^ 63 := by
    simp only [List.length_nil] at hle
    omega
  obtain ⟨r, hr, -⟩ := openImage_writeImage hout rfl
    (show (⟨out.bytes, himage⟩ : Mmap).bytes = out.bytes from rfl)
    (some ⟨abcWriter.file.bytes, hblob⟩)
  have hslot : window (inodeBytes abcInode 1700000000 12) (0 * 32)
      (inodeBytes abcInode 1700000000 12).length = inodeBytes abcInode 1700000000 12 :=
    window_all _
  obtain ⟨v, -, hread⟩ := writeFileDataTo_writeFiles abc_run (i := 0) rfl rfl abc_inode
    (serializeInode_ok abcInode 1700000000 (by decide)) rfl hout hslot rfl rfl hr
  exact ⟨r, v, hread 1 10⟩

end ErofsUtils.Roundtrip
