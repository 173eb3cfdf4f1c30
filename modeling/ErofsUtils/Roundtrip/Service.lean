import ErofsUtils.Roundtrip.Program
import ErofsUtils.Roundtrip.Session

/-! # From a source to its service

The whole way: the program builds an image of a source, the image is mounted, and any number of
workers serve requests on it at once. What they answer is what a server that looks at the source
could have answered, one request after the other. -/
namespace ErofsUtils.Roundtrip
open ErofsUtils.Rust ErofsUtils.Bytes ErofsUtils.Metadata ErofsUtils.Build ErofsUtils.Fs
open ErofsUtils.Store ErofsUtils.Concurrent

/-- The size of the file system over an image with these paths, as far as it is reported: the
superblock counts blocks in 32 bits. -/
def sourceStatvfs (cs : Nat) (places : List (List Nat × Source)) : Statvfs64 where
  fBsize := 4096
  fFrsize := 4096
  fBlocks := imageBlocks cs places % 2 ^ 32
  fFiles := places.length
  fNamemax := 255

variable {hash : List UInt8 → Digest} {calls : MkfsCalls} {blob image : Device} {prep : Prepared}
  {w₀ : BlobWriter} {layout : MetadataLayout} {places : List (List Nat × Source)}

/-- A reader of the image of a run reports this. -/
theorem Ready.statfs (hready : Ready hash calls prep w₀ layout)
    (hprep : Build.prepare hash calls = .ok prep) (hdir : calls.source.isDir = true)
    (hsnap : Snapshot calls.source) (hplaces : EachFile calls.source places) {r : ErofsReader}
    (hsb : r.sb = imageSuperblock prep.metadataBuf prep.rootNid (UInt64.ofNat prep.inodes.length)
      prep.epoch calls.uuid) :
    (⟨r⟩ : ErofsFs).statfs = .ok (sourceStatvfs calls.chunksize.toNat places) := by
  have hlen := length_imageBytes hprep hdir hsnap hplaces calls.uuid
  rw [Prepared.imageBytes, List.length_append, length_block0Bytes, erofsBlockSize] at hlen
  have hblocks : 1 + divCeil prep.metadataBuf.length 4096 =
      imageBlocks calls.chunksize.toNat places := by
    rw [divCeil]
    omega
  obtain ⟨os, hcomplete⟩ := buildTree_complete hready.tree hdir
  have hfiles : prep.inodes.length = places.length :=
    hcomplete.length.symm.trans (hcomplete.eachFile.length_eq hplaces)
  have hlt := hcomplete.length_lt
  have hinos : (UInt64.ofNat prep.inodes.length).toNat = places.length := by
    rw [UInt64.toNat_ofNat', Nat.mod_eq_of_lt (by rw [← hcomplete.length]; omega), hfiles]
  have hshown : r.sb.blkszbits = 12 ∧ r.sb.blocks = imageBlocks calls.chunksize.toNat places % 2 ^ 32 ∧
      r.sb.inos.toNat = places.length := by
    rw [hsb, ← hblocks, ← hinos]
    exact ⟨rfl, rfl, rfl⟩
  obtain ⟨hbits, hcount, hinodes⟩ := hshown
  simp only [ErofsFs.statfs, hbits, hcount, hinodes]
  rfl

end ErofsUtils.Roundtrip
