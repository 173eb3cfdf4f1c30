import ErofsUtils.Fs.Flat
import ErofsUtils.Roundtrip.Xattrs

/-! # Symlinks survive the build

The writer puts the whole target behind the header and the attributes. The reader cuts the
size of the file into blocks and a tail first: a target shorter than a block is all tail. -/
namespace ErofsUtils.Roundtrip
open ErofsUtils.Rust ErofsUtils.Bytes ErofsUtils.Metadata ErofsUtils.Build ErofsUtils.Fs

variable {inode : InodeInfo} {epoch : UInt64} {chunkbits : Nat} {r : ErofsReader} {nid : Nat}
  {target : List UInt8}

/-- The header of a symlink tells the length of its target. -/
theorem size_symlink (hd : inode.data = .symlink target)
    (hsize : inode.size = UInt64.ofNat target.length) (hlt : target.length < 2 ^ 32) :
    (inodeView inode epoch chunkbits).size.toNat = target.length := by
  have hnat : inode.size.toNat = target.length := by
    rw [hsize]
    exact UInt64.toNat_ofNat_of_lt' (show target.length < 2 ^ 64 by omega)
  rw [size_inodeView (.inr (by omega)) epoch chunkbits (.inr (.inr ⟨target, hd⟩)), hnat]

/-- The target stands where the reader of a flat inode looks for it. -/
theorem storedFlat_symlink (h : r.StandsAt nid (inodeBytes inode epoch chunkbits))
    (hcount : CountFits inode) (hd : inode.data = .symlink target) (hlt : target.length < 4096) :
    StoredFlat r nid (inodeView inode epoch chunkbits) target := by
  have htail : inodeTail inode = target := by rw [inodeTail, hd]
  have hlayout : (inodeView inode epoch chunkbits).dataLayout = erofsInodeFlatInline := by
    rw [dataLayout_inodeView, hd]
    rfl
  have hwin := (ErofsReader.mmapSlice_eq_ok.mp (mmapSlice_tail h hcount)).2
  rw [htail] at hwin
  exact @StoredFlat.inline r nid _ [] target hlayout (Nat.dvd_zero _) hlt rfl hwin

/-- **Symlinks survive the build.** A target shorter than a block, with any attributes whose
count fits and in either format, is read back from any slot of an image. -/
theorem symlink_survives (hd : inode.data = .symlink target)
    (hsize : inode.size = UInt64.ofNat target.length) (hpos : 1 ≤ target.length)
    (hlt : target.length ≤ 4095) (hcount : CountFits inode) (hc : 12 ≤ chunkbits)
    {bytes : List UInt8} (hser : serializeInode inode epoch chunkbits = .ok bytes)
    (hstands : r.StandsAt nid bytes)
    (hslot : r.slotOffset nid + alignUp bytes.length 32 ≤ r.mmap.bytes.length) :
    ∃ v, ErofsInode.cast bytes = .ok v ∧ r.inode nid = .ok v ∧
      r.readSymlink nid v = .ok target ∧
      ∀ ino, (⟨r⟩ : ErofsFs).toNid ino = .ok nid → (⟨r⟩ : ErofsFs).readlink ino = .ok target := by
  rw [serializeInode_ok inode epoch hc] at hser
  cases hser
  have hcast := cast_inodeBytes inode epoch chunkbits []
  rw [List.append_nil] at hcast
  have hroom : r.slotOffset nid + erofsInodeExtendedSize ≤ r.mmap.bytes.length := by
    have hbase := inode.base_bounds.1
    have hmeta := inodeMetaSize_eq inode chunkbits 12
    rw [inodeTail, hd] at hmeta
    rw [length_inodeBytes, alignUp] at hslot
    rw [erofsInodeExtendedSize]
    dsimp only at hmeta
    omega
  have hinode := inode_ok hstands hroom
  have hread := ErofsReader.readFlatDataVec_stored (storedFlat_symlink hstands hcount hd (by omega))
    (size_symlink hd hsize (by omega)) hpos
  refine ⟨_, hcast, hinode, hread, ?_⟩
  intro ino hino
  rw [ErofsFs.readlink, hino, bind_ok, hinode, bind_ok]
  exact hread

theorem symlink_survives_link : ∃ (r : ErofsReader) (v : ErofsInode),
    r.inode 0 = .ok v ∧ r.readSymlink 0 v = .ok [97, 47, 98] := by
  obtain ⟨r, -, hstands, hroom⟩ := exists_linkReader
  have hlen : alignUp (inodeBytes linkInode 1700000000 12).length 32 = erofsInodeExtendedSize := by
    rw [length_inodeBytes]
    decide
  obtain ⟨v, -, hinode, hread, -⟩ := symlink_survives (show linkInode.data = _ from rfl) rfl
    (by decide) (by decide) (by unfold CountFits; decide) (by decide)
    (serializeInode_ok linkInode 1700000000 (by decide)) hstands (hlen ▸ hroom)
  exact ⟨r, v, hinode, hread⟩

end ErofsUtils.Roundtrip
