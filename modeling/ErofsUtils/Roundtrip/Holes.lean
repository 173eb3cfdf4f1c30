import ErofsUtils.Build.Image
import ErofsUtils.Fs.Logical
import ErofsUtils.Roundtrip.Inode

/-! # Holes

A hole is an index of eight bytes `0xFF`. The address it is written from has 64 bits, the
stored one 48, so that the comparison with the sentinel after decoding never succeeds and
a read of a hole looks for a device. -/
namespace ErofsUtils.Fs
open ErofsUtils.Rust ErofsUtils.Bytes ErofsUtils.Metadata

/-! ## One index -/

/-- What is decoded of an encoded index is what it was made of. -/
def DecodeLaw (blkaddr : Nat) (deviceId : UInt16) : Prop :=
  (ErofsChunkIndex.codec.dec (ErofsChunkIndex.new blkaddr deviceId).asBytes).blkaddr = blkaddr ∧
    (blkaddr ≠ erofsNullAddr →
      (ErofsChunkIndex.codec.dec (ErofsChunkIndex.new blkaddr deviceId).asBytes).deviceId = deviceId)

theorem decodeLaw_iff_ne_null {blkaddr : Nat} (h : blkaddr = erofsNullAddr ∨ blkaddr < 2 ^ 48 - 1)
    (deviceId : UInt16) : DecodeLaw blkaddr deviceId ↔ blkaddr ≠ erofsNullAddr := by
  rw [DecodeLaw, ErofsChunkIndex.asBytes, ErofsChunkIndex.codec.dec_enc]
  constructor
  · rintro ⟨hb, -⟩ rfl
    exact ErofsChunkIndex.blkaddr_ne_null _ hb
  · intro hne
    obtain ⟨hb, hdev⟩ := ErofsChunkIndex.blkaddr_new
      (show blkaddr < 2 ^ 48 by have := h.resolve_left hne; omega) deviceId
    exact ⟨hb, fun _ => hdev⟩

/-! ## Reads -/

/-- Index `k` of the table is a hole. -/
def HoleAt (ciData : List UInt8) (k : Nat) : Prop :=
  window ciData (k * 8) 8 = List.replicate 8 0xFF

namespace ErofsReader

/-- The same image with another blob device attached. -/
def withBlob (r : ErofsReader) (blob : Option Mmap) : ErofsReader := { r with blobMmap := blob }

variable {r : ErofsReader} {nid : Nat} {v : ErofsInode} {ciData : List UInt8}

/-- The chunks of the range that are no holes are read from their device as `f`. -/
def DataServed (r : ErofsReader) (ciData : List UInt8) (bits : Nat) (f : Nat → UInt8)
    (lo hi : Nat) : Prop :=
  ∀ k off n, lo ≤ k * 2 ^ bits + off → k * 2 ^ bits + off + n ≤ hi → off + n ≤ 2 ^ bits → 0 < n →
    ¬ HoleAt ciData k → ∃ ci, chunkIndexAt ciData k = .ok ci ∧
      r.chunkSource ci off n = .ok (some (part f (k * 2 ^ bits + off) n))

/-- The bytes of the range that lie in a hole are zero. -/
def ZeroInHoles (ciData : List UInt8) (bits : Nat) (f : Nat → UInt8) (lo hi : Nat) : Prop :=
  ∀ p, lo ≤ p → p < hi → HoleAt ciData (p / 2 ^ bits) → f p = 0

/-- All three reads succeed on holes and return zeros for them, and the data of the device
elsewhere, whatever blob device is attached. -/
def HoleLaw (r : ErofsReader) (nid : Nat) (v : ErofsInode) (ciData : List UInt8) : Prop :=
  ∀ (blob : Option Mmap) (f : Nat → UInt8) (offset size : Nat), offset < v.size.toNat →
    (r.withBlob blob).DataServed ciData (r.chunkbits v) f offset (offset + readRange v offset size) →
    ZeroInHoles ciData (r.chunkbits v) f offset (offset + readRange v offset size) →
    (r.withBlob blob).writeFileDataTo nid v offset size =
        .ok (part f offset (readRange v offset size), readRange v offset size) ∧
      (r.withBlob blob).readFileDataSync nid v offset size =
        .ok (part f offset (readRange v offset size)) ∧
      (r.withBlob blob).readFileData nid v offset size =
        .ok (part f offset (readRange v offset size))

/-- A hole is decoded as an address on a device. -/
theorem chunkIndexAt_hole {k : Nat} (hk : HoleAt ciData k) (hlen : ciData.length < 2 ^ 63) :
    chunkIndexAt ciData k = .ok ⟨0xFFFF, 0xFFFF, 0xFFFFFFFF⟩ := by
  have hwin : window ciData (k * 8) (List.replicate 8 (0xFF : UInt8)).length =
    List.replicate 8 0xFF := hk
  have hle := le_of_window_eq hwin (by decide)
  rw [List.length_replicate] at hle
  rw [chunkIndexAt_ok hle (by omega)]
  exact congrArg _ (congrArg ErofsChunkIndex.codec.dec hk)

/-- A read of a hole asks for a device, and fails without one. -/
theorem chunkSource_hole (r : ErofsReader) {off : Nat} (hoff : off < 2 ^ 63) (n : Nat) :
    (r.withBlob none).chunkSource ⟨0xFFFF, 0xFFFF, 0xFFFFFFFF⟩ off n =
      ioError .notFound "blob device not available" := by
  rw [chunkSource_blob _ (by decide) hoff]
  rfl

/-- Without holes the range is served. -/
theorem DataServed.serves {bits : Nat} {f : Nat → UInt8} {lo hi : Nat}
    (h : r.DataServed ciData bits f lo hi) (hno : ∀ k, ¬ HoleAt ciData k) :
    r.Serves ciData bits f lo hi := by
  intro k off n hlo hhi hoff hpos
  obtain ⟨ci, hci, hsrc⟩ := h k off n hlo hhi hoff hpos (hno k)
  exact ⟨ci, _, hci, hsrc, rfl⟩

/-- The first byte of a hole, read without a device. -/
theorem writeFileDataTo_hole (h : r.chunkIndexes nid v = .ok ciData) {k : Nat}
    (hk : HoleAt ciData k) (hin : k * 2 ^ r.chunkbits v < v.size.toNat) :
    (r.withBlob none).writeFileDataTo nid v (k * 2 ^ r.chunkbits v) 1 =
      ioError .notFound "blob device not available" := by
  obtain ⟨hlayout, hbits, hlen, hlt⟩ := table_of_chunkIndexes h
  have hpow := Nat.two_pow_pos (r.chunkbits v)
  have hidx : ¬ k ≥ divCeil v.size.toNat (2 ^ r.chunkbits v) := by
    have := (lt_divCeil_iff hpow).mpr hin
    omega
  have hflat := not_flat hlayout
  have hloop : (r.withBlob none).writeChunkLoop (chunkIndexAt ciData) (r.chunkbits v)
      (divCeil v.size.toNat (2 ^ r.chunkbits v)) 1 (k * 2 ^ r.chunkbits v) [] =
      ioError .notFound "blob device not available" := by
    rw [writeChunkLoop, dif_pos Nat.one_pos]
    dsimp only
    rw [Nat.mul_div_cancel _ hpow, Nat.mul_mod_left, if_neg hidx, chunkIndexAt_hole hk hlt, bind_ok,
      chunkSource_hole r (by decide), bind_ioError]
  rw [writeFileDataTo, writeFileDataWith, if_neg (by omega)]
  dsimp only
  rw [if_neg hflat, if_pos hlayout, show min 1 (v.size.toNat - k * 2 ^ r.chunkbits v) = 1 by omega,
    writeChunkDataTo]
  show (checkedShl 64 (r.chunkbits v) >>= _) = _
  rw [checkedShl_ok hbits, bind_ok]
  show (r.chunkIndexes nid v >>= _) = _
  rw [h, bind_ok]
  show ((r.withBlob none).writeChunkLoop (chunkIndexAt ciData) (r.chunkbits v) _ 1 _ [] >>= _) = _
  rw [hloop]
  rfl

/-- **Holes.** For an inode whose table is read, all three reads treat holes as zeros exactly
when the table has none. -/
theorem holeLaw_iff_no_hole (h : r.chunkIndexes nid v = .ok ciData) :
    HoleLaw r nid v ciData ↔ ∀ k, ¬ HoleAt ciData k := by
  obtain ⟨hlayout, hbits, hlen, hlt⟩ := table_of_chunkIndexes h
  constructor
  · intro hlaw k hk
    have hwin : window ciData (k * 8) (List.replicate 8 (0xFF : UInt8)).length =
      List.replicate 8 0xFF := hk
    have hle := le_of_window_eq hwin (by decide)
    rw [List.length_replicate] at hle
    have hin : k * 2 ^ r.chunkbits v < v.size.toNat :=
      (lt_divCeil_iff (Nat.two_pow_pos _)).mp (by omega)
    have hrange : readRange v (k * 2 ^ r.chunkbits v) 1 = 1 := by
      rw [readRange]
      omega
    have hdiv : ∀ p, k * 2 ^ r.chunkbits v ≤ p → p < k * 2 ^ r.chunkbits v + 1 →
        p / 2 ^ r.chunkbits v = k := by
      intro p hp hp'
      rw [show p = k * 2 ^ r.chunkbits v by omega, Nat.mul_div_cancel _ (Nat.two_pow_pos _)]
    -- the first byte of the hole, read without a device
    obtain ⟨hread, -, -⟩ := hlaw none (fun _ => 0) (k * 2 ^ r.chunkbits v) 1 hin
      (by
        intro j off n hlo hhi hoff hpos hno
        rw [hrange] at hhi
        have hj : j = k := by
          rw [← hdiv (j * 2 ^ r.chunkbits v + off) hlo (by omega), Nat.mul_comm,
            Nat.mul_add_div (Nat.two_pow_pos _), Nat.div_eq_of_lt (by omega), Nat.add_zero]
        exact absurd (hj ▸ hk) hno)
      (fun _ _ _ _ => rfl)
    rw [writeFileDataTo_hole h hk hin] at hread
    cases hread
  · intro hno blob f offset size hoff hdata _
    have hserves : (r.withBlob blob).ServesFile nid v f offset
        (offset + readRange v offset size) :=
      ⟨hlayout, hbits, by rw [readRange]; omega, ciData, h, hdata.serves hno⟩
    exact hserves.reads (Nat.le_refl _) (Nat.le_refl _) hoff

end ErofsReader

/-! ## The law of holes -/

/-- **A hole is a hole** neither in an index nor in a read: an index is decoded as it was made
exactly when it is no hole, and the reads of an inode follow the law exactly when its table has
no hole. -/
theorem holes_iff {blkaddr : Nat} (hblkaddr : blkaddr = erofsNullAddr ∨ blkaddr < 2 ^ 48 - 1)
    (deviceId : UInt16) {r : ErofsReader} {nid : Nat} {v : ErofsInode} {ciData : List UInt8}
    (h : r.chunkIndexes nid v = .ok ciData) :
    (DecodeLaw blkaddr deviceId ↔ blkaddr ≠ erofsNullAddr) ∧
      (r.HoleLaw nid v ciData ↔ ∀ k, ¬ HoleAt ciData k) :=
  ⟨decodeLaw_iff_ne_null hblkaddr deviceId, ErofsReader.holeLaw_iff_no_hole h⟩

/-- A file of one chunk that is a hole. -/
def holeInode : Build.InodeInfo :=
  { mode := 0o100644, uid := 0, gid := 0, size := 1, mtime := 1700000000, mtimeNsec := 0, nlink := 1
    ino := 2, isExtended := Build.isExtendedFor 1 0 0 1
    data := .regularFile [⟨erofsNullAddr, 1⟩], xattrs := [] }

theorem chunkIndexes_holeInode : ∃ r : ErofsReader,
    r.chunkIndexes 0 (Build.inodeView holeInode 1700000000 12) = .ok (List.replicate 8 0xFF) := by
  have hlen : (Build.inodeBytes holeInode 1700000000 12).length = 40 := by
    rw [Build.length_inodeBytes]
    rfl
  obtain ⟨r, -, hopened⟩ := Build.exists_opened (Build.inodeBytes holeInode 1700000000 12)
    (by rw [hlen]; decide) 0 1700000000 none
  have hslot : window (Build.inodeBytes holeInode 1700000000 12) (0 * 32)
      (Build.inodeBytes holeInode 1700000000 12).length =
      Build.inodeBytes holeInode 1700000000 12 := window_all _
  have hbits : r.chunkbits (Build.inodeView holeInode 1700000000 12) = 12 := by
    rw [ErofsReader.chunkbits, hopened.blkszbits]
    rfl
  exact ⟨r, Roundtrip.chunkIndexes_ok (hopened.standsAt hslot (Roundtrip.inodeBytes_ne_nil _ _ _))
    (by unfold Roundtrip.CountFits; decide) rfl hbits (by decide) rfl⟩

theorem holes_iff_holeInode :
    ∃ r : ErofsReader, (DecodeLaw erofsNullAddr 1 ↔ erofsNullAddr ≠ erofsNullAddr) ∧
      (r.HoleLaw 0 (Build.inodeView holeInode 1700000000 12) (List.replicate 8 0xFF) ↔
        ∀ k, ¬ HoleAt (List.replicate 8 0xFF) k) := by
  obtain ⟨r, hr⟩ := chunkIndexes_holeInode
  exact ⟨r, holes_iff (.inl rfl) 1 hr⟩

/-- The sentinel is decoded as the largest address of 48 bits, and a read of the hole fails
for want of a device. -/
theorem hole_not_read :
    ¬ DecodeLaw erofsNullAddr 1 ∧ ∃ r : ErofsReader,
      HoleAt (List.replicate 8 0xFF) 0 ∧
      r.chunkIndexes 0 (Build.inodeView holeInode 1700000000 12) = .ok (List.replicate 8 0xFF) ∧
      ¬ r.HoleLaw 0 (Build.inodeView holeInode 1700000000 12) (List.replicate 8 0xFF) := by
  obtain ⟨r, hr⟩ := chunkIndexes_holeInode
  have hhole : HoleAt (List.replicate 8 0xFF) 0 := rfl
  refine ⟨fun h => (decodeLaw_iff_ne_null (.inl rfl) 1).mp h rfl, r, hhole, hr, ?_⟩
  intro h
  exact (ErofsReader.holeLaw_iff_no_hole hr).mp h 0 hhole

end ErofsUtils.Fs
