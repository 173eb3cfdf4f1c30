import ErofsUtils.Metadata.Format

/-! # Chunk indexes, directory entries, the superblock and the device slot -/
namespace ErofsUtils.Metadata
open ErofsUtils.Rust ErofsUtils.Bytes

structure ErofsChunkIndex where
  startblkHi : UInt16
  deviceId : UInt16
  startblkLo : UInt32
deriving DecidableEq

namespace ErofsChunkIndex

def codec : Codec ErofsChunkIndex :=
  (.pair .u16 <| .pair .u16 .u32 : Codec _).record
    (fun (startblkHi, deviceId, startblkLo) => { startblkHi, deviceId, startblkLo })
    (fun v => (v.startblkHi, v.deviceId, v.startblkLo))
    (fun _ => rfl)

theorem codec_size : codec.size = erofsChunkIndexSize := rfl

def blkaddr (v : ErofsChunkIndex) : Nat := v.startblkHi.toNat <<< 32 ||| v.startblkLo.toNat

def new (blkaddr : Nat) (deviceId : UInt16) : ErofsChunkIndex :=
  if blkaddr = erofsNullAddr then
    { startblkHi := 0xFFFF, deviceId := 0xFFFF, startblkLo := 0xFFFFFFFF }
  else
    { startblkHi := UInt16.ofNat (blkaddr >>> 32), deviceId, startblkLo := UInt32.ofNat blkaddr }

def asBytes (v : ErofsChunkIndex) : List UInt8 := codec.enc v

@[simp] theorem length_asBytes (v : ErofsChunkIndex) : v.asBytes.length = 8 := codec.length_enc v

theorem blkaddr_eq (v : ErofsChunkIndex) :
    v.blkaddr = v.startblkHi.toNat * 2 ^ 32 + v.startblkLo.toNat := by
  rw [blkaddr, ← Nat.shiftLeft_add_eq_or_of_lt v.startblkLo.toNat_lt, Nat.shiftLeft_eq]

theorem blkaddr_lt (v : ErofsChunkIndex) : v.blkaddr < 2 ^ 48 := by
  have hhi := v.startblkHi.toNat_lt
  have hlo := v.startblkLo.toNat_lt
  rw [blkaddr_eq]
  omega

/-- No stored address is the sentinel: it has sixteen bits fewer. -/
theorem blkaddr_ne_null (v : ErofsChunkIndex) : v.blkaddr ≠ erofsNullAddr := by
  have := v.blkaddr_lt
  rw [erofsNullAddr]
  omega

theorem blkaddr_new {blkaddr : Nat} (h : blkaddr < 2 ^ 48) (deviceId : UInt16) :
    (new blkaddr deviceId).blkaddr = blkaddr ∧ (new blkaddr deviceId).deviceId = deviceId := by
  have hne : blkaddr ≠ erofsNullAddr := by rw [erofsNullAddr]; omega
  rw [new, if_neg hne]
  refine ⟨?_, rfl⟩
  rw [ErofsChunkIndex.blkaddr, join48, Nat.mod_eq_of_lt h]

end ErofsChunkIndex

structure ErofsDirent where
  nid : UInt64
  nameoff : UInt16
  fileType : UInt8
  reserved : UInt8
deriving DecidableEq

namespace ErofsDirent

def codec : Codec ErofsDirent :=
  (.pair .u64 <| .pair .u16 <| .pair .u8 .u8 : Codec _).record
    (fun (nid, nameoff, fileType, reserved) => { nid, nameoff, fileType, reserved })
    (fun v => (v.nid, v.nameoff, v.fileType, v.reserved))
    (fun _ => rfl)

theorem codec_size : codec.size = erofsDirentSize := rfl

def new (nid : Nat) (nameoff : UInt16) (fileType : UInt8) : ErofsDirent :=
  { nid := UInt64.ofNat nid, nameoff, fileType, reserved := 0 }

def asBytes (v : ErofsDirent) : List UInt8 := codec.enc v

@[simp] theorem length_asBytes (v : ErofsDirent) : v.asBytes.length = 12 := codec.length_enc v

end ErofsDirent

structure ErofsSuperblock where
  magic : UInt32 := 0
  checksum : UInt32 := 0
  featureCompat : UInt32 := 0
  blkszbits : UInt8 := 0
  sbExtslots : UInt8 := 0
  rootnid2b : UInt16 := 0
  inos : UInt64 := 0
  epoch : UInt64 := 0
  fixedNsec : UInt32 := 0
  blocksLo : UInt32 := 0
  metaBlkaddr : UInt32 := 0
  xattrBlkaddr : UInt32 := 0
  uuid : Vector UInt8 16 := Vector.replicate 16 0
  volumeName : Vector UInt8 16 := Vector.replicate 16 0
  featureIncompat : UInt32 := 0
  comprOrDistance : UInt16 := 0
  extraDevices : UInt16 := 0
  devtSlotoff : UInt16 := 0
  dirblkbits : UInt8 := 0
  xattrPrefixCount : UInt8 := 0
  xattrPrefixStart : UInt32 := 0
  packedNid : UInt64 := 0
  xattrFilterReserved : UInt8 := 0
  reserved2 : Vector UInt8 3 := Vector.replicate 3 0
  buildTime : UInt64 := 0
  rootnid8b : UInt64 := 0
  reserved3 : Vector UInt8 4 := Vector.replicate 4 0
deriving DecidableEq

namespace ErofsSuperblock

def codec : Codec ErofsSuperblock :=
  (.pair .u32 <| .pair .u32 <| .pair .u32 <| .pair .u8 <| .pair .u8 <| .pair .u16 <| .pair .u64 <|
    .pair .u64 <| .pair .u32 <| .pair .u32 <| .pair .u32 <| .pair .u32 <| .pair (.array 16) <|
    .pair (.array 16) <| .pair .u32 <| .pair .u16 <| .pair .u16 <| .pair .u16 <| .pair .u8 <|
    .pair .u8 <| .pair .u32 <| .pair .u64 <| .pair .u8 <| .pair (.array 3) <| .pair .u64 <|
    .pair .u64 (.array 4) : Codec _).record
    (fun (magic, checksum, featureCompat, blkszbits, sbExtslots, rootnid2b, inos, epoch,
        fixedNsec, blocksLo, metaBlkaddr, xattrBlkaddr, uuid, volumeName, featureIncompat,
        comprOrDistance, extraDevices, devtSlotoff, dirblkbits, xattrPrefixCount,
        xattrPrefixStart, packedNid, xattrFilterReserved, reserved2, buildTime, rootnid8b,
        reserved3) =>
      { magic, checksum, featureCompat, blkszbits, sbExtslots, rootnid2b, inos, epoch,
        fixedNsec, blocksLo, metaBlkaddr, xattrBlkaddr, uuid, volumeName, featureIncompat,
        comprOrDistance, extraDevices, devtSlotoff, dirblkbits, xattrPrefixCount,
        xattrPrefixStart, packedNid, xattrFilterReserved, reserved2, buildTime, rootnid8b,
        reserved3 })
    (fun v => (v.magic, v.checksum, v.featureCompat, v.blkszbits, v.sbExtslots, v.rootnid2b,
      v.inos, v.epoch, v.fixedNsec, v.blocksLo, v.metaBlkaddr, v.xattrBlkaddr, v.uuid,
      v.volumeName, v.featureIncompat, v.comprOrDistance, v.extraDevices, v.devtSlotoff,
      v.dirblkbits, v.xattrPrefixCount, v.xattrPrefixStart, v.packedNid, v.xattrFilterReserved,
      v.reserved2, v.buildTime, v.rootnid8b, v.reserved3))
    (fun _ => rfl)

theorem codec_size : codec.size = erofsSbBaseSize := rfl

def rootNid (sb : ErofsSuperblock) : Nat := sb.rootnid2b.toNat
def blocks (sb : ErofsSuperblock) : Nat := sb.blocksLo.toNat

def new (featureCompat featureIncompat : UInt32) (rootNid : UInt16) (inos epoch : UInt64)
    (blocks : Nat) (metaBlkaddr : UInt32) (extraDevices devtSlotoff : UInt16)
    (uuid : Vector UInt8 16) : ErofsSuperblock :=
  { magic := erofsSuperMagicV1
    featureCompat := featureCompat &&& ~~~ erofsFeatureCompatSbChksum
    blkszbits := erofsBlkszbits
    rootnid2b := rootNid
    inos, epoch
    blocksLo := UInt32.ofNat blocks
    metaBlkaddr, uuid, featureIncompat, extraDevices, devtSlotoff }

def asBytes (sb : ErofsSuperblock) : List UInt8 := codec.enc sb

@[simp] theorem length_asBytes (sb : ErofsSuperblock) : sb.asBytes.length = 128 :=
  codec.length_enc sb

end ErofsSuperblock

structure ErofsDeviceSlot where
  tag : Vector UInt8 64 := Vector.replicate 64 0
  blocksLo : UInt32 := 0
  uniaddrLo : UInt32 := 0
  blocksHi : UInt32 := 0
  uniaddrHi : UInt16 := 0
  reserved : Vector UInt8 50 := Vector.replicate 50 0
deriving DecidableEq

namespace ErofsDeviceSlot

def codec : Codec ErofsDeviceSlot :=
  (.pair (.array 64) <| .pair .u32 <| .pair .u32 <| .pair .u32 <| .pair .u16 <|
    .array 50 : Codec _).record
    (fun (tag, blocksLo, uniaddrLo, blocksHi, uniaddrHi, reserved) =>
      { tag, blocksLo, uniaddrLo, blocksHi, uniaddrHi, reserved })
    (fun v => (v.tag, v.blocksLo, v.uniaddrLo, v.blocksHi, v.uniaddrHi, v.reserved))
    (fun _ => rfl)

theorem codec_size : codec.size = erofsDeviceslotSize := rfl

def new (blocks : Nat) : ErofsDeviceSlot :=
  { blocksLo := UInt32.ofNat blocks, blocksHi := UInt32.ofNat (blocks >>> 32) }

def asBytes (v : ErofsDeviceSlot) : List UInt8 := codec.enc v

@[simp] theorem length_asBytes (v : ErofsDeviceSlot) : v.asBytes.length = 128 :=
  codec.length_enc v

end ErofsDeviceSlot
end ErofsUtils.Metadata
