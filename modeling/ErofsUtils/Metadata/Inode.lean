import ErofsUtils.Metadata.Format

/-! # On-disk inodes

The two packed headers and the view over either of them. A field of a header is
the integer its bytes hold; the codec of the header says where the bytes stand. -/
namespace ErofsUtils.Metadata
open ErofsUtils.Rust ErofsUtils.Bytes

structure ErofsInodeCompact where
  iFormat : UInt16
  iXattrIcount : UInt16
  iMode : UInt16
  iNb : UInt16
  iSize : UInt32
  iMtime : UInt32
  iU : UInt32
  iIno : UInt32
  iUid : UInt16
  iGid : UInt16
  iReserved : UInt32
deriving DecidableEq

namespace ErofsInodeCompact

def codec : Codec ErofsInodeCompact :=
  (.pair .u16 <| .pair .u16 <| .pair .u16 <| .pair .u16 <| .pair .u32 <| .pair .u32 <|
    .pair .u32 <| .pair .u32 <| .pair .u16 <| .pair .u16 .u32 : Codec _).record
    (fun (iFormat, iXattrIcount, iMode, iNb, iSize, iMtime, iU, iIno, iUid, iGid, iReserved) =>
      { iFormat, iXattrIcount, iMode, iNb, iSize, iMtime, iU, iIno, iUid, iGid, iReserved })
    (fun v => (v.iFormat, v.iXattrIcount, v.iMode, v.iNb, v.iSize, v.iMtime, v.iU, v.iIno,
      v.iUid, v.iGid, v.iReserved))
    (fun _ => rfl)

theorem codec_size : codec.size = erofsInodeCompactSize := rfl

def new (iFormat iMode iNb : UInt16) (iSize iMtime iU iIno : UInt32) (iUid iGid : UInt16) :
    ErofsInodeCompact :=
  { iFormat, iXattrIcount := 0, iMode, iNb, iSize, iMtime, iU, iIno, iUid, iGid, iReserved := 0 }

def asBytes (v : ErofsInodeCompact) : List UInt8 := codec.enc v

@[simp] theorem length_asBytes (v : ErofsInodeCompact) : v.asBytes.length = 32 :=
  codec.length_enc v

end ErofsInodeCompact

structure ErofsInodeExtended where
  iFormat : UInt16
  iXattrIcount : UInt16
  iMode : UInt16
  iNb : UInt16
  iSize : UInt64
  iU : UInt32
  iIno : UInt32
  iUid : UInt32
  iGid : UInt32
  iMtime : UInt64
  iMtimeNsec : UInt32
  iNlink : UInt32
  iReserved2 : Vector UInt8 16
deriving DecidableEq

namespace ErofsInodeExtended

def codec : Codec ErofsInodeExtended :=
  (.pair .u16 <| .pair .u16 <| .pair .u16 <| .pair .u16 <| .pair .u64 <| .pair .u32 <|
    .pair .u32 <| .pair .u32 <| .pair .u32 <| .pair .u64 <| .pair .u32 <| .pair .u32 <|
    .array 16 : Codec _).record
    (fun (iFormat, iXattrIcount, iMode, iNb, iSize, iU, iIno, iUid, iGid, iMtime, iMtimeNsec,
        iNlink, iReserved2) =>
      { iFormat, iXattrIcount, iMode, iNb, iSize, iU, iIno, iUid, iGid, iMtime, iMtimeNsec,
        iNlink, iReserved2 })
    (fun v => (v.iFormat, v.iXattrIcount, v.iMode, v.iNb, v.iSize, v.iU, v.iIno, v.iUid, v.iGid,
      v.iMtime, v.iMtimeNsec, v.iNlink, v.iReserved2))
    (fun _ => rfl)

theorem codec_size : codec.size = erofsInodeExtendedSize := rfl

def new (iFormat iMode iNb : UInt16) (iSize : UInt64) (iU iIno iUid iGid : UInt32)
    (iMtime : UInt64) (iMtimeNsec iNlink : UInt32) : ErofsInodeExtended :=
  { iFormat, iXattrIcount := 0, iMode, iNb, iSize, iU, iIno, iUid, iGid, iMtime, iMtimeNsec,
    iNlink, iReserved2 := Vector.replicate 16 0 }

def asBytes (v : ErofsInodeExtended) : List UInt8 := codec.enc v

@[simp] theorem length_asBytes (v : ErofsInodeExtended) : v.asBytes.length = 64 :=
  codec.length_enc v

end ErofsInodeExtended

/-- View of an on-disk inode. -/
inductive ErofsInode where
  | compact (c : ErofsInodeCompact)
  | extended (e : ErofsInodeExtended)
deriving DecidableEq

namespace ErofsInode

/-- The first two bytes select the format. -/
def cast (data : List UInt8) : IoResult ErofsInode :=
  if data.length < 2 then ioError .unexpectedEof "too small for inode header"
  else
    let iFormat := Codec.u16.dec data
    if (iFormat >>> erofsIVersionBit) &&& 1 = erofsInodeLayoutCompact then
      if data.length < erofsInodeCompactSize then
        ioError .unexpectedEof "too small for compact inode"
      else do
        let c ← ErofsInodeCompact.codec.castRef data
        pure (.compact c)
    else if data.length < erofsInodeExtendedSize then
      ioError .unexpectedEof "too small for extended inode"
    else do
      let e ← ErofsInodeExtended.codec.castRef data
      pure (.extended e)

theorem cast_noPanic (data : List UInt8) : NoPanic (cast data) := by
  unfold cast
  dsimp only
  split
  · exact noPanic_ioError _ _
  split
  · split
    · exact noPanic_ioError _ _
    · rw [Codec.castRef_ok _ (by rw [ErofsInodeCompact.codec_size]; omega)]
      exact noPanic_ok _
  · split
    · exact noPanic_ioError _ _
    · rw [Codec.castRef_ok _ (by rw [ErofsInodeExtended.codec_size]; omega)]
      exact noPanic_ok _

def format : ErofsInode → UInt16
  | compact c => c.iFormat
  | extended e => e.iFormat

def dataLayout (v : ErofsInode) : UInt16 := (v.format >>> erofsIDatalayoutBit) &&& 0x07

def isCompact : ErofsInode → Bool
  | compact _ => true
  | extended _ => false

def headerSize : ErofsInode → Nat
  | compact _ => erofsInodeCompactSize
  | extended _ => erofsInodeExtendedSize

def xattrIcount : ErofsInode → UInt16
  | compact c => c.iXattrIcount
  | extended e => e.iXattrIcount

def xattrSize (v : ErofsInode) : Nat :=
  let cnt := v.xattrIcount
  if cnt = 0 then 0 else cnt.toNat * 4 + 8

theorem headerSize_add_xattrSize_le (v : ErofsInode) : v.headerSize + v.xattrSize ≤ 2 ^ 19 := by
  have hcount := v.xattrIcount.toNat_lt
  have hheader : v.headerSize ≤ 64 := by
    cases v with
    | compact c => show 32 ≤ 64; decide
    | extended e => show 64 ≤ 64; decide
  unfold xattrSize
  dsimp only
  split <;> omega

def mode : ErofsInode → UInt16
  | compact c => c.iMode
  | extended e => e.iMode

def size : ErofsInode → UInt64
  | compact c => c.iSize.toUInt64
  | extended e => e.iSize

/-- Absolute seconds; a compact inode counts from `epoch`. -/
def mtime (v : ErofsInode) (epoch : UInt64) : IoResult UInt64 :=
  match v with
  | compact c => do
    let t ← checkedAdd 64 epoch.toNat c.iMtime.toNat
    pure (UInt64.ofNat t)
  | extended e => pure e.iMtime

def mtimeNsec : ErofsInode → UInt32
  | compact _ => 0
  | extended e => e.iMtimeNsec

def nlink : ErofsInode → UInt32
  | compact _ => 1
  | extended e => e.iNlink

def uid : ErofsInode → UInt32
  | compact c => c.iUid.toUInt32
  | extended e => e.iUid

def gid : ErofsInode → UInt32
  | compact c => c.iGid.toUInt32
  | extended e => e.iGid

def ino : ErofsInode → UInt32
  | compact c => c.iIno
  | extended e => e.iIno

def iU : ErofsInode → UInt32
  | compact c => c.iU
  | extended e => e.iU

def nb : ErofsInode → UInt16
  | compact c => c.iNb
  | extended e => e.iNb

def rdev (v : ErofsInode) : UInt32 := v.iU

def chunkFormat (v : ErofsInode) : UInt16 := v.iU.toUInt16

def startblk (v : ErofsInode) : Nat := v.nb.toNat <<< 32 ||| v.iU.toNat

end ErofsInode

def compactIFormat (datalayout : UInt16) (nlink1 : Bool) : UInt16 :=
  let fmt := (erofsInodeLayoutCompact <<< erofsIVersionBit) |||
    (datalayout <<< erofsIDatalayoutBit)
  if nlink1 then fmt ||| (1 <<< erofsINlink1Bit) else fmt

def extendedIFormat (datalayout : UInt16) : UInt16 :=
  (erofsInodeLayoutExtended <<< erofsIVersionBit) ||| (datalayout <<< erofsIDatalayoutBit)

/-! ## Casting what was encoded -/

/-- A header of either format, as the builder has it before it is stored. -/
def ErofsInode.asBytes : ErofsInode → List UInt8
  | compact c => c.asBytes
  | extended e => e.asBytes

@[simp] theorem ErofsInode.length_asBytes (v : ErofsInode) : v.asBytes.length = v.headerSize := by
  cases v with
  | compact c => exact c.length_asBytes
  | extended e => exact e.length_asBytes

/-- The version bit of a header agrees with its format. -/
def ErofsInode.VersionOk (v : ErofsInode) : Prop :=
  ((v.format >>> erofsIVersionBit) &&& 1 = erofsInodeLayoutCompact) ↔ v.isCompact = true

theorem ErofsInode.u16_dec_asBytes (v : ErofsInode) (rest : List UInt8) :
    Codec.u16.dec (v.asBytes ++ rest) = v.format := by
  cases v with
  | compact c =>
    have h : c.asBytes ++ rest = Codec.u16.enc c.iFormat ++
        (c.asBytes.drop 2 ++ rest) := by
      rw [← List.append_assoc]
      congr 1
    exact h ▸ Codec.u16.dec_enc_append _ _
  | extended e =>
    have h : e.asBytes ++ rest = Codec.u16.enc e.iFormat ++
        (e.asBytes.drop 2 ++ rest) := by
      rw [← List.append_assoc]
      congr 1
    exact h ▸ Codec.u16.dec_enc_append _ _

/-- A stored header is the view the reader takes of it, whatever follows. -/
theorem ErofsInode.cast_asBytes {v : ErofsInode} (hv : v.VersionOk) (rest : List UInt8) :
    ErofsInode.cast (v.asBytes ++ rest) = .ok v := by
  have hlen : (v.asBytes ++ rest).length = v.headerSize + rest.length := by simp
  unfold ErofsInode.cast
  simp only [ErofsInode.u16_dec_asBytes]
  cases v with
  | compact c =>
    have hc := hv.mpr rfl
    simp only [headerSize, erofsInodeCompactSize] at hlen
    rw [if_neg (by omega), if_pos hc, if_neg (by rw [erofsInodeCompactSize]; omega)]
    simp [ErofsInode.asBytes, ErofsInodeCompact.asBytes]
  | extended e =>
    have he : ¬ _ := fun h => Bool.false_ne_true (hv.mp h)
    simp only [headerSize, erofsInodeExtendedSize] at hlen
    rw [if_neg (by omega), if_neg he, if_neg (by rw [erofsInodeExtendedSize]; omega)]
    simp [ErofsInode.asBytes, ErofsInodeExtended.asBytes]

end ErofsUtils.Metadata
