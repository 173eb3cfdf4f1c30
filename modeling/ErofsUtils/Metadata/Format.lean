import ErofsUtils.Bytes.Codec
import ErofsUtils.Bytes.RoundUp

/-! # On-disk constants and helpers

The constants of the format, the extended-attribute name table and the size
formulas shared by the builder and the reader. -/
namespace ErofsUtils.Metadata
open ErofsUtils.Rust ErofsUtils.Bytes

def erofsSuperMagicV1 : UInt32 := 0xE0F5E1E2
def erofsSuperOffset : Nat := 1024

def erofsBlockSize : Nat := 4096
def erofsBlkszbits : UInt8 := 12
def erofsSlotsize : Nat := 32

def erofsFeatureCompatSbChksum : UInt32 := 0x1
def erofsFeatureCompatMtime : UInt32 := 0x2
def erofsFeatureIncompatChunkedFile : UInt32 := 0x4
def erofsFeatureIncompatDeviceTable : UInt32 := 0x8

def erofsInodeFlatPlain : UInt16 := 0
def erofsInodeFlatInline : UInt16 := 2
def erofsInodeChunkBased : UInt16 := 4

def erofsInodeLayoutCompact : UInt16 := 0
def erofsInodeLayoutExtended : UInt16 := 1
def erofsIVersionBit : UInt16 := 0
def erofsIDatalayoutBit : UInt16 := 1
def erofsINlink1Bit : UInt16 := 4

def erofsChunkFormatIndexes : UInt16 := 0x0020

def erofsFtRegFile : UInt8 := 1
def erofsFtDir : UInt8 := 2
def erofsFtChrdev : UInt8 := 3
def erofsFtBlkdev : UInt8 := 4
def erofsFtFifo : UInt8 := 5
def erofsFtSock : UInt8 := 6
def erofsFtSymlink : UInt8 := 7

/-- `u64::MAX`. -/
def erofsNullAddr : Nat := 2 ^ 64 - 1

def erofsXattrIndexUser : UInt8 := 1
def erofsXattrIndexPosixAclAccess : UInt8 := 2
def erofsXattrIndexPosixAclDefault : UInt8 := 3
def erofsXattrIndexTrusted : UInt8 := 4
def erofsXattrIndexLustre : UInt8 := 5
def erofsXattrIndexSecurity : UInt8 := 6

def erofsXattrIbodyHeaderSize : Nat := 12
def erofsXattrEntryHeaderSize : Nat := 4

def erofsSbBaseSize : Nat := 128
def erofsInodeCompactSize : Nat := 32
def erofsInodeExtendedSize : Nat := 64
def erofsChunkIndexSize : Nat := 8
def erofsDirentSize : Nat := 12
def erofsDeviceslotSize : Nat := 128

/-- `(val + align - 1) & !(align - 1)`. -/
def roundUp (val align : Nat) : Nat := andNot (val + align - 1) (align - 1)

theorem roundUp_two_pow (n k : Nat) : roundUp n (2 ^ k) = alignUp n (2 ^ k) :=
  andNot_eq_alignUp n k

@[simp] theorem roundUp_four (n : Nat) : roundUp n 4 = alignUp n 4 := roundUp_two_pow n 2
/-! ## 48-bit block addresses -/

/-- A block address cut into its high sixteen and low thirty-two bits, and joined again. -/
theorem join48 (n : Nat) :
    (UInt16.ofNat (n >>> 32)).toNat <<< 32 ||| (UInt32.ofNat n).toNat = n % 2 ^ 48 := by
  rw [← Nat.shiftLeft_add_eq_or_of_lt (UInt32.toNat_lt _), Nat.shiftLeft_eq,
    Nat.shiftRight_eq_div_pow, UInt16.toNat_ofNat', UInt32.toNat_ofNat']
  omega

/-! ## Extended-attribute names -/

def ascii (l : List Char) : List UInt8 := l.map Char.toUInt8

def userDot := ascii ['u', 's', 'e', 'r', '.']
def aclAccess := ascii ['s', 'y', 's', 't', 'e', 'm', '.', 'p', 'o', 's', 'i', 'x', '_', 'a', 'c',
  'l', '_', 'a', 'c', 'c', 'e', 's', 's']
def aclDefault := ascii ['s', 'y', 's', 't', 'e', 'm', '.', 'p', 'o', 's', 'i', 'x', '_', 'a', 'c',
  'l', '_', 'd', 'e', 'f', 'a', 'u', 'l', 't']
def trustedDot := ascii ['t', 'r', 'u', 's', 't', 'e', 'd', '.']
def lustreDot := ascii ['l', 'u', 's', 't', 'r', 'e', '.']
def securityDot := ascii ['s', 'e', 'c', 'u', 'r', 'i', 't', 'y', '.']

/-- The bytes an index stands for at the front of a name. -/
def erofsXattrPrefix (index : UInt8) : Option (List UInt8) :=
  if index = erofsXattrIndexUser then some userDot
  else if index = erofsXattrIndexPosixAclAccess then some aclAccess
  else if index = erofsXattrIndexPosixAclDefault then some aclDefault
  else if index = erofsXattrIndexTrusted then some trustedDot
  else if index = erofsXattrIndexLustre then some lustreDot
  else if index = erofsXattrIndexSecurity then some securityDot
  else none

def stripPrefix (front name : List UInt8) : Option (List UInt8) :=
  if name.take front.length = front then some (name.drop front.length) else none

/-- A full name as its index and the rest of its bytes. -/
def erofsXattrNameSplit (name : List UInt8) : Option (UInt8 × List UInt8) :=
  match stripPrefix securityDot name with
  | some suffix => some (erofsXattrIndexSecurity, suffix)
  | none => match stripPrefix trustedDot name with
  | some suffix => some (erofsXattrIndexTrusted, suffix)
  | none => match stripPrefix userDot name with
  | some suffix => some (erofsXattrIndexUser, suffix)
  | none => match stripPrefix aclAccess name with
  | some suffix => some (erofsXattrIndexPosixAclAccess, suffix)
  | none => match stripPrefix aclDefault name with
  | some suffix => some (erofsXattrIndexPosixAclDefault, suffix)
  | none => match stripPrefix lustreDot name with
  | some suffix => some (erofsXattrIndexLustre, suffix)
  | none => none

theorem stripPrefix_eq_some {front name suffix : List UInt8} :
    stripPrefix front name = some suffix ↔ name = front ++ suffix := by
  unfold stripPrefix
  constructor
  · intro h
    split at h
    · rename_i ht
      rw [← Option.some.inj h]
      exact (List.take_append_drop front.length name).symm.trans (by rw [ht])
    · cases h
  · rintro rfl
    simp

theorem stripPrefix_eq_none {front name : List UInt8} :
    stripPrefix front name = none ↔ ¬ front <+: name := by
  constructor
  · rintro h ⟨suffix, hs⟩
    rw [stripPrefix_eq_some.mpr hs.symm] at h
    cases h
  · intro h
    cases hs : stripPrefix front name with
    | none => rfl
    | some suffix => exact absurd ⟨suffix, (stripPrefix_eq_some.mp hs).symm⟩ h

/-- Splitting a name loses nothing: the index stands for the bytes cut off. -/
theorem erofsXattrNameSplit_join {name suffix : List UInt8} {index : UInt8}
    (h : erofsXattrNameSplit name = some (index, suffix)) :
    ∃ front, erofsXattrPrefix index = some front ∧ name = front ++ suffix := by
  unfold erofsXattrNameSplit at h
  repeat' split at h
  all_goals
    rename_i hs
    cases h
    try exact ⟨_, rfl, stripPrefix_eq_some.mp hs⟩

/-- The names the format can hold. -/
def SupportedName (name : List UInt8) : Prop :=
  ∃ index front, erofsXattrPrefix index = some front ∧ front <+: name

theorem erofsXattrNameSplit_isSome {name : List UInt8} (h : SupportedName name) :
    ∃ index suffix, erofsXattrNameSplit name = some (index, suffix) := by
  obtain ⟨index, front, hf, hp⟩ := h
  cases hs : erofsXattrNameSplit name with
  | some r => exact ⟨r.1, r.2, rfl⟩
  | none =>
    unfold erofsXattrNameSplit at hs
    repeat' split at hs
    all_goals try cases hs
    simp only [stripPrefix_eq_none] at *
    unfold erofsXattrPrefix at hf
    repeat' split at hf
    all_goals
      cases hf
      try contradiction

/-- The bytes that names the format can hold start with. -/
def xattrPrefixes : List (List UInt8) :=
  [userDot, aclAccess, aclDefault, trustedDot, lustreDot, securityDot]

theorem supportedName_iff {name : List UInt8} :
    SupportedName name ↔ ∃ front ∈ xattrPrefixes, front <+: name := by
  constructor
  · rintro ⟨index, front, hf, hp⟩
    refine ⟨front, ?_, hp⟩
    unfold erofsXattrPrefix at hf
    repeat' split at hf
    all_goals
      cases hf
      try simp [xattrPrefixes]
  · rintro ⟨front, hmem, hp⟩
    suffices hindex : ∃ index, erofsXattrPrefix index = some front from
      ⟨hindex.choose, front, hindex.choose_spec, hp⟩
    simp only [xattrPrefixes, List.mem_cons, List.not_mem_nil, or_false] at hmem
    rcases hmem with rfl | rfl | rfl | rfl | rfl | rfl
    · exact ⟨erofsXattrIndexUser, rfl⟩
    · exact ⟨erofsXattrIndexPosixAclAccess, rfl⟩
    · exact ⟨erofsXattrIndexPosixAclDefault, rfl⟩
    · exact ⟨erofsXattrIndexTrusted, rfl⟩
    · exact ⟨erofsXattrIndexLustre, rfl⟩
    · exact ⟨erofsXattrIndexSecurity, rfl⟩

/-! ## Sizes of the extended-attribute body -/

/-- Prefix index, name suffix and value. -/
abbrev Xattr := UInt8 × List UInt8 × List UInt8

def xattrEntrySize (x : Xattr) : Nat :=
  erofsXattrEntryHeaderSize + x.2.1.length + x.2.2.length

def xattrIbodySize (xattrs : List Xattr) : Nat :=
  if xattrs.isEmpty then 0
  else xattrs.foldl (fun size x => size + roundUp (xattrEntrySize x) 4) erofsXattrIbodyHeaderSize

def xattrIcount (ibodySize : Nat) : IoResult UInt16 :=
  if ibodySize = 0 then pure 0
  else do
    let n ← checkedSub (roundUp ibodySize 4) 8
    pure (UInt16.ofNat (n / 4))

/-- The bytes the entries of a body take, each padded to four. -/
def xattrEntriesSize (xattrs : List Xattr) : Nat :=
  (xattrs.map fun x => alignUp (xattrEntrySize x) 4).sum

@[simp] theorem xattrEntriesSize_nil : xattrEntriesSize [] = 0 := rfl
@[simp] theorem xattrEntriesSize_cons (x : Xattr) (xs : List Xattr) :
    xattrEntriesSize (x :: xs) = alignUp (xattrEntrySize x) 4 + xattrEntriesSize xs := rfl

theorem four_dvd_xattrEntriesSize (xs : List Xattr) : 4 ∣ xattrEntriesSize xs := by
  induction xs with
  | nil => simp
  | cons x xs ih => exact Nat.dvd_add (dvd_alignUp _ 4) ih

@[simp] theorem xattrIbodySize_nil : xattrIbodySize [] = 0 := rfl

theorem xattrIbodySize_cons (x : Xattr) (xs : List Xattr) :
    xattrIbodySize (x :: xs) = 12 + xattrEntriesSize (x :: xs) := by
  have foldl_eq : ∀ (ys : List Xattr) (n : Nat),
      ys.foldl (fun size y => size + roundUp (xattrEntrySize y) 4) n = n + xattrEntriesSize ys := by
    intro ys
    induction ys with
    | nil => intro n; rfl
    | cons y ys ih =>
      intro n
      rw [List.foldl_cons, ih, xattrEntriesSize_cons, roundUp_four, Nat.add_assoc]
  exact foldl_eq (x :: xs) 12

theorem four_dvd_xattrIbodySize (xs : List Xattr) : 4 ∣ xattrIbodySize xs := by
  cases xs with
  | nil => simp
  | cons x xs =>
    rw [xattrIbodySize_cons]
    exact Nat.dvd_add (by decide) (four_dvd_xattrEntriesSize _)

/-- A body with an entry has its header and at least one entry header. -/
theorem sixteen_le_xattrIbodySize {xs : List Xattr} (h : xs ≠ []) : 16 ≤ xattrIbodySize xs := by
  cases xs with
  | nil => exact absurd rfl h
  | cons x xs =>
    have := le_alignUp (n := xattrEntrySize x) (show 0 < 4 by decide)
    rw [xattrIbodySize_cons, xattrEntriesSize_cons]
    simp only [xattrEntrySize, erofsXattrEntryHeaderSize] at *
    omega

/-- The count stored for a body: its size in words past the first eight bytes,
cut to sixteen bits. -/
theorem xattrIcount_ibodySize (xs : List Xattr) :
    xattrIcount (xattrIbodySize xs) =
      .ok (UInt16.ofNat (if xs = [] then 0 else (xattrIbodySize xs - 8) / 4)) := by
  cases xs with
  | nil => rfl
  | cons x xs =>
    have h16 := sixteen_le_xattrIbodySize (List.cons_ne_nil x xs)
    rw [xattrIcount, if_neg (by omega), roundUp_four,
      alignUp_of_dvd (by decide) (four_dvd_xattrIbodySize _), checkedSub_ok (by omega)]
    simp

end ErofsUtils.Metadata
