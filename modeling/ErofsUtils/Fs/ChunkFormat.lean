import ErofsUtils.Fs.Release

/-! # The chunk format an image declares

An image declares the size of its blocks, an inode the size of its chunks and the width of its
table entries, and an entry the device of its chunk; the table stands at a multiple of eight
behind the attributes. The reader follows the chunk size as far as a word can be shifted; the
rest it replaces by blocks of 4096 bytes, entries of eight, a table right behind the attributes
and one device behind every device id but 0. -/
namespace ErofsUtils.Fs
open ErofsUtils.Rust ErofsUtils.Bytes ErofsUtils.Metadata

/-! ## The format -/

/-- The table holds chunk indexes, not block addresses alone. -/
def Indexed (format : UInt16) : Prop := format &&& erofsChunkFormatIndexes ≠ 0

instance (format : UInt16) : Decidable (Indexed format) := by unfold Indexed; infer_instance

def entrySize (format : UInt16) : Nat := if Indexed format then erofsChunkIndexSize else 4

def HoleEntry (entry : List UInt8) : Prop := ∀ x ∈ entry, x = 0xFF

def entryDevice (format : UInt16) (entry : List UInt8) : UInt16 :=
  if Indexed format then (ErofsChunkIndex.codec.dec entry).deviceId else 0

def entryBlkaddr (format : UInt16) (entry : List UInt8) : Nat :=
  if Indexed format then (ErofsChunkIndex.codec.dec entry).blkaddr else leNat entry

/-- The binary logarithm of the size of a chunk. -/
def declaredBits (blkszbits : UInt8) (format : UInt16) : Nat :=
  blkszbits.toNat + (format.toNat &&& 0x1F)

/-- Where the chunk table starts behind the start of the inode. -/
def declaredTable (v : ErofsInode) : Nat := alignUp (v.headerSize + v.xattrSize) 8

namespace ErofsReader

/-- Device 0 is the image and device 1 the blob. -/
def declaredDevice (r : ErofsReader) (deviceId : UInt16) : Option (List UInt8) :=
  if deviceId = 0 then some r.mmap.bytes
  else if deviceId = 1 then r.blobMmap.map Mmap.bytes
  else none

/-- The table entry of the chunk that holds position `p` of the file, if the image has it. -/
def declaredEntry (r : ErofsReader) (nid : Nat) (v : ErofsInode) (p : Nat) : Option (List UInt8) :=
  let size := entrySize v.chunkFormat
  let pos := r.slotOffset nid + declaredTable v +
    p >>> declaredBits r.sb.blkszbits v.chunkFormat * size
  if pos + size ≤ r.mmap.bytes.length then some (window r.mmap.bytes pos size) else none

/-- The byte at the offset `off` of the chunk of an entry. -/
def declaredByte (r : ErofsReader) (format : UInt16) (entry : List UInt8) (off : Nat) :
    Option UInt8 := do
  let device ← r.declaredDevice (entryDevice format entry)
  device[entryBlkaddr format entry * 2 ^ r.sb.blkszbits.toNat + off]?

/-- One of the three reads returned the bytes. -/
def Returned (r : ErofsReader) (nid : Nat) (v : ErofsInode) (offset size : Nat)
    (l : List UInt8) : Prop :=
  Release.readFileDataSync r nid v offset size = .ok l ∨
    Release.readFileData r nid v offset size = .ok l ∨
      ∃ n, Release.writeFileDataTo r nid v offset size = .ok (l, n)

/-- Every byte of the read that is in no hole is the one the format assigns to its position. -/
def FollowsFormat (r : ErofsReader) (nid : Nat) (v : ErofsInode) (offset : Nat)
    (l : List UInt8) : Prop :=
  ∀ i : Nat, i < l.length → ∃ entry, r.declaredEntry nid v (offset + i) = some entry ∧
    (HoleEntry entry ∨ r.declaredByte v.chunkFormat entry
      ((offset + i) % 2 ^ declaredBits r.sb.blkszbits v.chunkFormat) = l[i]?)

end ErofsReader

/-- Reads of chunk-based inodes follow the format in every image that is accepted. -/
def ReadsFollowFormat : Prop :=
  ∀ (image : Mmap) (blob : Option Mmap) (r : ErofsReader),
    ErofsReader.openImage (.ok image) (blob.map .ok) = .ok r →
    ∀ (nid : UInt64) v, Release.inode r nid.toNat = .ok v → v.dataLayout = erofsInodeChunkBased →
    ∀ offset size l, r.Returned nid.toNat v offset size l → r.FollowsFormat nid.toNat v offset l

/-- What an image declares about one position of a file that is in no hole. It may have no entry
for the position. -/
structure ChunkDeclaration where
  blkszbits : UInt8
  format : UInt16
  xattrIcount : UInt16
  entry : Option (List UInt8)
  length_entry : ∀ e ∈ entry, e.length = entrySize format
  stored : ∀ e ∈ entry, ¬ HoleEntry e

namespace ChunkDeclaration

def chunkbits (d : ChunkDeclaration) : Nat := declaredBits d.blkszbits d.format

/-- The byte of the chunk at position `p` of the file. -/
def byteAt (d : ChunkDeclaration) (r : ErofsReader) (p : Nat) : Option UInt8 :=
  d.entry.bind fun e => r.declaredByte d.format e (p % 2 ^ d.chunkbits)

/-- Whatever image declares a chunk so, its bytes are read as the format assigns them. -/
def Followed (d : ChunkDeclaration) : Prop :=
  ∀ (image : Mmap) (blob : Option Mmap) (r : ErofsReader),
    ErofsReader.openImage (.ok image) (blob.map .ok) = .ok r → r.sb.blkszbits = d.blkszbits →
    ∀ (nid : UInt64) v, Release.inode r nid.toNat = .ok v → v.dataLayout = erofsInodeChunkBased →
    v.chunkFormat = d.format → v.xattrIcount = d.xattrIcount →
    ∀ offset size l, r.Returned nid.toNat v offset size l → ∀ i : Nat, i < l.length →
      r.declaredEntry nid.toNat v (offset + i) = d.entry → d.byteAt r (offset + i) = l[i]?

end ChunkDeclaration

/-! ## The table -/

theorem entrySize_le (format : UInt16) : entrySize format ≤ 8 := by
  unfold entrySize
  split
  · exact Nat.le_refl 8
  · decide

/-- The attributes end at a multiple of eight or four bytes behind one. -/
theorem declaredTable_eq (v : ErofsInode) :
    declaredTable v = ErofsReader.chunkTableOffset v + 4 * (v.xattrIcount.toNat % 2) := by
  have hheader : v.headerSize = 32 ∨ v.headerSize = 64 := by
    cases v with
    | compact c => exact .inl rfl
    | extended e => exact .inr rfl
  have hbody : v.xattrSize = 0 ∧ v.xattrIcount.toNat = 0 ∨
      v.xattrSize = v.xattrIcount.toNat * 4 + 8 := by
    unfold ErofsInode.xattrSize
    dsimp only
    split
    · rename_i hzero
      exact .inl ⟨rfl, congrArg UInt16.toNat hzero⟩
    · exact .inr rfl
  rw [declaredTable, ErofsReader.chunkTableOffset, alignUp]
  omega

namespace ErofsReader
variable {r : ErofsReader} {nid : Nat} {v : ErofsInode} {offset size p : Nat} {l entry : List UInt8}

theorem declaredEntry_eq_some : r.declaredEntry nid v p = some entry ↔
    r.slotOffset nid + declaredTable v + p >>> declaredBits r.sb.blkszbits v.chunkFormat *
        entrySize v.chunkFormat + entrySize v.chunkFormat ≤ r.mmap.bytes.length ∧
      window r.mmap.bytes (r.slotOffset nid + declaredTable v +
        p >>> declaredBits r.sb.blkszbits v.chunkFormat * entrySize v.chunkFormat)
        (entrySize v.chunkFormat) = entry := by
  unfold declaredEntry
  dsimp only
  split
  · rename_i hle
    rw [Option.some.injEq]
    exact (and_iff_right hle).symm
  · rename_i hle
    simp [hle]

theorem length_declaredEntry (h : r.declaredEntry nid v p = some entry) :
    entry.length = entrySize v.chunkFormat := by
  obtain ⟨hle, rfl⟩ := declaredEntry_eq_some.mp h
  exact length_window_of_le hle

/-! ## What a read returns -/

theorem Returned.sync (h : r.Returned nid v offset size l) :
    Release.readFileDataSync r nid v offset size = .ok l := by
  rcases h with h | h | ⟨n, h⟩
  · exact h
  · rwa [Release.readFileData_eq] at h
  · rw [Release.writeFileDataTo_eq, map_eq_ok] at h
    obtain ⟨l', h, heq⟩ := h
    cases heq
    exact h

/-- The reads of a checked build are among those that are spoken of. -/
theorem Returned.of_checked (h : r.readFileDataSync nid v offset size = .ok l ∨
    r.readFileData nid v offset size = .ok l ∨
      ∃ n, r.writeFileDataTo nid v offset size = .ok (l, n)) :
    r.Returned nid v offset size l := by
  refine .inl (Release.readFileDataSync_of_checked ?_)
  rcases h with h | h | ⟨n, h⟩
  · exact h
  · rwa [readFileData_eq] at h
  · exact ((read_paths_agree r nid v offset size).1 l n).mp h |>.1

/-- A read of a chunk-based inode looked its bytes up in a table that lies in the image. -/
theorem Returned.table (h : r.Returned nid v offset size l) (hlay : v.dataLayout = erofsInodeChunkBased)
    {i : Nat} (hi : i < l.length) :
    ∃ ciData, Release.chunkIndexes r nid v = .ok ciData ∧
      r.indexedByte (Release.chunkIndexAt ciData) (Release.chunkbits r v) (offset + i) = l[i]? := by
  have hoff : offset < v.size.toNat := by
    by_contra hoff
    have hsync := h.sync
    rw [Release.readFileDataSync, readFileDataWith, if_pos (by omega)] at hsync
    cases hsync
    cases hi
  obtain ⟨ciData, htable, -, hspell⟩ := (Release.readFileDataSync_eq_ok hlay hoff).mp h.sync
  exact ⟨ciData, htable, hspell i hi⟩

/-- Where the reader's constants are the declared values it finds the declared byte. -/
theorem declaredByte_of_table {ciData : List UInt8} {x : UInt8}
    (h : Release.chunkIndexes r nid v = .ok ciData)
    (hentry : r.declaredEntry nid v p = some entry)
    (hx : r.indexedByte (Release.chunkIndexAt ciData) (Release.chunkbits r v) p = some x)
    (hbits : declaredBits r.sb.blkszbits v.chunkFormat < 64) (heven : 2 ∣ v.xattrIcount.toNat)
    (hidx : Indexed v.chunkFormat) (hdev : (entryDevice v.chunkFormat entry).toNat ≤ 1)
    (haddr : r.sb.blkszbits = erofsBlkszbits ∨ entryBlkaddr v.chunkFormat entry = 0) :
    r.declaredByte v.chunkFormat entry
      (p % 2 ^ declaredBits r.sb.blkszbits v.chunkFormat) = some x := by
  have hmmap := r.mmap.lenLt
  have hshift : Release.chunkbits r v = declaredBits r.sb.blkszbits v.chunkFormat :=
    Nat.mod_eq_of_lt hbits
  obtain ⟨hle, hwin⟩ := declaredEntry_eq_some.mp hentry
  have hpad := declaredTable_eq v
  rw [(Nat.dvd_iff_mod_eq_zero ..).mp heven, Nat.mul_zero, Nat.add_zero] at hpad
  rw [entrySize, if_pos hidx, erofsChunkIndexSize, hpad, Nat.shiftRight_eq_div_pow] at hle hwin
  rw [hshift, indexedByte] at hx
  generalize declaredBits r.sb.blkszbits v.chunkFormat = bits at *
  -- nothing wraps, since the entry is in the image
  obtain ⟨ci, hci, hbyte⟩ : ∃ ci, Release.chunkIndexAt ciData (p / 2 ^ bits) = .ok ci ∧
      r.chunkByte ci (p % 2 ^ bits) = some x := by
    cases hci : Release.chunkIndexAt ciData (p / 2 ^ bits) with
    | ok ci => exact ⟨ci, rfl, by rwa [hci] at hx⟩
    | error e =>
      rw [hci] at hx
      cases hx
  obtain ⟨hfit, rfl⟩ := Release.chunkIndexAt_eq_ok.mp hci
  rw [erofsChunkIndexSize, wrappingMul_eq (by omega)] at hfit hbyte
  have hstart := Release.start_of_chunkIndexes h (by omega)
  rw [hstart, window_window (by rw [hstart, length_window] at hfit; omega), hwin] at hbyte
  generalize hdec : ErofsChunkIndex.codec.dec entry = ci at hbyte
  simp only [entryDevice, entryBlkaddr, if_pos hidx, hdec] at hdev haddr
  have hplace : ci.blkaddr * 2 ^ r.sb.blkszbits.toNat = ci.blkaddr * erofsBlockSize := by
    rcases haddr with hblk | hzero
    · rw [hblk]
      rfl
    · rw [hzero, Nat.zero_mul, Nat.zero_mul]
  have hdevice : r.declaredDevice ci.deviceId = r.chunkDevice ci := by
    rw [declaredDevice, chunkDevice]
    generalize ci.deviceId = id at hdev ⊢
    rcases (show id = 0 ∨ id = 1 by
      rw [← UInt16.toNat_inj, ← UInt16.toNat_inj (b := 1)]
      have : id.toNat = 0 ∨ id.toNat = 1 := by omega
      exact this) with rfl | rfl
    · rfl
    · rfl
  rw [chunkByte, if_neg ci.blkaddr_ne_null, ← hdevice, ← hplace] at hbyte
  rw [declaredByte, entryDevice, entryBlkaddr, if_pos hidx, if_pos hidx, hdec]
  exact hbyte

end ErofsReader

namespace ChunkDeclaration
open ErofsReader

/-- All reads follow the format exactly if everything that can be declared is followed. -/
theorem readsFollowFormat_iff : ReadsFollowFormat ↔ ∀ d : ChunkDeclaration, d.Followed := by
  constructor
  · intro h d image blob r hopen hbits nid v hv hlay hformat _ offset size l hl i hi hentry
    obtain ⟨entry, hentry', hfollow⟩ := h image blob r hopen nid v hv hlay offset size l hl i hi
    rw [hentry] at hentry'
    have hbyte := hfollow.resolve_left (d.stored entry hentry')
    rw [byteAt, hentry', Option.bind_some]
    rwa [hformat, hbits] at hbyte
  · intro h image blob r hopen nid v hv hlay offset size l hl i hi
    have hd := fun entry hlen hstored => h ⟨r.sb.blkszbits, v.chunkFormat, v.xattrIcount, entry, hlen,
      hstored⟩ image blob r hopen rfl nid v hv hlay rfl rfl offset size l hl i hi
    cases hentry : r.declaredEntry nid.toNat v (offset + i) with
    | none =>
      have hbyte := hd none nofun nofun hentry
      rw [List.getElem?_eq_getElem hi] at hbyte
      cases hbyte
    | some entry =>
      refine ⟨entry, rfl, ?_⟩
      by_cases hhole : HoleEntry entry
      · exact .inl hhole
      · exact .inr (hd (some entry) (fun e he => Option.some.inj he ▸ length_declaredEntry hentry)
          (fun e he => Option.some.inj he ▸ hhole) hentry)

/-- What a declaration promises of the release build holds of the checked build too. -/
theorem Followed.checked {d : ChunkDeclaration} (h : d.Followed) {image : Mmap} {blob : Option Mmap}
    {r : ErofsReader} (hopen : openImage (.ok image) (blob.map .ok) = .ok r)
    (hbits : r.sb.blkszbits = d.blkszbits) {nid : UInt64} {v : ErofsInode}
    (hv : r.inode nid.toNat = .ok v) (hlay : v.dataLayout = erofsInodeChunkBased)
    (hformat : v.chunkFormat = d.format) (hicount : v.xattrIcount = d.xattrIcount)
    {offset size : Nat} {l : List UInt8}
    (hl : r.readFileDataSync nid.toNat v offset size = .ok l ∨
      r.readFileData nid.toNat v offset size = .ok l ∨
        ∃ n, r.writeFileDataTo nid.toNat v offset size = .ok (l, n))
    {i : Nat} (hi : i < l.length) (hentry : r.declaredEntry nid.toNat v (offset + i) = d.entry) :
    d.byteAt r (offset + i) = l[i]? :=
  h image blob r hopen hbits nid v (Release.inode_of_checked hv) hlay hformat hicount offset size l
    (.of_checked hl) i hi hentry

theorem followed_of {d : ChunkDeclaration} {entry : List UInt8} (hd : d.entry = some entry)
    (hbits : d.chunkbits < 64) (heven : 2 ∣ d.xattrIcount.toNat) (hidx : Indexed d.format)
    (hdev : (entryDevice d.format entry).toNat ≤ 1)
    (haddr : d.blkszbits = erofsBlkszbits ∨ entryBlkaddr d.format entry = 0) : d.Followed := by
  intro image blob r _ hblk nid v _ hlay hformat hicount offset size l hl i hi hentry
  obtain ⟨ciData, htable, hbyte⟩ := hl.table hlay hi
  rw [List.getElem?_eq_getElem hi] at hbyte ⊢
  rw [ChunkDeclaration.chunkbits, ← hblk, ← hformat] at hbits
  rw [← hicount] at heven
  rw [← hformat] at hidx hdev haddr
  rw [← hblk] at haddr
  rw [byteAt, hd, Option.bind_some, ChunkDeclaration.chunkbits, ← hblk, ← hformat]
  exact declaredByte_of_table htable (hentry.trans hd) hbyte hbits heven hidx hdev haddr

end ChunkDeclaration
end ErofsUtils.Fs
