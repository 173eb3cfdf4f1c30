import ErofsUtils.Fs.ChunkFormat
import ErofsUtils.Fs.Images

/-! # Images that hold one chunk-based file

Whatever is declared about a chunk, there are images that declare it: the bytes before the inode,
behind the entry and on the blob are free. Where the reader looks in another place than the
format, two of them differ in the byte that the reader takes and in nothing the format looks at. -/
namespace ErofsUtils.Fs
open ErofsUtils.Rust ErofsUtils.Bytes ErofsUtils.Metadata ErofsReader

/-- A file whose chunks are declared by `d`: its size, what stands between the superblock and its
inode, its table with what follows, and the blob. -/
structure ChunkFile (d : ChunkDeclaration) where
  size : UInt64
  before : List UInt8
  table : List UInt8
  blob : Option Mmap
  slots : 32 ∣ before.length
  short : before.length + table.length < 2 ^ 61

namespace ChunkFile
variable {d : ChunkDeclaration} (f : ChunkFile d)

def inode : ErofsInode := .extended
  { iFormat := 9, iXattrIcount := d.xattrIcount, iMode := 0o100644, iNb := 0, iSize := f.size,
    iU := d.format.toUInt32, iIno := 0, iUid := 0, iGid := 0, iMtime := 0, iMtimeNsec := 0,
    iNlink := 1, iReserved2 := Vector.replicate 16 0 }

theorem chunkFormat_inode : f.inode.chunkFormat = d.format := by
  rw [← UInt16.toNat_inj]
  show d.format.toUInt32.toUInt16.toNat = d.format.toNat
  rw [UInt32.toNat_toUInt16, UInt16.toNat_toUInt32, Nat.mod_eq_of_lt d.format.toNat_lt]

theorem versionOk_inode : f.inode.VersionOk := by
  refine iff_of_false ?_ Bool.false_ne_true
  show ¬ (9 : UInt16) >>> erofsIVersionBit &&& 1 = erofsInodeLayoutCompact
  decide

theorem dataLayout_inode : f.inode.dataLayout = erofsInodeChunkBased := by
  show (9 : UInt16) >>> erofsIDatalayoutBit &&& 7 = erofsInodeChunkBased
  decide

/-- What follows the superblock: the attributes are zeros. -/
def tail : List UInt8 :=
  f.before ++ f.inode.asBytes ++ List.replicate f.inode.xattrSize 0 ++ f.table

theorem length_tail :
    f.tail.length = f.before.length + chunkTableOffset f.inode + f.table.length := by
  simp only [tail, List.length_append, ErofsInode.length_asBytes, List.length_replicate,
    chunkTableOffset]
  omega

theorem short_tail : f.tail.length < 2 ^ 62 := by
  have htable := f.inode.headerSize_add_xattrSize_le
  have hshort := f.short
  rw [length_tail, chunkTableOffset]
  omega

def reader : ErofsReader :=
  imageReader { magic := erofsSuperMagicV1, blkszbits := d.blkszbits } f.tail f.blob f.short_tail

theorem reader_sb : f.reader.sb = { magic := erofsSuperMagicV1, blkszbits := d.blkszbits } :=
  imageReader_sb f.short_tail

theorem reader_bytes : f.reader.mmap.bytes =
    imageBytes { magic := erofsSuperMagicV1, blkszbits := d.blkszbits } f.tail := rfl

/-- Where the inode stands in the image. -/
def place : Nat := 1152 + f.before.length

theorem length_bytes :
    f.reader.mmap.bytes.length = f.place + chunkTableOffset f.inode + f.table.length := by
  rw [reader_bytes, length_imageBytes, length_tail, place]
  omega

theorem place_lt : f.place < 2 ^ 62 := by
  have hshort := f.short
  rw [place]
  omega

theorem window_inode : window f.reader.mmap.bytes f.place 64 = f.inode.asBytes := by
  have hfront := window_middle f.before f.inode.asBytes
    (List.replicate f.inode.xattrSize 0 ++ f.table)
  rw [ErofsInode.length_asBytes, ← List.append_assoc] at hfront
  rw [reader_bytes, place, window_imageBytes]
  exact hfront

theorem window_table (i n : Nat) :
    window f.reader.mmap.bytes (f.place + chunkTableOffset f.inode + i) n = window f.table i n := by
  have hfront : (f.before ++ f.inode.asBytes ++ List.replicate f.inode.xattrSize 0).length =
      f.before.length + chunkTableOffset f.inode := by
    simp only [List.length_append, ErofsInode.length_asBytes, List.length_replicate,
      chunkTableOffset]
    omega
  rw [reader_bytes, place, Nat.add_assoc 1152, Nat.add_assoc 1152, window_imageBytes, tail, ← hfront,
    window_append_right]

theorem openImage_reader :
    openImage (.ok f.reader.mmap) (f.blob.map .ok) = .ok f.reader :=
  openImage_imageReader rfl f.short_tail

/-! ## The number of the inode -/

def nid : UInt64 := UInt64.ofNat (f.place / 32)

theorem nid_toNat : f.nid.toNat * 32 = f.place := by
  have hslots := f.slots
  have hlt := f.place_lt
  rw [nid, UInt64.toNat_ofNat', Nat.mod_eq_of_lt (by omega)]
  rw [place] at hlt ⊢
  omega

theorem nid_toNat_mod : f.nid.toNat * 32 % 2 ^ 64 = f.place := by
  have hlt := f.place_lt
  rw [nid_toNat, Nat.mod_eq_of_lt (by omega)]

theorem slotOffset_reader (nid : Nat) : f.reader.slotOffset nid = nid * 32 := by
  rw [ErofsReader.slotOffset, f.reader_sb]
  show (0 : UInt32).toNat * 4096 + nid * 32 = nid * 32
  rw [UInt32.toNat_zero]
  omega

variable {f} {nid : UInt64} {p : Nat} {x : UInt8}

/-- The reader finds the inode under every number whose product wraps to its place. -/
theorem nidToOffset_reader (hnid : nid.toNat * 32 % 2 ^ 64 = f.place) :
    Release.nidToOffset f.reader nid.toNat = f.place := by
  rw [Release.nidToOffset, f.reader_sb, wrappingAdd, wrappingMul, wrappingMul, erofsSlotsize, hnid]
  show ((0 : UInt32).toNat * erofsBlockSize % 2 ^ 64 + f.place) % 2 ^ 64 = f.place
  have hlt := f.place_lt
  rw [UInt32.toNat_zero, Nat.zero_mul, Nat.zero_mod, Nat.zero_add, Nat.mod_eq_of_lt (by omega)]

theorem inode_reader (hnid : nid.toNat * 32 % 2 ^ 64 = f.place) :
    Release.inode f.reader nid.toNat = .ok f.inode := by
  have hle : f.place + erofsInodeExtendedSize ≤ f.reader.mmap.bytes.length := by
    rw [length_bytes, chunkTableOffset]
    show f.place + 64 ≤ f.place + (64 + f.inode.xattrSize) + f.table.length
    omega
  rw [Release.inode, nidToOffset_reader hnid, mmapSlice_ok hle, bind_ok, erofsInodeExtendedSize,
    window_inode]
  have hcast := ErofsInode.cast_asBytes f.versionOk_inode []
  rwa [List.append_nil] at hcast

/-! ## Reading a byte -/

/-- The number of indexes that the reader takes for the table. -/
def count (f : ChunkFile d) : Nat :=
  divCeil f.size.toNat (2 ^ (d.chunkbits % 64))

theorem chunkbits_reader : Release.chunkbits f.reader f.inode = d.chunkbits % 64 := by
  rw [Release.chunkbits, ErofsReader.chunkbits, f.reader_sb, f.chunkFormat_inode]
  rfl

theorem chunkIndexes_reader (hnid : nid.toNat * 32 % 2 ^ 64 = f.place)
    (hfit : f.count * 8 ≤ f.table.length) :
    Release.chunkIndexes f.reader nid.toNat f.inode = .ok (window f.table 0 (f.count * 8)) := by
  have hlen := f.length_bytes
  have hshort := f.short_tail
  have hmmap := f.reader.mmap.lenLt
  unfold Release.chunkIndexes
  rw [if_neg (not_not.mpr f.dataLayout_inode), nidToOffset_reader hnid, chunkbits_reader]
  show f.reader.mmapSlice _ (wrappingMul 64 f.count erofsChunkIndexSize) = _
  rw [erofsChunkIndexSize, wrappingMul_eq (by omega), wrappingAdd_eq (by omega),
    mmapSlice_ok (by omega), ← f.window_table, Nat.add_zero]

/-- The reader takes a byte from where its reading of the table points. -/
theorem read_reader (hnid : nid.toNat * 32 % 2 ^ 64 = f.place)
    (hfit : f.count * 8 ≤ f.table.length) (hp : p < f.size.toNat)
    (hx : f.reader.chunkByte (ErofsChunkIndex.codec.dec
      (window f.table (p / 2 ^ (d.chunkbits % 64) * 8) 8)) (p % 2 ^ (d.chunkbits % 64)) = some x) :
    Release.readFileDataSync f.reader nid.toNat f.inode p 1 = .ok [x] := by
  have hshort := f.short
  have hk : p / 2 ^ (d.chunkbits % 64) < f.count := div_lt_divCeil hp _
  refine (Release.readFileDataSync_eq_ok f.dataLayout_inode hp).mpr
    ⟨_, chunkIndexes_reader hnid hfit, ?_, fun i hi => ?_⟩
  · show 1 = min 1 (f.size.toNat - p)
    omega
  obtain rfl : i = 0 := by simpa using hi
  have hlen : (window f.table 0 (f.count * 8)).length = f.count * 8 :=
    length_window_of_le (by omega)
  have hci : Release.chunkIndexAt (window f.table 0 (f.count * 8))
      (p / 2 ^ (d.chunkbits % 64)) = .ok (ErofsChunkIndex.codec.dec
        (window f.table (p / 2 ^ (d.chunkbits % 64) * 8) 8)) := by
    rw [Release.chunkIndexAt_eq_ok, erofsChunkIndexSize, wrappingMul_eq (by omega), hlen,
      window_window (by omega), Nat.zero_add]
    exact ⟨by omega, rfl⟩
  rw [chunkbits_reader, ErofsReader.indexedByte, Nat.add_zero, hci]
  exact hx

/-- The format's entry stands in the table, four bytes further if the attributes end between. -/
theorem declaredEntry_reader {pos : Nat}
    (hpos : 4 * (d.xattrIcount.toNat % 2) + p >>> d.chunkbits * entrySize d.format = pos)
    (hfit : pos + entrySize d.format ≤ f.table.length) :
    f.reader.declaredEntry f.nid.toNat f.inode p = some (window f.table pos (entrySize d.format)) := by
  have hlen := f.length_bytes
  have hplace : f.reader.slotOffset f.nid.toNat + declaredTable f.inode +
      p >>> declaredBits f.reader.sb.blkszbits d.format * entrySize d.format =
      f.place + chunkTableOffset f.inode + pos := by
    rw [slotOffset_reader, nid_toNat, declaredTable_eq, ← hpos, f.reader_sb]
    show _ + (_ + 4 * (d.xattrIcount.toNat % 2)) + p >>> d.chunkbits * _ = _
    omega
  unfold ErofsReader.declaredEntry
  dsimp only
  rw [f.chunkFormat_inode, hplace, if_pos (by omega), f.window_table]

/-- Where the format is followed it assigns to a position the byte the reader takes there. -/
theorem byteAt_of_followed (nid : UInt64) (p : Nat) (hd : d.Followed)
    (hnid : nid.toNat * 32 % 2 ^ 64 = f.place) (hfit : f.count * 8 ≤ f.table.length)
    (hp : p < f.size.toNat)
    (hx : f.reader.chunkByte (ErofsChunkIndex.codec.dec
      (window f.table (p / 2 ^ (d.chunkbits % 64) * 8) 8)) (p % 2 ^ (d.chunkbits % 64)) = some x)
    (hentry : f.reader.declaredEntry nid.toNat f.inode p = d.entry) :
    d.byteAt f.reader p = some x := by
  have hread := read_reader hnid hfit hp hx
  exact hd _ f.blob f.reader f.openImage_reader (congrArg ErofsSuperblock.blkszbits f.reader_sb) nid
    f.inode (inode_reader hnid) f.dataLayout_inode f.chunkFormat_inode rfl p 1 [x] (.inl hread) 0
    Nat.one_pos hentry

/-- A file of one byte: its chunk is the first of the table, whatever the size of a chunk. -/
theorem count_oneByte (hsize : f.size = 1) : f.count = 1 := by
  rw [count, hsize]
  show (1 + 2 ^ (d.chunkbits % 64) - 1) / 2 ^ (d.chunkbits % 64) = 1
  rw [Nat.add_sub_cancel_left, Nat.div_self (Nat.two_pow_pos _)]

theorem firstByte_of_followed (hd : d.Followed) (hsize : f.size = 1) (hlen : 8 ≤ f.table.length)
    {entry : List UInt8} (hentry : d.entry = some entry)
    (hfit : 4 * (d.xattrIcount.toNat % 2) + entrySize d.format ≤ f.table.length)
    (hwin : window f.table (4 * (d.xattrIcount.toNat % 2)) (entrySize d.format) = entry)
    (hx : f.reader.chunkByte (ErofsChunkIndex.codec.dec (f.table.take 8)) 0 = some x) :
    f.reader.declaredByte d.format entry 0 = some x := by
  have hfirst : window f.table 0 8 = f.table.take 8 := by rw [window, List.drop_zero]
  have hbyte := byteAt_of_followed f.nid 0 hd f.nid_toNat_mod
    (by rw [count_oneByte hsize]; exact hlen) (by rw [hsize]; decide)
    (by rw [Nat.zero_div, Nat.zero_mod, Nat.zero_mul, hfirst]; exact hx)
    (by rw [declaredEntry_reader (by rw [Nat.zero_shiftRight, Nat.zero_mul, Nat.add_zero]) hfit,
      hwin, hentry])
  rwa [ChunkDeclaration.byteAt, hentry, Option.bind_some, Nat.zero_mod] at hbyte

end ChunkFile

/-! ## What it takes to be followed -/

/-- Only the position of an element depends on it. -/
theorem eq_length_of_forall {front back : List UInt8} {i : Nat}
    (hall : ∀ x : UInt8, (front ++ x :: back)[i]? = some x) : i = front.length := by
  by_contra hne
  have hfix : (front ++ 0 :: back)[i]? = (front ++ 1 :: back)[i]? := by
    rcases Nat.lt_or_gt_of_ne hne with hlt | hgt
    · rw [List.getElem?_append_left hlt, List.getElem?_append_left hlt]
    · rw [List.getElem?_append_right hgt.le, List.getElem?_append_right hgt.le,
        List.getElem?_cons, List.getElem?_cons, if_neg (by omega), if_neg (by omega)]
  rw [hall 0, hall 1] at hfix
  cases hfix

theorem chunkByte_image (r : ErofsReader) {ci : ErofsChunkIndex} (h : ci.deviceId = 0) (off : Nat) :
    r.chunkByte ci off = r.mmap.bytes[ci.blkaddr * erofsBlockSize + off]? := by
  rw [chunkByte, if_neg ci.blkaddr_ne_null, chunkDevice, h, if_neg (by decide)]
  rfl

theorem chunkByte_blob {r : ErofsReader} (blob : Mmap) (hblob : r.blobMmap = some blob)
    {ci : ErofsChunkIndex} (h : ci.deviceId > 0) (off : Nat) :
    r.chunkByte ci off = blob.bytes[ci.blkaddr * erofsBlockSize + off]? := by
  rw [chunkByte, if_neg ci.blkaddr_ne_null, chunkDevice, if_pos h, hblob]
  rfl

/-- Where a byte is found that only the end of the blob has. -/
theorem blob_of_forall {r : UInt8 → ErofsReader} {front : List UInt8} {deviceId : UInt16} {i : Nat}
    (himage : (r 0).mmap.bytes = (r 1).mmap.bytes)
    (hblob : ∀ x, (r x).blobMmap.map Mmap.bytes = some (front ++ [x]))
    (hall : ∀ x, ((r x).declaredDevice deviceId).bind (fun device => device[i]?) = some x) :
    deviceId = 1 ∧ i = front.length := by
  by_cases hzero : deviceId = 0
  · simp only [hzero, declaredDevice, if_true] at hall
    have hsame := hall 0
    rw [himage, hall 1] at hsame
    exact absurd hsame (by decide)
  by_cases hone : deviceId = 1
  · simp only [declaredDevice, if_neg hzero, if_pos hone, hblob] at hall
    exact ⟨hone, eq_length_of_forall hall⟩
  · simp only [declaredDevice, if_neg hzero, if_neg hone] at hall
    have hnone := hall 0
    cases hnone

namespace ChunkDeclaration
variable {d : ChunkDeclaration} {table entry : List UInt8}

/-- An inode is also found under a number whose slot lies far behind the image. -/
theorem Followed.entry_isSome (hd : d.Followed) : ∃ entry, d.entry = some entry := by
  by_contra hnone
  rw [← Option.ne_none_iff_exists', not_not] at hnone
  let f : ChunkFile d :=
    { size := 1, before := [], table := List.replicate 8 0, blob := none, slots := Nat.dvd_zero 32,
      short := by decide }
  have hplace : f.place = 1152 := rfl
  obtain ⟨nid, hnid⟩ : ∃ nid : UInt64, nid.toNat = 36 + 2 ^ 59 :=
    ⟨UInt64.ofNat (36 + 2 ^ 59), by rw [UInt64.toNat_ofNat', Nat.mod_eq_of_lt (by decide)]⟩
  have hlen := f.reader.mmap.lenLt
  have hpos : 0 < f.reader.mmap.bytes.length := by
    rw [f.length_bytes]
    omega
  have hout : f.reader.declaredEntry nid.toNat f.inode 0 = d.entry := by
    rw [hnone]
    unfold ErofsReader.declaredEntry
    dsimp only
    rw [f.slotOffset_reader, if_neg (by omega)]
  -- an index of zeros is block 0 of the image
  have hread : f.reader.chunkByte (ErofsChunkIndex.codec.dec
      (window f.table (0 / 2 ^ (d.chunkbits % 64) * 8) 8)) (0 % 2 ^ (d.chunkbits % 64)) =
      some f.reader.mmap.bytes[0] := by
    have hci : ErofsChunkIndex.codec.dec (window f.table (0 * 8) 8) = ⟨0, 0, 0⟩ := rfl
    rw [Nat.zero_div, Nat.zero_mod, hci, chunkByte_image _ rfl]
    exact List.getElem?_eq_getElem hpos
  have hbyte := ChunkFile.byteAt_of_followed nid 0 hd (by omega)
    (by rw [ChunkFile.count_oneByte rfl]; exact Nat.le_refl 8)
    (show 0 < (1 : UInt64).toNat from Nat.one_pos) hread hout
  rw [byteAt, hnone] at hbyte
  cases hbyte

/-- The front of the table is the index that the reader takes; the entry of the format stands in
it as well, at its own place. -/
structure Tabled (d : ChunkDeclaration) (table e : List UInt8) (ci : ErofsChunkIndex) : Prop where
  entry : d.entry = some e
  index : 8 ≤ table.length
  fits : 4 * (d.xattrIcount.toNat % 2) + entrySize d.format ≤ table.length
  declared : window table (4 * (d.xattrIcount.toNat % 2)) (entrySize d.format) = e
  found : ErofsChunkIndex.codec.dec (table.take 8) = ci

variable {ci : ErofsChunkIndex}

/-- A chunk the reader finds in the image stands where the format puts it. -/
theorem Followed.in_image (hd : d.Followed) (ht : d.Tabled table entry ci)
    (hshort : table.length < 2 ^ 60) (hdev : ci.deviceId = 0)
    (hid : entryDevice d.format entry = 0) (hpos : 0 < ci.blkaddr) :
    entryBlkaddr d.format entry * 2 ^ d.blkszbits.toNat = ci.blkaddr * erofsBlockSize := by
  have haddr := ci.blkaddr_lt
  obtain ⟨c, hc⟩ : ∃ c, ci.blkaddr * erofsBlockSize = c := ⟨_, rfl⟩
  have hcge : 4096 ≤ c ∧ c < 2 ^ 60 ∧ 32 ∣ c := by rw [← hc, erofsBlockSize]; omega
  -- the byte that the reader finds stands before the inode
  obtain ⟨pad, hpad⟩ : ∃ pad : List UInt8, pad.length = c - 1152 :=
    ⟨List.replicate (c - 1152) 0, List.length_replicate⟩
  let f : UInt8 → ChunkFile d := fun x =>
    { size := 1, before := pad ++ x :: List.replicate 31 0, table, blob := none,
      slots := by
        rw [List.length_append, List.length_cons, List.length_replicate, hpad]
        omega
      short := by
        rw [List.length_append, List.length_cons, List.length_replicate, hpad]
        omega }
  obtain ⟨front, hfront⟩ : ∃ front, imageBytes
      { magic := erofsSuperMagicV1, blkszbits := d.blkszbits } pad = front := ⟨_, rfl⟩
  have hflen : front.length = c := by
    rw [← hfront, length_imageBytes, hpad]
    omega
  obtain ⟨back, hbytes⟩ : ∃ back, ∀ x, (f x).reader.mmap.bytes = front ++ x :: back := by
    refine ⟨List.replicate 31 0 ++
      ((f 0).inode.asBytes ++ List.replicate (f 0).inode.xattrSize 0 ++ table), fun x => ?_⟩
    rw [ChunkFile.reader_bytes, ← hfront, ← imageBytes_append]
    show imageBytes _ (pad ++ x :: List.replicate 31 0 ++ (f 0).inode.asBytes ++
      List.replicate (f 0).inode.xattrSize 0 ++ table) = _
    simp only [List.append_assoc, List.cons_append]
  rw [hc, ← hflen]
  refine @eq_length_of_forall front back _ fun x => ?_
  have hread : (f x).reader.chunkByte (ErofsChunkIndex.codec.dec ((f x).table.take 8)) 0 =
      some x := by
    rw [ht.found, chunkByte_image _ hdev, hbytes, Nat.add_zero, hc, ← hflen]
    simp
  have hbyte := ChunkFile.firstByte_of_followed hd rfl ht.index ht.entry ht.fits ht.declared hread
  rw [ErofsReader.declaredByte, hid, declaredDevice, if_pos rfl, ChunkFile.reader_sb, hbytes,
    Nat.add_zero] at hbyte
  exact hbyte

/-- A chunk the reader finds on the blob stands on device 1 and where the format puts it. -/
theorem Followed.on_blob (hd : d.Followed) (ht : d.Tabled table entry ci)
    (hshort : table.length < 2 ^ 60) (hdev : ci.deviceId > 0) :
    entryDevice d.format entry = 1 ∧
      entryBlkaddr d.format entry * 2 ^ d.blkszbits.toNat = ci.blkaddr * erofsBlockSize := by
  have haddr := ci.blkaddr_lt
  obtain ⟨c, hc⟩ : ∃ c, ci.blkaddr * erofsBlockSize = c := ⟨_, rfl⟩
  have hclt : c < 2 ^ 60 := by rw [← hc, erofsBlockSize]; omega
  obtain ⟨front, hfront⟩ : ∃ front : List UInt8, front.length = c :=
    ⟨List.replicate c 0, List.length_replicate⟩
  -- the blob ends with the byte that the reader finds
  let blob : UInt8 → Mmap := fun x =>
    { bytes := front ++ [x], lenLt := by rw [List.length_append, List.length_singleton]; omega }
  let f : UInt8 → ChunkFile d := fun x =>
    { size := 1, before := [], table, blob := some (blob x), slots := Nat.dvd_zero 32,
      short := by rw [List.length_nil]; omega }
  have hall : ∀ x, (((f x).reader.declaredDevice (entryDevice d.format entry)).bind
      fun device => device[entryBlkaddr d.format entry * 2 ^ d.blkszbits.toNat]?) = some x := by
    intro x
    have hread : (f x).reader.chunkByte (ErofsChunkIndex.codec.dec ((f x).table.take 8)) 0 =
        some x := by
      rw [ht.found, chunkByte_blob (blob x) rfl hdev, Nat.add_zero, hc, ← hfront]
      exact List.getElem?_concat_length
    have hbyte := ChunkFile.firstByte_of_followed hd rfl ht.index ht.entry ht.fits ht.declared hread
    rw [ErofsReader.declaredByte, Nat.add_zero, ChunkFile.reader_sb] at hbyte
    exact hbyte
  rw [hc, ← hfront]
  exact blob_of_forall rfl (fun x => rfl) hall

/-- Two halves of an index and the bytes of its low address. -/
theorem dec_halves (a b c e : UInt8) {lo : List UInt8} (h : lo.length = 4) :
    ErofsChunkIndex.codec.dec ([a, b, c, e] ++ lo) =
      ⟨UInt16.ofNat (leNat [a, b]), UInt16.ofNat (leNat [c, e]), UInt32.ofNat (leNat lo)⟩ := by
  match lo, h with
  | [_, _, _, _], _ => rfl

/-- Four bytes behind one, the index that the reader takes starts before the entry: its halves
there are anything. -/
theorem Followed.even (hd : d.Followed) (hentry : d.entry = some entry) :
    2 ∣ d.xattrIcount.toNat := by
  by_contra hodd
  have hmod : 4 * (d.xattrIcount.toNat % 2) = 4 := by omega
  have hlen := d.length_entry entry hentry
  have hle := entrySize_le d.format
  have hge : 4 ≤ entrySize d.format := by
    unfold entrySize
    split <;> decide
  have hlo : (entry.take 4).length = 4 := by rw [List.length_take]; omega
  have ht : ∀ h : UInt8, d.Tabled ([h, 0, 1, 0] ++ entry) entry
      ⟨UInt16.ofNat (leNat [h, 0]), 1, UInt32.ofNat (leNat (entry.take 4))⟩ := by
    intro h
    refine ⟨hentry, ?_, ?_, ?_, dec_halves h 0 1 0 hlo⟩
    · rw [List.length_append, hlen]
      exact Nat.add_le_add_left hge 4
    · rw [hmod, List.length_append, hlen]
      exact Nat.le_refl _
    · rw [hmod, window, ← hlen]
      exact List.take_length
  have hblob := fun h => (hd.on_blob (ht h) (by
    rw [List.length_append, hlen]
    show 4 + _ < _
    omega) (show (1 : UInt16) > 0 by decide)).2
  have h0 := hblob 0
  rw [hblob 1, erofsBlockSize, ErofsChunkIndex.blkaddr_eq, ErofsChunkIndex.blkaddr_eq] at h0
  have hhi : (UInt16.ofNat (leNat [1, 0])).toNat = 1 ∧ (UInt16.ofNat (leNat [0, 0])).toNat = 0 :=
    ⟨rfl, rfl⟩
  dsimp only at h0
  omega

/-- A table of block addresses is read as one of indexes, whose low addresses are anything. -/
theorem Followed.indexed (hd : d.Followed) (hentry : d.entry = some entry)
    (heven : 2 ∣ d.xattrIcount.toNat) : Indexed d.format := by
  by_contra hidx
  have hmod : 4 * (d.xattrIcount.toNat % 2) = 0 := by omega
  have hid : entryDevice d.format entry = 0 := if_neg hidx
  have hsize : entrySize d.format = 4 := if_neg hidx
  have hlen := d.length_entry entry hentry
  rw [hsize] at hlen
  obtain ⟨a, b, c, e, rfl⟩ : ∃ a b c e, entry = [a, b, c, e] := by
    match entry, hlen with
    | [a, b, c, e], _ => exact ⟨a, b, c, e, rfl⟩
  have ht : ∀ k : UInt8, d.Tabled ([a, b, c, e] ++ [k, 0, 0, 0]) [a, b, c, e]
      ⟨UInt16.ofNat (leNat [a, b]), UInt16.ofNat (leNat [c, e]), UInt32.ofNat (leNat [k, 0, 0, 0])⟩ :=
    fun k => ⟨hentry, Nat.le_refl 8, by rw [hmod, hsize]; exact Nat.le_add_right 4 4,
      by rw [hmod, hsize]; rfl,
      dec_halves a b c e rfl⟩
  by_cases hdev : UInt16.ofNat (leNat [c, e]) = 0
  · have himage := fun (k : UInt8) (hk : 0 < (UInt32.ofNat (leNat [k, 0, 0, 0])).toNat) =>
      hd.in_image (ht k) (by simp) hdev hid (by
        rw [ErofsChunkIndex.blkaddr_eq]
        dsimp only
        omega)
    have h1 := himage 1 (by decide)
    rw [himage 2 (by decide), erofsBlockSize, ErofsChunkIndex.blkaddr_eq,
      ErofsChunkIndex.blkaddr_eq] at h1
    have hlo : (UInt32.ofNat (leNat [1, 0, 0, 0])).toNat = 1 ∧
        (UInt32.ofNat (leNat [2, 0, 0, 0])).toNat = 2 := ⟨rfl, rfl⟩
    dsimp only at h1
    omega
  · obtain ⟨hone, -⟩ := hd.on_blob (ht 0) (by simp) (UInt16.pos_iff_ne_zero.mpr hdev)
    rw [hid] at hone
    exact absurd hone (by decide)

/-- Behind an index stands that of the first block of the blob. -/
theorem dec_behind (h : entry.length = 8) :
    ErofsChunkIndex.codec.dec (window (entry ++ [0, 0, 1, 0, 0, 0, 0, 0]) 8 8) = ⟨0, 1, 0⟩ := by
  have hright := window_append_right entry [0, 0, 1, 0, 0, 0, 0, 0] 0 8
  rw [h, Nat.add_zero] at hright
  rw [hright]
  rfl

/-- A shift by more than the word is one by its low bits: a chunk of the reader starts within the
first chunk of the format. -/
theorem Followed.chunkbits_lt (hd : d.Followed) (hentry : d.entry = some entry)
    (heven : 2 ∣ d.xattrIcount.toNat) (hidx : Indexed d.format) : d.chunkbits < 64 := by
  by_contra hbits
  have hmod : 4 * (d.xattrIcount.toNat % 2) = 0 := by omega
  have hsize : entrySize d.format = 8 := if_pos hidx
  have hlen := d.length_entry entry hentry
  rw [hsize] at hlen
  obtain ⟨b, hb⟩ : ∃ b, d.chunkbits % 64 = b := ⟨_, rfl⟩
  have hblt : 2 ^ b ≤ 2 ^ 63 := Nat.pow_le_pow_right (by decide) (by omega)
  have hpos := Nat.two_pow_pos b
  have hle : 2 ^ 64 ≤ 2 ^ d.chunkbits := Nat.pow_le_pow_right (by decide) (by omega)
  let blob : UInt8 → Mmap := fun x => { bytes := [x], lenLt := by simp }
  -- the second index of the reader is the first block of the blob
  let f : UInt8 → ChunkFile d := fun x =>
    { size := UInt64.ofNat (2 ^ b + 1), before := [], table := entry ++ [0, 0, 1, 0, 0, 0, 0, 0],
      blob := some (blob x), slots := Nat.dvd_zero 32,
      short := by rw [List.length_append, hlen]; simp }
  have hfsize : (UInt64.ofNat (2 ^ b + 1)).toNat = 2 ^ b + 1 := by
    rw [UInt64.toNat_ofNat', Nat.mod_eq_of_lt (by omega)]
  have hall : ∀ x, d.byteAt (f x).reader (2 ^ b) = some x := by
    intro x
    have hcount : (f x).count = 2 := by
      show divCeil (UInt64.ofNat (2 ^ b + 1)).toNat (2 ^ (d.chunkbits % 64)) = 2
      rw [hfsize, hb, divCeil, show 2 ^ b + 1 + 2 ^ b - 1 = 2 * 2 ^ b by omega,
        Nat.mul_div_cancel _ hpos]
    refine ChunkFile.byteAt_of_followed (f x).nid (2 ^ b) hd
      (f x).nid_toNat_mod ?_ ?_ ?_ ?_
    · rw [hcount, show (f x).table = entry ++ [0, 0, 1, 0, 0, 0, 0, 0] from rfl, List.length_append,
        hlen]
      exact Nat.le_refl 16
    · show _ < (UInt64.ofNat (2 ^ b + 1)).toNat
      omega
    · rw [hb, Nat.div_self hpos, Nat.mod_self, Nat.one_mul]
      show (f x).reader.chunkByte (ErofsChunkIndex.codec.dec (window (entry ++ _) 8 8)) 0 = some x
      rw [dec_behind hlen, chunkByte_blob (blob x) rfl (by decide)]
      rfl
    · rw [hentry]
      have hchunk : 2 ^ b >>> d.chunkbits = 0 := by
        rw [Nat.shiftRight_eq_div_pow, Nat.div_eq_of_lt (by omega)]
      rw [ChunkFile.declaredEntry_reader (by rw [hmod, hchunk, Nat.zero_mul])
        (by
          rw [hsize]
          show 0 + 8 ≤ (entry ++ [0, 0, 1, 0, 0, 0, 0, 0]).length
          rw [List.length_append, hlen]
          decide), hsize]
      have hleft := @window_append_left _ entry [0, 0, 1, 0, 0, 0, 0, 0] 0 8 (by omega)
      rw [← hlen, window_all] at hleft
      exact congrArg some (hlen ▸ hleft)
  have hpoint : 2 ^ b % 2 ^ d.chunkbits = 2 ^ b := Nat.mod_eq_of_lt (by omega)
  simp only [byteAt, hentry, Option.bind_some, hpoint, ErofsReader.declaredByte,
    ChunkFile.reader_sb] at hall
  obtain ⟨-, hzero⟩ := @blob_of_forall (fun x => (f x).reader) [] _ _ rfl (fun x => rfl) hall
  rw [List.length_nil] at hzero
  omega

/-- **Declared formats are followed** exactly where the image has the entry, the chunk size fits a
word, the attributes end at a multiple of eight, the table holds indexes, the device is the image
or the blob, and the blocks have 4096 bytes unless the address is 0. -/
theorem followed_iff (d : ChunkDeclaration) : d.Followed ↔ ∃ entry, d.entry = some entry ∧
    d.chunkbits < 64 ∧ 2 ∣ d.xattrIcount.toNat ∧ Indexed d.format ∧
      (entryDevice d.format entry).toNat ≤ 1 ∧
        (d.blkszbits = erofsBlkszbits ∨ entryBlkaddr d.format entry = 0) := by
  constructor
  · intro hd
    obtain ⟨entry, hentry⟩ := hd.entry_isSome
    have heven := hd.even hentry
    have hidx := hd.indexed hentry heven
    refine ⟨entry, hentry, hd.chunkbits_lt hentry heven hidx, heven, hidx, ?_⟩
    have hmod : 4 * (d.xattrIcount.toNat % 2) = 0 := by omega
    have hsize : entrySize d.format = 8 := if_pos hidx
    have hlen := d.length_entry entry hentry
    rw [hsize] at hlen
    have hdev : entryDevice d.format entry = (ErofsChunkIndex.codec.dec entry).deviceId := if_pos hidx
    have haddr : entryBlkaddr d.format entry = (ErofsChunkIndex.codec.dec entry).blkaddr :=
      if_pos hidx
    have htake : entry.take 8 = entry := List.take_of_length_le (by omega)
    have ht : d.Tabled entry entry (ErofsChunkIndex.codec.dec entry) :=
      ⟨hentry, by omega, by omega, by rw [hmod, hsize]; exact htake, by rw [htake]⟩
    have hbits12 : entryBlkaddr d.format entry * 2 ^ d.blkszbits.toNat =
        (ErofsChunkIndex.codec.dec entry).blkaddr * erofsBlockSize →
        d.blkszbits = erofsBlkszbits ∨ entryBlkaddr d.format entry = 0 := by
      intro hplace
      rw [← haddr] at hplace
      rcases Nat.eq_zero_or_pos (entryBlkaddr d.format entry) with hzero | hpos
      · exact .inr hzero
      · have hpow : 2 ^ d.blkszbits.toNat = 2 ^ 12 := Nat.eq_of_mul_eq_mul_left hpos hplace
        exact .inl (UInt8.toNat_inj.mp (Nat.pow_right_injective (Nat.le_refl 2) hpow))
    by_cases hzero : entryDevice d.format entry = 0
    · refine ⟨by rw [hzero]; decide, ?_⟩
      rcases Nat.eq_zero_or_pos (entryBlkaddr d.format entry) with haddr0 | hpos
      · exact .inr haddr0
      · exact hbits12 (hd.in_image ht (by omega) (hdev ▸ hzero) hzero (haddr ▸ hpos))
    · obtain ⟨hone, hplace⟩ := hd.on_blob ht (by omega) (hdev ▸ UInt16.pos_iff_ne_zero.mpr hzero)
      exact ⟨by rw [hone]; decide, hbits12 hplace⟩
  · rintro ⟨entry, hentry, hbits, heven, hidx, hdev, haddr⟩
    exact followed_of hentry hbits heven hidx hdev haddr

/-- Block 1 of the image, where blocks have 512 bytes. -/
def smallBlock : ChunkDeclaration where
  blkszbits := 9
  format := erofsChunkFormatIndexes
  xattrIcount := 0
  entry := some [0, 0, 0, 0, 1, 0, 0, 0]
  length_entry := by
    rintro _ ⟨⟩
    rfl
  stored := by
    rintro _ ⟨⟩ h
    exact absurd (h 0 (by decide)) (by decide)

/-- The index, zeros up to block 1 of 4096 bytes, and its first byte. -/
def smallTable : List UInt8 := [0, 0, 0, 0, 1, 0, 0, 0] ++ (List.replicate 2872 0 ++ [1])

theorem length_smallTable : smallTable.length = 2881 := by
  rw [smallTable, List.length_append, List.length_append, List.length_replicate]
  rfl

/-- The file is byte 512 of the image, and the reader takes byte 4096. -/
def smallBlocks : ChunkFile smallBlock where
  size := 1
  before := []
  table := smallTable
  blob := none
  slots := Nat.dvd_zero 32
  short := by
    rw [length_smallTable]
    decide

theorem not_readsFollowFormat_smallBlocks : ¬ ReadsFollowFormat := by
  intro h
  have hlen : smallBlocks.table.length = 2881 := length_smallTable
  have hread : Release.readFileDataSync smallBlocks.reader smallBlocks.nid.toNat smallBlocks.inode
      0 1 = .ok [1] :=
    ChunkFile.read_reader smallBlocks.nid_toNat_mod
      (by rw [ChunkFile.count_oneByte rfl]; omega) Nat.one_pos (by decide +kernel)
  obtain ⟨entry, hentry, hfollow⟩ := h _ none smallBlocks.reader smallBlocks.openImage_reader
    smallBlocks.nid smallBlocks.inode (ChunkFile.inode_reader smallBlocks.nid_toNat_mod)
    smallBlocks.dataLayout_inode 0 1 [1] (.inl hread) 0 Nat.one_pos
  obtain rfl : [0, 0, 0, 0, 1, 0, 0, 0] = entry := by
    rw [ChunkFile.declaredEntry_reader rfl (by rw [hlen]; decide)] at hentry
    exact Option.some.inj hentry
  rcases hfollow with hhole | hbyte
  · exact absurd (hhole 0 (by decide)) (by decide)
  · revert hbyte
    decide +kernel

end ChunkDeclaration
end ErofsUtils.Fs
