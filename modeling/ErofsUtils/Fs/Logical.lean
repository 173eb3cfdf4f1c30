import ErofsUtils.Bytes.Spells
import ErofsUtils.Fs.Serve

/-! # The file an inode stands for

Every layout assigns each position below the size of the inode at most one byte of the
image or of the blob device. A read of any range returns exactly the bytes of its
positions, whichever branch serves it, and fails where one of them has none. -/
namespace ErofsUtils.Fs
open ErofsUtils.Rust ErofsUtils.Bytes ErofsUtils.Metadata

namespace ErofsReader
variable {r : ErofsReader} {nid : Nat} {v : ErofsInode} {offset size : Nat} {l : List UInt8}

/-- Where the byte of a flat inode at position `p` stands in the image. -/
def flatOffset (r : ErofsReader) (nid : Nat) (v : ErofsInode) (p : Nat) : Nat :=
  if v.dataLayout = erofsInodeFlatInline ∧ blocksSize v ≤ p then
    r.slotOffset nid + (v.headerSize + v.xattrSize) + (p - blocksSize v)
  else v.startblk * erofsBlockSize + p

/-- The bytes of the device a chunk stands on. -/
def chunkDevice (r : ErofsReader) (ci : ErofsChunkIndex) : Option (List UInt8) :=
  if ci.deviceId > 0 then r.blobMmap.map Mmap.bytes else some r.mmap.bytes

/-- The byte a chunk assigns to the offset `off` in it. -/
def chunkByte (r : ErofsReader) (ci : ErofsChunkIndex) (off : Nat) : Option UInt8 :=
  if ci.blkaddr = erofsNullAddr then some 0
  else do
    let device ← r.chunkDevice ci
    device[ci.blkaddr * erofsBlockSize + off]?

/-- The byte at position `p` of a file whose chunk indexes are looked up by `indexAt`. -/
def indexedByte (r : ErofsReader) (indexAt : Nat → IoResult ErofsChunkIndex) (bits p : Nat) :
    Option UInt8 :=
  match indexAt (p / 2 ^ bits) with
  | .ok ci => r.chunkByte ci (p % 2 ^ bits)
  | .error _ => none

/-- The byte at position `p` of a file with the chunk table `ciData`. -/
def tableByte (r : ErofsReader) (ciData : List UInt8) (bits p : Nat) : Option UInt8 :=
  r.indexedByte (chunkIndexAt ciData) bits p

/-- The byte at position `p` of the file of an inode. -/
def byteAt (r : ErofsReader) (nid : Nat) (v : ErofsInode) (p : Nat) : Option UInt8 :=
  if v.dataLayout = erofsInodeFlatPlain ∨ v.dataLayout = erofsInodeFlatInline then
    r.mmap.bytes[r.flatOffset nid v p]?
  else match r.chunkIndexes nid v with
    | .ok ciData => r.tableByte ciData (r.chunkbits v) p
    | .error _ => none

/-! ## Flat data -/

/-- A slice at a computed offset, where the offset is `o` unless it does not fit. -/
theorem slice_at_eq_ok {x : IoResult Nat} {o : Nat} (hx : ∀ o', x = .ok o' ↔ o < 2 ^ 64 ∧ o = o')
    (hn : 0 < size) :
    (do let o ← x
        r.mmapSlice o size) = .ok l ↔
      l.length = size ∧ Spells (fun i => r.mmap.bytes[i]?) o l := by
  have hlt := r.mmap.lenLt
  rw [← window_eq_iff_spells hn]
  simp only [bind_eq_ok, hx, mmapSlice_eq_ok]
  constructor
  · rintro ⟨_, ⟨-, rfl⟩, h⟩
    exact h
  · intro h
    exact ⟨_, ⟨by omega, rfl⟩, h⟩

theorem blockOffset_eq_ok {o : Nat} : blockOffset v offset = .ok o ↔
    v.startblk * erofsBlockSize + offset < 2 ^ 64 ∧
      v.startblk * erofsBlockSize + offset = o := by
  simp only [blockOffset, bind_eq_ok, checkedMul_eq_ok, checkedAdd_eq_ok]
  constructor
  · rintro ⟨_, ⟨-, rfl⟩, h⟩
    exact h
  · intro h
    exact ⟨_, ⟨by omega, rfl⟩, h⟩

theorem inlineOffset_eq_ok {o : Nat} : r.inlineOffset nid v offset = .ok o ↔
    r.slotOffset nid + (v.headerSize + v.xattrSize) + offset < 2 ^ 64 ∧
      r.slotOffset nid + (v.headerSize + v.xattrSize) + offset = o := by
  simp only [inlineOffset, bind_eq_ok, nidToOffset_eq_ok, checkedAdd_eq_ok]
  constructor
  · rintro ⟨_, ⟨-, rfl⟩, _, ⟨-, rfl⟩, h⟩
    exact h
  · intro h
    exact ⟨_, ⟨by omega, rfl⟩, _, ⟨by omega, rfl⟩, h⟩

theorem blockOffset_slice_eq_ok (hn : 0 < size) :
    (do let o ← blockOffset v offset
        r.mmapSlice o size) = .ok l ↔
      l.length = size ∧
        Spells (fun i => r.mmap.bytes[i]?) (v.startblk * erofsBlockSize + offset) l :=
  slice_at_eq_ok (fun _ => blockOffset_eq_ok) hn

theorem inlineOffset_slice_eq_ok (hn : 0 < size) :
    (do let o ← r.inlineOffset nid v offset
        r.mmapSlice o size) = .ok l ↔
      l.length = size ∧
        Spells (fun i => r.mmap.bytes[i]?)
          (r.slotOffset nid + (v.headerSize + v.xattrSize) + offset) l :=
  slice_at_eq_ok (fun _ => inlineOffset_eq_ok) hn

/-- The bytes of a flat inode, position by position. -/
def flatByte (r : ErofsReader) (nid : Nat) (v : ErofsInode) (p : Nat) : Option UInt8 :=
  r.mmap.bytes[r.flatOffset nid v p]?

theorem spells_block (h : v.dataLayout = erofsInodeFlatInline → offset + l.length ≤ blocksSize v) :
    Spells (r.flatByte nid v) offset l ↔
      Spells (fun i => r.mmap.bytes[i]?) (v.startblk * erofsBlockSize + offset) l := by
  refine spells_congr fun i hi => ?_
  have hblock : ¬ (v.dataLayout = erofsInodeFlatInline ∧ blocksSize v ≤ offset + i) := by
    rintro ⟨hlay, hle⟩
    have := h hlay
    omega
  rw [flatByte, flatOffset, if_neg hblock, Nat.add_assoc]

theorem spells_inline (hlay : v.dataLayout = erofsInodeFlatInline) (h : blocksSize v ≤ offset) :
    Spells (r.flatByte nid v) offset l ↔
      Spells (fun i => r.mmap.bytes[i]?)
        (r.slotOffset nid + (v.headerSize + v.xattrSize) + (offset - blocksSize v)) l := by
  refine spells_congr fun i _ => ?_
  rw [flatByte, flatOffset, if_pos ⟨hlay, by omega⟩]
  exact congrArg (fun o => r.mmap.bytes[o]?) (by omega)

theorem readFlatData_plain (hlay : v.dataLayout = erofsInodeFlatPlain) (hn : 0 < size) :
    r.readFlatData nid v offset size = .ok l ↔
      l.length = size ∧ Spells (r.flatByte nid v) offset l := by
  have hne : ¬ v.dataLayout = erofsInodeFlatInline := by rw [hlay]; decide
  rw [readFlatData]
  dsimp only
  rw [if_pos hlay, blockOffset_slice_eq_ok hn, spells_block fun h => absurd h hne]

/-- A read that does not span block part and inline tail. -/
theorem readFlatData_inline (hlay : v.dataLayout = erofsInodeFlatInline) (hn : 0 < size)
    (h64 : offset + size < 2 ^ 64)
    (hone : offset + size ≤ blocksSize v ∨ blocksSize v ≤ offset) :
    r.readFlatData nid v offset size = .ok l ↔
      l.length = size ∧ Spells (r.flatByte nid v) offset l := by
  have hne : ¬ v.dataLayout = erofsInodeFlatPlain := by rw [hlay]; decide
  rw [readFlatData]
  dsimp only
  rw [if_neg hne, if_pos hlay]
  by_cases hzero : blocksSize v = 0
  · rw [if_pos hzero, inlineOffset_slice_eq_ok hn, spells_inline hlay (by omega), hzero,
      Nat.sub_zero]
  rw [if_neg hzero]
  by_cases hblock : offset + size ≤ blocksSize v
  · rw [if_pos (by omega), checkedAdd_ok h64]
    simp only [bind_ok, pure_eq_ok, hblock, decide_true, if_true]
    rw [blockOffset_slice_eq_ok hn]
    constructor
    · rintro ⟨rfl, h⟩
      exact ⟨rfl, (spells_block fun _ => hblock).mpr h⟩
    · rintro ⟨rfl, h⟩
      exact ⟨rfl, (spells_block fun _ => hblock).mp h⟩
  · have htail : blocksSize v ≤ offset := by omega
    rw [if_neg (by omega), pure_eq_ok, bind_ok, if_neg Bool.false_ne_true, if_pos htail,
      inlineOffset_slice_eq_ok hn, spells_inline hlay htail]

/-- A read that spans both is the block part followed by the inline part. -/
theorem readSpanning_eq_ok (hlay : v.dataLayout = erofsInodeFlatInline)
    (hlo : offset < blocksSize v) (hhi : blocksSize v < offset + size)
    {a b : List UInt8} :
    r.readSpanning nid v offset size = .ok (a, b) ↔
      (a.length = blocksSize v - offset ∧ Spells (r.flatByte nid v) offset a) ∧
        b.length = size - (blocksSize v - offset) ∧
          Spells (r.flatByte nid v) (blocksSize v) b := by
  have hlt := r.mmap.lenLt
  have hna : 0 < blocksSize v - offset := by omega
  have hnb : 0 < size - (blocksSize v - offset) := by omega
  rw [spells_inline hlay (Nat.le_refl _), Nat.sub_self, Nat.add_zero]
  constructor
  · intro h
    simp only [readSpanning, bind_eq_ok, nidToOffset_eq_ok, checkedAdd_eq_ok, pure_eq_ok,
      Except.ok.injEq, Prod.mk.injEq] at h
    obtain ⟨o, ho, a', ha, _, ⟨-, rfl⟩, _, ⟨-, rfl⟩, b', hb, rfl, rfl⟩ := h
    obtain ⟨hlen, ha⟩ := (blockOffset_slice_eq_ok hna).mp (bind_eq_ok.mpr ⟨o, ho, ha⟩)
    rw [mmapSlice_eq_ok] at hb
    exact ⟨⟨hlen, (spells_block fun _ => by omega).mpr ha⟩, (window_eq_iff_spells hnb).mp hb⟩
  · rintro ⟨⟨hlen, ha⟩, hb⟩
    have ha' := (blockOffset_slice_eq_ok hna).mpr
      ⟨hlen, (spells_block fun _ => by omega).mp ha⟩
    obtain ⟨o, ho, ha'⟩ := bind_eq_ok.mp ha'
    obtain ⟨hle, hb⟩ := (window_eq_iff_spells hnb).mpr hb
    rw [readSpanning, ho, bind_ok, ha', bind_ok, nidToOffset_ok (by omega), bind_ok,
      checkedAdd_ok (by omega), bind_ok, mmapSlice_ok hle, bind_ok, hb]
    rfl

theorem spansTail_eq (h64 : offset + size < 2 ^ 64) : spansTail v offset size =
    .ok (decide (v.dataLayout = erofsInodeFlatInline ∧ offset < blocksSize v ∧
      blocksSize v < offset + size)) := by
  unfold spansTail
  by_cases hlay : v.dataLayout = erofsInodeFlatInline
  · by_cases hlt : offset < blocksSize v
    · rw [if_pos ⟨hlay, by omega, hlt⟩, checkedAdd_ok h64]
      simp [hlay, hlt]
    · simp [hlt]
  · simp [hlay]

/-- **A flat read** returns the bytes of its positions. -/
theorem flatBytes_eq_ok
    (hflat : v.dataLayout = erofsInodeFlatPlain ∨ v.dataLayout = erofsInodeFlatInline)
    (hn : 0 < size) (h64 : offset + size < 2 ^ 64) :
    r.flatBytes nid v offset size = .ok l ↔
      l.length = size ∧ Spells (r.flatByte nid v) offset l := by
  rw [flatBytes, spansTail_eq h64, bind_ok]
  by_cases hspan : v.dataLayout = erofsInodeFlatInline ∧ offset < blocksSize v ∧
      blocksSize v < offset + size
  · obtain ⟨hlay, hlo, hhi⟩ := hspan
    rw [if_pos (decide_eq_true ⟨hlay, hlo, hhi⟩)]
    simp only [bind_eq_ok, Prod.exists, readSpanning_eq_ok hlay hlo hhi, pure_eq_ok,
      Except.ok.injEq]
    constructor
    · rintro ⟨a, b, ⟨⟨hal, ha⟩, hbl, hb⟩, rfl⟩
      rw [List.length_append, spells_append, hal, Nat.add_sub_cancel' (by omega)]
      exact ⟨by omega, ha, hb⟩
    · rintro ⟨hlen, h⟩
      have hcut : (l.take (blocksSize v - offset)).length = blocksSize v - offset := by
        rw [List.length_take]; omega
      rw [← List.take_append_drop (blocksSize v - offset) l, spells_append, hcut,
        Nat.add_sub_cancel' (by omega)] at h
      exact ⟨_, _, ⟨⟨hcut, h.1⟩, by rw [List.length_drop, hlen], h.2⟩, List.take_append_drop _ l⟩
  · rw [if_neg (by simpa using hspan)]
    rcases hflat with hlay | hlay
    · exact readFlatData_plain hlay hn
    · exact readFlatData_inline hlay hn h64 (by
        by_contra hcon
        exact hspan ⟨hlay, by omega, by omega⟩)

/-! ## Chunked data -/

variable {ci : ErofsChunkIndex} {ciData : List UInt8} {indexAt : Nat → IoResult ErofsChunkIndex}
  {bits nchunks n off filePos remaining : Nat}

/-- A piece of a chunk is a slice of its device. -/
theorem chunkSource_eq_ok {piece : Option (List UInt8)} :
    r.chunkSource ci off n = .ok piece ↔
      ∃ device, r.chunkDevice ci = some device ∧
        ci.blkaddr * erofsBlockSize + off + n ≤ device.length ∧
        piece = some (window device (ci.blkaddr * erofsBlockSize + off) n) := by
  have himg := r.mmap.lenLt
  unfold chunkSource chunkDevice
  dsimp only
  rw [if_neg ci.blkaddr_ne_null]
  by_cases hdev : ci.deviceId > 0
  · rw [if_pos hdev, if_pos hdev]
    simp only [bind_eq_ok, checkedMul_eq_ok, checkedAdd_eq_ok, map_eq_ok, blobMmapSlice_eq_ok,
      Option.map_eq_some_iff]
    constructor
    · rintro ⟨_, ⟨-, rfl⟩, _, ⟨-, rfl⟩, _, ⟨blob, hblob, hle, rfl⟩, rfl⟩
      exact ⟨_, ⟨blob, hblob, rfl⟩, hle, rfl⟩
    · rintro ⟨_, ⟨blob, hblob, rfl⟩, hle, rfl⟩
      have := blob.lenLt
      exact ⟨_, ⟨by omega, rfl⟩, _, ⟨by omega, rfl⟩, _, ⟨blob, hblob, hle, rfl⟩, rfl⟩
  · rw [if_neg hdev, if_neg hdev]
    simp only [bind_eq_ok, checkedMul_eq_ok, checkedAdd_eq_ok, map_eq_ok, mmapSlice_eq_ok,
      Option.some.injEq, exists_eq_left']
    constructor
    · rintro ⟨_, ⟨-, rfl⟩, _, ⟨-, rfl⟩, _, ⟨hle, rfl⟩, rfl⟩
      exact ⟨hle, rfl⟩
    · rintro ⟨hle, rfl⟩
      exact ⟨_, ⟨by omega, rfl⟩, _, ⟨by omega, rfl⟩, _, ⟨hle, rfl⟩, rfl⟩

/-- Every piece a chunk yields spells its bytes, and it yields what it can spell. -/
theorem chunkSource_spells (hn : 0 < n) :
    (∃ piece, r.chunkSource ci off n = .ok piece ∧ piece.getD (List.replicate n 0) = l) ↔
      l.length = n ∧ Spells (r.chunkByte ci) off l := by
  cases hdev : r.chunkDevice ci with
  | none =>
    simp only [chunkSource_eq_ok, hdev, reduceCtorEq, false_and, exists_false, false_iff, not_and]
    rintro rfl h
    obtain ⟨x, hx, -⟩ := h.isSome (Nat.le_refl off) (by omega)
    rw [chunkByte, if_neg ci.blkaddr_ne_null, hdev] at hx
    cases hx
  | some device =>
    have hbyte : Spells (r.chunkByte ci) off l ↔
        Spells (fun i => device[i]?) (ci.blkaddr * erofsBlockSize + off) l := by
      refine spells_congr fun i _ => ?_
      rw [chunkByte, if_neg ci.blkaddr_ne_null, hdev, Nat.add_assoc]
      rfl
    rw [hbyte, ← window_eq_iff_spells hn]
    simp only [chunkSource_eq_ok, hdev, Option.some.injEq, exists_eq_left']
    constructor
    · rintro ⟨_, ⟨hle, rfl⟩, rfl⟩
      exact ⟨hle, rfl⟩
    · rintro ⟨hle, rfl⟩
      exact ⟨_, ⟨hle, rfl⟩, rfl⟩

/-- What one turn of a chunk loop finds, as a reading of the file. -/
theorem turn_spells (hn : 0 < n) (hle : filePos % 2 ^ bits + n ≤ 2 ^ bits) :
    (∃ ci piece, indexAt (filePos / 2 ^ bits) = .ok ci ∧
      r.chunkSource ci (filePos % 2 ^ bits) n = .ok piece ∧
      piece.getD (List.replicate n 0) = l) ↔
      l.length = n ∧ Spells (r.indexedByte indexAt bits) filePos l := by
  cases hci : indexAt (filePos / 2 ^ bits) with
  | error e =>
    simp only [reduceCtorEq, false_and, exists_false, false_iff, not_and]
    rintro rfl h
    obtain ⟨x, hx, -⟩ := h.isSome (Nat.le_refl filePos) (by omega)
    rw [indexedByte, hci] at hx
    cases hx
  | ok ci =>
    have hdiv := Nat.div_add_mod filePos (2 ^ bits)
    simp only [Except.ok.injEq, exists_and_left, exists_eq_left', chunkSource_spells hn]
    refine and_congr_right fun hlen => spells_congr fun i hi => ?_
    have hq : (filePos + i) / 2 ^ bits = filePos / 2 ^ bits ∧
        (filePos + i) % 2 ^ bits = filePos % 2 ^ bits + i := by
      rw [Nat.div_mod_unique (Nat.two_pow_pos bits)]
      omega
    rw [indexedByte, hq.1, hq.2, hci]

/-- Positions below the end of the table have an entry: the loops never leave early. -/
theorem chunkIdx_lt (h : filePos < nchunks * 2 ^ bits) : filePos / 2 ^ bits < nchunks :=
  (Nat.div_lt_iff_lt_mul (Nat.two_pow_pos bits)).mpr h

/-- No position of a file lies behind its chunk table. -/
theorem div_lt_divCeil {p size : Nat} (hp : p < size) (bits : Nat) :
    p / 2 ^ bits < divCeil size (2 ^ bits) :=
  chunkIdx_lt (Nat.lt_of_lt_of_le hp (le_alignUp (Nat.two_pow_pos bits)))

/-- **The streaming loop** ends with nothing remaining, and has emitted the bytes of its
positions. -/
theorem writeChunkLoop_eq_ok (hn : filePos + remaining ≤ nchunks * 2 ^ bits)
    (h64 : filePos + remaining < 2 ^ 64) {w w' : List UInt8} {left : Nat} :
    r.writeChunkLoop indexAt bits nchunks remaining filePos w = .ok (w', left) ↔
      left = 0 ∧ ∃ l, w' = w ++ l ∧ l.length = remaining ∧
        Spells (r.indexedByte indexAt bits) filePos l := by
  induction remaining using Nat.strongRecOn generalizing filePos w with
  | ind remaining ih =>
    rw [writeChunkLoop]
    split
    · rename_i hpos
      have hmod := Nat.mod_lt filePos (Nat.two_pow_pos bits)
      obtain ⟨n, hneq⟩ : ∃ n, n = min remaining (2 ^ bits - filePos % 2 ^ bits) := ⟨_, rfl⟩
      have hidx := chunkIdx_lt (show filePos < nchunks * 2 ^ bits by omega)
      have hn0 : 0 < n := by omega
      have hturn := fun l => @turn_spells r l indexAt bits n filePos hn0 (by omega)
      have hrest := fun w => @ih (remaining - n) (by omega) (filePos + n) (by omega) (by omega) w
      dsimp only
      rw [if_neg (by omega), ← hneq]
      simp only [bind_eq_ok, checkedAdd_eq_ok, emitPiece_eq]
      constructor
      · rintro ⟨ci, hci, piece, hsrc, _, ⟨-, rfl⟩, hloop⟩
        obtain ⟨hlen, hspell⟩ := (hturn _).mp ⟨ci, piece, hci, hsrc, rfl⟩
        obtain ⟨rfl, l, rfl, hl, hrestspell⟩ := (hrest _).mp hloop
        refine ⟨rfl, piece.getD (List.replicate n 0) ++ l, List.append_assoc _ _ _, ?_, ?_⟩
        · rw [List.length_append]; omega
        · exact spells_append.mpr ⟨hspell, by rw [hlen]; exact hrestspell⟩
      · rintro ⟨rfl, l, rfl, hlen, hspell⟩
        have hcut : (l.take n).length = n := by rw [List.length_take]; omega
        rw [← List.take_append_drop n l, spells_append, hcut] at hspell
        obtain ⟨ci, piece, hci, hsrc, hpiece⟩ := (hturn _).mpr ⟨hcut, hspell.1⟩
        refine ⟨ci, hci, piece, hsrc, _, ⟨by omega, rfl⟩, (hrest _).mpr ⟨rfl, l.drop n, ?_, ?_, ?_⟩⟩
        · rw [hpiece, List.append_assoc, List.take_append_drop]
        · rw [List.length_drop, hlen]
        · exact hspell.2
    · rename_i hzero
      rw [pure_eq_ok, Except.ok.injEq, Prod.mk.injEq]
      constructor
      · rintro ⟨rfl, rfl⟩
        exact ⟨by omega, [], by simp, by simp; omega, spells_nil _ _⟩
      · rintro ⟨rfl, l, rfl, hlen, -⟩
        rw [List.length_eq_zero_iff.mp (by omega : l.length = 0), List.append_nil]
        exact ⟨rfl, by omega⟩

/-- **The buffered loop** leaves in the buffer what the streaming loop emits, and zeros behind
it. -/
theorem readChunkLoop_eq {front : List UInt8} {bufPos : Nat} (hbuf : bufPos = front.length) :
    r.readChunkLoop indexAt bits nchunks remaining filePos bufPos
        (front ++ List.replicate remaining 0) =
      (fun (w, left) => w ++ List.replicate left 0) <$>
        r.writeChunkLoop indexAt bits nchunks remaining filePos front := by
  induction remaining using Nat.strongRecOn generalizing filePos bufPos front with
  | ind remaining ih =>
    rw [readChunkLoop, writeChunkLoop]
    split
    · rename_i hpos
      have hmod := Nat.mod_lt filePos (Nat.two_pow_pos bits)
      obtain ⟨n, hneq⟩ : ∃ n, n = min remaining (2 ^ bits - filePos % 2 ^ bits) := ⟨_, rfl⟩
      dsimp only
      rw [← hneq]
      split
      · rfl
      · cases hci : indexAt (filePos / 2 ^ bits) with
        | error e => rfl
        | ok ci =>
          rw [bind_ok, bind_ok]
          cases hsrc : r.chunkSource ci (filePos % 2 ^ bits) n with
          | error e => rfl
          | ok piece =>
            obtain ⟨device, -, hle, hpiece⟩ := chunkSource_eq_ok.mp hsrc
            have hlen : (piece.getD (List.replicate n 0)).length = n := by
              rw [hpiece, Option.getD_some, length_window_of_le hle]
            rw [bind_ok, bind_ok, fillPiece_eq hlen (by omega) hbuf, bind_ok, emitPiece_eq]
            cases checkedAdd (ε := IoError) 64 filePos n with
            | error e => rfl
            | ok pos => exact ih (remaining - n) (by omega) (by rw [List.length_append]; omega)
    · rfl

/-- The buffered loop over a whole table returns the bytes of its positions. -/
theorem readChunkLoop_eq_ok {fileSize : Nat} (hin : offset + size ≤ fileSize)
    (h64 : fileSize < 2 ^ 64) :
    r.readChunkLoop indexAt bits (divCeil fileSize (2 ^ bits)) size offset 0
        (List.replicate size 0) = .ok l ↔
      l.length = size ∧ Spells (r.indexedByte indexAt bits) offset l := by
  have hcover := le_alignUp (n := fileSize) (Nat.two_pow_pos bits)
  have hbuf := @readChunkLoop_eq r indexAt bits (divCeil fileSize (2 ^ bits)) offset size [] 0 rfl
  have hloop := fun w left => @writeChunkLoop_eq_ok r indexAt bits (divCeil fileSize (2 ^ bits))
    offset size (Nat.le_trans hin hcover) (by omega) [] w left
  rw [List.nil_append] at hbuf
  rw [hbuf, map_eq_ok]
  constructor
  · rintro ⟨⟨w, left⟩, hw, rfl⟩
    obtain ⟨rfl, l, rfl, hlen, h⟩ := (hloop w left).mp hw
    simp only [List.replicate_zero, List.append_nil]
    exact ⟨hlen, h⟩
  · rintro ⟨hlen, h⟩
    exact ⟨(l, 0), (hloop l 0).mpr ⟨rfl, l, rfl, hlen, h⟩, List.append_nil l⟩

/-- The streaming loop over a whole table emits what the buffered loop returns. -/
theorem writeChunkLoop_eq {fileSize : Nat} (hin : offset + size ≤ fileSize)
    (h64 : fileSize < 2 ^ 64) :
    r.writeChunkLoop indexAt bits (divCeil fileSize (2 ^ bits)) size offset [] =
      (fun l => (l, 0)) <$> r.readChunkLoop indexAt bits (divCeil fileSize (2 ^ bits)) size offset 0
        (List.replicate size 0) := by
  have hcover := le_alignUp (n := fileSize) (Nat.two_pow_pos bits)
  have hbuf := @readChunkLoop_eq r indexAt bits (divCeil fileSize (2 ^ bits)) offset size [] 0 rfl
  rw [List.nil_append] at hbuf
  rw [hbuf]
  cases hloop : r.writeChunkLoop indexAt bits (divCeil fileSize (2 ^ bits)) size offset [] with
  | error e => rfl
  | ok out =>
    obtain ⟨w, left⟩ := out
    obtain ⟨rfl, -⟩ := (writeChunkLoop_eq_ok (Nat.le_trans hin hcover) (by omega)).mp hloop
    simp

/-! ## The chunked reads -/

/-- The chunk table is a slice of the image behind the attributes of the inode. -/
theorem chunkIndexes_eq_ok :
    r.chunkIndexes nid v = .ok l ↔ v.dataLayout = erofsInodeChunkBased ∧ r.chunkbits v < 64 ∧
      r.slotOffset nid + chunkTableOffset v +
          divCeil v.size.toNat (2 ^ r.chunkbits v) * erofsChunkIndexSize ≤ r.mmap.bytes.length ∧
        window r.mmap.bytes (r.slotOffset nid + chunkTableOffset v)
          (divCeil v.size.toNat (2 ^ r.chunkbits v) * erofsChunkIndexSize) = l := by
  have hlt := r.mmap.lenLt
  unfold chunkIndexes
  by_cases hlay : v.dataLayout = erofsInodeChunkBased
  · rw [if_neg (not_not.mpr hlay)]
    simp only [bind_eq_ok, checkedShl_eq_ok, nidToOffset_eq_ok, checkedAdd_eq_ok, checkedMul_eq_ok,
      mmapSlice_eq_ok]
    constructor
    · rintro ⟨_, ⟨hbits, rfl⟩, _, ⟨-, rfl⟩, _, ⟨-, rfl⟩, _, ⟨-, rfl⟩, h⟩
      exact ⟨hlay, hbits, h⟩
    · rintro ⟨-, hbits, hle, h⟩
      exact ⟨_, ⟨hbits, rfl⟩, _, ⟨by omega, rfl⟩, _, ⟨by omega, rfl⟩, _, ⟨by omega, rfl⟩, hle, h⟩
  · rw [if_pos hlay]
    simp [hlay]

/-- What a table that was read says about its inode. -/
theorem table_of_chunkIndexes (h : r.chunkIndexes nid v = .ok ciData) :
    v.dataLayout = erofsInodeChunkBased ∧ r.chunkbits v < 64 ∧
      ciData.length = divCeil v.size.toNat (2 ^ r.chunkbits v) * 8 ∧ ciData.length < 2 ^ 63 := by
  have hlt := r.mmap.lenLt
  obtain ⟨hlay, hbits, hle, rfl⟩ := chunkIndexes_eq_ok.mp h
  refine ⟨hlay, hbits, length_window_of_le hle, ?_⟩
  rw [length_window_of_le hle]
  omega

theorem byteAt_flat
    (hflat : v.dataLayout = erofsInodeFlatPlain ∨ v.dataLayout = erofsInodeFlatInline) :
    r.byteAt nid v = r.flatByte nid v := by
  funext p
  rw [byteAt, if_pos hflat, flatByte]

theorem byteAt_table {ciData : List UInt8} (h : r.chunkIndexes nid v = .ok ciData) :
    r.byteAt nid v = r.tableByte ciData (r.chunkbits v) := by
  funext p
  rw [byteAt, if_neg (not_flat (chunkIndexes_eq_ok.mp h).1), h]

theorem byteAt_none {e : Fault IoError}
    (hflat : ¬ (v.dataLayout = erofsInodeFlatPlain ∨ v.dataLayout = erofsInodeFlatInline))
    (h : r.chunkIndexes nid v = .error e) (p : Nat) : r.byteAt nid v p = none := by
  rw [byteAt, if_neg hflat, h]

/-- **A chunked read** returns the bytes of its positions. -/
theorem readChunkData_eq_ok (hlay : v.dataLayout = erofsInodeChunkBased) (hn : 0 < size)
    (hin : offset + size ≤ v.size.toNat) :
    r.readChunkData nid v offset size = .ok l ↔
      l.length = size ∧ Spells (r.byteAt nid v) offset l := by
  have hsize := v.size.toNat_lt
  cases htable : r.chunkIndexes nid v with
  | error e =>
    rw [readChunkData]
    simp only [bind_eq_ok, htable, reduceCtorEq, false_and, exists_false, and_false, false_iff,
      not_and]
    rintro rfl h
    obtain ⟨x, hx, -⟩ := h.isSome (Nat.le_refl offset) (by omega)
    rw [byteAt_none (not_flat hlay) htable] at hx
    cases hx
  | ok ciData =>
    obtain ⟨-, hbits, -⟩ := chunkIndexes_eq_ok.mp htable
    rw [readChunkData, checkedShl_ok hbits, bind_ok, htable, bind_ok, byteAt_table htable]
    exact readChunkLoop_eq_ok hin hsize

/-- Streaming and filling a buffer deliver the same bytes. -/
theorem writeChunkDataTo_eq (hin : offset + size ≤ v.size.toNat) :
    r.writeChunkDataTo nid v offset size =
      (fun l => (l, size)) <$> r.readChunkData nid v offset size := by
  have hsize := v.size.toNat_lt
  unfold writeChunkDataTo readChunkData
  cases hbits : checkedShl (ε := IoError) 64 (r.chunkbits v) with
  | error e => rfl
  | ok chunksize =>
    obtain ⟨-, rfl⟩ := checkedShl_eq_ok.mp hbits
    rw [bind_ok, bind_ok]
    cases htable : r.chunkIndexes nid v with
    | error e => rfl
    | ok ciData =>
      rw [bind_ok, bind_ok]
      dsimp only
      rw [writeChunkLoop_eq hin hsize]
      cases r.readChunkLoop (chunkIndexAt ciData) (r.chunkbits v)
        (divCeil v.size.toNat (2 ^ r.chunkbits v)) size offset 0 (List.replicate size 0) <;> rfl

/-! ## Reads of a file -/

theorem writeFlatDataTo_eq (r : ErofsReader) (nid : Nat) (v : ErofsInode) (offset size : Nat) :
    r.writeFlatDataTo nid v offset size =
      (fun l => (l, size)) <$> r.flatBytes nid v offset size := by
  unfold writeFlatDataTo flatBytes
  cases spansTail v offset size with
  | error e => rfl
  | ok spans =>
    rw [bind_ok, bind_ok]
    cases spans with
    | true =>
      rw [if_pos rfl, if_pos rfl]
      cases r.readSpanning nid v offset size <;> rfl
    | false =>
      rw [if_neg Bool.false_ne_true, if_neg Bool.false_ne_true]
      cases r.readFlatData nid v offset size <;> rfl

theorem readFileData_eq (r : ErofsReader) (nid : Nat) (v : ErofsInode) (offset size : Nat) :
    r.readFileData nid v offset size = r.readFileDataSync nid v offset size := rfl

/-- The dispatch on the layout keeps what streaming and filling a buffer have in common. -/
theorem writeFileDataWith_eq
    {wflat wchunked : Nat → ErofsInode → Nat → Nat → IoResult (List UInt8 × Nat)}
    {flat chunked : Nat → ErofsInode → Nat → Nat → IoResult (List UInt8)}
    (hflat : ∀ n, wflat nid v offset n = (fun l => (l, n)) <$> flat nid v offset n)
    (hchunked : ∀ n, offset + n ≤ v.size.toNat →
      wchunked nid v offset n = (fun l => (l, n)) <$> chunked nid v offset n) :
    writeFileDataWith wflat wchunked nid v offset size =
      (fun l => (l, readRange v offset size)) <$> readFileDataWith flat chunked nid v offset size := by
  unfold writeFileDataWith readFileDataWith
  by_cases hoff : offset ≥ v.size.toNat
  · rw [if_pos hoff, if_pos hoff, readRange, Nat.sub_eq_zero_of_le hoff, Nat.min_zero]
    rfl
  rw [if_neg hoff, if_neg hoff]
  dsimp only
  by_cases hlay : v.dataLayout = erofsInodeFlatPlain ∨ v.dataLayout = erofsInodeFlatInline
  · rw [if_pos hlay, if_pos hlay]
    exact hflat _
  rw [if_neg hlay, if_neg hlay]
  by_cases hlay : v.dataLayout = erofsInodeChunkBased
  · rw [if_pos hlay, if_pos hlay]
    exact hchunked _ (by omega)
  · rw [if_neg hlay, if_neg hlay]
    rfl

/-- **Streaming a file** delivers what the buffered read returns, and counts the bytes that the
range holds. -/
theorem writeFileDataTo_eq (r : ErofsReader) (nid : Nat) (v : ErofsInode) (offset size : Nat) :
    r.writeFileDataTo nid v offset size =
      (fun l => (l, readRange v offset size)) <$> r.readFileDataSync nid v offset size :=
  writeFileDataWith_eq (writeFlatDataTo_eq r nid v offset) fun _ hin => writeChunkDataTo_eq hin

/-- **A read of a file** returns the bytes of its positions. -/
theorem readFileDataSync_eq_ok (hoff : offset < v.size.toNat) (hn : 0 < size) :
    r.readFileDataSync nid v offset size = .ok l ↔
      l.length = readRange v offset size ∧ Spells (r.byteAt nid v) offset l := by
  have hsize := v.size.toNat_lt
  have hrange : 0 < readRange v offset size ∧ offset + readRange v offset size ≤ v.size.toNat := by
    rw [readRange]; omega
  unfold readFileDataSync readFileDataWith
  rw [if_neg (by omega)]
  dsimp only
  rw [← readRange]
  by_cases hflat : v.dataLayout = erofsInodeFlatPlain ∨ v.dataLayout = erofsInodeFlatInline
  · rw [if_pos hflat, byteAt_flat hflat]
    exact flatBytes_eq_ok hflat hrange.1 (by omega)
  rw [if_neg hflat]
  by_cases hlay : v.dataLayout = erofsInodeChunkBased
  · rw [if_pos hlay]
    exact readChunkData_eq_ok hlay hrange.1 hrange.2
  · have hnone : r.chunkIndexes nid v = ioError .invalidData "not a chunk-based inode" := by
      rw [chunkIndexes, if_pos hlay]
    rw [if_neg hlay]
    simp only [unsupportedLayout, ioError_ne_ok, false_iff, not_and]
    intro hlen h
    obtain ⟨x, hx, -⟩ := h.isSome (Nat.le_refl offset) (by omega)
    rw [byteAt_none hflat hnone] at hx
    cases hx

theorem length_of_slice {x : IoResult Nat} (h : (do let o ← x; r.mmapSlice o size) = .ok l) :
    l.length = size := by
  obtain ⟨o, -, ho⟩ := bind_eq_ok.mp h
  obtain ⟨hle, rfl⟩ := mmapSlice_eq_ok.mp ho
  exact length_window_of_le hle

theorem length_readFlatData (h : r.readFlatData nid v offset size = .ok l) : l.length = size := by
  have htail : ∀ b, (if b = true then do
        let dataOffset ← blockOffset v offset
        r.mmapSlice dataOffset size
      else if offset ≥ blocksSize v then do
        let dataOffset ← r.inlineOffset nid v (offset - blocksSize v)
        r.mmapSlice dataOffset size
      else ioError .invalidData
        "FLAT_INLINE read spans block+inline boundary, use read_flat_data_vec()") = .ok l →
      l.length = size := by
    intro b hb
    split at hb
    · exact length_of_slice hb
    split at hb
    · exact length_of_slice hb
    · cases hb
  unfold readFlatData at h
  dsimp only at h
  split at h
  · exact length_of_slice h
  split at h
  · split at h
    · exact length_of_slice h
    split at h
    · obtain ⟨stop, -, h⟩ := bind_eq_ok.mp h
      rw [pure_eq_ok, bind_ok] at h
      exact htail _ h
    · rw [pure_eq_ok, bind_ok] at h
      exact htail _ h
  · cases h

theorem length_flatBytes (h64 : offset + size < 2 ^ 64)
    (h : r.flatBytes nid v offset size = .ok l) : l.length = size := by
  rw [flatBytes, spansTail_eq h64, bind_ok] at h
  split at h
  · rename_i hspan
    obtain ⟨hlay, hlo, hhi⟩ := of_decide_eq_true hspan
    obtain ⟨⟨a, b⟩, hab, h⟩ := bind_eq_ok.mp h
    obtain ⟨⟨ha, -⟩, hb, -⟩ := (readSpanning_eq_ok hlay hlo hhi).mp hab
    cases h
    rw [List.length_append]
    omega
  · exact length_readFlatData h

theorem length_readChunkData (hin : offset + size ≤ v.size.toNat)
    (h : r.readChunkData nid v offset size = .ok l) : l.length = size := by
  rcases Nat.eq_zero_or_pos size with rfl | hn
  · obtain ⟨chunksize, -, h⟩ := bind_eq_ok.mp h
    obtain ⟨ciData, -, h⟩ := bind_eq_ok.mp h
    rw [readChunkLoop, dif_neg (Nat.lt_irrefl 0)] at h
    cases h
    rfl
  · obtain ⟨chunksize, -, htable⟩ := bind_eq_ok.mp h
    obtain ⟨ciData, htable, -⟩ := bind_eq_ok.mp htable
    exact ((readChunkData_eq_ok (chunkIndexes_eq_ok.mp htable).1 hn hin).mp h).1

theorem length_readFileDataSync (h : r.readFileDataSync nid v offset size = .ok l) :
    l.length = readRange v offset size := by
  have hsize := v.size.toNat_lt
  unfold readFileDataSync readFileDataWith at h
  split at h
  · cases h
    rw [readRange, List.length_nil]
    omega
  dsimp only at h
  rw [← readRange] at h
  have hin : offset + readRange v offset size ≤ v.size.toNat := by rw [readRange]; omega
  split at h
  · exact length_flatBytes (by omega) h
  split at h
  · exact length_readChunkData hin h
  · cases h

/-- **The three read paths agree** on what they accept, deliver and count: the bytes of the
range that lie in the file. No position of a file lies behind its chunk table. -/
theorem read_paths_agree (r : ErofsReader) (nid : Nat) (v : ErofsInode) (offset size : Nat) :
    (∀ l n, r.writeFileDataTo nid v offset size = .ok (l, n) ↔
        r.readFileDataSync nid v offset size = .ok l ∧ n = min size (v.size.toNat - offset)) ∧
      (∀ l, r.readFileData nid v offset size = .ok l ↔
        r.readFileDataSync nid v offset size = .ok l) ∧
      (∀ l, r.readFileDataSync nid v offset size = .ok l →
        l.length = min size (v.size.toNat - offset)) ∧
      ∀ p < v.size.toNat, p / 2 ^ r.chunkbits v < divCeil v.size.toNat (2 ^ r.chunkbits v) := by
  refine ⟨fun l n => ?_, fun l => by rw [readFileData_eq], fun l h => length_readFileDataSync h,
    fun p hp => div_lt_divCeil hp (r.chunkbits v)⟩
  rw [writeFileDataTo_eq, map_eq_ok]
  constructor
  · rintro ⟨l', h, heq⟩
    cases heq
    exact ⟨h, rfl⟩
  · rintro ⟨h, rfl⟩
    exact ⟨l, h, rfl⟩

/-- **Reads are slices of one file**: a read that succeeds is the concatenation of the reads of
its two parts, wherever it is cut. -/
theorem readFileDataSync_cut {a b c : Nat} (hab : a < b) (hbc : b < c) (hc : c ≤ v.size.toNat)
    (h : r.readFileDataSync nid v a (c - a) = .ok l) :
    ∃ front back, r.readFileDataSync nid v a (b - a) = .ok front ∧
      r.readFileDataSync nid v b (c - b) = .ok back ∧ front ++ back = l := by
  have hrange : readRange v a (c - a) = c - a ∧ readRange v a (b - a) = b - a ∧
      readRange v b (c - b) = c - b := by
    simp only [readRange]; omega
  obtain ⟨hlen, hspell⟩ := (readFileDataSync_eq_ok (by omega) (by omega)).mp h
  have hcut : (l.take (b - a)).length = b - a := by rw [List.length_take]; omega
  rw [← List.take_append_drop (b - a) l, spells_append, hcut, Nat.add_sub_cancel' hab.le] at hspell
  refine ⟨l.take (b - a), l.drop (b - a), ?_, ?_, List.take_append_drop _ l⟩
  · exact (readFileDataSync_eq_ok (by omega) (by omega)).mpr ⟨by omega, hspell.1⟩
  · refine (readFileDataSync_eq_ok (by omega) (by omega)).mpr ⟨?_, hspell.2⟩
    rw [List.length_drop]; omega

/-- An image of 2048 bytes over which a file of three bytes is read at its start. -/
def smallImage : ErofsReader where
  mmap := { bytes := (List.range 2048).map UInt8.ofNat, lenLt := by simp }
  blobMmap := none
  sbOffset := erofsSuperOffset
  sbFits := by simp [erofsSuperOffset, erofsSbBaseSize]

def threeBytes : ErofsInode := .compact
  { iFormat := 0, iXattrIcount := 0, iMode := 0, iNb := 0, iSize := 3, iMtime := 0, iU := 0,
    iIno := 0, iUid := 0, iGid := 0, iReserved := 0 }

theorem readFileDataSync_cut_threeBytes :
    ∃ front back, smallImage.readFileDataSync 0 threeBytes 0 (1 - 0) = .ok front ∧
      smallImage.readFileDataSync 0 threeBytes 1 (3 - 1) = .ok back ∧
      front ++ back = [0, 1, 2] :=
  readFileDataSync_cut (by decide) (by decide) (by decide) (by decide +kernel)

end ErofsReader
end ErofsUtils.Fs
