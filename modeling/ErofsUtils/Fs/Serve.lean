import ErofsUtils.Fs.Data

/-! # What the chunk loops read

A chunk table serves a file when every piece of a chunk inside it is found and is the
file's: data is read from its device, a hole stands for zeros. Both loops then produce
the part of the file they are asked for, whatever chunks it crosses. -/
namespace ErofsUtils.Fs
open ErofsUtils.Rust ErofsUtils.Bytes ErofsUtils.Metadata

/-- The `n` bytes of the file `f` from `pos` on. -/
def part (f : Nat → UInt8) (pos n : Nat) : List UInt8 := (List.range' pos n).map f

@[simp] theorem length_part (f : Nat → UInt8) (pos n : Nat) : (part f pos n).length = n := by
  simp [part]

@[simp] theorem part_zero (f : Nat → UInt8) (pos : Nat) : part f pos 0 = [] := rfl

theorem part_add (f : Nat → UInt8) (pos m n : Nat) :
    part f pos (m + n) = part f pos m ++ part f (pos + m) n := by
  simp only [part, ← List.map_append, List.range'_append_1]

/-- The parts of a list are its windows. -/
theorem part_getD (l : List UInt8) {pos n : Nat} (h : pos + n ≤ l.length) :
    part (fun p => l.getD p 0) pos n = window l pos n := by
  apply List.ext_getElem
  · rw [length_part, length_window_of_le h]
  · intro i hi hi'
    rw [length_part] at hi
    have hlt : pos + i < l.length := by omega
    simp [part, window, hlt]

namespace ErofsReader
variable {r : ErofsReader} {ciData : List UInt8} {bits nchunks : Nat} {f : Nat → UInt8} {lo hi : Nat}

/-- The table serves the bytes of `f` from `lo` up to `hi`. -/
def Serves (r : ErofsReader) (ciData : List UInt8) (bits : Nat) (f : Nat → UInt8)
    (lo hi : Nat) : Prop :=
  ∀ k off n, lo ≤ k * 2 ^ bits + off → k * 2 ^ bits + off + n ≤ hi → off + n ≤ 2 ^ bits → 0 < n →
    ∃ ci piece, chunkIndexAt ciData k = .ok ci ∧ r.chunkSource ci off n = .ok piece ∧
      piece.getD (List.replicate n 0) = part f (k * 2 ^ bits + off) n

/-- An index of the table is its eight bytes. -/
theorem chunkIndexAt_ok {k : Nat} (hk : k * 8 + 8 ≤ ciData.length) (h64 : k * 8 < 2 ^ 64) :
    chunkIndexAt ciData k = .ok (ErofsChunkIndex.codec.dec (window ciData (k * 8) 8)) := by
  have hfront : (window ciData (k * 8) (ciData.length - k * 8)).take 8 = window ciData (k * 8) 8 := by
    rw [window, window, List.take_take, Nat.min_eq_left (by omega)]
  rw [chunkIndexAt, erofsChunkIndexSize, checkedMul_ok h64, bind_ok,
    slice_ok (by omega) (Nat.le_refl _), bind_ok, Codec.castRef_ok _
    (by rw [length_window_of_le (by omega), ErofsChunkIndex.codec_size, erofsChunkIndexSize]; omega),
    ← ErofsChunkIndex.codec.dec_take]
  exact congrArg _ (congrArg ErofsChunkIndex.codec.dec hfront)

/-- A piece of a chunk on the blob device is one slice of the device. -/
theorem chunkSource_blob (r : ErofsReader) {ci : ErofsChunkIndex} (hdev : ci.deviceId > 0)
    {off : Nat} (hoff : off < 2 ^ 63) (n : Nat) :
    r.chunkSource ci off n = some <$> r.blobMmapSlice (ci.blkaddr * erofsBlockSize + off) n := by
  have hlt := ci.blkaddr_lt
  have hmul : ci.blkaddr * erofsBlockSize < 2 ^ 64 := by rw [erofsBlockSize]; omega
  have hadd : ci.blkaddr * erofsBlockSize + off < 2 ^ 64 := by rw [erofsBlockSize]; omega
  unfold chunkSource
  dsimp only
  rw [if_neg ci.blkaddr_ne_null, if_pos hdev, checkedMul_ok hmul, bind_ok, checkedAdd_ok hadd,
    bind_ok]

/-- What one turn of a loop finds at `filePos`. -/
theorem Serves.turn (h : r.Serves ciData bits f lo hi) (hn : hi ≤ nchunks * 2 ^ bits)
    {filePos remaining : Nat} (hlo : lo ≤ filePos) (hhi : filePos + remaining ≤ hi)
    (hpos : 0 < remaining) :
    ¬ filePos / 2 ^ bits ≥ nchunks ∧
    ∃ n ci piece, n = min remaining (2 ^ bits - filePos % 2 ^ bits) ∧ 0 < n ∧ n ≤ remaining ∧
      chunkIndexAt ciData (filePos / 2 ^ bits) = .ok ci ∧
      r.chunkSource ci (filePos % 2 ^ bits) n = .ok piece ∧
      piece.getD (List.replicate n 0) = part f filePos n := by
  have hmod := Nat.mod_lt filePos (Nat.two_pow_pos bits)
  have hdiv := Nat.div_add_mod' filePos (2 ^ bits)
  refine ⟨?_, min remaining (2 ^ bits - filePos % 2 ^ bits), ?_⟩
  · have : filePos / 2 ^ bits < nchunks := by
      rw [Nat.div_lt_iff_lt_mul (Nat.two_pow_pos bits)]
      omega
    omega
  · obtain ⟨ci, piece, hci, hsrc, hp⟩ := h (filePos / 2 ^ bits) (filePos % 2 ^ bits)
      (min remaining (2 ^ bits - filePos % 2 ^ bits)) (by omega) (by omega) (by omega) (by omega)
    rw [hdiv] at hp
    exact ⟨ci, piece, rfl, by omega, by omega, hci, hsrc, hp⟩

theorem emitPiece_eq (w : List UInt8) (n : Nat) (piece : Option (List UInt8)) :
    emitPiece w n piece = w ++ piece.getD (List.replicate n 0) := by
  cases piece with
  | none => rw [emitPiece, zeroPieces_eq]; rfl
  | some bytes => rfl

theorem fillPiece_eq {piece : Option (List UInt8)} {n remaining bufPos : Nat}
    {front : List UInt8} (hlen : (piece.getD (List.replicate n 0)).length = n)
    (hn : n ≤ remaining) (hbuf : bufPos = front.length) :
    fillPiece (front ++ List.replicate remaining 0) bufPos piece =
      .ok (front ++ piece.getD (List.replicate n 0) ++ List.replicate (remaining - n) 0) := by
  cases piece with
  | none =>
    rw [Option.getD_none, List.append_assoc, List.replicate_append_replicate,
      Nat.add_sub_cancel' hn]
    rfl
  | some bytes =>
    rw [Option.getD_some] at hlen
    have hcopy : (copyAt (front ++ List.replicate remaining 0 ++ []) bufPos bytes :
        IoResult (List UInt8)) = _ := copyAt_replicate front [] bytes 0 hbuf (hlen ▸ hn)
    simp only [List.append_nil, hlen] at hcopy
    exact hcopy

/-- **The streaming loop** emits the part asked for and nothing remains. -/
theorem Serves.writeChunkLoop (h : r.Serves ciData bits f lo hi) (hhi64 : hi < 2 ^ 64)
    (hn : hi ≤ nchunks * 2 ^ bits) {filePos remaining : Nat} (w : List UInt8)
    (hlo : lo ≤ filePos) (hhi : filePos + remaining ≤ hi) :
    r.writeChunkLoop (chunkIndexAt ciData) bits nchunks remaining filePos w =
      .ok (w ++ part f filePos remaining, 0) := by
  induction remaining using Nat.strongRecOn generalizing filePos w with
  | ind remaining ih =>
    rw [ErofsReader.writeChunkLoop]
    split
    · rename_i hpos
      obtain ⟨hidx, n, ci, piece, hneq, hn0, hnle, hci, hsrc, hp⟩ := h.turn hn hlo hhi hpos
      dsimp only
      rw [if_neg hidx, hci, bind_ok, ← hneq, hsrc, bind_ok, checkedAdd_ok (by omega), bind_ok,
        ih (remaining - n) (by omega) _ (by omega) (by omega)]
      rw [emitPiece_eq, hp, List.append_assoc, ← part_add, Nat.add_sub_cancel' hnle]
    · rw [show remaining = 0 by omega, part_zero, List.append_nil]
      rfl

/-- **The buffered loop** fills the zeros from `bufPos` on with the part asked for. -/
theorem Serves.readChunkLoop (h : r.Serves ciData bits f lo hi) (hhi64 : hi < 2 ^ 64)
    (hn : hi ≤ nchunks * 2 ^ bits) {filePos remaining bufPos : Nat} (front : List UInt8)
    (hlo : lo ≤ filePos) (hhi : filePos + remaining ≤ hi) (hbuf : bufPos = front.length) :
    r.readChunkLoop (chunkIndexAt ciData) bits nchunks remaining filePos bufPos
        (front ++ List.replicate remaining 0) =
      .ok (front ++ part f filePos remaining) := by
  induction remaining using Nat.strongRecOn generalizing filePos bufPos front with
  | ind remaining ih =>
    rw [ErofsReader.readChunkLoop]
    split
    · rename_i hpos
      obtain ⟨hidx, n, ci, piece, hneq, hn0, hnle, hci, hsrc, hp⟩ := h.turn hn hlo hhi hpos
      dsimp only
      have hlen := (congrArg List.length hp).trans (length_part f filePos n)
      rw [if_neg hidx, hci, bind_ok, ← hneq, hsrc, bind_ok, fillPiece_eq hlen hnle hbuf, hp, bind_ok,
        checkedAdd_ok (by omega), bind_ok,
        ih (remaining - n) (by omega) _ (by omega) (by omega) (by simp; omega),
        List.append_assoc, ← part_add, Nat.add_sub_cancel' hnle]
    · rw [show remaining = 0 by omega, part_zero, List.replicate_zero]
      rfl

/-! ## The read paths -/

/-- The inode is chunk-based, its table is in the image and serves `f` from `lo` on. -/
structure ServesFile (r : ErofsReader) (nid : Nat) (v : ErofsInode) (f : Nat → UInt8)
    (lo hi : Nat) : Prop where
  layout : v.dataLayout = erofsInodeChunkBased
  bits : r.chunkbits v < 64
  within : hi ≤ v.size.toNat
  table : ∃ ciData, r.chunkIndexes nid v = .ok ciData ∧ r.Serves ciData (r.chunkbits v) f lo hi

variable {nid : Nat} {v : ErofsInode} {offset size : Nat}

theorem ServesFile.le_table (h : r.ServesFile nid v f lo hi) :
    hi < 2 ^ 64 ∧ hi ≤ divCeil v.size.toNat (2 ^ r.chunkbits v) * 2 ^ r.chunkbits v := by
  have hlt := v.size.toNat_lt
  have hle := h.within
  exact ⟨by omega, Nat.le_trans hle (le_alignUp (Nat.two_pow_pos _))⟩

theorem ServesFile.writeChunkDataTo (h : r.ServesFile nid v f lo hi) (hlo : lo ≤ offset)
    (hhi : offset + size ≤ hi) :
    r.writeChunkDataTo nid v offset size = .ok (part f offset size, size) := by
  obtain ⟨ciData, htable, hserves⟩ := h.table
  have hloop := hserves.writeChunkLoop h.le_table.1 h.le_table.2 [] hlo hhi
  rw [ErofsReader.writeChunkDataTo, checkedShl_ok h.bits, bind_ok, htable, bind_ok]
  dsimp only
  rw [hloop]
  rfl

theorem ServesFile.readChunkData (h : r.ServesFile nid v f lo hi) (hlo : lo ≤ offset)
    (hhi : offset + size ≤ hi) :
    r.readChunkData nid v offset size = .ok (part f offset size) := by
  obtain ⟨ciData, htable, hserves⟩ := h.table
  have hloop := hserves.readChunkLoop h.le_table.1 h.le_table.2 [] hlo hhi rfl
  rw [ErofsReader.readChunkData, checkedShl_ok h.bits, bind_ok, htable, bind_ok]
  exact hloop

/-- A chunk-based inode is not read as a flat one. -/
theorem not_flat (h : v.dataLayout = erofsInodeChunkBased) :
    ¬ (v.dataLayout = erofsInodeFlatPlain ∨ v.dataLayout = erofsInodeFlatInline) := by
  rw [h]
  decide

/-- The bytes a read of `size` bytes at `offset` returns. -/
def readRange (v : ErofsInode) (offset size : Nat) : Nat := min size (v.size.toNat - offset)

theorem ServesFile.readFileDataWith (h : r.ServesFile nid v f lo hi) (hlo : lo ≤ offset)
    (hhi : offset + readRange v offset size ≤ hi) (hoff : offset < v.size.toNat) :
    ErofsReader.readFileDataWith r.flatBytes r.readChunkData nid v offset size =
      .ok (part f offset (readRange v offset size)) := by
  have hflat := not_flat h.layout
  have hin : ¬ offset ≥ v.size.toNat := by omega
  unfold ErofsReader.readFileDataWith
  rw [if_neg hin]
  dsimp only
  rw [if_neg hflat, if_pos h.layout]
  exact h.readChunkData hlo hhi

/-- **All three read paths** return the same part of a served file: from `offset` on, up to
the size asked for or the end of the file. -/
theorem ServesFile.reads (h : r.ServesFile nid v f lo hi) (hlo : lo ≤ offset)
    (hhi : offset + readRange v offset size ≤ hi) (hoff : offset < v.size.toNat) :
    r.writeFileDataTo nid v offset size =
        .ok (part f offset (readRange v offset size), readRange v offset size) ∧
      r.readFileDataSync nid v offset size = .ok (part f offset (readRange v offset size)) ∧
      r.readFileData nid v offset size = .ok (part f offset (readRange v offset size)) := by
  have hflat := not_flat h.layout
  have hin : ¬ offset ≥ v.size.toNat := by omega
  refine ⟨?_, ?_, ?_⟩
  · rw [ErofsReader.writeFileDataTo, writeFileDataWith, if_neg hin]
    dsimp only
    rw [if_neg hflat, if_pos h.layout]
    exact h.writeChunkDataTo hlo hhi
  · exact h.readFileDataWith hlo hhi hoff
  · exact h.readFileDataWith hlo hhi hoff

/-- Behind the end of a file every path returns nothing. -/
theorem reads_past_end (r : ErofsReader) (nid : Nat) (hoff : v.size.toNat ≤ offset) :
    r.writeFileDataTo nid v offset size = .ok ([], 0) ∧
      r.readFileDataSync nid v offset size = .ok [] ∧
      r.readFileData nid v offset size = .ok [] :=
  ⟨if_pos hoff, if_pos hoff, if_pos hoff⟩

end ErofsReader
end ErofsUtils.Fs
