import ErofsUtils.Fs.Directory
import ErofsUtils.Fs.Flat
import ErofsUtils.Fs.Images

/-! # Directories in any packing

The format leaves open how many entries a block takes and what follows its last name. The
parser recovers the names of every such block, and a directory of such blocks hands out its
entries wherever the layout of its inode puts the bytes. -/
namespace ErofsUtils.Fs
open ErofsUtils.Rust ErofsUtils.Bytes ErofsUtils.Metadata

/-! ## Well-formed blocks -/

/-- A directory block that holds the entries `es`: one name behind the other, the first right
behind the dirents, the last up to a NUL or the end of the block. -/
structure ListsBlock (block : List UInt8) (es : List CachedDirEntry) : Prop where
  ne_nil : es ≠ []
  first : nameoffAt block 0 = 12 * es.length
  increasing : ∀ i, i + 1 < es.length → nameoffAt block i < nameoffAt block (i + 1)
  inside : ∀ i < es.length, nameoffAt block i < block.length
  dirent : ∀ i e, es[i]? = some e →
    (direntAt block i).nid.toNat = e.nid ∧ (direntAt block i).fileType = e.fileType
  name : ∀ i e, es[i]? = some e → window block (nameoffAt block i) e.name.length = e.name
  legal : ∀ e ∈ es, e.name ≠ [] ∧ (0 : UInt8) ∉ e.name
  next : ∀ i e, es[i]? = some e → i + 1 < es.length →
    nameoffAt block i + e.name.length = nameoffAt block (i + 1)
  last : ∀ e, es.getLast? = some e →
    nameoffAt block (es.length - 1) + e.name.length = block.length ∨
      block[nameoffAt block (es.length - 1) + e.name.length]? = some 0

/-- The content of a directory: full blocks and a last block of any length. -/
inductive ListsDir : List UInt8 → List CachedDirEntry → Prop where
  | empty : ListsDir [] []
  | last {block : List UInt8} {es : List CachedDirEntry} (h : ListsBlock block es)
      (hlen : block.length ≤ 4096) : ListsDir block es
  | block {block rest : List UInt8} {es fs : List CachedDirEntry} (h : ListsBlock block es)
      (hlen : block.length = 4096) (hrest : ListsDir rest fs) : ListsDir (block ++ rest) (es ++ fs)

variable {block rest : List UInt8} {es fs : List CachedDirEntry} {e : CachedDirEntry}

theorem ListsBlock.length_pos (h : ListsBlock block es) : 0 < es.length :=
  List.length_pos_iff.mpr h.ne_nil

/-- The dirents end inside the block. -/
theorem ListsBlock.dirents_lt (h : ListsBlock block es) : 12 * es.length < block.length := by
  have hin := h.inside 0 h.length_pos
  rwa [h.first] at hin

/-- The scan stops behind a name that nothing or a NUL follows. -/
theorem scanName_eq {name : List UInt8} {off : Nat} (hname : (0 : UInt8) ∉ name)
    (hwin : window block off name.length = name)
    (hstop : off + name.length = block.length ∨ block[off + name.length]? = some 0) :
    scanName block off = off + name.length := by
  have hsplit : block.drop off = name ++ block.drop (off + name.length) := by
    rw [← List.drop_drop, ← List.take_append_drop name.length (block.drop off), ← window, hwin,
      List.drop_left]
  have hall : ∀ b ∈ name, decide (b ≠ 0) = true := by
    intro b hb
    refine decide_eq_true ?_
    rintro rfl
    exact hname hb
  have hend : (block.drop (off + name.length)).takeWhile (· ≠ 0) = [] := by
    rcases hstop with hstop | hstop
    · rw [List.drop_of_length_le (by omega)]
      rfl
    · obtain ⟨hlt, hzero⟩ := List.getElem?_eq_some_iff.mp hstop
      rw [List.drop_eq_getElem_cons hlt, hzero]
      rfl
  rw [scanName, hsplit, List.takeWhile_append_of_pos hall, hend, List.append_nil]

/-- The end of every name is found by the rule for its place. -/
theorem ListsBlock.nameEndAt_eq (h : ListsBlock block es) {i : Nat} (he : es[i]? = some e) :
    nameEndAt block es.length i = nameoffAt block i + e.name.length := by
  obtain ⟨hi, -⟩ := List.getElem?_eq_some_iff.mp he
  obtain ⟨-, hnul⟩ := h.legal e (List.mem_of_getElem? he)
  unfold nameEndAt
  split
  · rename_i hnext
    exact (h.next i e he hnext).symm
  · obtain rfl : i = es.length - 1 := by omega
    exact scanName_eq hnul (h.name _ e he) (h.last e (List.getLast?_eq_getElem? ▸ he))

theorem ListsBlock.entryAt_eq (h : ListsBlock block es) {i : Nat} (he : es[i]? = some e) :
    entryAt block es.length i = e := by
  obtain ⟨hnid, htype⟩ := h.dirent i e he
  rw [entryAt, h.nameEndAt_eq he, Nat.add_sub_cancel_left, h.name i e he, hnid, htype]

theorem ListsBlock.nameEnd_le (h : ListsBlock block es) {i : Nat} (he : es[i]? = some e) :
    nameoffAt block i + e.name.length ≤ block.length :=
  le_of_window_eq (h.name i e he) (h.legal e (List.mem_of_getElem? he)).1

/-- **A well-formed block** is scanned to its end. -/
theorem ListsBlock.scanBlock_eq (h : ListsBlock block es) {n i : Nat} (hn : i + n = es.length) :
    scanBlock block es.length n i = (es.drop i, none) := by
  have hroom := h.dirents_lt
  induction n generalizing i with
  | zero =>
    rw [scanBlock, List.drop_of_length_le (by omega)]
  | succ n ih =>
    have hi : i < es.length := by omega
    have he : es[i]? = some es[i] := List.getElem?_eq_getElem hi
    have hin := h.inside i hi
    have hend := h.nameEnd_le he
    rw [scanBlock, if_neg (by omega), if_neg (by omega), h.nameEndAt_eq he, if_neg (by omega),
      if_neg (by omega), h.entryAt_eq he, ih (by omega), List.drop_eq_getElem_cons hi]

theorem ListsBlock.scanWhole_eq (h : ListsBlock block es) : scanWhole block = (es, none) := by
  have hds : erofsDirentSize = 12 := rfl
  have hroom := h.dirents_lt
  have hpos := h.length_pos
  have hscan := h.scanBlock_eq (Nat.zero_add _)
  rw [scanWhole, if_neg (by omega), h.first, hds, Nat.mul_div_cancel_left _ (by decide), hscan,
    List.drop_zero]

/-! ## Well-formed directories -/

/-- The blocks behind the first. -/
theorem dirBlocks_cons (hlen : block.length = 4096) (rest : List UInt8) :
    dirBlocks (block ++ rest) 0 (divCeil (block ++ rest).length 4096) =
      block :: dirBlocks rest 0 (divCeil rest.length 4096) := by
  have hcount : divCeil (block ++ rest).length 4096 = divCeil rest.length 4096 + 1 := by
    rw [List.length_append, hlen, divCeil, divCeil]
    omega
  have hfirst : window (block ++ rest) (0 * 4096) 4096 = block := by
    rw [Nat.zero_mul, window_append_left (by omega), ← hlen, window_all]
  rw [hcount, dirBlocks, List.range'_succ, List.map_cons, hfirst, dirBlocks,
    List.range'_eq_map_range, List.range'_eq_map_range, List.map_map, List.map_map]
  refine congrArg _ (List.map_congr_left fun k _ => ?_)
  have hshift : (0 + 1 + k) * 4096 = block.length + (0 + k) * 4096 := by omega
  simp only [Function.comp_apply]
  rw [hshift, window_append_right]

theorem dirBlocks_last (hpos : 0 < block.length) (hlen : block.length ≤ 4096) :
    dirBlocks block 0 (divCeil block.length 4096) = [block] := by
  have hcount : divCeil block.length 4096 = 1 := by
    rw [divCeil]
    omega
  rw [hcount, dirBlocks, List.range'_one, List.map_singleton, Nat.zero_mul, window, List.drop_zero,
    List.take_of_length_le hlen]

/-- Every block of a well-formed directory is scanned to its end, for its own entries. -/
theorem ListsDir.blocks {content : List UInt8} (h : ListsDir content es) :
    BlocksSafe content ∧ dirEntries content = es := by
  rw [blocksSafe_iff, dirEntries]
  induction h with
  | empty => exact ⟨fun b hb => absurd hb List.not_mem_nil, rfl⟩
  | last h hlen =>
    have hroom := h.dirents_lt
    have hscan := h.scanWhole_eq
    rw [dirBlocks_last (by omega) hlen]
    exact ⟨fun b hb => List.mem_singleton.mp hb ▸ congrArg Prod.snd hscan, by simp [hscan]⟩
  | @block block rest es fs h hlen hrest ih =>
    have hscan := h.scanWhole_eq
    rw [dirBlocks_cons hlen]
    refine ⟨fun b hb => ?_, by rw [List.flatMap_cons, hscan, ih.2]⟩
    rcases List.mem_cons.mp hb with rfl | hb
    · exact congrArg Prod.snd hscan
    · exact ih.1 b hb

namespace ErofsReader
variable {r : ErofsReader} {nid : Nat} {v : ErofsInode} {content : List UInt8} {σ : Type}

/-- The slice path is the copying read, or gives way to it. -/
theorem forEachDirEntry_of_vec (hpos : 0 < v.size.toNat)
    (h : r.readFlatDataVec nid v 0 v.size.toNat = .ok content) (cb : DirCallback σ) (s : σ) :
    r.forEachDirEntry nid v cb s = parseDirEntries content v.size.toNat cb 0 s := by
  have hlt := v.size.toNat_lt
  have hspans := spansTail_eq (v := v) (show 0 + v.size.toNat < 2 ^ 64 by omega)
  by_cases hspan : v.dataLayout = erofsInodeFlatInline ∧ 0 < blocksSize v ∧
      blocksSize v < 0 + v.size.toNat
  · obtain ⟨hlay, hlo, hhi⟩ := hspan
    have hne : ¬ v.dataLayout = erofsInodeFlatPlain := by
      rw [hlay]
      decide
    have hslice : r.readFlatData nid v 0 v.size.toNat = ioError .invalidData
        "FLAT_INLINE read spans block+inline boundary, use read_flat_data_vec()" := by
      unfold readFlatData
      dsimp only
      rw [if_neg hne, if_pos hlay, if_neg (by omega), if_pos hlo, checkedAdd_ok (by omega),
        bind_ok, pure_eq_ok, bind_ok, decide_eq_false (by omega), if_neg Bool.false_ne_true,
        if_neg (by omega)]
    unfold forEachDirEntry
    dsimp only
    rw [if_neg (by omega), hslice, h]
    rfl
  · have hslice : r.readFlatData nid v 0 v.size.toNat = .ok content := by
      have hbytes := flatBytes_of_vec h
      rwa [flatBytes, hspans, bind_ok, if_neg (by simpa using hspan)] at hbytes
    unfold forEachDirEntry
    dsimp only
    rw [if_neg (by omega), hslice]

/-- **Every well-formed directory is accepted**: whatever its packing, and stored flat in any
way, the callback runs over exactly its entries, in order, until it stops. -/
theorem forEachDirEntry_wellFormed (hdir : ListsDir content es)
    (hstored : StoredFlat r nid v content) (hsize : v.size.toNat = content.length) (cb : DirCallback σ) (s : σ) :
    r.forEachDirEntry nid v cb s = runCallback cb es s := by
  obtain ⟨hsafe, hentries⟩ := hdir.blocks
  rcases Nat.eq_zero_or_pos content.length with h0 | hpos
  · obtain rfl := List.length_eq_zero_iff.mp h0
    have hnone : es = [] := hentries.symm
    have hsize0 : v.size.toNat = 0 := hsize
    rw [forEachDirEntry, if_pos hsize0, hnone]
    rfl
  · have hvec := readFlatDataVec_stored hstored hsize hpos
    rw [forEachDirEntry_of_vec (by omega) hvec, hsize, parseDirEntries_of_safe hsafe, hentries]

/-! ## A packing of its own -/

/-- Two entries, and garbage behind the NUL that ends the last name. -/
def dotsBlock : List UInt8 :=
  ErofsDirent.asBytes ⟨36, 24, 2, 9⟩ ++ ErofsDirent.asBytes ⟨36, 25, 2, 9⟩ ++ [46, 46, 46, 0, 7]

def dotsEntries : List CachedDirEntry := [⟨36, 2, [46]⟩, ⟨36, 2, [46, 46]⟩]

theorem listsBlock_dots : ListsBlock dotsBlock dotsEntries where
  ne_nil := by decide
  first := by decide
  increasing i h := by
    obtain rfl : i = 0 := by simp [dotsEntries] at h; omega
    decide
  inside := by decide
  dirent
    | 0, _, rfl => by decide
    | 1, _, rfl => by decide
  name
    | 0, _, rfl => by decide
    | 1, _, rfl => by decide
  legal := by decide
  next
    | 0, _, rfl, _ => by decide
    | 1, _, rfl, h => absurd h (by decide)
  last
    | _, rfl => by decide

/-- The block behind a compact inode that stores its data inline. -/
def dotsReader : ErofsReader :=
  imageReader { magic := erofsSuperMagicV1 } (List.replicate 32 0 ++ dotsBlock) none (by decide)

def dotsInode : ErofsInode := .compact (.new 4 0o040755 0 29 0 0 0 0 0)

theorem forEachDirEntry_wellFormed_dots :
    dotsReader.forEachDirEntry 36 dotsInode collect [] = .ok dotsEntries :=
  (forEachDirEntry_wellFormed (.last listsBlock_dots (by decide))
    (@StoredFlat.inline _ _ _ [] dotsBlock (by decide) (by decide) (by decide) (by decide +kernel)
      (by decide +kernel)) (by decide) collect []).trans rfl

end ErofsReader
end ErofsUtils.Fs
