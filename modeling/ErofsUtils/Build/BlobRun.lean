import ErofsUtils.Build.BlobChunk
import Mathlib.Data.List.Forall2

/-! # Accounts and extents

Each block of a chunk is either written or counted as saved. An index points at the bytes of its
chunk, equal chunks share one extent and different ones share no block. -/
namespace ErofsUtils.Build
open ErofsUtils.Rust ErofsUtils.Bytes ErofsUtils.Metadata ErofsUtils.Store

namespace BlobWriter
variable {hash : List UInt8 → Digest} {w w' : BlobWriter} {chunk : List UInt8} {ci : ChunkIndex}

/-! ## Accounting -/

/-- The bytes on the device and the bytes saved. -/
def accounted (w : BlobWriter) : Nat := erofsBlockSize * w.totalBlocks + w.savedByDedup

/-- **One chunk** takes its blocks on the device or has them counted as saved. -/
theorem writeChunk_accounted (h : writeChunk hash w chunk = .ok (ci, w')) :
    w'.accounted = w.accounted + chunkSpace chunk ∧ w'.chunksize = w.chunksize := by
  have hblocks : divCeil chunk.length erofsBlockSize * erofsBlockSize / erofsBlockSize =
      divCeil chunk.length erofsBlockSize := Nat.mul_div_cancel _ (by decide)
  unfold accounted totalBlocks chunkSpace blocksOf
  cases hd : w.dedup (hash chunk) with
  | some b =>
    simp only [writeChunk, hd, bind_eq_ok, checkedAdd_eq_ok, pure_eq_ok, Except.ok.injEq,
      Prod.mk.injEq] at h
    obtain ⟨_, ⟨-, rfl⟩, -, rfl⟩ := h
    exact ⟨(Nat.add_assoc _ _ _).symm, rfl⟩
  | none =>
    simp only [writeChunk, hd, bind_eq_ok, checkedAdd_eq_ok, pure_eq_ok, Except.ok.injEq,
      Prod.mk.injEq] at h
    obtain ⟨_, -, _, -, _, ⟨-, rfl⟩, -, rfl⟩ := h
    refine ⟨?_, rfl⟩
    dsimp only
    rw [hblocks, Nat.mul_add, Nat.mul_comm erofsBlockSize (divCeil _ _)]
    omega

theorem writeChunks_accounted {chunks : List (List UInt8)} {cis : List ChunkIndex}
    (h : writeChunks hash chunks w = .ok (cis, w')) :
    w'.accounted = w.accounted + spaceOf chunks ∧ w'.chunksize = w.chunksize := by
  induction chunks generalizing w cis with
  | nil =>
    cases h
    exact ⟨rfl, rfl⟩
  | cons chunk chunks ih =>
    simp only [writeChunks, bind_eq_ok, pure_eq_ok, Except.ok.injEq, Prod.exists,
      Prod.mk.injEq] at h
    obtain ⟨ci, w₁, hstep, cis', w₂, hrest, rfl, rfl⟩ := h
    obtain ⟨h₁, hsize₁⟩ := writeChunk_accounted hstep
    obtain ⟨h₂, hsize₂⟩ := ih hrest
    refine ⟨?_, hsize₂.trans hsize₁⟩
    rw [h₂, h₁, spaceOf, spaceOf, List.map_cons, List.sum_cons, Nat.add_assoc]

/-- **A run** accounts for every block of every chunk it has processed. -/
theorem writeCalls_accounted {calls : List FileCall} {tables : List (List ChunkIndex)}
    (hcs : 0 < w.chunksize) (h : writeCalls hash calls w = .ok (tables, w')) :
    w'.accounted = w.accounted + spaceOf (callChunks w.chunksize calls) := by
  induction calls generalizing w tables with
  | nil =>
    cases h
    rfl
  | cons call calls ih =>
    simp only [writeCalls, bind_eq_ok, pure_eq_ok, Except.ok.injEq, Prod.exists,
      Prod.mk.injEq] at h
    obtain ⟨cis, w₁, hfile, tables', w₂, hrest, rfl, rfl⟩ := h
    obtain ⟨h₁, hsize⟩ := writeChunks_accounted
      (writeChunks_of_writeFileChunks (writeFileChunks_content hcs hfile).2)
    have h₂ := ih (hsize ▸ hcs) hrest
    have hrun : callChunks w.chunksize (call :: calls) =
        chunksOf w.chunksize call.content ++ callChunks w.chunksize calls := rfl
    rw [h₂, h₁, hsize, hrun, spaceOf, spaceOf, spaceOf, List.map_append, List.sum_append,
      Nat.add_assoc]

/-! ## Extents -/

/-- The extent of an index lies on the device, and holds the chunk and zeros up to the end of
its last block. -/
structure Extent (w : BlobWriter) (ci : ChunkIndex) (chunk : List UInt8) : Prop where
  within : ci.blkaddr + blocksOf erofsBlockSize chunk ≤ w.totalBlocks
  bytes : window w.file.bytes (ci.blkaddr * erofsBlockSize)
      (blocksOf erofsBlockSize chunk * erofsBlockSize) =
    chunk ++ List.replicate (blocksOf erofsBlockSize chunk * erofsBlockSize - chunk.length) 0

/-- Two indexes of a run: they share their address or no block. -/
structure Separate (p q : ChunkIndex × List UInt8) : Prop where
  same : p.1.blkaddr = q.1.blkaddr ↔ p.2 = q.2
  apart : p.2 ≠ q.2 → Apart p.1.blkaddr (blocksOf erofsBlockSize p.2)
    q.1.blkaddr (blocksOf erofsBlockSize q.2)

variable {store : List (List UInt8)} {calls : List FileCall} {tables : List (List ChunkIndex)}

theorem Holds.extent (h : Holds hash w store) (hc : chunk ∈ store) :
    w.Extent (storedIndex store chunk) chunk := by
  refine ⟨?_, ?_⟩
  · rw [totalBlocks, h.next]
    exact addr_add_blocksOf_le hc
  · have hblock : 0 < erofsBlockSize := by decide
    have hpad := length_padded (z := (0 : UInt8)) hblock chunk
    have hwin := window_cells_padded (z := (0 : UInt8)) hblock hc
    rw [hpad] at hwin
    rw [h.file]
    exact hwin

theorem separate_storedIndex {c d : List UInt8} (hc : c ∈ store) (hd : d ∈ store) (hcne : c ≠ [])
    (hdne : d ≠ []) : Separate (storedIndex store c, c) (storedIndex store d, d) :=
  ⟨addr_inj (by decide) hc hd hcne hdne, fun hne => addr_apart hc hd hne⟩

theorem ne_nil_of_mem_chunksOf {cs : Nat} {content : List UInt8} (hcs : 0 < cs)
    (h : chunk ∈ chunksOf cs content) : chunk ≠ [] := by
  obtain ⟨j, hj, rfl⟩ := List.mem_map.mp h
  have hlt := (lt_divCeil_iff hcs).mp (show j < divCeil content.length cs by
    have := List.mem_range'_1.mp hj
    omega)
  rw [← List.length_pos_iff, length_window]
  omega

theorem length_content (hcs : 0 < w.chunksize) (h : writeCalls hash calls w = .ok (tables, w')) :
    ∀ call ∈ calls, call.content.length = call.fileSize := by
  induction calls generalizing w tables with
  | nil => simp
  | cons call calls ih =>
    simp only [writeCalls, bind_eq_ok, pure_eq_ok, Except.ok.injEq, Prod.exists,
      Prod.mk.injEq] at h
    obtain ⟨cis, w₁, hfile, tables', w₂, hrest, rfl, rfl⟩ := h
    obtain ⟨hlen, hfile⟩ := writeFileChunks_content hcs hfile
    have hsize := (writeChunks_accounted (writeChunks_of_writeFileChunks hfile)).2
    intro c hc
    rcases List.mem_cons.mp hc with rfl | hc
    · exact hlen
    · exact ih (hsize ▸ hcs) hrest c hc

end BlobWriter
end ErofsUtils.Build
