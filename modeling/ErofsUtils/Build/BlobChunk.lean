import ErofsUtils.Build.Inode
import ErofsUtils.Store.BlockStore

/-! # Chunks on the blob device

Files are cut into chunks. Each distinct chunk, told apart by its digest, is written
once to the blob device and padded to whole blocks. The writer carries out the block
store: its file is the cells of the store and its table the addresses. -/
namespace ErofsUtils.Build
open ErofsUtils.Rust ErofsUtils.Bytes ErofsUtils.Metadata ErofsUtils.Store

/-! ## Errors of a build -/

/-- An error and the contexts put around it. -/
inductive BuildError where
  | io (e : IoError)
  | bail (msg : String)
  | context (msg : String) (e : BuildError)
deriving DecidableEq, Repr

abbrev BuildResult (α : Type) := Outcome BuildError α

/-- `with_context` and `?` on an I/O result. -/
def withContext {α : Type} (msg : String) : IoResult α → BuildResult α
  | .ok a => .ok a
  | .error (.fail e) => fail (.context msg (.io e))
  | .error (.panic p) => abort p

@[simp] theorem withContext_ok {α : Type} (msg : String) (a : α) :
    withContext msg (.ok a) = .ok a := rfl

theorem withContext_eq_ok {α : Type} {msg : String} {x : IoResult α} {a : α} :
    withContext msg x = .ok a ↔ x = .ok a := by
  unfold withContext
  split <;> simp

/-! ## The writer -/

/-- A file that takes `room` more bytes. -/
structure Device where
  bytes : List UInt8
  room : Nat

def enospc : Nat := 28

def Device.writeAll (d : Device) (data : List UInt8) : IoResult Device :=
  if data.length ≤ d.room then pure { bytes := d.bytes ++ data, room := d.room - data.length }
  else osError enospc

structure BlobChunk where
  blkaddr : Nat

/-- A digest of `blake3`. -/
abbrev Digest := Vector UInt8 32

structure BlobWriter where
  file : Device
  chunksize : Nat
  nextBlkaddr : Nat
  dedup : Digest → Option BlobChunk
  savedByDedup : Nat

namespace BlobWriter

def new (file : IoResult Device) (path : String) (chunksize : Nat) : BuildResult BlobWriter := do
  let file ← withContext s!"failed to create blob device: {path}" file
  pure { file, chunksize, nextBlkaddr := 0, dedup := fun _ => none, savedByDedup := 0 }

def totalBlocks (w : BlobWriter) : Nat := w.nextBlkaddr

/-- The zeros that fill a chunk of `len` bytes up to `writeLen`. -/
def writePadding (file : Device) (writeLen len : Nat) : BuildResult Device :=
  if writeLen > len then
    withContext "failed to write padding to blob device"
      (file.writeAll (List.replicate (writeLen - len) 0))
  else pure file

/-- A chunk whose digest is known takes no space. -/
def writeChunk (hash : List UInt8 → Digest) (w : BlobWriter) (chunk : List UInt8) :
    BuildResult (ChunkIndex × BlobWriter) := do
  let writeLen := divCeil chunk.length erofsBlockSize * erofsBlockSize
  let nblocks := writeLen / erofsBlockSize
  match w.dedup (hash chunk) with
  | some existing =>
    let savedByDedup ← checkedAdd 64 w.savedByDedup writeLen
    pure ({ blkaddr := existing.blkaddr, deviceId := 1 }, { w with savedByDedup })
  | none =>
    let addr := w.nextBlkaddr
    let file ← withContext "failed to write to blob device" (w.file.writeAll chunk)
    let file ← writePadding file writeLen chunk.length
    let nextBlkaddr ← checkedAdd 64 w.nextBlkaddr nblocks
    let dedup := fun k => if k = hash chunk then some { blkaddr := addr } else w.dedup k
    pure ({ blkaddr := addr, deviceId := 1 }, { w with file, nextBlkaddr, dedup })

/-- The next `n` bytes of a stream and what is left of it. -/
def readExact (stream : List UInt8) (n : Nat) : IoResult (List UInt8 × List UInt8) :=
  if n ≤ stream.length then pure (stream.take n, stream.drop n)
  else ioError .unexpectedEof "failed to fill whole buffer"

/-- `n` more chunks from chunk `i` on. -/
def writeChunksFrom (hash : List UInt8 → Digest) (path : String) (fileSize cs : Nat) :
    (n i : Nat) → (f : List UInt8) → BlobWriter → BuildResult (List ChunkIndex × BlobWriter)
  | 0, _, _, w => pure ([], w)
  | n + 1, i, f, w => do
    let remaining ← checkedSub fileSize (← checkedMul 64 i cs)
    let toRead := min remaining cs
    let (chunk, f) ← withContext s!"failed to read file: {path}" (readExact f toRead)
    let (ci, w) ← writeChunk hash w chunk
    let (cis, w) ← writeChunksFrom hash path fileSize cs n (i + 1) f w
    pure (ci :: cis, w)

/-- Chunks that have been read, one after the other. -/
def writeChunks (hash : List UInt8 → Digest) :
    List (List UInt8) → BlobWriter → BuildResult (List ChunkIndex × BlobWriter)
  | [], w => pure ([], w)
  | chunk :: chunks, w => do
    let (ci, w) ← writeChunk hash w chunk
    let (cis, w) ← writeChunks hash chunks w
    pure (ci :: cis, w)

/-- `file` is what opening the path gives: its bytes from the start. -/
def writeFileChunks (hash : List UInt8 → Digest) (w : BlobWriter) (path : String)
    (file : IoResult (List UInt8)) (fileSize : Nat) : BuildResult (List ChunkIndex × BlobWriter) :=
  if fileSize = 0 then pure ([], w)
  else do
    let f ← withContext s!"failed to open file: {path}" file
    let cs := w.chunksize
    let nchunks := divCeil fileSize cs
    writeChunksFrom hash path fileSize cs nchunks 0 f w

/-- A call for the first `fileSize` bytes of what opening the path gives. -/
structure FileCall where
  path : String
  file : IoResult (List UInt8)
  fileSize : Nat

/-- Calls of `writeFileChunks` as a build makes them, one after the other, on one writer: an error
ends the run. -/
def writeCalls (hash : List UInt8 → Digest) :
    List FileCall → BlobWriter → BuildResult (List (List ChunkIndex) × BlobWriter)
  | [], w => pure ([], w)
  | call :: calls, w => do
    let (cis, w) ← writeFileChunks hash w call.path call.file call.fileSize
    let (tables, w) ← writeCalls hash calls w
    pure (cis :: tables, w)

/-- The files, one after the other, through one writer: their contents are read in full. -/
def writeFiles (hash : List UInt8 → Digest) :
    List (String × List UInt8) → BlobWriter → BuildResult (List (List ChunkIndex) × BlobWriter)
  | [], w => pure ([], w)
  | (path, content) :: files, w => do
    let (cis, w) ← writeFileChunks hash w path (.ok content) content.length
    let (tables, w) ← writeFiles hash files w
    pure (cis :: tables, w)

end BlobWriter

/-! ## The writer carries out the block store -/

/-- The chunks of a content, `n` of them from chunk `i` on. -/
def chunksFrom (cs : Nat) (content : List UInt8) (n i : Nat) : List (List UInt8) :=
  (List.range' i n).map fun j => window content (j * cs) cs

def chunksOf (cs : Nat) (content : List UInt8) : List (List UInt8) :=
  chunksFrom cs content (divCeil content.length cs) 0

theorem chunksFrom_succ (cs : Nat) (content : List UInt8) (n i : Nat) :
    chunksFrom cs content (n + 1) i =
      window content (i * cs) cs :: chunksFrom cs content n (i + 1) := by
  rw [chunksFrom, List.range'_succ, List.map_cons, chunksFrom]

theorem chunksOf_of_length_eq_zero {cs : Nat} {content : List UInt8} (h : content.length = 0) :
    chunksOf cs content = [] := by
  have hz : divCeil 0 cs = 0 := Nat.div_eq_zero_iff.mpr (by omega)
  rw [chunksOf, h, hz, chunksFrom, List.range'_zero, List.map_nil]

theorem length_chunksOf (cs : Nat) (content : List UInt8) :
    (chunksOf cs content).length = divCeil content.length cs := by
  simp [chunksOf, chunksFrom]

/-- The chunks of a run, in the order they are written. -/
def runChunks (cs : Nat) (files : List (String × List UInt8)) : List (List UInt8) :=
  files.flatMap fun file => chunksOf cs file.2

/-- The bytes a call asks for. -/
def BlobWriter.FileCall.content (call : BlobWriter.FileCall) : List UInt8 :=
  match call.file with
  | .ok bytes => bytes.take call.fileSize
  | .error _ => []

def BlobWriter.FileCall.chunks (cs : Nat) (call : BlobWriter.FileCall) : List (List UInt8) :=
  chunksOf cs call.content

/-- The chunk index of a chunk in a store. -/
def storedIndex (store : List (List UInt8)) (chunk : List UInt8) : ChunkIndex :=
  { blkaddr := addr erofsBlockSize store chunk, deviceId := 1 }

/-- Different chunks among `chunks` have different digests. -/
def DigestsDiffer (hash : List UInt8 → Digest) (chunks : List (List UInt8)) : Prop :=
  ∀ c ∈ chunks, ∀ d ∈ chunks, hash c = hash d → c = d

namespace BlobWriter

/-- The state of the writer is that of the store. -/
structure Holds (hash : List UInt8 → Digest) (w : BlobWriter) (store : List (List UInt8)) : Prop where
  file : w.file.bytes = cells erofsBlockSize 0 store
  next : w.nextBlkaddr = total erofsBlockSize store
  known : ∀ c ∈ store, w.dedup (hash c) = some ⟨addr erofsBlockSize store c⟩
  only : ∀ k, (w.dedup k).isSome → ∃ c ∈ store, hash c = k

variable {hash : List UInt8 → Digest} {w w' : BlobWriter} {store all : List (List UInt8)}
  {chunk : List UInt8} {ci : ChunkIndex}

theorem writeAll_eq_ok {d d' : Device} {data : List UInt8} (h : d.writeAll data = .ok d') :
    d'.bytes = d.bytes ++ data := by
  unfold Device.writeAll at h
  split at h
  · cases h; rfl
  · cases h

theorem writePadding_eq_ok {d d' : Device} {m n : Nat} (h : writePadding d m n = .ok d') :
    d'.bytes = d.bytes ++ List.replicate (m - n) 0 := by
  unfold writePadding at h
  split at h
  · exact writeAll_eq_ok (withContext_eq_ok.mp h)
  · cases h
    rw [show m - n = 0 by omega, List.replicate_zero, List.append_nil]

theorem writeChunk_hit {b : BlobChunk} (hd : w.dedup (hash chunk) = some b)
    (h : writeChunk hash w chunk = .ok (ci, w')) :
    ci = ⟨b.blkaddr, 1⟩ ∧ ∃ saved, w' = { w with savedByDedup := saved } := by
  simp only [writeChunk, hd, bind_eq_ok, pure_eq_ok, Except.ok.injEq, Prod.mk.injEq] at h
  obtain ⟨saved, -, rfl, rfl⟩ := h
  exact ⟨rfl, saved, rfl⟩

theorem writeChunk_miss (hd : w.dedup (hash chunk) = none)
    (h : writeChunk hash w chunk = .ok (ci, w')) :
    ci = ⟨w.nextBlkaddr, 1⟩ ∧ w'.chunksize = w.chunksize ∧
      w'.file.bytes = w.file.bytes ++ padded erofsBlockSize 0 chunk ∧
      w'.nextBlkaddr = w.nextBlkaddr + blocksOf erofsBlockSize chunk ∧
      w'.dedup = fun k => if k = hash chunk then some ⟨w.nextBlkaddr⟩ else w.dedup k := by
  simp only [writeChunk, hd, bind_eq_ok, pure_eq_ok, Except.ok.injEq, Prod.mk.injEq,
    withContext_eq_ok, checkedAdd_eq_ok] at h
  obtain ⟨f, hf, g, hg, next, ⟨-, rfl⟩, rfl, rfl⟩ := h
  have hnb : divCeil chunk.length erofsBlockSize * erofsBlockSize / erofsBlockSize =
      blocksOf erofsBlockSize chunk := Nat.mul_div_cancel _ (by decide)
  refine ⟨rfl, rfl, ?_, by rw [hnb], rfl⟩
  rw [writePadding_eq_ok hg, writeAll_eq_ok hf, List.append_assoc]
  rfl

/-- **One chunk.** Writing a chunk puts it into the store, and its index is its address
there. -/
theorem Holds.writeChunk (hh : Holds hash w store) (hall : DigestsDiffer hash all)
    (hs : ∀ c ∈ store, c ∈ all) (hc : chunk ∈ all)
    (h : BlobWriter.writeChunk hash w chunk = .ok (ci, w')) :
    Holds hash w' (put store chunk) ∧ w'.chunksize = w.chunksize ∧
      ci = storedIndex (put store chunk) chunk := by
  by_cases hm : chunk ∈ store
  · obtain ⟨rfl, saved, rfl⟩ := writeChunk_hit (hh.known _ hm) h
    rw [put, if_pos hm]
    exact ⟨⟨hh.file, hh.next, hh.known, hh.only⟩, rfl, rfl⟩
  · have hnone : w.dedup (hash chunk) = none := by
      by_contra hne
      obtain ⟨c, hc', he⟩ := hh.only _ (Option.isSome_iff_ne_none.mpr hne)
      exact hm (hall c (hs c hc') chunk hc he ▸ hc')
    obtain ⟨rfl, hsize, hfile, hnext, hdedup⟩ := writeChunk_miss hnone h
    rw [put, if_neg hm]
    refine ⟨⟨?_, ?_, ?_, ?_⟩, hsize, ?_⟩
    · rw [hfile, hh.file, cells_append]
      simp [cells]
    · rw [hnext, hh.next, total_append]
      simp [total]
    · intro c hc'
      rw [hdedup]
      rcases List.mem_append.mp hc' with hc' | hc'
      · have hne : hash c ≠ hash chunk := fun he => hm (hall c (hs c hc') chunk hc he ▸ hc')
        dsimp only
        rw [if_neg hne, hh.known c hc', addr_append hc']
      · cases List.mem_singleton.mp hc'
        dsimp only
        rw [if_pos rfl, addr_new hm, hh.next]
    · intro k hk
      rw [hdedup] at hk
      dsimp only at hk
      split at hk
      · rename_i hk'
        exact ⟨chunk, by simp, hk'.symm⟩
      · obtain ⟨c, hc', he⟩ := hh.only k hk
        exact ⟨c, List.mem_append_left _ hc', he⟩
    · rw [storedIndex, addr_new hm, hh.next]

/-! ## Whole files -/

theorem readExact_eq_ok {f g : List UInt8} {n : Nat} (h : readExact f n = .ok (chunk, g)) :
    chunk = f.take n ∧ g = f.drop n := by
  unfold readExact at h
  split at h
  · cases h; exact ⟨rfl, rfl⟩
  · cases h

/-- Reading what is left of a content, but at most `cs` bytes, gives its next chunk. -/
theorem take_drop_chunk (content : List UInt8) (a cs : Nat) :
    (content.drop a).take (min (content.length - a) cs) = window content a cs ∧
      (content.drop a).drop (min (content.length - a) cs) = content.drop (a + cs) := by
  constructor
  · rw [Nat.min_comm]
    exact window_min content a cs
  · rw [List.drop_drop, List.drop_eq_drop_iff]
    omega

theorem storedIndex_stable (hc : chunk ∈ store) (more : List (List UInt8)) :
    storedIndex (putAll store more) chunk = storedIndex store chunk := by
  obtain ⟨es, he⟩ := putAll_eq_append store more
  rw [he, storedIndex, addr_append hc, storedIndex]

/-- The loop reads the chunks of the content and writes them. -/
theorem writeChunks_of_writeChunksFrom {path : String} {content : List UInt8} {cs n i : Nat}
    {cis : List ChunkIndex}
    (h : writeChunksFrom hash path content.length cs n i (content.drop (i * cs)) w =
      .ok (cis, w')) : writeChunks hash (chunksFrom cs content n i) w = .ok (cis, w') := by
  induction n generalizing i w cis with
  | zero => exact h
  | succ n ih =>
    simp only [writeChunksFrom, bind_eq_ok, withContext_eq_ok, checkedMul_eq_ok,
      checkedSub_eq_ok, pure_eq_ok, Except.ok.injEq, Prod.exists, Prod.mk.injEq] at h
    obtain ⟨_, ⟨-, rfl⟩, _, ⟨-, rfl⟩, chunk, f, hread, ci, w₁, hstep, cis', w₂, hrest, rfl, rfl⟩ := h
    obtain ⟨hchunk, hf⟩ := readExact_eq_ok hread
    rw [(take_drop_chunk content (i * cs) cs).1] at hchunk
    rw [(take_drop_chunk content (i * cs) cs).2, ← Nat.succ_mul] at hf
    subst hf
    rw [chunksFrom_succ, ← hchunk, writeChunks, hstep, bind_ok]
    dsimp only
    rw [ih hrest]
    rfl

/-- Chunks that are written are put into the store, and the indexes returned are addresses in
the store that is left. -/
theorem Holds.writeChunks {chunks : List (List UInt8)} {cis : List ChunkIndex}
    (hh : Holds hash w store) (hall : DigestsDiffer hash all) (hs : ∀ c ∈ store, c ∈ all)
    (hc : ∀ c ∈ chunks, c ∈ all) (h : BlobWriter.writeChunks hash chunks w = .ok (cis, w')) :
    Holds hash w' (putAll store chunks) ∧ w'.chunksize = w.chunksize ∧
      cis = chunks.map (storedIndex (putAll store chunks)) := by
  induction chunks generalizing store w cis with
  | nil =>
    cases h
    exact ⟨hh, rfl, rfl⟩
  | cons chunk chunks ih =>
    simp only [BlobWriter.writeChunks, bind_eq_ok, pure_eq_ok, Except.ok.injEq, Prod.exists,
      Prod.mk.injEq] at h
    obtain ⟨ci, w₁, hstep, cis', w₂, hrest, rfl, rfl⟩ := h
    obtain ⟨hh₁, hsize₁, rfl⟩ := hh.writeChunk hall hs (hc _ List.mem_cons_self) hstep
    have hs₁ : ∀ c ∈ put store chunk, c ∈ all := by
      intro c hm
      rcases of_mem_put hm with hm | rfl
      · exact hs c hm
      · exact hc _ List.mem_cons_self
    obtain ⟨hh₂, hsize₂, rfl⟩ := ih hh₁ hs₁ (fun c hm => hc c (List.mem_cons_of_mem _ hm)) hrest
    refine ⟨hh₂, hsize₂.trans hsize₁, ?_⟩
    rw [List.map_cons, putAll_cons, storedIndex_stable mem_put]

theorem writeChunks_of_writeFileChunks {path : String} {content : List UInt8}
    {cis : List ChunkIndex}
    (h : writeFileChunks hash w path (.ok content) content.length = .ok (cis, w')) :
    writeChunks hash (chunksOf w.chunksize content) w = .ok (cis, w') := by
  unfold writeFileChunks at h
  split at h
  · rename_i h0
    rw [chunksOf_of_length_eq_zero h0]
    exact h
  · rw [withContext_ok, bind_ok] at h
    have hstart : content.drop (0 * w.chunksize) = content := by simp
    exact writeChunks_of_writeChunksFrom (by rw [hstart]; exact h)

theorem readExact_take {f g : List UInt8} {n m : Nat} (h : readExact f n = .ok (chunk, g))
    (hm : n ≤ m) : readExact (f.take m) n = .ok (chunk, g.take (m - n)) := by
  have hlen : n ≤ f.length := by
    unfold readExact at h
    split at h
    · assumption
    · cases h
  obtain ⟨rfl, rfl⟩ := readExact_eq_ok h
  rw [readExact, if_pos (by rw [List.length_take]; omega), List.take_take, Nat.min_eq_left hm,
    List.drop_take]
  rfl

/-- The loop reads no byte behind the size it was given, and finds every byte before it. -/
theorem writeChunksFrom_take {path : String} {fileSize cs n i : Nat} {f : List UInt8}
    {cis : List ChunkIndex} (h : writeChunksFrom hash path fileSize cs n i f w = .ok (cis, w')) :
    writeChunksFrom hash path fileSize cs n i (f.take (fileSize - i * cs)) w = .ok (cis, w') ∧
      min (n * cs) (fileSize - i * cs) ≤ f.length := by
  induction n generalizing i f w cis with
  | zero => exact ⟨h, by simp⟩
  | succ n ih =>
    simp only [BlobWriter.writeChunksFrom, bind_eq_ok, withContext_eq_ok, checkedMul_eq_ok,
      checkedSub_eq_ok, pure_eq_ok, Except.ok.injEq, Prod.exists, Prod.mk.injEq] at h ⊢
    obtain ⟨_, ⟨hmul, rfl⟩, _, ⟨hsub, rfl⟩, chunk, g, hread, ci, w₁, hstep, cis', w₂, hrest, rfl,
      rfl⟩ := h
    have hnext : fileSize - (i + 1) * cs = fileSize - i * cs - min (fileSize - i * cs) cs := by
      rw [Nat.succ_mul]
      omega
    obtain ⟨hrest, hlen⟩ := ih hrest
    obtain ⟨-, rfl⟩ := readExact_eq_ok hread
    refine ⟨⟨_, ⟨hmul, rfl⟩, _, ⟨hsub, rfl⟩, chunk, _, readExact_take hread (Nat.min_le_left _ _),
      ci, w₁, hstep, cis', w₂, ?_, rfl, rfl⟩, ?_⟩
    · rw [← hnext]
      exact hrest
    · have hfit : min (fileSize - i * cs) cs ≤ f.length := by
        unfold readExact at hread
        split at hread
        · assumption
        · cases hread
      rw [List.length_drop, hnext] at hlen
      rw [Nat.succ_mul]
      omega

/-- A call that returns has found the bytes it asks for, and is one for them alone. -/
theorem writeFileChunks_content {call : FileCall} {cis : List ChunkIndex} (hcs : 0 < w.chunksize)
    (h : writeFileChunks hash w call.path call.file call.fileSize = .ok (cis, w')) :
    call.content.length = call.fileSize ∧
      writeFileChunks hash w call.path (.ok call.content) call.content.length = .ok (cis, w') := by
  obtain ⟨path, file, fileSize⟩ := call
  dsimp only at h
  by_cases h0 : fileSize = 0
  · have hnil : (FileCall.mk path file fileSize).content = [] := by
      rw [FileCall.content]
      cases file <;> simp [h0]
    rw [hnil]
    rw [writeFileChunks, if_pos h0] at h
    exact ⟨h0.symm, h⟩
  rw [writeFileChunks, if_neg h0] at h
  obtain ⟨f, hf, h⟩ := bind_eq_ok.mp h
  rw [withContext_eq_ok] at hf
  subst hf
  obtain ⟨htake, hlen⟩ := writeChunksFrom_take h
  have hcover : fileSize ≤ divCeil fileSize w.chunksize * w.chunksize := le_alignUp hcs
  rw [Nat.zero_mul, Nat.sub_zero] at htake hlen
  have hcontent : (FileCall.mk path (.ok f) fileSize).content.length = fileSize := by
    have hle : fileSize ≤ f.length := by omega
    exact List.length_take_of_le hle
  refine ⟨hcontent, ?_⟩
  rw [hcontent, writeFileChunks, if_neg h0, withContext_ok, bind_ok]
  exact htake

/-- The chunks of a run, in the order they are written. -/
def callChunks (cs : Nat) (calls : List FileCall) : List (List UInt8) :=
  calls.flatMap (FileCall.chunks cs)

/-- **A run over any calls.** The blob is the store of the run's chunks, and the table of
each call holds the addresses its chunks have at the end. -/
theorem Holds.writeCalls {calls : List FileCall} {tables : List (List ChunkIndex)}
    (hcs : 0 < w.chunksize) (hh : Holds hash w store) (hall : DigestsDiffer hash all)
    (hs : ∀ c ∈ store, c ∈ all) (hc : ∀ c ∈ callChunks w.chunksize calls, c ∈ all)
    (h : BlobWriter.writeCalls hash calls w = .ok (tables, w')) :
    Holds hash w' (putAll store (callChunks w.chunksize calls)) ∧
      tables = calls.map fun call => (call.chunks w.chunksize).map
        (storedIndex (putAll store (callChunks w.chunksize calls))) := by
  induction calls generalizing store w tables with
  | nil =>
    cases h
    exact ⟨hh, rfl⟩
  | cons call calls ih =>
    have hrun : callChunks w.chunksize (call :: calls) =
        call.chunks w.chunksize ++ callChunks w.chunksize calls := rfl
    simp only [hrun, List.mem_append] at hc
    simp only [BlobWriter.writeCalls, bind_eq_ok, pure_eq_ok, Except.ok.injEq, Prod.exists,
      Prod.mk.injEq] at h
    obtain ⟨cis, w₁, hfile, tables', w₂, hrest, rfl, rfl⟩ := h
    obtain ⟨hh₁, hsize, rfl⟩ := hh.writeChunks hall hs (fun c hm => hc c (.inl hm))
      (writeChunks_of_writeFileChunks (writeFileChunks_content hcs hfile).2)
    have hs₁ : ∀ c ∈ putAll store (chunksOf w.chunksize call.content), c ∈ all := by
      intro c hm
      rcases of_mem_putAll hm with hm | hm
      · exact hs c hm
      · exact hc c (.inl hm)
    rw [← hsize] at hrun hc hcs ⊢
    obtain ⟨hh₂, rfl⟩ := ih hcs hh₁ hs₁ (fun c hm => hc c (.inr hm)) hrest
    rw [hrun, putAll_append, hsize]
    rw [hsize] at hh₂
    refine ⟨hh₂, ?_⟩
    rw [List.map_cons, List.cons.injEq]
    exact ⟨List.map_congr_left fun c hm => (storedIndex_stable (mem_putAll hm _) _).symm, rfl⟩

/-- The call that writes a whole file. -/
def wholeFile (file : String × List UInt8) : FileCall := ⟨file.1, .ok file.2, file.2.length⟩

theorem writeFiles_eq (hash : List UInt8 → Digest) (files : List (String × List UInt8))
    (w : BlobWriter) : writeFiles hash files w = BlobWriter.writeCalls hash (files.map wholeFile) w := by
  induction files generalizing w with
  | nil => rfl
  | cons file files ih =>
    rw [writeFiles, List.map_cons, BlobWriter.writeCalls]
    simp only [ih]
    rfl

theorem callChunks_wholeFile (cs : Nat) (files : List (String × List UInt8)) :
    callChunks cs (files.map wholeFile) = runChunks cs files := by
  simp [callChunks, runChunks, List.flatMap_map, FileCall.chunks, FileCall.content, wholeFile]

/-- **A run over any files.** The blob is the store of the run's chunks, and the table of
each file holds the addresses its chunks have at the end. -/
theorem Holds.writeFiles {files : List (String × List UInt8)} {tables : List (List ChunkIndex)}
    (hcs : 0 < w.chunksize) (hh : Holds hash w store) (hall : DigestsDiffer hash all)
    (hs : ∀ c ∈ store, c ∈ all) (hc : ∀ c ∈ runChunks w.chunksize files, c ∈ all)
    (h : BlobWriter.writeFiles hash files w = .ok (tables, w')) :
    Holds hash w' (putAll store (runChunks w.chunksize files)) ∧
      tables = files.map fun file => (chunksOf w.chunksize file.2).map
        (storedIndex (putAll store (runChunks w.chunksize files))) := by
  rw [writeFiles_eq] at h
  rw [← callChunks_wholeFile] at hc ⊢
  obtain ⟨hh', rfl⟩ := hh.writeCalls hcs hall hs hc h
  refine ⟨hh', ?_⟩
  simp [FileCall.chunks, FileCall.content, wholeFile]

/-! ## A run with room returns -/

/-- The bytes a chunk takes on the device when it is not known. -/
def chunkSpace (chunk : List UInt8) : Nat := blocksOf erofsBlockSize chunk * erofsBlockSize

def spaceOf (chunks : List (List UInt8)) : Nat := (chunks.map chunkSpace).sum

/-- The writer takes `m` more bytes: the device has room and no counter overflows. -/
structure Spare (w : BlobWriter) (m : Nat) : Prop where
  room : m ≤ w.file.room
  saved : w.savedByDedup + m < 2 ^ 64
  next : w.nextBlkaddr + m < 2 ^ 64

theorem writeAll_ok {d : Device} {data : List UInt8} (h : data.length ≤ d.room) :
    d.writeAll data = .ok ⟨d.bytes ++ data, d.room - data.length⟩ := if_pos h

theorem writePadding_ok {d : Device} {m n : Nat} (h : m - n ≤ d.room) :
    writePadding d m n = .ok ⟨d.bytes ++ List.replicate (m - n) 0, d.room - (m - n)⟩ := by
  unfold writePadding
  split
  · rw [writeAll_ok (by simpa using h), List.length_replicate]
    rfl
  · rw [show m - n = 0 by omega, List.replicate_zero, List.append_nil]
    rfl

theorem Spare.writeChunk {m : Nat} (h : w.Spare (chunkSpace chunk + m)) :
    ∃ ci w', BlobWriter.writeChunk hash w chunk = .ok (ci, w') ∧ w'.Spare m ∧
      w'.chunksize = w.chunksize := by
  obtain ⟨hroom, hsaved, hnext⟩ := h
  have hle : chunk.length ≤ chunkSpace chunk := le_alignUp (by decide)
  unfold BlobWriter.writeChunk
  dsimp only
  rw [show divCeil chunk.length erofsBlockSize * erofsBlockSize = chunkSpace chunk from rfl]
  cases w.dedup (hash chunk) with
  | some b =>
    dsimp only
    rw [checkedAdd_ok (by omega), bind_ok]
    exact ⟨_, _, rfl, ⟨by dsimp only; omega, by dsimp only; omega, by dsimp only; omega⟩, rfl⟩
  | none =>
    have hblocks : chunkSpace chunk / erofsBlockSize ≤ chunkSpace chunk := Nat.div_le_self _ _
    dsimp only
    rw [writeAll_ok (by omega), withContext_ok, bind_ok, writePadding_ok (by dsimp only; omega),
      bind_ok, checkedAdd_ok (by omega), bind_ok]
    exact ⟨_, _, rfl, ⟨by dsimp only; omega, by dsimp only; omega, by dsimp only; omega⟩, rfl⟩

theorem Spare.writeChunksFrom {path : String} {content : List UInt8} {cs n i m : Nat}
    (hlen : content.length < 2 ^ 64) (hn : n = 0 ∨ (i + n - 1) * cs < content.length)
    (h : w.Spare (spaceOf (chunksFrom cs content n i) + m)) :
    ∃ cis w', BlobWriter.writeChunksFrom hash path content.length cs n i (content.drop (i * cs)) w =
      .ok (cis, w') ∧ w'.Spare m ∧ w'.chunksize = w.chunksize := by
  induction n generalizing i w with
  | zero =>
    refine ⟨[], w, rfl, ?_, rfl⟩
    rwa [show spaceOf (chunksFrom cs content 0 i) = 0 from rfl, Nat.zero_add] at h
  | succ n ih =>
    have hlast : (i + n) * cs < content.length := by
      rcases hn with hn | hn
      · cases hn
      · exact hn
    have hstart : i * cs ≤ (i + n) * cs := Nat.mul_le_mul_right cs (Nat.le_add_right i n)
    rw [chunksFrom_succ, spaceOf, List.map_cons, List.sum_cons, ← spaceOf, Nat.add_assoc] at h
    obtain ⟨ci, w₁, hstep, hspare, hsize⟩ : ∃ ci w₁, BlobWriter.writeChunk hash w
        (window content (i * cs) cs) = .ok (ci, w₁) ∧ w₁.Spare _ ∧ w₁.chunksize = w.chunksize :=
      h.writeChunk
    have hn' : n = 0 ∨ (i + 1 + n - 1) * cs < content.length := by
      rw [show i + 1 + n - 1 = i + n by omega]
      exact .inr hlast
    obtain ⟨cis, w₂, hrest, hspare₂, hsize₂⟩ := ih hn' hspare
    have hread : readExact (content.drop (i * cs)) (min (content.length - i * cs) cs) =
        .ok (window content (i * cs) cs, content.drop ((i + 1) * cs)) := by
      rw [readExact, if_pos (by rw [List.length_drop]; omega), (take_drop_chunk content _ cs).1,
        (take_drop_chunk content _ cs).2, Nat.succ_mul]
      rfl
    refine ⟨ci :: cis, w₂, ?_, hspare₂, hsize₂.trans hsize⟩
    rw [BlobWriter.writeChunksFrom, checkedMul_ok (by omega), bind_ok, checkedSub_ok (by omega),
      bind_ok]
    dsimp only
    rw [hread, withContext_ok, bind_ok]
    dsimp only
    rw [hstep, bind_ok]
    dsimp only
    rw [hrest]
    rfl

theorem Spare.writeFileChunks {path : String} {content : List UInt8} {m : Nat}
    (hcs : 0 < w.chunksize) (hlen : content.length < 2 ^ 64)
    (h : w.Spare (spaceOf (chunksOf w.chunksize content) + m)) :
    ∃ cis w', BlobWriter.writeFileChunks hash w path (.ok content) content.length = .ok (cis, w') ∧
      w'.Spare m ∧ w'.chunksize = w.chunksize := by
  have hlast : divCeil content.length w.chunksize = 0 ∨
      (0 + divCeil content.length w.chunksize - 1) * w.chunksize < content.length := by
    by_cases h0 : divCeil content.length w.chunksize = 0
    · exact .inl h0
    · exact .inr ((lt_divCeil_iff hcs).mp (by omega))
  obtain ⟨cis, w', hrun, hspare, hsize⟩ : ∃ cis w', BlobWriter.writeChunksFrom hash path
      content.length w.chunksize (divCeil content.length w.chunksize) 0
      (content.drop (0 * w.chunksize)) w = .ok (cis, w') ∧ w'.Spare m ∧
      w'.chunksize = w.chunksize := Spare.writeChunksFrom hlen hlast h
  rw [Nat.zero_mul, List.drop_zero] at hrun
  unfold BlobWriter.writeFileChunks
  split
  · rename_i h0
    rw [h0, show divCeil 0 w.chunksize = 0 from Nat.div_eq_zero_iff.mpr (by omega)] at hrun
    exact ⟨cis, w', hrun, hspare, hsize⟩
  · exact ⟨cis, w', hrun, hspare, hsize⟩

/-- **A run returns** as long as its chunks have room and their bytes can be counted. -/
theorem Spare.writeFiles {files : List (String × List UInt8)} (hcs : 0 < w.chunksize)
    (hlen : ∀ file ∈ files, file.2.length < 2 ^ 64)
    (h : w.Spare (spaceOf (runChunks w.chunksize files))) :
    ∃ tables w', BlobWriter.writeFiles hash files w = .ok (tables, w') := by
  induction files generalizing w with
  | nil => exact ⟨[], w, rfl⟩
  | cons file files ih =>
    obtain ⟨path, content⟩ := file
    have hspace : spaceOf (runChunks w.chunksize ((path, content) :: files)) =
        spaceOf (chunksOf w.chunksize content) + spaceOf (runChunks w.chunksize files) := by
      simp [spaceOf, runChunks]
    rw [hspace] at h
    obtain ⟨cis, w₁, hfile, hspare, hsize⟩ : ∃ cis w₁, BlobWriter.writeFileChunks hash w path
        (.ok content) content.length = .ok (cis, w₁) ∧ w₁.Spare _ ∧ w₁.chunksize = w.chunksize :=
      h.writeFileChunks hcs (hlen _ List.mem_cons_self)
    rw [← hsize] at hspare hcs
    obtain ⟨tables, w₂, hrest⟩ := ih hcs (fun f hf => hlen f (List.mem_cons_of_mem _ hf)) hspare
    refine ⟨cis :: tables, w₂, ?_⟩
    rw [BlobWriter.writeFiles, hfile, bind_ok]
    dsimp only
    rw [hrest]
    rfl

theorem holds_new {d : Device} {path : String} {chunksize : Nat} (hd : d.bytes = [])
    (h : BlobWriter.new (.ok d) path chunksize = .ok w) :
    Holds hash w [] ∧ w.chunksize = chunksize := by
  cases h
  exact ⟨⟨hd, rfl, by simp, by simp⟩, rfl⟩

end BlobWriter
end ErofsUtils.Build
