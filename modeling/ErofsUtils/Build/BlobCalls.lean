import ErofsUtils.Build.BlobRun
import ErofsUtils.Build.Device

/-! # Calls that fail

The writer outlives an error of a call. The chunks the call has written by then are part of the
store, though it returns none of their indexes. Only what the device has taken of a chunk whose
write failed is not: nothing takes it back, and every later chunk is written behind it. -/
namespace ErofsUtils.Build
open ErofsUtils.Rust ErofsUtils.Bytes ErofsUtils.Metadata ErofsUtils.Store

/-- A write for which there is no room fills the file. -/
theorem writeOut_full {d : Device} {data : List UInt8} (h : d.room < data.length) :
    d.writeOut data = (⟨d.bytes ++ data.take d.room, 0⟩, .error (.io (.os enospc))) := by
  have hstuck : ∀ (bytes data : List UInt8), data ≠ [] →
      offerAll Device.sink writeZero ⟨bytes, 0⟩ data =
        (⟨bytes, 0⟩, data, .error (.io (.os enospc))) := by
    intro bytes data hne
    have hwrite : Device.sink.write ⟨bytes, 0⟩ data = (⟨bytes, 0⟩, .error (.io (.os enospc))) := by
      show Device.write _ _ = _
      rw [Device.write, if_neg hne, if_pos rfl]
    rw [offerAll, if_neg hne, hwrite]
  have hne : data ≠ [] := by
    rintro rfl
    exact absurd h (Nat.not_lt_zero _)
  obtain ⟨bytes, room⟩ := d
  dsimp only at h ⊢
  cases room with
  | zero =>
    rw [Device.writeOut, hstuck bytes data hne, List.take_zero, List.append_nil]
  | succ n =>
    have hwrite : Device.sink.write ⟨bytes, n + 1⟩ data =
        (⟨bytes ++ data.take (n + 1), 0⟩, .ok (n + 1)) := by
      show Device.write _ _ = _
      rw [Device.write, if_neg hne, if_neg (Nat.succ_ne_zero n)]
      dsimp only
      rw [Nat.min_eq_right (by omega), Nat.sub_self]
    have hrest : data.drop (n + 1) ≠ [] := by
      rw [← List.length_pos_iff, List.length_drop]
      omega
    rw [Device.writeOut, offerAll, if_neg hne, hwrite]
    dsimp only
    rw [hstuck _ _ hrest]

namespace BlobWriter

/-! ## The functions on `&mut self` -/

/-- `write_all` on the file of the writer, with the context of its error. -/
def writeBlobMut (msg : String) (w : BlobWriter) (data : List UInt8) : BlobWriter × BuildResult Unit :=
  match w.file.writeOut data with
  | (file, .ok ()) => ({ w with file }, .ok ())
  | (file, .error e) => ({ w with file }, fail (.context msg e))

def writePaddingMut (w : BlobWriter) (writeLen len : Nat) : BlobWriter × BuildResult Unit :=
  if writeLen > len then
    writeBlobMut "failed to write padding to blob device" w (List.replicate (writeLen - len) 0)
  else (w, .ok ())

def writeChunkMut (hash : List UInt8 → Digest) (w : BlobWriter) (chunk : List UInt8) :
    BlobWriter × BuildResult ChunkIndex :=
  let writeLen := divCeil chunk.length erofsBlockSize * erofsBlockSize
  let nblocks := writeLen / erofsBlockSize
  match w.dedup (hash chunk) with
  | some existing =>
    match checkedAdd 64 w.savedByDedup writeLen with
    | .error e => (w, .error e)
    | .ok savedByDedup => ({ w with savedByDedup }, .ok { blkaddr := existing.blkaddr, deviceId := 1 })
  | none =>
    let addr := w.nextBlkaddr
    match writeBlobMut "failed to write to blob device" w chunk with
    | (w, .error e) => (w, .error e)
    | (w, .ok ()) =>
      match writePaddingMut w writeLen chunk.length with
      | (w, .error e) => (w, .error e)
      | (w, .ok ()) =>
        match checkedAdd 64 w.nextBlkaddr nblocks with
        | .error e => (w, .error e)
        | .ok nextBlkaddr =>
          let dedup := fun k => if k = hash chunk then some { blkaddr := addr } else w.dedup k
          ({ w with nextBlkaddr, dedup }, .ok { blkaddr := addr, deviceId := 1 })

/-- What a call leaves: the writer, the indexes it has pushed, its result, and the bytes that
the device has taken of a chunk that did not get there whole. -/
structure Attempt where
  writer : BlobWriter
  indexes : List ChunkIndex
  result : BuildResult Unit
  torn : List UInt8

/-- The `i`-th chunk of a file, and what is left of the stream. -/
def nextChunk (path : String) (fileSize cs i : Nat) (f : List UInt8) :
    BuildResult (List UInt8 × List UInt8) := do
  let remaining ← checkedSub fileSize (← checkedMul 64 i cs)
  let toRead := min remaining cs
  withContext s!"failed to read file: {path}" (readExact f toRead)

def writeChunksFromMut (hash : List UInt8 → Digest) (path : String) (fileSize cs : Nat) :
    (n i : Nat) → (f : List UInt8) → BlobWriter → Attempt
  | 0, _, _, w => { writer := w, indexes := [], result := .ok (), torn := [] }
  | n + 1, i, f, w =>
    match nextChunk path fileSize cs i f with
    | .error e => { writer := w, indexes := [], result := .error e, torn := [] }
    | .ok (chunk, f) =>
      match writeChunkMut hash w chunk with
      | (w', .error e) =>
        { writer := w', indexes := [], result := .error e
          torn := w'.file.bytes.drop w.file.bytes.length }
      | (w', .ok ci) =>
        let later := writeChunksFromMut hash path fileSize cs n (i + 1) f w'
        { later with indexes := ci :: later.indexes }

def writeFileChunksMut (hash : List UInt8 → Digest) (w : BlobWriter) (path : String)
    (file : IoResult (List UInt8)) (fileSize : Nat) : Attempt :=
  if fileSize = 0 then { writer := w, indexes := [], result := .ok (), torn := [] }
  else match withContext s!"failed to open file: {path}" file with
    | .error e => { writer := w, indexes := [], result := .error e, torn := [] }
    | .ok f =>
      let cs := w.chunksize
      let nchunks := divCeil fileSize cs
      writeChunksFromMut hash path fileSize cs nchunks 0 f w

def Attempt.panicked (a : Attempt) : Bool :=
  match a.result with
  | .error (.panic _) => true
  | _ => false

/-- The free space of the device is not the writer's. -/
def withRoom (w : BlobWriter) (room : Nat) : BlobWriter := { w with file := { w.file with room } }

/-- Calls on one writer, each with the room there is on the device then. The writer of a call
that fails goes on to the next; a panic ends the run. -/
def attempts (hash : List UInt8 → Digest) : List (FileCall × Nat) → BlobWriter → List Attempt
  | [], _ => []
  | (call, room) :: calls, w =>
    let a := writeFileChunksMut hash (w.withRoom room) call.path call.file call.fileSize
    a :: if a.panicked then [] else attempts hash calls a.writer

/-! ## A call is that of a build, with the writer it drops -/

/-- The same result, and after an error a writer that differs in its file alone: that has taken
more bytes. -/
inductive Outlives (w : BlobWriter) {α : Type} :
    BuildResult (α × BlobWriter) → BlobWriter × BuildResult α → Prop
  | ok (a : α) (w' : BlobWriter) : Outlives w (.ok (a, w')) (w', .ok a)
  | error (e : Fault BuildError) {file : Device} {torn : List UInt8}
      (h : file.bytes = w.file.bytes ++ torn) :
      Outlives w (.error e) ({ w with file }, .error e)

variable {hash : List UInt8 → Digest} {w w' : BlobWriter} {chunk : List UInt8} {ci : ChunkIndex}

theorem outlives_writeBlobMut (msg : String) (w : BlobWriter) (data : List UInt8) :
    Outlives w ((fun file => ((), { w with file })) <$> withContext msg (w.file.writeAll data))
      (writeBlobMut msg w data) := by
  by_cases hroom : data.length ≤ w.file.room
  · have hall : w.file.writeAll data =
        .ok { bytes := w.file.bytes ++ data, room := w.file.room - data.length } := if_pos hroom
    rw [writeBlobMut, writeOut_eq_ok.mpr hall, hall]
    exact .ok () _
  · rw [writeBlobMut, writeOut_full (Nat.lt_of_not_le hroom), Device.writeAll, if_neg hroom]
    exact .error _ rfl

theorem outlives_writePaddingMut (w : BlobWriter) (writeLen len : Nat) :
    Outlives w ((fun file => ((), { w with file })) <$> writePadding w.file writeLen len)
      (writePaddingMut w writeLen len) := by
  unfold writePadding writePaddingMut
  split
  · exact outlives_writeBlobMut _ w _
  · exact .ok () w

/-- **A chunk** that is not written leaves the table and the counters as they were. -/
theorem outlives_writeChunkMut (hash : List UInt8 → Digest) (w : BlobWriter) (chunk : List UInt8) :
    Outlives w (writeChunk hash w chunk) (writeChunkMut hash w chunk) := by
  have hsame : ∀ e : Fault BuildError, Outlives w (.error e : BuildResult (ChunkIndex × BlobWriter))
      (w, .error e) := fun e => @Outlives.error w _ e w.file [] (List.append_nil _).symm
  unfold writeChunk writeChunkMut
  cases w.dedup (hash chunk) with
  | some existing =>
    dsimp only
    cases checkedAdd 64 w.savedByDedup _ with
    | error e => exact hsame e
    | ok saved => exact .ok _ _
  | none =>
    dsimp only
    have hwrite := outlives_writeBlobMut "failed to write to blob device" w chunk
    generalize writeBlobMut "failed to write to blob device" w chunk = y at hwrite ⊢
    cases hfile : withContext "failed to write to blob device" (w.file.writeAll chunk) with
    | error e =>
      rw [hfile] at hwrite
      cases hwrite with
      | error _ h => exact .error e h
    | ok file =>
      have hbytes := writeAll_eq_ok (withContext_eq_ok.mp hfile)
      rw [hfile] at hwrite
      cases hwrite
      rw [bind_ok]
      dsimp only
      have hpad := outlives_writePaddingMut { w with file }
        (divCeil chunk.length erofsBlockSize * erofsBlockSize) chunk.length
      generalize writePaddingMut { w with file }
        (divCeil chunk.length erofsBlockSize * erofsBlockSize) chunk.length = z at hpad ⊢
      cases hpadded : writePadding file (divCeil chunk.length erofsBlockSize * erofsBlockSize)
        chunk.length with
      | error e =>
        rw [hpadded] at hpad
        cases hpad with
        | error _ h => exact .error e (by rw [h, hbytes, List.append_assoc])
      | ok padded =>
        have hzeros := writePadding_eq_ok hpadded
        rw [hpadded] at hpad
        cases hpad
        rw [bind_ok]
        dsimp only
        cases checkedAdd 64 w.nextBlkaddr _ with
        | error e => exact .error e (by rw [hzeros, hbytes, List.append_assoc])
        | ok next => exact .ok _ _

theorem writeChunksFrom_succ (path : String) (fileSize cs n i : Nat) (f : List UInt8) :
    writeChunksFrom hash path fileSize cs (n + 1) i f w =
      (nextChunk path fileSize cs i f >>= fun (chunk, f) => do
        let (ci, w) ← writeChunk hash w chunk
        let (cis, w) ← writeChunksFrom hash path fileSize cs n (i + 1) f w
        pure (ci :: cis, w)) := by
  rw [writeChunksFrom, nextChunk, bind_assoc]
  simp only [bind_assoc]

/-- The chunk that is read is one of the content, and the rest of the content comes next. -/
theorem nextChunk_eq_ok {path : String} {fileSize cs i : Nat} {f g content : List UInt8}
    (hf : f.take (fileSize - i * cs) = content.drop (i * cs)) (hlen : content.length ≤ fileSize)
    (h : nextChunk path fileSize cs i f = .ok (chunk, g)) :
    chunk = window content (i * cs) cs ∧
      g.take (fileSize - (i + 1) * cs) = content.drop ((i + 1) * cs) ∧
      min (fileSize - i * cs) cs ≤ content.length - i * cs := by
  simp only [nextChunk, bind_eq_ok, withContext_eq_ok, checkedMul_eq_ok, checkedSub_eq_ok] at h
  obtain ⟨_, ⟨-, rfl⟩, _, ⟨hle, rfl⟩, hread⟩ := h
  obtain ⟨rfl, rfl⟩ := readExact_eq_ok hread
  rw [Nat.succ_mul]
  generalize hm : min (fileSize - i * cs) cs = m at hread
  have hmle : m ≤ fileSize - i * cs := by omega
  have hlenf := congrArg List.length hf
  rw [List.length_take, List.length_drop] at hlenf
  refine ⟨?_, ?_, ?_⟩
  · have htake : f.take m = (f.take (fileSize - i * cs)).take m := by
      rw [List.take_take, Nat.min_eq_left hmle]
    rw [htake, hf, window, List.take_eq_take_iff, List.length_drop]
    omega
  · have hdrop : (f.drop m).take (fileSize - (i * cs + cs)) =
        (f.take (fileSize - i * cs)).drop m := by
      rw [List.drop_take, show fileSize - i * cs - m = fileSize - (i * cs + cs) by omega]
    rw [hdrop, hf, List.drop_drop, List.drop_eq_drop_iff]
    omega
  · have hle : m ≤ f.length := by
      unfold readExact at hread
      split at hread
      · assumption
      · cases hread
    omega

/-- What an attempt to write chunks has done: it has written the first of them, as many as it has
pushed indexes, the device has taken a piece more, and where there is no error it has done what
a build does. -/
structure Attempt.Wrote (hash : List UInt8 → Digest) (w : BlobWriter) (chunks : List (List UInt8))
    (plain : BuildResult (List ChunkIndex × BlobWriter)) (a : Attempt) : Prop where
  result : a.result = (fun _ => ()) <$> plain
  written : ∃ w₁ file, writeChunks hash (chunks.take a.indexes.length) w = .ok (a.indexes, w₁) ∧
    a.writer = { w₁ with file } ∧ file.bytes = w₁.file.bytes ++ a.torn
  whole : a.result = .ok () → plain = .ok (a.indexes, a.writer) ∧ a.torn = []

theorem Attempt.Wrote.nothing (hash : List UInt8 → Digest) (w : BlobWriter)
    (chunks : List (List UInt8)) (e : Fault BuildError) : Attempt.Wrote hash w chunks (.error e)
      { writer := w, indexes := [], result := .error e, torn := [] } where
  result := rfl
  written := ⟨w, w.file, rfl, rfl, (List.append_nil _).symm⟩
  whole := nofun

theorem writeChunksFromMut_wrote {path : String} {content f : List UInt8} {fileSize cs n i : Nat}
    (hf : f.take (fileSize - i * cs) = content.drop (i * cs)) (hlen : content.length ≤ fileSize) :
    Attempt.Wrote hash w (chunksFrom cs content n i)
      (writeChunksFrom hash path fileSize cs n i f w)
      (writeChunksFromMut hash path fileSize cs n i f w) := by
  induction n generalizing i f w with
  | zero =>
    exact ⟨rfl, ⟨w, w.file, rfl, rfl, (List.append_nil _).symm⟩, fun _ => ⟨rfl, rfl⟩⟩
  | succ n ih =>
    rw [writeChunksFrom_succ, writeChunksFromMut, chunksFrom_succ]
    cases hnext : nextChunk path fileSize cs i f with
    | error e => exact .nothing hash w _ e
    | ok p =>
      obtain ⟨chunk, g⟩ := p
      obtain ⟨hchunk, hg, -⟩ := nextChunk_eq_ok hf hlen hnext
      rw [bind_ok, ← hchunk]
      dsimp only
      have hstep := outlives_writeChunkMut hash w chunk
      generalize hx : writeChunk hash w chunk = x at hstep ⊢
      generalize writeChunkMut hash w chunk = y at hstep ⊢
      cases hstep with
      | error e h =>
        refine ⟨rfl, ⟨w, _, rfl, rfl, ?_⟩, nofun⟩
        dsimp only
        rw [h, List.drop_left]
      | ok ci w₁ =>
        obtain ⟨hresult, ⟨w₂, file, hwritten, hwriter, htorn⟩, hwhole⟩ := ih (w := w₁) hg
        rw [bind_ok]
        dsimp only
        refine ⟨?_, ⟨w₂, file, ?_, hwriter, htorn⟩, fun hok => ?_⟩
        · rw [hresult]
          cases writeChunksFrom hash path fileSize cs n (i + 1) g w₁ <;> rfl
        · rw [List.length_cons, List.take_succ_cons, writeChunks, hx, bind_ok]
          dsimp only
          rw [hwritten]
          rfl
        · obtain ⟨hplain, hnil⟩ := hwhole hok
          rw [hplain]
          exact ⟨rfl, hnil⟩

/-- Only chunks of the content are pushed. -/
theorem length_writeChunksFromMut_le {path : String} {content f : List UInt8}
    {fileSize cs n i : Nat} (hcs : 0 < cs)
    (hf : f.take (fileSize - i * cs) = content.drop (i * cs)) (hlen : content.length ≤ fileSize)
    (hn : n + i ≤ divCeil fileSize cs) :
    (writeChunksFromMut hash path fileSize cs n i f w).indexes.length ≤
      divCeil content.length cs - i := by
  induction n generalizing i f w with
  | zero => exact Nat.zero_le _
  | succ n ih =>
    rw [writeChunksFromMut]
    cases hnext : nextChunk path fileSize cs i f with
    | error e => exact Nat.zero_le _
    | ok p =>
      obtain ⟨chunk, g⟩ := p
      obtain ⟨-, hg, hread⟩ := nextChunk_eq_ok hf hlen hnext
      dsimp only
      split
      · exact Nat.zero_le _
      · rename_i w₁ ci _
        have hin := (lt_divCeil_iff hcs).mp (show i < divCeil fileSize cs by omega)
        have hi : i < divCeil content.length cs := (lt_divCeil_iff hcs).mpr (by omega)
        have hlater := ih (w := w₁) hg (by omega)
        rw [List.length_cons]
        omega

theorem take_chunksFrom {cs n k : Nat} (content : List UInt8) (hk : k ≤ n) (i : Nat) :
    (chunksFrom cs content n i).take k = chunksFrom cs content k i := by
  rw [chunksFrom, ← List.map_take, List.take_range'_of_length_ge hk, chunksFrom]

/-- **A call** on a writer that outlives it. -/
theorem writeFileChunksMut_wrote {cs : Nat} (hcs : 0 < cs) (hsize : w.chunksize = cs)
    (call : FileCall) : Attempt.Wrote hash w (call.chunks cs)
      (writeFileChunks hash w call.path call.file call.fileSize)
      (writeFileChunksMut hash w call.path call.file call.fileSize) := by
  subst hsize
  rw [writeFileChunks, writeFileChunksMut]
  split
  · exact ⟨rfl, ⟨w, w.file, rfl, rfl, (List.append_nil _).symm⟩, fun _ => ⟨rfl, rfl⟩⟩
  cases hopen : withContext s!"failed to open file: {call.path}" call.file with
  | error e => exact .nothing hash w _ e
  | ok f =>
    have hcontent : call.content = f.take call.fileSize := by
      rw [FileCall.content, withContext_eq_ok.mp hopen]
    have hlen : call.content.length ≤ call.fileSize := by
      rw [hcontent, List.length_take]
      omega
    have hf : f.take (call.fileSize - 0 * w.chunksize) = call.content.drop (0 * w.chunksize) := by
      rw [Nat.zero_mul, Nat.sub_zero, List.drop_zero, hcontent]
    have hcount := @length_writeChunksFromMut_le hash w call.path call.content f call.fileSize
      w.chunksize (divCeil call.fileSize w.chunksize) 0 hcs hf hlen (Nat.le_refl _)
    have hmore : divCeil call.content.length w.chunksize ≤ divCeil call.fileSize w.chunksize :=
      Nat.div_le_div_right (by omega)
    obtain ⟨hresult, ⟨w₁, file, hwritten, hwriter, htorn⟩, hwhole⟩ :=
      @writeChunksFromMut_wrote hash w call.path call.content f call.fileSize w.chunksize
        (divCeil call.fileSize w.chunksize) 0 hf hlen
    rw [Nat.sub_zero] at hcount
    refine ⟨hresult, ⟨w₁, file, ?_, hwriter, htorn⟩, hwhole⟩
    dsimp only
    rw [take_chunksFrom _ (by omega)] at hwritten
    rw [FileCall.chunks, chunksOf, take_chunksFrom _ hcount]
    exact hwritten

/-! ## Runs -/

/-- The indexes the calls have pushed, each with its chunk. A call that succeeds returns all of
its own, and one that fails none. -/
def pushed (cs : Nat) (calls : List (FileCall × Nat)) (as : List Attempt) :
    List (ChunkIndex × List UInt8) :=
  (calls.zip as).flatMap fun (call, a) => a.indexes.zip (call.1.chunks cs)

/-- What holds of a writer through which the calls went: the device ends with the last block,
every index pushed has its extent there, equal chunks and only they share an address, a call that
succeeded has an index for every chunk, and every block of every chunk is either on the device or
counted as saved. -/
structure Intact (cs : Nat) (calls : List (FileCall × Nat)) (as : List Attempt) (w : BlobWriter) :
    Prop where
  length : w.file.bytes.length = erofsBlockSize * w.nextBlkaddr
  extents : ∀ p ∈ pushed cs calls as, w.Extent p.1 p.2
  separate : ∀ p ∈ pushed cs calls as, ∀ q ∈ pushed cs calls as, Separate p q
  counts : ∀ c ∈ calls.zip as, c.2.result = .ok () →
    c.2.indexes.length = divCeil c.1.1.fileSize cs ∧
      (c.1.1.chunks cs).length = divCeil c.1.1.fileSize cs
  accounted : erofsBlockSize * w.totalBlocks + w.savedByDedup =
    ((pushed cs calls as).map fun p => divCeil p.2.length erofsBlockSize * erofsBlockSize).sum

/-- The state behind calls that have pushed `ps` and torn `torn` bytes: as long as nothing is
torn, the writer holds the store of the chunks. -/
structure Kept (hash : List UInt8 → Digest) (cs : Nat) (w : BlobWriter)
    (ps : List (ChunkIndex × List UInt8)) (torn : Nat) : Prop where
  chunksize : w.chunksize = cs
  length : w.file.bytes.length = erofsBlockSize * w.nextBlkaddr + torn
  accounted : w.accounted = spaceOf (ps.map Prod.snd)
  holds : torn = 0 → Holds hash w (putAll [] (ps.map Prod.snd))
  indexes : torn = 0 → ∀ p ∈ ps, p.1 = storedIndex (putAll [] (ps.map Prod.snd)) p.2

theorem writeChunks_length {chunks : List (List UInt8)} {cis : List ChunkIndex}
    (h : writeChunks hash chunks w = .ok (cis, w')) :
    w'.file.bytes.length + erofsBlockSize * w.nextBlkaddr =
      w.file.bytes.length + erofsBlockSize * w'.nextBlkaddr ∧ cis.length = chunks.length := by
  induction chunks generalizing w cis with
  | nil =>
    cases h
    exact ⟨rfl, rfl⟩
  | cons chunk chunks ih =>
    simp only [writeChunks, bind_eq_ok, pure_eq_ok, Except.ok.injEq, Prod.exists,
      Prod.mk.injEq] at h
    obtain ⟨ci, w₁, hstep, cis', w₂, hrest, rfl, rfl⟩ := h
    obtain ⟨hlen, hcount⟩ := ih hrest
    refine ⟨?_, by rw [List.length_cons, List.length_cons, hcount]⟩
    cases hd : w.dedup (hash chunk) with
    | some b =>
      obtain ⟨-, saved, rfl⟩ := writeChunk_hit hd hstep
      exact hlen
    | none =>
      obtain ⟨-, -, hfile, hnext, -⟩ := writeChunk_miss hd hstep
      rw [hfile, hnext, List.length_append, length_padded (by decide), Nat.mul_add,
        Nat.mul_comm (blocksOf erofsBlockSize chunk)] at hlen
      omega

theorem zip_take {α β : Type} {as : List α} {bs : List β} (h : as.length ≤ bs.length) :
    as.zip bs = as.zip (bs.take as.length) := by
  rw [List.zip_eq_zip_take_min, Nat.min_eq_left h, List.take_length]

/-- As long as nothing is torn the store goes on, in whatever room. -/
theorem Kept.stored {cs room : Nat} {ps : List (ChunkIndex × List UInt8)}
    {all chunks : List (List UInt8)} {cis : List ChunkIndex} {w₁ : BlobWriter}
    (hk : Kept hash cs w ps 0) (hall : DigestsDiffer hash all) (hps : ∀ p ∈ ps, p.2 ∈ all)
    (hnew : ∀ c ∈ chunks, c ∈ all)
    (hwritten : writeChunks hash chunks (w.withRoom room) = .ok (cis, w₁)) :
    Holds hash w₁ (putAll (putAll [] (ps.map Prod.snd)) chunks) ∧
      cis = chunks.map (storedIndex (putAll (putAll [] (ps.map Prod.snd)) chunks)) := by
  obtain ⟨hfile, hnext, hknown, honly⟩ := hk.holds rfl
  have hh : Holds hash (w.withRoom room) (putAll [] (ps.map Prod.snd)) :=
    ⟨hfile, hnext, hknown, honly⟩
  have hold : ∀ c ∈ putAll [] (ps.map Prod.snd), c ∈ all := by
    intro c hm
    obtain ⟨p, hp, rfl⟩ := List.mem_map.mp (mem_putAll_nil.mp hm)
    exact hps p hp
  obtain ⟨hh₁, -, hcis⟩ := hh.writeChunks hall hold hnew hwritten
  exact ⟨hh₁, hcis⟩

/-- **A call** keeps the state, whatever becomes of it. -/
theorem Kept.attempt {cs torn room : Nat} {ps : List (ChunkIndex × List UInt8)} {call : FileCall}
    {a : Attempt} {plain : BuildResult (List ChunkIndex × BlobWriter)} {all : List (List UInt8)}
    (hk : Kept hash cs w ps torn) (hall : DigestsDiffer hash all) (hps : ∀ p ∈ ps, p.2 ∈ all)
    (hc : ∀ c ∈ call.chunks cs, c ∈ all)
    (ha : Attempt.Wrote hash (w.withRoom room) (call.chunks cs) plain a) :
    Kept hash cs a.writer (ps ++ a.indexes.zip (call.chunks cs)) (torn + a.torn.length) := by
  obtain ⟨w₁, file, hwritten, hwriter, htorn⟩ := ha.written
  obtain ⟨hlen, hcount⟩ := writeChunks_length hwritten
  obtain ⟨hspace, hsize₁⟩ := writeChunks_accounted hwritten
  rw [zip_take (by rw [List.length_take] at hcount; omega)]
  have hnew : ∀ c ∈ (call.chunks cs).take a.indexes.length, c ∈ all :=
    fun c hm => hc c (List.mem_of_mem_take hm)
  generalize (call.chunks cs).take a.indexes.length = chunks at hwritten hcount hspace hnew ⊢
  rw [hwriter]
  have hsnd : (a.indexes.zip chunks).map Prod.snd = chunks := List.map_snd_zip (by omega)
  have hstore : putAll [] ((ps ++ a.indexes.zip chunks).map Prod.snd) =
      putAll (putAll [] (ps.map Prod.snd)) chunks := by
    rw [List.map_append, hsnd, putAll_append]
  have hzero : torn + a.torn.length = 0 → torn = 0 ∧ a.torn = [] := by
    intro h
    exact ⟨by omega, List.length_eq_zero_iff.mp (by omega)⟩
  have hlength := hk.length
  refine ⟨hsize₁.trans hk.chunksize, ?_, ?_, fun h => ?_, fun h => ?_⟩
  · show file.bytes.length = _
    rw [htorn, List.length_append]
    dsimp only [withRoom] at hlen ⊢
    omega
  · show w₁.accounted = _
    have hsame : (w.withRoom room).accounted = w.accounted := rfl
    rw [hspace, hsame, hk.accounted, List.map_append, hsnd, spaceOf, spaceOf, spaceOf,
      List.map_append, List.sum_append]
  · obtain ⟨rfl, htorn₀⟩ := hzero h
    obtain ⟨⟨hfile, hnext, hknown, honly⟩, -⟩ := hk.stored hall hps hnew hwritten
    rw [hstore]
    exact ⟨by rw [htorn, htorn₀, List.append_nil, hfile], hnext, hknown, honly⟩
  · obtain ⟨rfl, -⟩ := hzero h
    obtain ⟨-, hcis⟩ := hk.stored hall hps hnew hwritten
    rw [hstore]
    intro p hp
    rcases List.mem_append.mp hp with hp | hp
    · have hm : p.2 ∈ putAll [] (ps.map Prod.snd) := mem_putAll (List.mem_map.mpr ⟨p, hp, rfl⟩) _
      rw [hk.indexes rfl p hp, storedIndex_stable hm]
    · have hzip := @List.zip_map' _ _ _
        (storedIndex (putAll (putAll [] (ps.map Prod.snd)) chunks)) id chunks
      rw [List.map_id] at hzip
      rw [hcis, hzip] at hp
      obtain ⟨c, -, rfl⟩ := List.mem_map.mp hp
      rfl

theorem pushed_cons (cs : Nat) (c : FileCall × Nat) (calls : List (FileCall × Nat)) (a : Attempt)
    (as : List Attempt) :
    pushed cs (c :: calls) (a :: as) = a.indexes.zip (c.1.chunks cs) ++ pushed cs calls as := rfl

/-- **A run** keeps the state, whatever becomes of its calls. -/
theorem Kept.attempts {cs torn : Nat} {ps : List (ChunkIndex × List UInt8)}
    {calls : List (FileCall × Nat)} {all : List (List UInt8)} (hk : Kept hash cs w ps torn)
    (hcs : 0 < cs) (hall : DigestsDiffer hash all) (hps : ∀ p ∈ ps, p.2 ∈ all)
    (hc : ∀ c ∈ callChunks cs (calls.map Prod.fst), c ∈ all) {i : Nat} {a : Attempt}
    (ha : (attempts hash calls w)[i]? = some a) :
    Kept hash cs a.writer
      (ps ++ pushed cs (calls.take (i + 1)) ((BlobWriter.attempts hash calls w).take (i + 1)))
      (torn + (((BlobWriter.attempts hash calls w).take (i + 1)).map (·.torn.length)).sum) := by
  induction calls generalizing w ps torn i with
  | nil => cases ha
  | cons c calls ih =>
    obtain ⟨call, room⟩ := c
    rw [BlobWriter.attempts] at ha ⊢
    have hwrote := @writeFileChunksMut_wrote hash (w.withRoom room) cs hcs hk.chunksize call
    generalize writeFileChunksMut hash (w.withRoom room) call.path call.file call.fileSize = first
      at hwrote ha ⊢
    have hfirst : ∀ c ∈ call.chunks cs, c ∈ all := fun c hm => hc c (List.mem_append_left _ hm)
    have hk₁ := hk.attempt hall hps hfirst hwrote
    rw [List.take_succ_cons, List.take_succ_cons, pushed_cons, List.map_cons, List.sum_cons,
      ← List.append_assoc, ← Nat.add_assoc]
    cases i with
    | zero =>
      rw [List.getElem?_cons_zero, Option.some.injEq] at ha
      subst ha
      simpa [pushed] using hk₁
    | succ i =>
      rw [List.getElem?_cons_succ] at ha
      split at ha
      · cases ha
      · rename_i hgo
        rw [if_neg hgo]
        refine ih hk₁ ?_ (fun c hm => hc c (List.mem_append_right _ hm)) ha
        intro p hp
        rcases List.mem_append.mp hp with hp | hp
        · exact hps p hp
        · exact hfirst _ (List.of_mem_zip hp).2

/-- Each call of a run is one of a writer with the same chunk size. -/
theorem wrote_of_mem_zip {cs : Nat} {calls : List (FileCall × Nat)} (hcs : 0 < cs)
    (hsize : w.chunksize = cs) : ∀ c ∈ calls.zip (attempts hash calls w), ∃ w',
      w'.chunksize = cs ∧ Attempt.Wrote hash w' (c.1.1.chunks cs)
        (writeFileChunks hash w' c.1.1.path c.1.1.file c.1.1.fileSize) c.2 := by
  induction calls generalizing w with
  | nil => nofun
  | cons c calls ih =>
    obtain ⟨call, room⟩ := c
    rw [attempts]
    have hwrote := @writeFileChunksMut_wrote hash (w.withRoom room) cs hcs hsize call
    intro p hp
    rcases List.mem_cons.mp hp with rfl | hp
    · exact ⟨w.withRoom room, hsize, hwrote⟩
    · split at hp
      · simp at hp
      · obtain ⟨w₁, file, hwritten, hwriter, -⟩ := hwrote.written
        refine ih ?_ p hp
        rw [hwriter]
        exact (writeChunks_accounted hwritten).2.trans hsize

theorem kept_new {d : Device} {path : String} {cs : Nat} (hd : d.bytes = [])
    (hnew : new (.ok d) path cs = .ok w) : Kept hash cs w [] 0 := by
  obtain ⟨hh, hsize⟩ : Holds hash w [] ∧ w.chunksize = cs := holds_new hd hnew
  refine ⟨hsize, ?_, ?_, fun _ => hh, nofun⟩
  · rw [hh.file, hh.next]
    rfl
  · cases hnew
    rfl

/-- A call that succeeds has an index for every chunk. -/
theorem Attempt.Wrote.counts {cs : Nat} {call : FileCall} {a : Attempt} (hcs : 0 < cs)
    (hsize : w.chunksize = cs)
    (h : Attempt.Wrote hash w (call.chunks cs)
      (writeFileChunks hash w call.path call.file call.fileSize) a) (hok : a.result = .ok ()) :
    a.indexes.length = divCeil call.fileSize cs ∧
      (call.chunks cs).length = divCeil call.fileSize cs := by
  subst hsize
  obtain ⟨hplain, -⟩ := h.whole hok
  obtain ⟨hlen, hcontent⟩ := writeFileChunks_content hcs hplain
  have hcount := (writeChunks_length (writeChunks_of_writeFileChunks hcontent)).2
  have hchunks : (call.chunks w.chunksize).length = divCeil call.fileSize w.chunksize := by
    rw [FileCall.chunks, length_chunksOf, hlen]
  exact ⟨hcount.trans hchunks, hchunks⟩

theorem length_attempts_le (hash : List UInt8 → Digest) (calls : List (FileCall × Nat))
    (w : BlobWriter) : (attempts hash calls w).length ≤ calls.length := by
  induction calls generalizing w with
  | nil => exact Nat.le_refl _
  | cons c calls ih =>
    rw [attempts, List.length_cons, List.length_cons]
    split
    · exact Nat.succ_le_succ (Nat.zero_le _)
    · exact Nat.succ_le_succ (ih _)

theorem mem_zip_of_take {calls : List (FileCall × Nat)} {as : List Attempt} {n : Nat}
    {c : (FileCall × Nat) × Attempt} (h : c ∈ (calls.take n).zip (as.take n)) :
    c ∈ calls.zip as := by
  rw [List.zip, ← List.take_zipWith] at h
  exact List.mem_of_mem_take h

/-- A call that succeeds has torn nothing. -/
theorem torn_of_ok {calls : List (FileCall × Nat)} {cs : Nat} {a : Attempt} (hcs : 0 < cs)
    (hsize : w.chunksize = cs) (ha : a ∈ attempts hash calls w) (hok : a.result = .ok ()) :
    a.torn = [] := by
  rw [← List.map_snd_zip (length_attempts_le hash calls w)] at ha
  obtain ⟨c, hc, rfl⟩ := List.mem_map.mp ha
  obtain ⟨w', -, hwrote⟩ := wrote_of_mem_zip hcs hsize c hc
  exact (hwrote.whole hok).2

/-- As long as nothing is torn the writer is intact. -/
theorem Kept.intact {cs : Nat} {calls : List (FileCall × Nat)} {as : List Attempt}
    (h : Kept hash cs w (pushed cs calls as) 0) (hcs : 0 < cs)
    (hcounts : ∀ c ∈ calls.zip as, c.2.result = .ok () →
      c.2.indexes.length = divCeil c.1.1.fileSize cs ∧
        (c.1.1.chunks cs).length = divCeil c.1.1.fileSize cs) : Intact cs calls as w := by
  obtain ⟨-, hlength, haccounted, hholds, hindexes⟩ := h
  have hmem : ∀ p ∈ pushed cs calls as, p.2 ∈ putAll [] ((pushed cs calls as).map Prod.snd) :=
    fun p hp => mem_putAll (List.mem_map.mpr ⟨p, hp, rfl⟩) _
  have hne : ∀ p ∈ pushed cs calls as, p.2 ≠ [] := by
    intro p hp
    obtain ⟨c, -, hp⟩ := List.mem_flatMap.mp hp
    exact ne_nil_of_mem_chunksOf hcs (List.of_mem_zip hp).2
  refine ⟨hlength, fun p hp => ?_, fun p hp q hq => ?_, hcounts, ?_⟩
  · rw [hindexes rfl p hp]
    exact (hholds rfl).extent (hmem p hp)
  · have hpair : ∀ p ∈ pushed cs calls as,
        p = (storedIndex (putAll [] ((pushed cs calls as).map Prod.snd)) p.2, p.2) :=
      fun p hp => Prod.ext (hindexes rfl p hp) rfl
    rw [hpair p hp, hpair q hq]
    exact separate_storedIndex (hmem p hp) (hmem q hq) (hne p hp) (hne q hq)
  · rw [spaceOf, List.map_map] at haccounted
    exact haccounted

/-- **The blob after any calls**, failed ones among them: behind a call that succeeds everything
is as it should be exactly if no call before has left a piece of a chunk on the device. -/
theorem attempts_intact_iff {calls : List (FileCall × Nat)} {d : Device} {path : String}
    {chunksize : Nat} {w₀ : BlobWriter} (hd : d.bytes = []) (hcs : 0 < chunksize)
    (hnew : new (.ok d) path chunksize = .ok w₀)
    (hdiffer : DigestsDiffer hash (callChunks chunksize (calls.map Prod.fst))) {i : Nat}
    {a : Attempt} (ha : (attempts hash calls w₀)[i]? = some a) (hok : a.result = .ok ()) :
    Intact chunksize (calls.take (i + 1)) ((attempts hash calls w₀).take (i + 1)) a.writer ↔
      ∀ b ∈ (attempts hash calls w₀).take i, b.torn = [] := by
  have hstart : Kept hash chunksize w₀ [] 0 := kept_new hd hnew
  have hkept := hstart.attempts hcs hdiffer nofun (fun c hc => hc) ha
  have hlast := torn_of_ok hcs hstart.chunksize (List.mem_of_getElem? ha) hok
  rw [List.nil_append, Nat.zero_add] at hkept
  have hsum : (((attempts hash calls w₀).take (i + 1)).map (·.torn.length)).sum = 0 ↔
      ∀ b ∈ (attempts hash calls w₀).take i, b.torn = [] := by
    rw [List.take_add_one, ha, List.map_append, List.sum_append, Option.toList_some,
      List.map_singleton, List.sum_singleton, hlast, List.length_nil, Nat.add_zero,
      List.sum_eq_zero_iff_forall_eq_nat, List.forall_mem_map]
    simp only [List.length_eq_zero_iff]
  rw [← hsum]
  constructor
  · intro h
    have hlength := h.length
    have hmore := hkept.length
    omega
  · intro hzero
    rw [hzero] at hkept
    refine hkept.intact hcs fun c hc => ?_
    obtain ⟨w', hsize, hwrote⟩ := wrote_of_mem_zip hcs hstart.chunksize c (mem_zip_of_take hc)
    exact hwrote.counts hcs hsize

/-! ## Runs with a missing file and with a full device -/

theorem Attempt.Wrote.eq_of_ok {chunks : List (List UInt8)} {cis : List ChunkIndex} {a : Attempt}
    (h : Attempt.Wrote hash w chunks (.ok (cis, w')) a) :
    a = { writer := w', indexes := cis, result := .ok (), torn := [] } := by
  have hok : a.result = .ok () := h.result
  obtain ⟨hplain, htorn⟩ := h.whole hok
  obtain ⟨writer, indexes, result, torn⟩ := a
  cases hplain
  cases hok
  cases htorn
  rfl

/-- A call that succeeds in a build. -/
theorem attempts_cons_ok {call : FileCall} {room : Nat} {calls : List (FileCall × Nat)}
    {cis : List ChunkIndex} (hcs : 0 < w.chunksize)
    (h : writeFileChunks hash (w.withRoom room) call.path call.file call.fileSize = .ok (cis, w')) :
    attempts hash ((call, room) :: calls) w =
      { writer := w', indexes := cis, result := .ok (), torn := [] } :: attempts hash calls w' := by
  have hwrote := @writeFileChunksMut_wrote hash (w.withRoom room) w.chunksize hcs rfl call
  rw [h] at hwrote
  rw [attempts, hwrote.eq_of_ok]
  rfl

/-- BLAKE3 where it is asked: on the bytes 1, 2, 3 and on the bytes 4, 5. -/
def sampleHash : List UInt8 → Digest := fun chunk =>
  if chunk = [1, 2, 3] then
    #v[177, 119, 236, 27, 242, 109, 251, 59, 112, 16, 212, 115, 230, 212, 71, 19, 178, 155, 118, 91,
      153, 198, 230, 14, 203, 250, 231, 66, 222, 73, 101, 67]
  else
    #v[95, 128, 85, 39, 170, 148, 242, 169, 163, 167, 130, 202, 216, 204, 24, 182, 60, 246, 1, 126,
      123, 198, 92, 169, 106, 234, 218, 131, 146, 212, 197, 37]

theorem digestsDiffer_sampleHash {chunks : List (List UInt8)}
    (h : ∀ c ∈ chunks, c = [1, 2, 3] ∨ c = [4, 5]) : DigestsDiffer sampleHash chunks := by
  intro c hc d hd heq
  rcases h c hc with rfl | rfl <;> rcases h d hd with rfl | rfl
  · rfl
  · exact absurd heq (by decide)
  · exact absurd heq (by decide)
  · rfl

def sampleWriter : BlobWriter := ⟨⟨[], 16384⟩, 4096, 0, fun _ => none, 0⟩

/-- Two files of different data, one that cannot be opened, and one of the data of the first. -/
def missingCalls : List (FileCall × Nat) :=
  [(⟨"a", .ok [1, 2, 3], 3⟩, 16384), (⟨"m", osError 2, 3⟩, 12288), (⟨"b", .ok [4, 5], 2⟩, 12288),
    (⟨"c", .ok [1, 2, 3], 3⟩, 8192)]

set_option maxRecDepth 30000 in
/-- The last call finds its chunk where the first has put it. -/
theorem attempts_intact_missing : ∃ a, (attempts sampleHash missingCalls sampleWriter)[3]? = some a ∧
    a.indexes = [⟨0, 1⟩] ∧ a.writer.nextBlkaddr = 2 ∧ a.writer.savedByDedup = 4096 ∧
    Intact 4096 missingCalls (attempts sampleHash missingCalls sampleWriter) a.writer := by
  have hmissing : ∀ w calls, attempts sampleHash ((⟨"m", osError 2, 3⟩, 12288) :: calls) w =
      { writer := w.withRoom 12288, indexes := []
        result := fail (.context "failed to open file: m" (.io (.os 2))), torn := [] } ::
      attempts sampleHash calls (w.withRoom 12288) := fun _ _ => rfl
  have hrun : ∃ a₀ a₁ a₂ a₃, attempts sampleHash missingCalls sampleWriter = [a₀, a₁, a₂, a₃] ∧
      a₀.torn = [] ∧ a₁.torn = [] ∧ a₂.torn = [] ∧ a₃.result = .ok () ∧ a₃.indexes = [⟨0, 1⟩] ∧
      a₃.writer.nextBlkaddr = 2 ∧ a₃.writer.savedByDedup = 4096 := by
    rw [missingCalls, attempts_cons_ok (by decide) rfl, hmissing, attempts_cons_ok (by decide) rfl,
      attempts_cons_ok (by decide) rfl]
    exact ⟨_, _, _, _, rfl, rfl, rfl, rfl, rfl, rfl, rfl, rfl⟩
  obtain ⟨a₀, a₁, a₂, a₃, hrun, h₀, h₁, h₂, hok, hcis, hnext, hsaved⟩ := hrun
  have hdiffer : DigestsDiffer sampleHash (callChunks 4096 (missingCalls.map Prod.fst)) := by
    refine digestsDiffer_sampleHash ?_
    decide
  have hlast : (attempts sampleHash missingCalls sampleWriter)[3]? = some a₃ := by rw [hrun]; rfl
  have hintact := @attempts_intact_iff sampleHash missingCalls ⟨[], 16384⟩ "blob" 4096 sampleWriter
    rfl (by decide) rfl hdiffer 3 a₃ hlast hok
  refine ⟨a₃, hlast, hcis, hnext, hsaved, ?_⟩
  rw [hrun] at hintact ⊢
  refine hintact.mpr ?_
  intro b hb
  rcases List.mem_cons.mp hb with rfl | hb
  · exact h₀
  rcases List.mem_cons.mp hb with rfl | hb
  · exact h₁
  rcases List.mem_singleton.mp hb with rfl
  exact h₂

/-- The device is full behind the first chunk and gets room again for the second. -/
def fullCalls : List (FileCall × Nat) := [(⟨"a", .ok [1, 2, 3], 3⟩, 3), (⟨"b", .ok [4, 5], 2⟩, 8192)]

def fullWriter : BlobWriter := { sampleWriter with file := ⟨[1, 2, 3], 0⟩ }

theorem attempts_fullCalls : attempts sampleHash fullCalls sampleWriter =
    { writer := fullWriter, indexes := []
      result := fail (.context "failed to write padding to blob device" (.io (.os enospc)))
      torn := [1, 2, 3] } ::
    attempts sampleHash [(⟨"b", .ok [4, 5], 2⟩, 8192)] fullWriter := by
  have hwrite : writeBlobMut "failed to write to blob device" (sampleWriter.withRoom 3) [1, 2, 3] =
      (fullWriter, .ok ()) := by
    have hall : (sampleWriter.withRoom 3).file.writeAll [1, 2, 3] = .ok ⟨[1, 2, 3], 0⟩ := rfl
    rw [writeBlobMut, writeOut_eq_ok.mpr hall]
    rfl
  have hpad : writePaddingMut fullWriter
      (divCeil ([1, 2, 3] : List UInt8).length erofsBlockSize * erofsBlockSize)
      ([1, 2, 3] : List UInt8).length = (fullWriter,
        fail (.context "failed to write padding to blob device" (.io (.os enospc)))) := by
    show writePaddingMut fullWriter 4096 3 = _
    have hfull : fullWriter.file.room < (List.replicate 4093 (0 : UInt8)).length := by
      rw [List.length_replicate]
      decide
    rw [writePaddingMut, if_pos (by decide), writeBlobMut, writeOut_full hfull]
    rfl
  have hchunk : writeChunkMut sampleHash (sampleWriter.withRoom 3) [1, 2, 3] = (fullWriter,
      fail (.context "failed to write padding to blob device" (.io (.os enospc)))) := by
    unfold writeChunkMut
    rw [show (sampleWriter.withRoom 3).dedup (sampleHash [1, 2, 3]) = none from rfl]
    dsimp only
    rw [hwrite]
    dsimp only
    rw [hpad]
    rfl
  have hnext : nextChunk "a" 3 4096 0 [1, 2, 3] = .ok ([1, 2, 3], []) := rfl
  have hfirst : writeFileChunksMut sampleHash (sampleWriter.withRoom 3) "a" (.ok [1, 2, 3]) 3 =
      { writer := fullWriter, indexes := []
        result := fail (.context "failed to write padding to blob device" (.io (.os enospc)))
        torn := [1, 2, 3] } := by
    show writeChunksFromMut sampleHash "a" 3 4096 1 0 [1, 2, 3] (sampleWriter.withRoom 3) = _
    rw [writeChunksFromMut, hnext]
    dsimp only
    rw [hchunk]
    rfl
  rw [fullCalls, attempts, hfirst]
  rfl

set_option maxRecDepth 30000 in
/-- The zeros behind the first chunk are missing, so that the second does not start a block. -/
theorem not_attempts_intact_full : ∃ a, (attempts sampleHash fullCalls sampleWriter)[1]? = some a ∧
    a.result = .ok () ∧ a.indexes = [⟨0, 1⟩] ∧ a.writer.nextBlkaddr = 1 ∧
    a.writer.file.bytes.take 5 = [1, 2, 3, 4, 5] ∧
    DigestsDiffer sampleHash (callChunks 4096 (fullCalls.map Prod.fst)) ∧
    ¬ Intact 4096 fullCalls (attempts sampleHash fullCalls sampleWriter) a.writer := by
  have hdiffer : DigestsDiffer sampleHash (callChunks 4096 (fullCalls.map Prod.fst)) := by
    refine digestsDiffer_sampleHash ?_
    decide
  rw [attempts_fullCalls, attempts_cons_ok (by decide) rfl]
  refine ⟨_, rfl, rfl, rfl, rfl, rfl, hdiffer, fun h => ?_⟩
  exact absurd h.length (by decide +kernel)

end BlobWriter
end ErofsUtils.Build
