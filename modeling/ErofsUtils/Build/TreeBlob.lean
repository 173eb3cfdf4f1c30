import ErofsUtils.Build.Files
import ErofsUtils.Build.Represents

/-! # The blob of a tree

Whatever the tree looks like, its blob holds each distinct chunk once and nothing else, and
the table of every file leads to the chunks of that file. -/
namespace ErofsUtils.Build
open ErofsUtils.Rust ErofsUtils.Bytes ErofsUtils.Metadata ErofsUtils.Store
open BlobWriter (FileCall callChunks Extent spaceOf)

variable {hash : List UInt8 → Digest} {root source : Source} {os : List (List Nat × Source)}
  {inodes : List InodeInfo} {w : BlobWriter} {cs : Nat}

/-- While the tree is walked nothing changes: all names of a file answer alike. -/
structure Snapshot (root : Source) : Prop where
  static : Static root
  alike : ∀ p a q b, Occurs root p a → Occurs root q b → LinkedNames a b →
    a.file = b.file ∧ a.link = b.link ∧ a.xattrs = b.xattrs

/-- The chunk is one of a file of the tree. -/
def HasChunk (root : Source) (cs : Nat) (c : List UInt8) : Prop :=
  ∃ p node, Occurs root p node ∧ c ∈ node.chunks cs

theorem chunks_congr {a b : Source} (hstat : a.stat = b.stat) (hfile : a.file = b.file) :
    a.chunks cs = b.chunks cs := by
  unfold Source.chunks Source.call
  rw [hstat, hfile]
  cases b.stat with
  | error e => rfl
  | ok stat =>
    cases hd : stat.isDir <;> cases hf : stat.isFile <;> simp [hd, hf, FileCall.chunks, FileCall.content]

/-- A regular file has a call of the same data under each of its names. -/
theorem call_congr (cs : Nat) {a b : Source} {call : FileCall} (hstat : a.stat = b.stat)
    (hfile : a.file = b.file) (hcall : b.call = some call) : ∃ call', a.call = some call' ∧
      call'.chunks cs = call.chunks cs ∧ call'.fileSize = call.fileSize := by
  unfold Source.call at hcall ⊢
  rw [hstat, hfile]
  cases hs : b.stat with
  | error e =>
    rw [hs] at hcall
    cases hcall
  | ok stat =>
    rw [hs] at hcall
    dsimp only at hcall ⊢
    split at hcall
    · cases hcall
    · rename_i hdir
      split at hcall
      · rename_i hreg
        cases hcall
        rw [if_neg hdir, if_pos hreg]
        exact ⟨_, rfl, rfl, rfl⟩
      · cases hcall

/-- The path of an inode answers like every path that the inode stands for. -/
theorem Snapshot.same (h : Snapshot root) {p q : List Nat} {a b : Source} (ha : Occurs root p a)
    (hb : Occurs root q b) (hid : identity (p, a) = identity (q, b)) :
    a.stat = b.stat ∧ a.file = b.file ∧ a.link = b.link ∧ a.xattrs = b.xattrs := by
  rcases (identity_eq_iff ha hb).mp hid with rfl | hlinked
  · rw [ha.unique hb]
    exact ⟨rfl, rfl, rfl, rfl⟩
  · obtain ⟨stat, stat', hs, hs', -, -, hkey⟩ := id hlinked
    exact ⟨by rw [hs, hs', h.static p a q b stat stat' ha hb hs hs' hkey], h.alike p a q b ha hb hlinked⟩

/-- The chunks that are written are those of the tree. -/
theorem Complete.hasChunk_iff (h : Complete root os inodes) (hsnap : Snapshot root)
    {c : List UInt8} : HasChunk root cs c ↔ c ∈ callChunks cs (callsAt os) := by
  rw [mem_callChunks_callsAt]
  constructor
  · rintro ⟨p, node, hocc, hc⟩
    obtain ⟨i, o, ho, hid, -⟩ := h.indexed p node hocc
    obtain ⟨_, -, hmade⟩ := h.made_at ho
    obtain ⟨hstat, hfile, -⟩ := hsnap.same hmade.occurs hocc hid
    exact ⟨o, List.mem_of_getElem? ho, by rw [chunks_congr hstat hfile]; exact hc⟩
  · rintro ⟨o, ho, hc⟩
    obtain ⟨i, hi⟩ := List.mem_iff_getElem?.mp ho
    obtain ⟨_, -, hmade⟩ := h.made_at hi
    exact ⟨o.1, o.2, hmade.occurs, hc⟩

/-- The bytes on the device are those of the blocks handed out. -/
theorem length_of_holds {store : List (List UInt8)} (h : BlobWriter.Holds hash w store) :
    w.file.bytes.length = erofsBlockSize * w.totalBlocks := by
  rw [h.file, length_cells (by decide), BlobWriter.totalBlocks, h.next, Nat.mul_comm]

/-- What the blob device and the tables are after a build. The device holds the chunks of `store`,
each padded to whole blocks, one behind the other and nothing else. -/
structure TreeBlob (root : Source) (cs : Nat) (os : List (List Nat × Source))
    (inodes : List InodeInfo) (w : BlobWriter) (store : List (List UInt8)) : Prop where
  distinct : store.Nodup
  stored : ∀ c, c ∈ store ↔ HasChunk root cs c
  bytes : w.file.bytes = cells erofsBlockSize 0 store
  blocks : w.totalBlocks = total erofsBlockSize store
  tables : ∀ p node call, Occurs root p node → node.call = some call → ∃ i inode,
    IndexOf os (p, node) i ∧ inodes[i]? = some inode ∧
      inode.data.table = some ((call.chunks cs).map (storedIndex store)) ∧
      (call.chunks cs).length = divCeil call.fileSize cs ∧
      ∀ c ∈ call.chunks cs, w.Extent (storedIndex store c) c
  accounted : erofsBlockSize * w.totalBlocks + w.savedByDedup = spaceOf (callChunks cs (callsAt os))

/-- **The blob of a tree.** After a build through a new writer: each distinct chunk of the tree is
on the device once and the device holds nothing else, the table of every regular file, under each
of its names, leads to the chunks of that file, and the blocks not written are counted. -/
theorem buildTree_blob {d : Device} {path : String} {w₀ : BlobWriter} (hd : d.bytes = [])
    (hcs : 0 < cs) (hnew : BlobWriter.new (.ok d) path cs = .ok w₀)
    (h : buildTree hash source w₀ = .ok (inodes, w)) (hdir : source.isDir = true)
    (hsnap : Snapshot source) (hdiffer : TreeDigestsDiffer hash cs source) :
    ∃ os store, Complete source os inodes ∧ TreeBlob source cs os inodes w store := by
  obtain ⟨os, hcomplete, hfed⟩ := buildTree_fed h hdir
  obtain ⟨hh, hsize⟩ : BlobWriter.Holds hash w₀ [] ∧ w₀.chunksize = cs := BlobWriter.holds_new hd hnew
  obtain ⟨hstore, htables⟩ := hfed.stored hh hsize hcs (hcomplete.digestsDiffer hdiffer)
  refine ⟨os, putAll [] (callChunks cs (callsAt os)), hcomplete, nodup_putAll List.nodup_nil,
    fun c => mem_putAll_nil.trans (hcomplete.hasChunk_iff hsnap).symm, hstore.file, hstore.next,
    ?_, ?_⟩
  · intro p node call hocc hcall
    obtain ⟨i, o, ho, hid, hfirst⟩ := hcomplete.indexed p node hocc
    obtain ⟨inode, hinode, hmade⟩ := hcomplete.made_at ho
    obtain ⟨hstat, hfile, -⟩ := hsnap.same hmade.occurs hocc hid
    obtain ⟨call', hcall', hchunks, hsame⟩ := call_congr cs hstat hfile hcall
    rcases forall₂_getElem? htables i with ⟨hnone, -⟩ | ⟨o', inode', ho', hinode', htable⟩
    · rw [ho] at hnone
      cases hnone
    cases ho.symm.trans ho'
    cases hinode.symm.trans hinode'
    rw [hcall'] at htable
    generalize htab : inode.data.table = table at htable
    cases htable with
    | some hrel =>
      obtain ⟨hlen, rfl⟩ := hrel
      refine ⟨i, inode, ⟨o, ho, hid, hfirst⟩, hinode, hchunks ▸ htab, ?_, ?_⟩
      · rw [← hchunks, BlobWriter.FileCall.chunks, length_chunksOf, hlen, hsame]
      · rw [← hchunks]
        intro c hc
        refine hstore.extent (mem_putAll (List.mem_flatMap.mpr ⟨call', ?_, hc⟩) _)
        exact List.mem_filterMap.mpr ⟨o, List.mem_of_getElem? ho, hcall'⟩
  · have hzero : w₀.accounted = 0 := by
      cases hnew
      rfl
    have haccount := BlobWriter.writeCalls_accounted (hsize.symm ▸ hcs) hfed.run
    rw [hzero, Nat.zero_add, hsize] at haccount
    exact haccount

/-! ## A file with two names and a link to it -/

def helloFile (path : String) : Source :=
  { plainFile 3 with
      path, stat := .ok { statOf 0o100644 3 with nlink := 2, size := 5 }
      file := .ok [104, 101, 108, 108, 111] }

def helloLink : Source :=
  { plainFile 4 with
      path := "src/l", stat := .ok { statOf 0o120777 4 with size := 1 }, xattrs := none
      file := osError 40, link := .ok [97] }

/-- BLAKE3 where it is asked: the digest is that of the data of the file. -/
def helloHash : List UInt8 → Digest := fun _ =>
  #v[234, 143, 22, 61, 179, 134, 130, 146, 94, 68, 145, 197, 229, 141, 75, 179, 80, 110, 248, 193,
    78, 183, 138, 134, 233, 8, 197, 98, 74, 103, 32, 15]

/-- The file is `a` and `b`, and `l` is a link to `a`. -/
def helloTree : Source :=
  filesDir [([108], helloLink), ([98], helloFile "src/b"), ([97], helloFile "src/a")]

theorem occurs_helloTree {p : List Nat} {node : Source} (h : Occurs helloTree p node) :
    node = helloTree ∨ node = helloLink ∨ ∃ path, node = helloFile path := by
  refine h.closed (P := fun node => node = helloTree ∨ node = helloLink ∨
    ∃ path, node = helloFile path) (.inl rfl) ?_
  rintro dir (rfl | rfl | ⟨path, rfl⟩) hdir e he
  · simp only [helloTree, filesDir, List.mem_cons, List.not_mem_nil, or_false] at he
    rcases he with rfl | rfl | rfl
    · exact .inr (.inl rfl)
    · exact .inr (.inr ⟨_, rfl⟩)
    · exact .inr (.inr ⟨_, rfl⟩)
  · cases he
  · cases he

theorem answers_helloTree : NoIoError helloTree := by
  intro p node h
  rcases occurs_helloTree h with rfl | rfl | ⟨path, rfl⟩
  · exact ⟨_, rfl, fun _ => ⟨rfl, rfl⟩, fun h => absurd h (by decide), fun h => absurd h (by decide)⟩
  · exact ⟨_, rfl, fun h => absurd h (by decide), fun h => absurd h (by decide), fun _ => ⟨_, rfl⟩⟩
  · exact ⟨_, rfl, fun h => absurd h (by decide), fun _ => ⟨_, rfl, rfl⟩,
      fun h => absurd h (by decide)⟩

theorem snapshot_helloTree : Snapshot helloTree where
  static := by
    have hstat : ∀ p node stat, Occurs helloTree p node → node.stat = .ok stat →
        stat = statOf 0o040755 1 ∨ stat = { statOf 0o120777 4 with size := 1 } ∨
          stat = { statOf 0o100644 3 with nlink := 2, size := 5 } := by
      intro p node stat hocc hs
      rcases occurs_helloTree hocc with rfl | rfl | ⟨path, rfl⟩ <;> cases hs
      · exact .inl rfl
      · exact .inr (.inl rfl)
      · exact .inr (.inr rfl)
    intro p a q b stat stat' ha hb hs hs' hkey
    rcases hstat p a stat ha hs with rfl | rfl | rfl <;>
      rcases hstat q b stat' hb hs' with rfl | rfl | rfl
    all_goals first
      | rfl
      | exact absurd hkey (by decide)
  alike := by
    have hlinked : ∀ p node stat, Occurs helloTree p node → node.stat = .ok stat →
        stat.isHardlinked = true → ∃ path, node = helloFile path := by
      intro p node stat hocc hs hmany
      rcases occurs_helloTree hocc with rfl | rfl | hfile
      · cases hs
        exact absurd hmany (by decide)
      · cases hs
        exact absurd hmany (by decide)
      · exact hfile
    rintro p a q b ha hb ⟨stat, stat', hs, hs', hmany, hmany', -⟩
    obtain ⟨_, rfl⟩ := hlinked p a stat ha hs hmany
    obtain ⟨_, rfl⟩ := hlinked q b stat' hb hs' hmany'
    exact ⟨rfl, rfl, rfl⟩

/-- All chunks are that of the one file. -/
theorem digestsDiffer_helloTree (hash : List UInt8 → Digest) :
    TreeDigestsDiffer hash 4096 helloTree := by
  have hone : ∀ p node, Occurs helloTree p node → ∀ c ∈ node.chunks 4096,
      c = [104, 101, 108, 108, 111] := by
    intro p node hocc c hc
    rcases occurs_helloTree hocc with rfl | rfl | ⟨path, rfl⟩
    · cases hc
    · cases hc
    · have hchunks : (helloFile path).chunks 4096 = (helloFile "").chunks 4096 := rfl
      rw [hchunks] at hc
      revert c
      decide
  intro p a q b ha hb c hc d hd _
  rw [hone p a ha c hc, hone q b hb d hd]

theorem total_helloTree (f : Source → Nat) : helloTree.total f =
    f helloTree + (f helloLink + (f (helloFile "src/b") + f (helloFile "src/a"))) := by
  have hleaf : ∀ leaf : Source, leaf.isDir = false → leaf.total f = f leaf := by
    intro leaf hleaf
    rw [Source.total_entries, hleaf, if_neg Bool.false_ne_true, Nat.add_zero]
  rw [Source.total_entries, if_pos (by decide)]
  have hfile : ∀ path, (helloFile path).isDir = false := fun _ =>
    show ((0o100644 : UInt32) &&& 0o170000 == 0o040000) = false by decide
  simp [helloTree, filesDir, hleaf _ (hfile _), hleaf helloLink (by decide)]

theorem buildTree_blob_helloTree : ∃ w₀ inodes w os store,
    BlobWriter.new (.ok ⟨[], 8192⟩) "blob" 4096 = .ok w₀ ∧
      buildTree helloHash helloTree w₀ = .ok (inodes, w) ∧
      TreeBlob helloTree 4096 os inodes w store := by
  obtain ⟨inodes, w, h⟩ := buildTree_returns helloHash
    (w := { emptyBlob with file := ⟨[], 8192⟩ }) answers_helloTree
    (by rw [total_helloTree]; decide) (show 0 < emptyBlob.chunksize by decide)
    (by rw [total_helloTree]; exact ⟨by decide, by decide, by decide⟩)
  have hnew : BlobWriter.new (.ok ⟨[], 8192⟩) "blob" 4096 =
      .ok { emptyBlob with file := ⟨[], 8192⟩ } := rfl
  obtain ⟨os, store, -, hblob⟩ := buildTree_blob rfl (by decide) hnew h (by decide)
    snapshot_helloTree (digestsDiffer_helloTree _)
  exact ⟨_, inodes, w, os, store, rfl, h, hblob⟩

end ErofsUtils.Build
