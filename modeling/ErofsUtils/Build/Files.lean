import ErofsUtils.Build.BlobRun
import ErofsUtils.Build.Walk

/-! # The files of a tree go to the blob

The walk hands each regular file to the blob writer when it makes its inode, and touches the
writer nowhere else. So a build is one run of the writer over the files at the places where
inodes were made, in the order of the inodes. -/
namespace ErofsUtils.Build
open ErofsUtils.Rust ErofsUtils.Bytes ErofsUtils.Metadata ErofsUtils.Store
open BlobWriter (FileCall callChunks writeCalls writeFileChunks)

variable {hash : List UInt8 → Digest} {root source : Source} {st st' : TreeState}
  {os : List (List Nat × Source)} {inodes : List InodeInfo} {w w' : BlobWriter}

/-- The call that writes the data of a path: regular files have one. -/
def Source.call (source : Source) : Option FileCall :=
  match source.stat with
  | .ok stat =>
    if stat.isDir then none
    else if stat.isFile then some ⟨source.path, source.file, stat.size.toNat⟩
    else none
  | .error _ => none

/-- The calls of a walk over these places. -/
def callsAt (os : List (List Nat × Source)) : List FileCall := os.filterMap fun o => o.2.call

/-- The chunk table of a regular file. -/
def InodeData.table : InodeData → Option (List ChunkIndex)
  | .regularFile chunkIndexes => some chunkIndexes
  | _ => none

/-- The size and the data of an inode that was made from this metadata. -/
inductive DataFor (source : Source) (stat : FileStat) : UInt64 → InodeData → Prop
  | directory {children : List DirEntry} (hdir : stat.isDir = true) :
      DataFor source stat 0 (.directory children 0 0 0)
  | file {chunkIndexes : List ChunkIndex} (hdir : stat.isDir = false) (hfile : stat.isFile = true) :
      DataFor source stat stat.size (.regularFile chunkIndexes)
  | link {target : List UInt8} (hdir : stat.isDir = false) (hfile : stat.isFile = false)
      (hlink : stat.isSymlink = true) (htarget : source.link = .ok target) :
      DataFor source stat (UInt64.ofNat target.length) (.symlink target)
  | special {data : InodeData} (hdir : stat.isDir = false) (hfile : stat.isFile = false)
      (hlink : stat.isSymlink = false)
      (hdata : data = if stat.mode.toUInt16 &&& 0o170000 = 0o020000 ∨
          stat.mode.toUInt16 &&& 0o170000 = 0o060000 then .specialDev stat.rdev.toUInt32
        else .specialNoData) : DataFor source stat 0 data

/-- The inode has the metadata of the path and the data of its kind. -/
def InodeInfo.MadeFor (source : Source) (inode : InodeInfo) : Prop :=
  ∃ stat ino size data, source.stat = .ok stat ∧
    inode = stat.inode ino size data (readXattrsFromPath source.xattrs) ∧
      DataFor source stat size data

theorem InodeInfo.MadeFor.setChildren {inode : InodeInfo} (h : inode.MadeFor source)
    (children : List DirEntry) : (inode.setChildren children).MadeFor source := by
  obtain ⟨stat, ino, size, data, hstat, rfl, hdata⟩ := h
  cases hdata with
  | directory hdir => exact ⟨stat, ino, 0, _, hstat, rfl, .directory hdir⟩
  | file hdir hfile => exact ⟨stat, ino, _, _, hstat, rfl, .file hdir hfile⟩
  | link hdir hfile hlink htarget => exact ⟨stat, ino, _, _, hstat, rfl, .link hdir hfile hlink htarget⟩
  | special hdir hfile hlink hdata =>
    have hsame : (stat.inode ino 0 data (readXattrsFromPath source.xattrs)).setChildren children =
        stat.inode ino 0 data (readXattrsFromPath source.xattrs) := by
      rw [hdata]
      split <;> rfl
    exact ⟨stat, ino, 0, data, hstat, hsame, .special hdir hfile hlink hdata⟩

theorem table_setChildren (children : List DirEntry) (inode : InodeInfo) :
    (inode.setChildren children).data.table = inode.data.table := by
  unfold InodeInfo.setChildren
  cases hd : inode.data <;> simp [InodeData.table, hd]

/-- One more call at the end of a run. -/
theorem writeCalls_concat {calls : List FileCall} {call : FileCall} {tables : List (List ChunkIndex)}
    {cis : List ChunkIndex} {w₀ : BlobWriter} (hrun : writeCalls hash calls w₀ = .ok (tables, w))
    (hcall : writeFileChunks hash w call.path call.file call.fileSize = .ok (cis, w')) :
    writeCalls hash (calls ++ [call]) w₀ = .ok (tables ++ [cis], w') := by
  induction calls generalizing w₀ tables with
  | nil =>
    cases hrun
    rw [List.nil_append, writeCalls, hcall]
    rfl
  | cons c calls ih =>
    simp only [writeCalls, bind_eq_ok, pure_eq_ok, Except.ok.injEq, Prod.exists,
      Prod.mk.injEq] at hrun
    obtain ⟨cis', w₁, hfirst, tables', w₂, hrest, rfl, rfl⟩ := hrun
    rw [List.cons_append, writeCalls, hfirst, bind_ok]
    dsimp only
    rw [ih hrest]
    rfl

/-! ## What the walk keeps -/

/-- The run of the writer so far, and what each inode was made for. -/
structure Fed (hash : List UInt8 → Digest) (w₀ : BlobWriter) (os : List (List Nat × Source))
    (inodes : List InodeInfo) (w : BlobWriter) : Prop where
  run : writeCalls hash (callsAt os) w₀ =
    .ok (inodes.filterMap fun inode => inode.data.table, w)
  each : List.Forall₂ (fun o inode => inode.MadeFor o.2 ∧
    inode.data.table.isSome = o.2.call.isSome) os inodes

/-- What a leaf adds: its inode, and its file on the blob if it is one. -/
theorem buildTreeRecursive_leaf_data {stat : FileStat} {idx : Nat} (hstat : source.stat = .ok stat)
    (hdir : stat.isDir = false) (h : buildTreeRecursive hash source st = .ok (idx, st')) :
    ∃ inode, st'.inodes = st.inodes ++ [inode] ∧ inode.MadeFor source ∧
      ((∃ call cis, source.call = some call ∧ inode.data.table = some cis ∧
          writeFileChunks hash st.blobWriter call.path call.file call.fileSize =
            .ok (cis, st'.blobWriter)) ∨
        source.call = none ∧ inode.data.table = none ∧ st'.blobWriter = st.blobWriter) := by
  have hcall : source.call = if stat.isFile then
      some ⟨source.path, source.file, stat.size.toNat⟩ else none := by
    rw [Source.call, hstat]
    dsimp only
    rw [hdir, if_neg Bool.false_ne_true]
  rw [hcall]
  rw [buildTreeRecursive, hstat, withContext_ok, bind_ok] at h
  obtain ⟨ino, -, h⟩ := bind_eq_ok.mp h
  dsimp only at h
  rw [if_neg (by rw [hdir]; exact Bool.false_ne_true)] at h
  split at h
  · rename_i hfile
    obtain ⟨⟨cis, w⟩, hwrite, h⟩ := bind_eq_ok.mp h
    cases h
    rw [if_pos hfile]
    exact ⟨_, rfl, ⟨stat, _, _, _, hstat, rfl, .file hdir hfile⟩,
      .inl ⟨_, cis, rfl, rfl, hwrite⟩⟩
  rename_i hfile
  rw [if_neg hfile]
  have hfile := Bool.eq_false_iff.mpr hfile
  split at h
  · rename_i hlink
    obtain ⟨target, htarget, h⟩ := bind_eq_ok.mp h
    cases h
    exact ⟨_, rfl, ⟨stat, _, _, _, hstat, rfl,
      .link hdir hfile hlink (withContext_eq_ok.mp htarget)⟩, .inr ⟨rfl, rfl, rfl⟩⟩
  · rename_i hlink
    cases h
    refine ⟨_, rfl, ⟨stat, _, _, _, hstat, rfl, .special hdir hfile (Bool.eq_false_iff.mpr hlink) rfl⟩,
      .inr ⟨rfl, ?_, rfl⟩⟩
    show InodeData.table (if _ then _ else _) = none
    split <;> rfl

/-- Every step of the walk keeps the run. -/
theorem fed_walkInvariant (w₀ : BlobWriter) : WalkInvariant root hash (Fed hash w₀) where
  leaf := by
    intro os st p child stat idx st' hfed _ hstat hdir hrun
    obtain ⟨inode, hinodes, hmade, hwrite⟩ := buildTreeRecursive_leaf_data hstat hdir hrun
    rw [hinodes]
    rcases hwrite with ⟨call, cis, hcall, htable, hwrite⟩ | ⟨hcall, htable, hsame⟩
    · refine ⟨?_, List.rel_append hfed.each (.cons ⟨hmade, by rw [htable, hcall]; rfl⟩ .nil)⟩
      rw [callsAt, List.filterMap_append, List.filterMap_append]
      simp only [List.filterMap_cons, hcall, htable, List.filterMap_nil]
      exact writeCalls_concat hfed.run hwrite
    · refine ⟨?_, List.rel_append hfed.each (.cons ⟨hmade, by rw [htable, hcall]; rfl⟩ .nil)⟩
      rw [callsAt, List.filterMap_append, List.filterMap_append]
      simp only [List.filterMap_cons, hcall, htable, List.filterMap_nil, List.append_nil]
      rw [hsame]
      exact hfed.run
  dir := by
    intro os inodes w p dir inode hfed _ hdir hof hdata hsize
    have hcall : dir.call = none := by
      obtain ⟨stat, _, _, _, hstat, -⟩ := hof
      rw [Source.call, hstat]
      exact if_pos ((isDir_of_ok hstat).symm.trans hdir)
    have hmade : inode.MadeFor dir := by
      obtain ⟨stat, ino, size, data, hstat, rfl⟩ := hof
      cases hdata
      cases hsize
      exact ⟨stat, ino, 0, _, hstat, rfl, .directory ((isDir_of_ok hstat).symm.trans hdir)⟩
    have htable : inode.data.table = none := by rw [hdata]; rfl
    refine ⟨?_, List.rel_append hfed.each (.cons ⟨hmade, by rw [htable, hcall]; rfl⟩ .nil)⟩
    rw [callsAt, List.filterMap_append, List.filterMap_append]
    simp only [List.filterMap_cons, hcall, htable, List.filterMap_nil, List.append_nil]
    exact hfed.run
  children := by
    intro os inodes w hfed idx children
    have htables := congrArg (List.filterMap id)
      (map_modify_of_kept (g := fun inode => inode.data.table) (table_setChildren children) inodes idx)
    rw [List.filterMap_map, List.filterMap_map] at htables
    refine ⟨?_, forall₂_modify ?_ hfed.each idx⟩
    · rw [show ((inodes.modify idx (InodeInfo.setChildren children)).filterMap
        fun inode => inode.data.table) = inodes.filterMap fun inode => inode.data.table from htables]
      exact hfed.run
    · rintro o inode ⟨hmade, htable⟩
      exact ⟨hmade.setChildren children, by rw [table_setChildren, htable]⟩

/-- **A build is one run of the blob writer**, over the files at the places of its inodes. -/
theorem buildTree_fed (h : buildTree hash source w = .ok (inodes, w')) (hdir : source.isDir = true) :
    ∃ os, Complete source os inodes ∧ Fed hash w os inodes w' :=
  buildTree_kept (fed_walkInvariant w) ⟨rfl, .nil⟩ h hdir

/-! ## The store of a tree -/

/-- The chunks of a path's data. -/
def Source.chunks (cs : Nat) (source : Source) : List (List UInt8) :=
  match source.call with
  | some call => call.chunks cs
  | none => []

/-- Different chunks of files of the tree have different digests. -/
def TreeDigestsDiffer (hash : List UInt8 → Digest) (cs : Nat) (root : Source) : Prop :=
  ∀ p a q b, Occurs root p a → Occurs root q b → ∀ c ∈ a.chunks cs, ∀ d ∈ b.chunks cs,
    hash c = hash d → c = d

theorem mem_callChunks_callsAt {cs : Nat} {c : List UInt8} :
    c ∈ callChunks cs (callsAt os) ↔ ∃ o ∈ os, c ∈ o.2.chunks cs := by
  unfold BlobWriter.callChunks callsAt Source.chunks
  rw [List.mem_flatMap]
  constructor
  · rintro ⟨call, hcall, hc⟩
    obtain ⟨o, ho, hcall⟩ := List.mem_filterMap.mp hcall
    exact ⟨o, ho, by rw [hcall]; exact hc⟩
  · rintro ⟨o, ho, hc⟩
    split at hc
    · rename_i call hcall
      exact ⟨call, List.mem_filterMap.mpr ⟨o, ho, hcall⟩, hc⟩
    · cases hc

/-- The chunks that are written are chunks of the tree. -/
theorem Complete.digestsDiffer {cs : Nat} (h : Complete root os inodes)
    (hdiffer : TreeDigestsDiffer hash cs root) : DigestsDiffer hash (callChunks cs (callsAt os)) := by
  have hocc : ∀ o ∈ os, Occurs root o.1 o.2 := by
    intro o ho
    obtain ⟨i, hi⟩ := List.mem_iff_getElem?.mp ho
    obtain ⟨_, -, hmade⟩ := h.made_at hi
    exact hmade.occurs
  intro c hc d hd
  obtain ⟨a, ha, hca⟩ := mem_callChunks_callsAt.mp hc
  obtain ⟨b, hb, hdb⟩ := mem_callChunks_callsAt.mp hd
  exact hdiffer a.1 a.2 b.1 b.2 (hocc a ha) (hocc b hb) c hca d hdb

/-- The blob is the store of the tree's chunks, and each table the addresses of its file's. -/
theorem Fed.stored {cs : Nat} {w₀ : BlobWriter} (h : Fed hash w₀ os inodes w)
    (hh : BlobWriter.Holds hash w₀ []) (hsize : w₀.chunksize = cs) (hcs : 0 < cs)
    (hdiffer : DigestsDiffer hash (callChunks cs (callsAt os))) :
    BlobWriter.Holds hash w (putAll [] (callChunks cs (callsAt os))) ∧
      List.Forall₂ (fun o inode => Option.Rel (fun call cis => call.content.length = call.fileSize ∧
        cis = (call.chunks cs).map (storedIndex (putAll [] (callChunks cs (callsAt os)))))
          o.2.call inode.data.table) os inodes := by
  subst hsize
  obtain ⟨hh', htables⟩ := hh.writeCalls hcs hdiffer (by simp) (fun c hc => hc) h.run
  have hlen := BlobWriter.length_content hcs h.run
  refine ⟨hh', forall₂_of_filterMap (h.each.imp fun _ _ hab => hab.2) ?_⟩
  show List.Forall₂ _ (callsAt os) _
  rw [htables, List.forall₂_map_right_iff, List.forall₂_same]
  exact fun call hcall => ⟨hlen call hcall, rfl⟩

end ErofsUtils.Build
