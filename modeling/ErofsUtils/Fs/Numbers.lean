import ErofsUtils.Fs.DirHandle
import ErofsUtils.Fs.Directory
import ErofsUtils.Fs.Images
import ErofsUtils.Fs.Logical

/-! # Inode numbers

Number 1 stands for the root, whatever its NID, and every other inode has its NID plus one
for a number. NID 0 therefore gets number 1 as well, and stands for the root unless it is
the root's NID. -/
namespace ErofsUtils.Fs
open ErofsUtils.Rust ErofsUtils.Bytes ErofsUtils.Metadata

/-! ## Whatever callback reads a directory -/

theorem runScan_findName (target : List UInt8) (es : List CachedDirEntry) (s : Option Nat) :
    Prod.fst <$> runScan (ErofsFs.findName target) none es s =
      .ok ((es.find? fun e => e.name = target).map CachedDirEntry.nid <|> s) := by
  induction es with
  | nil => rfl
  | cons e es ih =>
    rw [runScan, List.find?_cons]
    dsimp only [ErofsFs.findName]
    by_cases h : e.name = target
    · simp [h]
    · simp only [h, decide_false, if_false]
      exact ih

variable {r : ErofsReader} {nid : Nat} {v : ErofsInode} {es : List CachedDirEntry} {σ : Type}

/-- Bytes from which all entries are collected hand them to any callback. -/
theorem parseDirEntries_of_collected {data : List UInt8}
    (h : parseDirEntries data data.length ErofsReader.collect 0 [] = .ok es)
    (cb : DirCallback σ) (s : σ) :
    parseDirEntries data data.length cb 0 s = runCallback cb es s := by
  have hsafe : BlocksSafe data := by
    rw [parseDirEntries_zero] at h
    exact (blocksSafe_iff data).mpr (noPanic_runBlocks_collect (by rw [h]; exact noPanic_ok es))
  rw [parseDirEntries_of_safe hsafe, runCallback, runScan_collect, List.nil_append] at h
  cases h
  exact parseDirEntries_of_safe hsafe cb s

namespace ErofsReader

/-- A directory whose entries can be cached hands them to any callback. -/
theorem forEachDirEntry_of_cached (h : r.readDirCached nid v = .ok es) (cb : DirCallback σ)
    (s : σ) : r.forEachDirEntry nid v cb s = runCallback cb es s := by
  have hsize := v.size.toNat_lt
  unfold readDirCached forEachDirEntry at h
  unfold forEachDirEntry
  dsimp only at h ⊢
  split at h
  · rename_i h0
    cases h
    rw [if_pos h0]
    rfl
  rename_i h0
  rw [if_neg h0]
  cases hread : r.readFlatData nid v 0 v.size.toNat with
  | ok data =>
    rw [hread] at h
    dsimp only at h ⊢
    rw [← length_readFlatData hread] at h ⊢
    exact parseDirEntries_of_collected h cb s
  | error e =>
    rw [hread] at h
    cases e with
    | panic p => cases h
    | fail e =>
      dsimp only at h ⊢
      obtain ⟨data, hvec, h⟩ := bind_eq_ok.mp h
      rw [hvec, bind_ok]
      rw [← length_flatBytes (by omega) (flatBytes_of_vec hvec)] at h ⊢
      exact parseDirEntries_of_collected h cb s

end ErofsReader

namespace ErofsFs
variable {fs : ErofsFs} {ino : Nat} {e : CachedDirEntry}

theorem toNid_root (fs : ErofsFs) : fs.toNid fuseRootId = .ok fs.reader.sb.rootNid := if_pos rfl

/-- The number of an inode below 2^59. -/
theorem toIno_eq (fs : ErofsFs) (h : nid < 2 ^ 59) :
    fs.toIno nid = .ok (if nid = fs.reader.sb.rootNid then fuseRootId else nid + fuseRootId) := by
  unfold toIno
  split
  · rfl
  · exact checkedAdd_ok (by rw [fuseRootId]; omega)

theorem toNid_toIno (h : nid < 2 ^ 59) (hzero : fs.reader.sb.rootNid = 0 ∨ nid ≠ 0)
    (hino : fs.toIno nid = .ok ino) : fs.toNid ino = .ok nid := by
  rw [toIno_eq fs h, Except.ok.injEq] at hino
  subst hino
  unfold toNid
  by_cases hroot : nid = fs.reader.sb.rootNid
  · rw [if_pos hroot, if_pos rfl, hroot]
    rfl
  · rw [if_neg hroot, if_neg (by rw [fuseRootId]; omega), checkedSub_ok (Nat.le_add_left _ _),
      Nat.add_sub_cancel]

/-- NID 0 has the number of the root. -/
theorem toIno_zero (fs : ErofsFs) : fs.toIno 0 = .ok fuseRootId := by
  rw [toIno_eq fs (by decide)]
  split <;> rfl

/-! ## What each call reports and acts on -/

theorem inode_of_makeEntry {entry : Entry} (h : fs.makeEntry nid v = .ok entry) :
    fs.toIno nid = .ok entry.inode := by
  simp only [makeEntry, bind_eq_ok, pure_eq_ok, Except.ok.injEq] at h
  obtain ⟨ino, hino, _, -, rfl⟩ := h
  exact hino

theorem ino_of_dirEntry {idx : Nat} {d : FuseDirEntry} (h : fs.dirEntry idx e = .ok d) :
    fs.toIno e.nid = .ok d.ino := by
  simp only [dirEntry, bind_eq_ok, pure_eq_ok, Except.ok.injEq] at h
  obtain ⟨ino, hino, rfl⟩ := h
  exact hino

theorem ino_of_dirEntryPlus {idx : Nat} {d : FuseDirEntry} {entry : Entry}
    (h : fs.dirEntryPlus idx e = .ok (d, entry)) :
    fs.toIno e.nid = .ok d.ino ∧ fs.toIno e.nid = .ok entry.inode := by
  obtain ⟨vi, -, h⟩ := bind_eq_ok.mp h
  obtain ⟨entry', hentry, h⟩ := bind_eq_ok.mp h
  obtain ⟨d', hd, h⟩ := bind_eq_ok.mp h
  cases h
  exact ⟨ino_of_dirEntry hd, inode_of_makeEntry hentry⟩

/-- Each call on the number acts on the inode. -/
structure ActsOn (fs : ErofsFs) (ino nid : Nat) : Prop where
  getattr : fs.getattr ino = do
    let vi ← fs.reader.inode nid
    let st ← fs.makeStat nid vi
    pure (st, erofsFuseTimeout)
  read : ∀ size offset, fs.read ino size offset = do
    let vi ← fs.reader.inode nid
    fs.reader.writeFileDataTo nid vi offset size
  readlink : fs.readlink ino = do
    let vi ← fs.reader.inode nid
    fs.reader.readSymlink nid vi
  opendir : ∀ st, fs.opendir st ino = do
    let vi ← fs.reader.inode nid
    if vi.mode.toUInt32 &&& sIfmt ≠ sIfdir then osError enotdir
    else do
      let vi ← fs.reader.inode nid
      let entries ← fs.reader.readDirCached nid vi
      pure (st.fetchAdd.1, st.fetchAdd.2.insert st.fetchAdd.1 { entries })
  getxattr : ∀ name size, fs.getxattr ino name size = do
    let vi ← fs.reader.inode nid
    let xattrs ← fs.reader.readXattrs nid vi
    getxattrReply name size xattrs
  listxattr : ∀ size, fs.listxattr ino size = do
    let vi ← fs.reader.inode nid
    let xattrs ← fs.reader.readXattrs nid vi
    let names := namesBuf xattrs
    if size = 0 then pure (.count (UInt32.ofNat names.length))
    else if size < names.length then osError erange
    else pure (.names names)

theorem actsOn (h : fs.toNid ino = .ok nid) : fs.ActsOn ino nid where
  getattr := by rw [ErofsFs.getattr, h, bind_ok]
  read size offset := by rw [ErofsFs.read, h, bind_ok]
  readlink := by rw [ErofsFs.readlink, h, bind_ok]
  opendir st := by
    simp only [ErofsFs.opendir, checkDir, createDirHandle, readDirEntries, h, bind_ok]
    cases fs.reader.inode nid with
    | error e => rfl
    | ok vi =>
      simp only [bind_ok]
      split
      · rfl
      · rw [pure_eq_ok, bind_ok]
  getxattr name size := by rw [ErofsFs.getxattr, h, bind_ok]
  listxattr size := by rw [ErofsFs.listxattr, h, bind_ok]

theorem lookup_of_cached {parent : Nat} {name : List UInt8} {entry : Entry}
    (hread : fs.readDirEntries parent = .ok es) (h : fs.lookup parent name = .ok entry) :
    ∃ e, es.find? (fun e => e.name = name) = some e ∧ fs.toIno e.nid = .ok entry.inode := by
  simp only [readDirEntries, bind_eq_ok] at hread
  obtain ⟨nid, hnid, vi, hvi, hcached⟩ := hread
  have hscan : fs.reader.forEachDirEntry nid vi (findName name) none =
      .ok ((es.find? fun e => e.name = name).map CachedDirEntry.nid) := by
    rw [ErofsReader.forEachDirEntry_of_cached hcached, runCallback, runScan_findName]
    cases es.find? fun e => e.name = name <;> rfl
  rw [lookup, iterateDir, hnid, bind_ok, hvi, bind_ok, hscan, bind_ok] at h
  cases hfind : es.find? fun e => e.name = name with
  | none =>
    rw [hfind] at h
    cases h
  | some e =>
    rw [hfind] at h
    obtain ⟨vi, -, h⟩ := bind_eq_ok.mp h
    exact ⟨e, rfl, inode_of_makeEntry h⟩

/-- The numbers of the entries lead back to their inodes and tell them apart, every call
reports the same number for an entry, and the calls on it act on the inode of the entry. -/
structure NumbersIdentify (fs : ErofsFs) (entries : List CachedDirEntry) : Prop where
  roundTrip : ∀ e ∈ entries, ∃ ino, fs.toIno e.nid = .ok ino ∧ fs.toNid ino = .ok e.nid ∧
    fs.ActsOn ino e.nid
  injective : ∀ e ∈ entries, ∀ e' ∈ entries, fs.toIno e.nid = fs.toIno e'.nid → e.nid = e'.nid
  readdir : ∀ e ∈ entries, ∀ idx d, fs.dirEntry idx e = .ok d → fs.toIno e.nid = .ok d.ino
  readdirplus : ∀ e ∈ entries, ∀ idx d entry, fs.dirEntryPlus idx e = .ok (d, entry) →
    fs.toIno e.nid = .ok d.ino ∧ entry.inode = d.ino
  lookup : ∀ parent es, fs.readDirEntries parent = .ok es → ∀ name entry,
    fs.lookup parent name = .ok entry →
      ∃ e, es.find? (fun e => e.name = name) = some e ∧ fs.toIno e.nid = .ok entry.inode

/-- **Inode numbers identify inodes** exactly where the root has NID 0 or no entry has. -/
theorem numbersIdentify_iff (fs : ErofsFs) {entries : List CachedDirEntry}
    (hlt : ∀ e ∈ entries, e.nid < 2 ^ 59) :
    NumbersIdentify fs entries ↔ fs.reader.sb.rootNid = 0 ∨ ∀ e ∈ entries, e.nid ≠ 0 := by
  constructor
  · intro h
    by_contra hcon
    obtain ⟨hroot, hzero⟩ := not_or.mp hcon
    push Not at hzero
    obtain ⟨e, he, h0⟩ := hzero
    obtain ⟨ino, hino, hback, -⟩ := h.roundTrip e he
    rw [h0, toIno_zero, Except.ok.injEq] at hino
    subst hino
    rw [toNid_root, h0, Except.ok.injEq] at hback
    exact hroot hback
  · intro h
    have hback : ∀ e ∈ entries, ∀ ino, fs.toIno e.nid = .ok ino → fs.toNid ino = .ok e.nid :=
      fun e he ino => toNid_toIno (hlt e he) (h.imp_right fun hne => hne e he)
    refine ⟨fun e he => ?_, fun e he e' he' heq => ?_, fun e _ idx d hd => ?_,
      fun e _ idx d entry hd => ?_, fun parent es hread name entry => lookup_of_cached hread⟩
    · have hino := toIno_eq fs (hlt e he)
      exact ⟨_, hino, hback e he _ hino, actsOn (hback e he _ hino)⟩
    · have hino := toIno_eq fs (hlt e he)
      have hnid := hback e he _ hino
      rw [hback e' he' _ (heq ▸ hino), Except.ok.injEq] at hnid
      exact hnid.symm
    · exact ino_of_dirEntry hd
    · obtain ⟨hdino, hentry⟩ := ino_of_dirEntryPlus hd
      rw [hdino, Except.ok.injEq] at hentry
      exact ⟨hdino, hentry.symm⟩

/-- The metadata starts with a file, NID 0, and goes on with the root, NID 1, which lists it. -/
def firstSlotTail : List UInt8 :=
  List.replicate 2944 0 ++ ErofsInodeCompact.asBytes (.new 0 0o100644 0 0 0 0 1 0 0) ++
    ErofsInodeCompact.asBytes (.new 4 0o040755 0 40 0 0 2 0 0) ++
    ErofsDirent.asBytes (.new 1 36 erofsFtDir) ++ ErofsDirent.asBytes (.new 1 37 erofsFtDir) ++
    ErofsDirent.asBytes (.new 0 39 erofsFtRegFile) ++ [46, 46, 46, 97]

theorem length_firstSlotTail : firstSlotTail.length = 3048 := by
  simp only [firstSlotTail, List.length_append, List.length_replicate,
    ErofsInodeCompact.length_asBytes, ErofsDirent.length_asBytes, List.length_cons, List.length_nil]

def firstSlotSb : ErofsSuperblock :=
  { magic := erofsSuperMagicV1, blkszbits := 12, rootnid2b := 1, inos := 2, metaBlkaddr := 1 }

def firstSlotFs : ErofsFs where
  reader := imageReader firstSlotSb firstSlotTail none (by rw [length_firstSlotTail]; decide)

theorem firstSlotFs_root : firstSlotFs.readDirEntries 1 =
    .ok [⟨1, erofsFtDir, [46]⟩, ⟨1, erofsFtDir, [46, 46]⟩, ⟨0, erofsFtRegFile, [97]⟩] := by
  decide +kernel

/-- The file gets the number of the root. -/
theorem not_numbersIdentify_firstSlot : ¬ ∀ (image : Mmap) (blob : Option Mmap) (r : ErofsReader)
    (dir : Nat) (entries : List CachedDirEntry),
    ErofsReader.openImage (.ok image) (blob.map .ok) = .ok r →
    (⟨r⟩ : ErofsFs).readDirEntries dir = .ok entries → (∀ e ∈ entries, e.nid < 2 ^ 59) →
    NumbersIdentify ⟨r⟩ entries := by
  intro h
  have hlen : firstSlotTail.length < 2 ^ 62 := by rw [length_firstSlotTail]; decide
  have hopen := @openImage_imageReader firstSlotSb firstSlotTail none rfl hlen
  have hsb : firstSlotFs.reader.sb = firstSlotSb := imageReader_sb hlen
  have hid := h _ none firstSlotFs.reader 1 _ hopen firstSlotFs_root (by simp)
  obtain ⟨ino, hino, hback, -⟩ := hid.roundTrip ⟨0, erofsFtRegFile, [97]⟩ (by simp)
  rw [toIno_zero, Except.ok.injEq] at hino
  subst hino
  rw [toNid_root, Except.ok.injEq] at hback
  rw [show (⟨firstSlotFs.reader⟩ : ErofsFs).reader.sb = firstSlotSb from hsb] at hback
  cases hback

/-- The metadata has the root for NID 1. It lists a file, NID 4, whose bytes stand in block 1. -/
def flatFileTail : List UInt8 :=
  List.replicate 2944 0 ++ [97, 98, 99] ++ List.replicate 29 0 ++
    ErofsInodeCompact.asBytes (.new 4 0o040755 0 40 0 0 2 0 0) ++
    ErofsDirent.asBytes (.new 1 36 erofsFtDir) ++ ErofsDirent.asBytes (.new 1 37 erofsFtDir) ++
    ErofsDirent.asBytes (.new 4 39 erofsFtRegFile) ++ [46, 46, 46, 97] ++ List.replicate 24 0 ++
    ErofsInodeCompact.asBytes (.new 0 0o100644 0 3 0 1 1 0 0) ++ List.replicate 32 0

theorem length_flatFileTail : flatFileTail.length = 3136 := by
  simp only [flatFileTail, List.length_append, List.length_replicate,
    ErofsInodeCompact.length_asBytes, ErofsDirent.length_asBytes, List.length_cons, List.length_nil]

def flatFileFs : ErofsFs where
  reader := imageReader firstSlotSb flatFileTail none (by rw [length_flatFileTail]; decide)

theorem flatFileFs_sb : flatFileFs.reader.sb = firstSlotSb :=
  imageReader_sb (by rw [length_flatFileTail]; decide)

def flatFileEntries : List CachedDirEntry :=
  [⟨1, erofsFtDir, [46]⟩, ⟨1, erofsFtDir, [46, 46]⟩, ⟨4, erofsFtRegFile, [97]⟩]

theorem flatFileFs_root : flatFileFs.readDirEntries 1 = .ok flatFileEntries := by decide +kernel

theorem numbersIdentify_iff_flatFile : NumbersIdentify flatFileFs flatFileEntries :=
  (numbersIdentify_iff flatFileFs (by decide)).mpr (.inr (by decide))

end ErofsFs
end ErofsUtils.Fs
