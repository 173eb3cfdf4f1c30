import ErofsUtils.Build.LayOut
import ErofsUtils.Fs.Numbers
import ErofsUtils.Roundtrip.Directory
import ErofsUtils.Roundtrip.Inode

/-! # The directory tree survives the image

An inode list of the shape of a tree is laid out, written and opened again. Every inode is
found under its NID, every directory lists itself, its parent and its children, and a name
is looked up to the inode it was given for. -/
namespace ErofsUtils.Roundtrip
open ErofsUtils.Rust ErofsUtils.Bytes ErofsUtils.Metadata ErofsUtils.Build ErofsUtils.Fs

/-! ## Trees -/

/-- Directory `i` has an entry for inode `j`. -/
def ChildOf (inodes : List InodeInfo) (i j : Nat) : Prop :=
  ∃ dir, inodes[i]? = some dir ∧ ∃ de ∈ dir.data.children, de.inodeIdx = j

/-- Directory `i` is the parent of directory `j`; the root is its own. -/
def ParentOf (inodes : List InodeInfo) (i j : Nat) : Prop :=
  if j = 0 then i = 0 else ChildOf inodes i j

/-- An inode list of a source tree: the root directory first, every other directory the child
of exactly one, and entries that name inodes of the list. -/
structure TreeShape (inodes : List InodeInfo) : Prop where
  root : ∃ root, inodes[0]? = some root ∧ root.isDir = true
  entry : ∀ inode ∈ inodes, ∀ de ∈ inode.data.children, de.inodeIdx ≠ 0 ∧
    ∃ child, inodes[de.inodeIdx]? = some child ∧ de.fileType = modeToFileType child.mode
  kind : ∀ inode ∈ inodes, inode.isDir = true ↔ modeToFileType inode.mode = erofsFtDir
  parent : ∀ j dir, j ≠ 0 → inodes[j]? = some dir → dir.isDir = true → ∃! i, ChildOf inodes i j
  distinct : ∀ inode ∈ inodes, (inode.data.children.map DirEntry.name).Nodup
  name : ∀ inode ∈ inodes, ∀ de ∈ inode.data.children,
    de.name ≠ dot ∧ de.name ≠ dotdot ∧ de.name ≠ [] ∧ (0 : UInt8) ∉ de.name ∧ de.name.length ≤ 765
  size : ∀ inode ∈ inodes, inode.size.toNat < 2 ^ 63
  dirSize : ∀ inode ∈ inodes, ∀ (nids : Nat → Nat) (selfNid parentNid : Nat) (data : List UInt8),
    serializeDirectory (inode.data.children.map fun de =>
      { name := de.name, nid := nids de.inodeIdx, fileType := de.fileType }) selfNid parentNid =
        .ok data → data.length < 2 ^ 32
  xattrs : ∀ inode ∈ inodes, CountFits inode

/-- The entries a reader sees in directory `i`. -/
def seenEntries (placed : List InodeInfo) (i parent : Nat) (des : List DirEntry) :
    List CachedDirEntry :=
  { nid := nidAt placed i, fileType := erofsFtDir, name := dot } ::
    { nid := nidAt placed parent, fileType := erofsFtDir, name := dotdot } ::
    des.map fun de => { nid := nidAt placed de.inodeIdx, fileType := de.fileType, name := de.name }

/-- A lookup of `name` in directory `i` answers with inode `j`. -/
def LooksUp (fs : ErofsFs) (placed : List InodeInfo) (i : Nat) (name : List UInt8) (j : Nat) : Prop :=
  ∃ ino entry, fs.toIno (nidAt placed i) = .ok ino ∧ fs.lookup ino name = .ok entry ∧
    fs.toIno (nidAt placed j) = .ok entry.inode ∧ fs.toNid entry.inode = .ok (nidAt placed j)

/-- What a reader finds of the tree. -/
structure TreeSurvives (r : ErofsReader) (inodes placed : List InodeInfo) : Prop where
  inode : ∀ i < inodes.length, ∃ v, r.inode (nidAt placed i) = .ok v
  dir : ∀ i dir, inodes[i]? = some dir → dir.isDir = true → ∃ parent v,
    ParentOf inodes parent i ∧ r.inode (nidAt placed i) = .ok v ∧
      ∀ (σ : Type) (cb : DirCallback σ) (s : σ), r.forEachDirEntry (nidAt placed i) v cb s =
        runCallback cb (seenEntries placed i parent dir.data.children) s
  found : ∀ i dir, inodes[i]? = some dir → dir.isDir = true → ∀ de ∈ dir.data.children,
    LooksUp ⟨r⟩ placed i de.name de.inodeIdx
  missing : ∀ i dir, inodes[i]? = some dir → dir.isDir = true → ∀ name, name ≠ dot →
    name ≠ dotdot → (∀ de ∈ dir.data.children, de.name ≠ name) →
      ∃ ino, (⟨r⟩ : ErofsFs).toIno (nidAt placed i) = .ok ino ∧
        (⟨r⟩ : ErofsFs).lookup ino name = osError enoent

/-! ## Looking up a name -/

theorem find?_name {es : List CachedDirEntry} (h : (es.map CachedDirEntry.name).Nodup)
    {e : CachedDirEntry} (he : e ∈ es) : (es.find? fun x => x.name = e.name) = some e := by
  induction es with
  | nil => cases he
  | cons x es ih =>
    obtain ⟨hx, hes⟩ := List.nodup_cons.mp h
    rw [List.find?_cons]
    rcases List.mem_cons.mp he with rfl | he
    · simp
    · have hne : x.name ≠ e.name := fun hxe => hx (hxe ▸ List.mem_map.mpr ⟨e, he, rfl⟩)
      simp only [hne, decide_false]
      exact ih hes he

/-- The names a directory lists are distinct. -/
theorem TreeShape.seen_nodup {inodes : List InodeInfo} (h : TreeShape inodes) {dir : InodeInfo}
    (hdir : dir ∈ inodes) (placed : List InodeInfo) (i parent : Nat) :
    ((seenEntries placed i parent dir.data.children).map CachedDirEntry.name).Nodup := by
  have hnames : (seenEntries placed i parent dir.data.children).map CachedDirEntry.name =
      dot :: dotdot :: dir.data.children.map DirEntry.name := by
    simp only [seenEntries, List.map_cons, List.map_map]
    rfl
  have hdots : dot ≠ dotdot := by decide
  rw [hnames, List.nodup_cons, List.nodup_cons]
  refine ⟨?_, ?_, h.distinct dir hdir⟩
  · intro hmem
    rcases List.mem_cons.mp hmem with he | hmem
    · exact hdots he
    · obtain ⟨de, hde, he⟩ := List.mem_map.mp hmem
      exact (h.name dir hdir de hde).1 he
  · intro hmem
    obtain ⟨de, hde, he⟩ := List.mem_map.mp hmem
    exact (h.name dir hdir de hde).2.1 he

/-! ## Opened trees -/

variable {inodes placed : List InodeInfo} {buf : List UInt8} {epoch : UInt64} {chunkbits : Nat}
  {r : ErofsReader} {rootNid : UInt16}

theorem toIno_ok (fs : ErofsFs) (hroot : fs.reader.sb.rootNid = 0) {nid : Nat} (h : nid < 2 ^ 55) :
    fs.toIno nid = .ok (nid + 1) ∧ fs.toNid (nid + 1) = .ok nid := by
  unfold ErofsFs.toIno ErofsFs.toNid
  rw [hroot]
  by_cases hz : nid = 0
  · subst hz
    exact ⟨rfl, rfl⟩
  · rw [if_neg hz, if_neg (by rw [fuseRootId]; omega), checkedAdd_ok (by rw [fuseRootId]; omega),
      checkedSub_ok (by rw [fuseRootId]; omega)]
    exact ⟨rfl, rfl⟩

/-- The reader answers for an inode of usual size and time. -/
theorem makeEntry_ok (fs : ErofsFs) (hroot : fs.reader.sb.rootNid = 0)
    (hbits : fs.reader.sb.blkszbits = erofsBlkszbits) {nid : Nat} (h : nid < 2 ^ 55) {v : ErofsInode}
    (hmtime : ∃ t, v.mtime fs.reader.sb.epoch = .ok t) (hsize : v.size.toNat < 2 ^ 63) :
    ∃ entry, fs.makeEntry nid v = .ok entry ∧ entry.inode = nid + 1 := by
  obtain ⟨t, ht⟩ := hmtime
  have hino := (toIno_ok fs hroot h).1
  have hshl : (checkedShl 64 fs.reader.sb.blkszbits.toNat : IoResult Nat) = .ok 4096 := by
    rw [hbits]
    rfl
  have hstat : ∃ st, fs.makeStat nid v = .ok st := by
    unfold ErofsFs.makeStat
    rw [hino, bind_ok]
    dsimp only
    rw [hshl, bind_ok, ht, bind_ok, checkedAdd_ok (by omega), bind_ok, checkedSub_ok (by omega), bind_ok]
    exact ⟨_, rfl⟩
  obtain ⟨st, hst⟩ := hstat
  exact ⟨_, by rw [ErofsFs.makeEntry, hino, bind_ok, hst, bind_ok]; rfl, rfl⟩

/-- The reader parses the data of a directory where its inode says it stands. -/
theorem forEachDirEntry_stored (hop : Opened r buf rootNid epoch) (hbuf : 4096 + buf.length ≤ 2 ^ 60)
    {p : InodeInfo} {children : List DirEntry} {parentNid off : Nat} {data : List UInt8}
    (hd : p.data = .directory children (1 + off / 4096) data.length parentNid)
    (hsize : p.size = UInt64.ofNat data.length) (hpos : 0 < data.length)
    (hlt : data.length < 2 ^ 32) (hdvd : 4096 ∣ off) (hle : off + data.length ≤ buf.length)
    (hwin : window buf off data.length = data) (nid : Nat) {σ : Type} (cb : DirCallback σ) (s : σ) :
    r.forEachDirEntry nid (inodeView p epoch chunkbits) cb s =
      parseDirEntries data data.length cb 0 s := by
  have hsizeNat : p.size.toNat = data.length := by
    rw [hsize]
    exact UInt64.toNat_ofNat_of_lt' (show data.length < 2 ^ 64 by omega)
  have hview : (inodeView p epoch chunkbits).size.toNat = data.length := by
    rw [size_inodeView (.inr (by omega)) epoch chunkbits (.inr (.inl ⟨_, _, _, _, hd⟩)), hsizeNat]
  have hstart : (inodeView p epoch chunkbits).startblk = 1 + off / 4096 :=
    startblk_inodeView hd epoch chunkbits (by omega)
  have hbs : erofsBlockSize = 4096 := rfl
  have hoff : (1 + off / 4096) * 4096 = 4096 + off := by
    rw [Nat.add_mul, Nat.div_mul_cancel hdvd]
  have hlayout : (inodeView p epoch chunkbits).dataLayout = erofsInodeFlatPlain := by
    rw [dataLayout_inodeView, hd]
    rfl
  have hslice : r.mmapSlice (4096 + off) data.length = .ok data := by
    have hfits := hop.fits
    have hwide : window (window r.mmap.bytes 4096 buf.length) off data.length =
        window r.mmap.bytes (4096 + off) data.length := window_window hle
    refine ErofsReader.mmapSlice_eq_ok.mpr ⟨by omega, ?_⟩
    rw [← hwide, hop.area, hwin]
  have hread : r.readFlatData nid (inodeView p epoch chunkbits) 0 data.length = .ok data := by
    unfold ErofsReader.readFlatData ErofsReader.blockOffset
    rw [if_pos hlayout, hstart, hbs, checkedMul_ok (by omega), hoff,
      bind_ok, checkedAdd_ok (by omega), bind_ok, Nat.add_zero, hslice]
  unfold ErofsReader.forEachDirEntry
  rw [hview]
  dsimp only
  rw [if_neg (by omega), hread]

/-- A tree laid out, written and opened. -/
structure OpenedTree (r : ErofsReader) (inodes placed : List InodeInfo) (buf : List UInt8)
    (epoch : UInt64) (chunkbits : Nat) : Prop where
  shape : TreeShape inodes
  laidOut : LaidOut inodes placed buf epoch chunkbits
  opened : Opened r buf 0 epoch
  bufLe : 4096 + buf.length ≤ 2 ^ 60
  epochLt : epoch.toNat < 2 ^ 63

section
variable (h : OpenedTree r inodes placed buf epoch chunkbits)
include h

theorem OpenedTree.nid_lt {i : Nat} {p : InodeInfo} (hp : placed[i]? = some p) :
    nidAt placed i < 2 ^ 55 := by
  have hroom := h.laidOut.room p (List.mem_of_getElem? hp)
  have hle := h.bufLe
  rw [nidAt_eq hp]
  omega

theorem OpenedTree.inode_ok {i : Nat} {p : InodeInfo} (hp : placed[i]? = some p) :
    r.inode (nidAt placed i) = .ok (inodeView p epoch chunkbits) := by
  have hmem := List.mem_of_getElem? hp
  have hstands := h.opened.standsAt (h.laidOut.inode p hmem) (inodeBytes_ne_nil p epoch chunkbits)
  have hroom := h.laidOut.room p hmem
  have hfits := h.opened.fits
  rw [nidAt_eq hp]
  refine Roundtrip.inode_ok hstands ?_
  rw [h.opened.slotOffset, erofsInodeExtendedSize]
  omega

/-- The NID a directory finds under `..`. -/
theorem OpenedTree.parent {i : Nat} {dir : InodeInfo} (hi : inodes[i]? = some dir)
    (hdir : dir.isDir = true) :
    ∃ parent q, ParentOf inodes parent i ∧ placed[parent]? = some q ∧
      (∀ u ∈ (0, 0) :: parentUpdates placed, u.1 = i → u.2 = nidAt placed parent) ∧
      ∃ u ∈ (0, 0) :: parentUpdates placed, u.1 = i := by
  have hkept := h.laidOut.kept
  by_cases h0 : i = 0
  · subst h0
    obtain ⟨q, hq, -⟩ := kept_getElem? hkept.symm hi
    refine ⟨0, q, by rw [ParentOf, if_pos rfl], hq, ?_, (0, 0), List.mem_cons_self, rfl⟩
    intro u hu hu0
    rcases List.mem_cons.mp hu with rfl | hu
    · exact h.laidOut.rootNid.symm
    · obtain ⟨a, ha, de, hde, -, hidx, -⟩ := mem_parentUpdates.mp hu
      obtain ⟨b, hb, hc⟩ := kept_mem hkept ha
      exact absurd (hidx.trans hu0) (h.shape.entry b hb de (hc ▸ hde)).1
  · obtain ⟨parent, hparent, hone⟩ := h.shape.parent i dir h0 hi hdir
    obtain ⟨a, ha, de, hde, hidx⟩ := hparent
    obtain ⟨q, hq, he⟩ := kept_getElem? hkept.symm ha
    have hchildren := (InodeInfo.eq_of_unplaced he).2.1
    refine ⟨parent, q, ?_, hq, ?_, (i, q.nid), ?_, rfl⟩
    · rw [ParentOf, if_neg h0]
      exact ⟨a, ha, de, hde, hidx⟩
    · intro u hu hui
      rcases List.mem_cons.mp hu with rfl | hu
      · exact absurd hui.symm h0
      · obtain ⟨x, hx, dx, hdx, -, hidx', hnid⟩ := mem_parentUpdates.mp hu
        obtain ⟨k, hk⟩ := List.mem_iff_getElem?.mp hx
        obtain ⟨y, hy, hey⟩ := kept_getElem? hkept hk
        have hky : k = parent := hone k
          ⟨y, hy, dx, (InodeInfo.eq_of_unplaced hey).2.1 ▸ hdx, hidx'.trans hui⟩
        rw [← hky, nidAt_eq hk, hnid]
    · obtain ⟨-, child, hchild, hft⟩ := h.shape.entry a (List.mem_of_getElem? ha) de hde
      rw [hidx, hi] at hchild
      cases hchild
      refine List.mem_cons_of_mem _ (mem_parentUpdates.mpr
        ⟨q, List.mem_of_getElem? hq, de, hchildren ▸ hde, ?_, hidx, rfl⟩)
      exact hft.trans ((h.shape.kind dir (List.mem_of_getElem? hi)).mp hdir)

theorem OpenedTree.storable {i parent : Nat} {dir p q : InodeInfo} (hi : inodes[i]? = some dir)
    (hp : placed[i]? = some p) (hq : placed[parent]? = some q) :
    ∀ e ∈ dirEntryList (nidEntries placed dir.data.children) (nidAt placed i) (nidAt placed parent),
      Storable e := by
  intro e he
  have hself := h.nid_lt hp
  have hparent := h.nid_lt hq
  rcases List.mem_cons.mp he with rfl | he
  · exact ⟨storableName_dot, by dsimp only; omega⟩
  rcases List.mem_cons.mp he with rfl | he
  · exact ⟨storableName_dotdot, by dsimp only; omega⟩
  obtain ⟨de, hde, rfl⟩ := List.mem_map.mp he
  have hmem := List.mem_of_getElem? hi
  obtain ⟨-, -, hne, hnul, hlen⟩ := h.shape.name dir hmem de hde
  obtain ⟨-, child, hchild, -⟩ := h.shape.entry dir hmem de hde
  obtain ⟨c, hc, -⟩ := kept_getElem? h.laidOut.kept.symm hchild
  have hnid := h.nid_lt hc
  exact ⟨⟨hne, hnul, by dsimp only; omega⟩, by dsimp only; omega⟩

/-- **A directory** lists itself, its parent and its children. -/
theorem OpenedTree.dir {i : Nat} {dir : InodeInfo} (hi : inodes[i]? = some dir)
    (hdir : dir.isDir = true) :
    ∃ parent p, ParentOf inodes parent i ∧ placed[i]? = some p ∧ p.size.toNat < 2 ^ 32 ∧
      ∀ (σ : Type) (cb : DirCallback σ) (s : σ),
        r.forEachDirEntry (nidAt placed i) (inodeView p epoch chunkbits) cb s =
          runCallback cb (seenEntries placed i parent dir.data.children) s := by
  obtain ⟨p, hp, he⟩ := kept_getElem? h.laidOut.kept.symm hi
  obtain ⟨hisDir, hchildren, -⟩ := InodeInfo.eq_of_unplaced he
  obtain ⟨parent, q, hparent, hq, hall, hsome⟩ := h.parent hi hdir
  obtain ⟨data, off, hser, hd, hsize, hdvd, hle, hwin⟩ :=
    h.laidOut.dir i p hp (hisDir ▸ hdir) _ hall hsome
  rw [← hchildren, ← nidAt_eq hp] at hser
  have hlt := h.shape.dirSize dir (List.mem_of_getElem? hi) (nidAt placed) _ _ data hser
  obtain ⟨data', hser', -, hpos, hparse⟩ := parse_serializeBlocks _ (h.storable hi hp hq)
  rw [serializeDirectory, hser'] at hser
  cases hser
  have hsizeNat : p.size.toNat = data.length := by
    rw [hsize]
    exact UInt64.toNat_ofNat_of_lt' (show data.length < 2 ^ 64 by omega)
  refine ⟨parent, p, hparent, hp, hsizeNat ▸ hlt, ?_⟩
  intro σ cb s
  rw [forEachDirEntry_stored h.opened h.bufLe hd hsize (hpos (List.cons_ne_nil _ _)) hlt hdvd hle hwin,
    hparse]
  simp only [dirEntryList, nidEntries, seenEntries, List.map_cons, List.map_map]
  rfl

theorem OpenedTree.entry {i : Nat} {inode : InodeInfo} (hi : inodes[i]? = some inode) :
    ∃ v entry, r.inode (nidAt placed i) = .ok v ∧
      (⟨r⟩ : ErofsFs).makeEntry (nidAt placed i) v = .ok entry ∧ entry.inode = nidAt placed i + 1 := by
  obtain ⟨p, hp, he⟩ := kept_getElem? h.laidOut.kept.symm hi
  obtain ⟨hisDir, -, -, hsame⟩ := InodeInfo.eq_of_unplaced he
  have hsize : p.size.toNat < 2 ^ 63 := by
    cases hdir : inode.isDir with
    | true =>
      obtain ⟨_, q, -, hq, hlt, -⟩ := h.dir hi hdir
      rw [hp] at hq
      cases hq
      omega
    | false =>
      rw [← (hsame hdir).2]
      exact h.shape.size inode (List.mem_of_getElem? hi)
  have hview := size_inodeView_le p epoch chunkbits
  have hmtime : ∃ t, (inodeView p epoch chunkbits).mtime r.sb.epoch = .ok t := by
    rw [h.opened.epoch]
    exact mtime_inodeView_ok p h.epochLt chunkbits
  obtain ⟨entry, hentry, hino⟩ := makeEntry_ok ⟨r⟩ h.opened.rootNid h.opened.blkszbits
    (h.nid_lt hp) hmtime (by omega)
  exact ⟨_, entry, h.inode_ok hp, hentry, hino⟩

/-- A lookup finds what the list of entries says. -/
theorem OpenedTree.lookup {i : Nat} {dir : InodeInfo} (hi : inodes[i]? = some dir)
    (hdir : dir.isDir = true) (name : List UInt8) :
    ∃ parent, ParentOf inodes parent i ∧
      (⟨r⟩ : ErofsFs).toIno (nidAt placed i) = .ok (nidAt placed i + 1) ∧
      (⟨r⟩ : ErofsFs).lookup (nidAt placed i + 1) name =
        match (seenEntries placed i parent dir.data.children).find? fun e => e.name = name with
        | some e => r.inode e.nid >>= (⟨r⟩ : ErofsFs).makeEntry e.nid
        | none => osError enoent := by
  obtain ⟨parent, p, hparent, hp, -, hforEach⟩ := h.dir hi hdir
  obtain ⟨hino, hback⟩ := toIno_ok ⟨r⟩ h.opened.rootNid (h.nid_lt hp)
  refine ⟨parent, hparent, hino, ?_⟩
  have hscan := runScan_findName name (seenEntries placed i parent dir.data.children) none
  rw [ErofsFs.lookup, ErofsFs.iterateDir, hback, bind_ok, h.inode_ok hp, bind_ok, hforEach,
    runCallback, hscan, bind_ok]
  cases (seenEntries placed i parent dir.data.children).find? fun e => e.name = name <;> rfl

theorem OpenedTree.survives : TreeSurvives r inodes placed := by
  have hlen := congrArg List.length h.laidOut.kept
  rw [List.length_map, List.length_map] at hlen
  refine ⟨?_, ?_, ?_, ?_⟩
  · intro i hi
    exact ⟨_, h.inode_ok (List.getElem?_eq_getElem (hlen ▸ hi))⟩
  · intro i dir hi hdir
    obtain ⟨parent, p, hparent, hp, -, hforEach⟩ := h.dir hi hdir
    exact ⟨parent, _, hparent, h.inode_ok hp, hforEach⟩
  · intro i dir hi hdir de hde
    have hmem := List.mem_of_getElem? hi
    obtain ⟨parent, -, hino, hlookup⟩ := h.lookup hi hdir de.name
    obtain ⟨-, child, hchild, -⟩ := h.shape.entry dir hmem de hde
    obtain ⟨v, entry, hv, hentry, heq⟩ := h.entry hchild
    obtain ⟨c, hc, -⟩ := kept_getElem? h.laidOut.kept.symm hchild
    obtain ⟨hcino, hcback⟩ := toIno_ok ⟨r⟩ h.opened.rootNid (h.nid_lt hc)
    have hseen := find?_name (h.shape.seen_nodup hmem placed i parent)
      (List.mem_cons_of_mem _ (List.mem_cons_of_mem _ (List.mem_map.mpr ⟨de, hde, rfl⟩)))
    rw [hseen] at hlookup
    dsimp only at hlookup
    rw [hv, bind_ok, hentry] at hlookup
    exact ⟨_, entry, hino, hlookup, heq ▸ hcino, heq ▸ hcback⟩
  · intro i dir hi hdir name hdot hdotdot hother
    obtain ⟨parent, -, hino, hlookup⟩ := h.lookup hi hdir name
    have hfind : ((seenEntries placed i parent dir.data.children).find? fun e => e.name = name) =
        none := by
      rw [List.find?_eq_none]
      intro e he
      rw [decide_eq_true_eq]
      rcases List.mem_cons.mp he with rfl | he
      · exact hdot.symm
      rcases List.mem_cons.mp he with rfl | he
      · exact hdotdot.symm
      obtain ⟨de, hde, rfl⟩ := List.mem_map.mp he
      exact hother de hde
    exact ⟨_, hino, by rw [hlookup, hfind]⟩

end

/-! ## The whole pipeline -/

theorem TreeShape.entriesIn (h : TreeShape inodes) : EntriesIn inodes := by
  intro inode hmem de hde
  obtain ⟨-, child, hchild, -⟩ := h.entry inode hmem de hde
  exact (List.getElem?_eq_some_iff.mp hchild).1

theorem TreeShape.namesFit (h : TreeShape inodes) : NamesFit inodes := by
  intro inode hmem de hde
  obtain ⟨-, -, -, -, hlen⟩ := h.name inode hmem de hde
  omega

/-- **The directory tree survives.** Laying out an inode list of the shape of a tree succeeds;
as long as the image has no more blocks than its addresses can name and the device has room for
it, it is written, it opens, and the reader finds the tree. -/
theorem tree_survives (h : TreeShape inodes) {chunksize : UInt32}
    (hchunk : validateChunksize chunksize = .ok chunkbits) (hepoch : epoch.toNat < 2 ^ 63) :
    ∃ placed layout, layOut inodes epoch chunkbits = .ok (placed, layout) ∧
      ∀ (image : Device) (blobBlocks : Nat) (uuid : Vector UInt8 16), image.bytes = [] →
        4096 + layout.buf.length ≤ 2 ^ 60 → layout.buf.length + 8192 ≤ image.room →
        ∃ out, writeTree image inodes epoch chunkbits blobBlocks uuid = .ok out ∧
          ∀ (file : Mmap) (blob : Option Mmap), file.bytes = out.bytes →
            ∃ r, ErofsReader.openImage (.ok file) (blob.map .ok) = .ok r ∧
              TreeSurvives r inodes placed := by
  obtain ⟨root, hroot, hdir⟩ := h.root
  obtain ⟨placed, layout, hrun, hlaid⟩ := layOut_ok hroot hdir h.entriesIn h.namesFit
    (validateChunksize_eq_ok.mp hchunk).1 epoch
  refine ⟨placed, layout, hrun, ?_⟩
  intro image blobBlocks uuid hempty hle hroom
  obtain ⟨p, hp, -⟩ := kept_getElem? hlaid.kept.symm hroot
  have hnid : p.nid = 0 := (nidAt_eq hp).symm.trans hlaid.rootNid
  obtain ⟨out, hout, -⟩ := writeImage_ok image hroom 0 (UInt64.ofNat inodes.length) epoch blobBlocks uuid
  refine ⟨out, ?_, ?_⟩
  · rw [writeTree, hrun, liftIo_ok, bind_ok]
    dsimp only
    rw [getAt_eq_ok.mpr hp, bind_ok, hnid, if_neg (by decide)]
    exact hout
  · intro file blob hfile
    obtain ⟨r, hr, -, -, -, hopened⟩ := openImage_writeImage hout hempty hfile blob
    exact ⟨r, hr, OpenedTree.survives ⟨h, hlaid, hopened, hle, hepoch⟩⟩

/-- A directory with a file and a subdirectory that holds the file once more. -/
def linkedTree : List InodeInfo :=
  [{ mode := 0o040755, uid := 0, gid := 0, size := 0, mtime := 1700000000, mtimeNsec := 0, nlink := 3
     ino := 1, isExtended := isExtendedFor 4096 0 0 3, xattrs := []
     data := .directory [⟨[97], erofsFtRegFile, 1⟩, ⟨[100], erofsFtDir, 2⟩] 0 0 0 },
   { mode := 0o100644, uid := 0, gid := 0, size := 0, mtime := 1700000000, mtimeNsec := 0, nlink := 2
     ino := 2, isExtended := isExtendedFor 0 0 0 2, xattrs := [], data := .regularFile [] },
   { mode := 0o040755, uid := 0, gid := 0, size := 0, mtime := 1700000000, mtimeNsec := 0, nlink := 2
     ino := 3, isExtended := isExtendedFor 4096 0 0 2, xattrs := []
     data := .directory [⟨[98], erofsFtRegFile, 1⟩] 0 0 0 }]

theorem linkedTree_childOf {i : Nat} (h : ChildOf linkedTree i 2) : i = 0 := by
  obtain ⟨dir, hi, de, hde, hidx⟩ := h
  have hall : ∀ k < 3, k ≠ 0 → ∀ inode ∈ linkedTree[k]?, ∀ de ∈ inode.data.children,
      de.inodeIdx ≠ 2 := by decide
  by_contra h0
  have hlt : i < 3 := (List.getElem?_eq_some_iff.mp hi).1
  exact hall i hlt h0 dir hi de hde hidx

theorem linkedTree_shape : TreeShape linkedTree := by
  have hentries : ∀ inode ∈ linkedTree, ∀ de ∈ inode.data.children, de.inodeIdx ≠ 0 ∧
      (linkedTree[de.inodeIdx]?.map fun child => modeToFileType child.mode) = some de.fileType := by
    decide
  have hnames : ∀ inode ∈ linkedTree, inode.data.children.length ≤ 2 ∧
      ∀ de ∈ inode.data.children, 12 + de.name.length ≤ 4096 := by decide
  have hdirs : ∀ j < 3, j ≠ 0 → ∀ dir ∈ linkedTree[j]?, dir.isDir = true → j = 2 := by decide
  refine ⟨⟨_, rfl, rfl⟩, ?_, by decide, ?_,
    by decide, by decide, by decide, ?_, ?_⟩
  · intro inode hmem de hde
    obtain ⟨hne, hft⟩ := hentries inode hmem de hde
    obtain ⟨child, hchild, he⟩ := Option.map_eq_some_iff.mp hft
    exact ⟨hne, child, hchild, he.symm⟩
  · intro j dir hj hd hdir
    obtain rfl := hdirs j (List.getElem?_eq_some_iff.mp hd).1 hj dir hd hdir
    exact ⟨0, ⟨_, rfl, ⟨[100], erofsFtDir, 2⟩, by decide, rfl⟩, fun _ => linkedTree_childOf⟩
  · intro inode hmem nids selfNid parentNid data hdata
    obtain ⟨hfew, hfit⟩ := hnames inode hmem
    have hfits : ∀ c ∈ inode.data.children.map fun de =>
        ({ name := de.name, nid := nids de.inodeIdx, fileType := de.fileType } : DirChild),
        NameFits c := by
      intro c hc
      obtain ⟨de, hde, rfl⟩ := List.mem_map.mp hc
      exact hfit de hde
    obtain ⟨data', hdata', -, hle⟩ := serializeDirectory_ok hfits selfNid parentNid
    rw [hdata] at hdata'
    cases hdata'
    rw [List.length_map] at hle
    omega
  · unfold CountFits
    decide

theorem tree_survives_linkedTree :
    ∃ placed layout, layOut linkedTree 1700000000 12 = .ok (placed, layout) ∧
      ∀ (image : Device) (blobBlocks : Nat) (uuid : Vector UInt8 16), image.bytes = [] →
        4096 + layout.buf.length ≤ 2 ^ 60 → layout.buf.length + 8192 ≤ image.room →
        ∃ out, writeTree image linkedTree 1700000000 12 blobBlocks uuid = .ok out ∧
          ∀ (file : Mmap) (blob : Option Mmap), file.bytes = out.bytes →
            ∃ r, ErofsReader.openImage (.ok file) (blob.map .ok) = .ok r ∧
              TreeSurvives r linkedTree placed :=
  tree_survives linkedTree_shape
    (show validateChunksize 4096 = .ok 12 from validateChunksize_eq_ok.mpr (by decide)) (by decide)

end ErofsUtils.Roundtrip
