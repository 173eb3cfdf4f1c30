import ErofsUtils.Roundtrip.Attributes
import ErofsUtils.Roundtrip.BuiltTree

/-! # What an image shows of a path

The attributes that a reader reports of an inode are those of the path it was made for. A
directory shows the size of its data in the image, a link that of its target, and a special
file none; the compact format has no room for every time. -/
namespace ErofsUtils.Roundtrip
open ErofsUtils.Rust ErofsUtils.Bytes ErofsUtils.Metadata ErofsUtils.Build ErofsUtils.Fs
open ErofsUtils.Store

/-! ## The attributes of a path -/

def IsDevice (stat : FileStat) : Prop :=
  stat.mode &&& sIfmt = sIfchr ∨ stat.mode &&& sIfmt = sIfblk

instance (stat : FileStat) : Decidable (IsDevice stat) :=
  inferInstanceAs (Decidable (_ ∨ _))

/-- The time a path is shown with. The compact format has room for 32 bits of the seconds since
the epoch. -/
def shownMtime (epoch : UInt64) (stat : FileStat) : Int64 :=
  if extendedStat stat then stat.mtime
  else (UInt64.ofNat (epoch.toNat + (stat.mtime.toUInt64 - epoch).toUInt32.toNat)).toInt64

/-- It is the time of the path exactly where the format has room for it. -/
theorem shownMtime_eq_iff {epoch : UInt64} (h : epoch.toNat < 2 ^ 63) (stat : FileStat) :
    shownMtime epoch stat = stat.mtime ↔ extendedStat stat = true ∨
      (epoch.toNat ≤ stat.mtime.toUInt64.toNat ∧
        stat.mtime.toUInt64.toNat < epoch.toNat + 2 ^ 32) := by
  unfold shownMtime
  by_cases hext : extendedStat stat = true
  · simp [hext]
  have hword : ∀ a : UInt64, a.toInt64 = stat.mtime ↔ a.toNat = stat.mtime.toUInt64.toNat := by
    intro a
    rw [UInt64.toNat_inj]
    exact ⟨fun h => h ▸ rfl, fun h => h ▸ rfl⟩
  rw [if_neg hext, or_iff_right hext, hword]
  have hdelta := (stat.mtime.toUInt64 - epoch).toUInt32.toNat_lt
  have hsub : (stat.mtime.toUInt64 - epoch).toUInt32.toNat =
      (stat.mtime.toUInt64.toNat + (2 ^ 64 - epoch.toNat)) % 2 ^ 64 % 2 ^ 32 := by
    rw [UInt64.toNat_toUInt32, UInt64.toNat_sub, Nat.add_comm]
  have hlt := stat.mtime.toUInt64.toNat_lt
  rw [UInt64.toNat_ofNat_of_lt' (show epoch.toNat + _ < 2 ^ 64 by omega)]
  omega

def shownNsec (stat : FileStat) : UInt32 :=
  if extendedStat stat then stat.mtimeNsec.toUInt64.toUInt32 else 0

def shownSize (node : Source) (stat : FileStat) : Nat :=
  if stat.isDir then dirBlocks ((sortByFileName node.entries).map Prod.fst) * erofsBlockSize
  else if stat.isFile then stat.size.toNat
  else if stat.isSymlink then
    match node.link with
    | .ok target => target.length
    | .error _ => 0
  else 0

/-- The attributes are those of the path. -/
structure ShownAs (epoch : UInt64) (ino : Nat) (node : Source) (stat : FileStat) (st : Stat64) :
    Prop where
  ino : st.stIno = ino
  mode : st.stMode = stat.mode
  links : st.stNlink.toNat = stat.nlink.toNat
  owner : st.stUid = stat.uid ∧ st.stGid = stat.gid
  size : st.stSize = (UInt64.ofNat (shownSize node stat)).toInt64
  blocks : st.stBlocks = (UInt64.ofNat (divCeil (shownSize node stat) 4096 * 8)).toInt64
  rdev : st.stRdev = if IsDevice stat then stat.rdev.toUInt32 else 0
  time : st.stMtime = shownMtime epoch stat
  nsec : st.stMtimeNsec = shownNsec stat
  times : st.stAtime = st.stMtime ∧ st.stCtime = st.stMtime ∧ st.stAtimeNsec = st.stMtimeNsec ∧
    st.stCtimeNsec = st.stMtimeNsec

/-! ## Placed inodes -/

/-- Inodes that agree but for their places have the same metadata. -/
theorem InodeInfo.meta_of_unplaced {a b : InodeInfo} (h : a.unplaced = b.unplaced) :
    a.mode = b.mode ∧ a.uid = b.uid ∧ a.gid = b.gid ∧ a.mtime = b.mtime ∧
      a.mtimeNsec = b.mtimeNsec ∧ a.nlink = b.nlink ∧ a.isExtended = b.isExtended := by
  obtain ⟨modeA, uidA, gidA, sizeA, mtA, mtnA, nlA, inoA, nidA, offA, extA, dataA, xA⟩ := a
  obtain ⟨modeB, uidB, gidB, sizeB, mtB, mtnB, nlB, inoB, nidB, offB, extB, dataB, xB⟩ := b
  cases dataA <;> cases dataB <;> cases h <;> exact ⟨rfl, rfl, rfl, rfl, rfl, rfl, rfl⟩

/-- The placed inode of a path, with the size of its data if it is a directory. -/
structure PlacedFor (node : Source) (inode placed : InodeInfo) : Prop where
  made : inode.MadeFor node
  kept : placed.unplaced = inode.unplaced
  dirSize : placed.isDir = true → placed.size =
    UInt64.ofNat (dirBlocks ((sortByFileName node.entries).map Prod.fst) * erofsBlockSize)

variable {node : Source} {inode p : InodeInfo} {stat : FileStat} {epoch : UInt64} {chunkbits : Nat}

/-- The kind of the path decides the data of its inode. -/
theorem PlacedFor.cases (h : PlacedFor node inode p) (hstat : node.stat = .ok stat) :
    (stat.isDir = true ∧ p.isDir = true) ∨
    (stat.isDir = false ∧ stat.isFile = true ∧ p.size = stat.size ∧
      ∃ cis, inode.data = .regularFile cis ∧ p.data = .regularFile cis) ∨
    (stat.isDir = false ∧ stat.isFile = false ∧ stat.isSymlink = true ∧
      ∃ target, node.link = .ok target ∧ p.data = .symlink target ∧
        p.size = UInt64.ofNat target.length) ∨
    (stat.isDir = false ∧ stat.isFile = false ∧ stat.isSymlink = false ∧ p.size = 0 ∧
      p.data = if IsDevice stat then .specialDev stat.rdev.toUInt32 else .specialNoData) := by
  obtain ⟨stat', ino, size, data, hstat', rfl, hdata⟩ := h.made
  rw [hstat] at hstat'
  cases hstat'
  obtain ⟨hdir, -, -, hsame⟩ := InodeInfo.eq_of_unplaced h.kept
  cases hdata with
  | directory hd => exact .inl ⟨hd, hdir⟩
  | @file cis hd hf =>
    obtain ⟨hdata, hsize⟩ := hsame hdir
    exact .inr (.inl ⟨hd, hf, hsize, cis, rfl, hdata⟩)
  | @link target hd hf hl htarget =>
    obtain ⟨hdata, hsize⟩ := hsame hdir
    exact .inr (.inr (.inl ⟨hd, hf, hl, target, htarget, hdata, hsize⟩))
  | special hd hf hl hdata =>
    have hdev : (stat.mode.toUInt16 &&& 0o170000 = 0o020000 ∨
        stat.mode.toUInt16 &&& 0o170000 = 0o060000) ↔ IsDevice stat :=
      or_congr (toUInt16_and_fmt _ _) (toUInt16_and_fmt _ _)
    refine .inr (.inr (.inr ⟨hd, hf, hl, ?_⟩))
    by_cases hd : IsDevice stat
    · rw [if_pos (hdev.mpr hd)] at hdata
      cases hdata
      rw [if_pos hd]
      exact (hsame hdir).symm
    · rw [if_neg fun hd' => hd (hdev.mp hd')] at hdata
      cases hdata
      rw [if_neg hd]
      exact (hsame hdir).symm

/-- A device is of no other kind. -/
theorem IsDevice.kind (h : IsDevice stat) :
    stat.isDir = false ∧ stat.isFile = false ∧ stat.isSymlink = false := by
  have hmask : sIfmt = 0o170000 := rfl
  unfold FileStat.isDir FileStat.isFile FileStat.isSymlink
  rw [IsDevice, hmask] at h
  rcases h with h | h <;> rw [h] <;> decide

/-- The metadata of the path, as its placed inode has it. -/
theorem PlacedFor.meta (h : PlacedFor node inode p) (hstat : node.stat = .ok stat) :
    p.mode = stat.mode.toUInt16 ∧ p.uid = stat.uid ∧ p.gid = stat.gid ∧
      p.mtime = stat.mtime.toUInt64 ∧ p.mtimeNsec = stat.mtimeNsec.toUInt64.toUInt32 ∧
      p.nlink = stat.nlink.toUInt32 ∧ p.isExtended = extendedStat stat := by
  obtain ⟨stat', ino, size, data, hstat', rfl, -⟩ := h.made
  rw [hstat] at hstat'
  cases hstat'
  exact InodeInfo.meta_of_unplaced h.kept

/-- The size of the inode is the one to be shown. -/
theorem PlacedFor.size (h : PlacedFor node inode p) (hstat : node.stat = .ok stat) :
    p.size = UInt64.ofNat (shownSize node stat) := by
  unfold shownSize
  rcases h.cases hstat with ⟨hd, hdir⟩ | ⟨hd, hf, hsize, -⟩ | ⟨hd, hf, hl, target, htarget, -, hsize⟩ |
    ⟨hd, hf, hl, hsize, -⟩
  · rw [if_pos hd]
    exact h.dirSize hdir
  · rw [hd, if_neg Bool.false_ne_true, if_pos hf, UInt64.ofNat_toNat]
    exact hsize
  · rw [hd, hf, if_neg Bool.false_ne_true, if_neg Bool.false_ne_true, if_pos hl, htarget]
    exact hsize
  · rw [hd, hf, hl, if_neg Bool.false_ne_true, if_neg Bool.false_ne_true, if_neg Bool.false_ne_true]
    exact hsize

theorem PlacedFor.storedSize (h : PlacedFor node inode p) (hstat : node.stat = .ok stat) :
    Roundtrip.storedSize p = p.size := by
  unfold Roundtrip.storedSize
  rcases h.cases hstat with ⟨-, hdir⟩ | ⟨-, -, -, cis, -, hdata⟩ | ⟨-, -, -, target, -, hdata, -⟩ |
    ⟨-, -, -, hsize, hdata⟩
  · obtain ⟨cs, b, s, parent, hdata⟩ := InodeInfo.isDir_iff.mp hdir
    rw [hdata]
  · rw [hdata]
  · rw [hdata]
  · rw [hsize]
    split at hdata <;> rw [hdata]

/-- The sizes of the data of a path that an image can hold. -/
theorem shownSize_lt (hfits : NodeFits node) (hstat : node.stat = .ok stat) :
    shownSize node stat < 2 ^ 63 ∧ (stat.isFile = false ∨ stat.isDir = true →
      shownSize node stat < 2 ^ 32) := by
  have hsize := (hfits.stat stat hstat).size
  unfold shownSize
  split
  · rename_i hd
    have hlt := (hfits.entries ((isDir_of_ok hstat).trans hd)).size
    exact ⟨by omega, fun _ => hlt⟩
  split
  · rename_i hd hf
    exact ⟨hsize, fun h => by simp [hd, hf] at h⟩
  split
  · rename_i hl
    split
    · rename_i target htarget
      have hle := (hfits.target stat target hstat hl htarget).2
      exact ⟨by omega, fun _ => by omega⟩
    · exact ⟨by decide, fun _ => by decide⟩
  · exact ⟨by decide, fun _ => by decide⟩

theorem PlacedFor.size_toNat (h : PlacedFor node inode p) (hfits : NodeFits node)
    (hstat : node.stat = .ok stat) : p.size.toNat = shownSize node stat := by
  have hlt := (shownSize_lt hfits hstat).1
  rw [h.size hstat]
  exact UInt64.toNat_ofNat_of_lt' (show shownSize node stat < 2 ^ 64 by omega)

/-- The format was chosen for the metadata of the path. -/
theorem PlacedFor.formatChosen (h : PlacedFor node inode p) (hfits : NodeFits node)
    (hstat : node.stat = .ok stat) : FormatChosen p := by
  obtain ⟨-, huid, hgid, -, -, hnlink, hext⟩ := h.meta hstat
  refine ⟨stat.size.toNat, by rw [hext, huid, hgid, hnlink]; rfl, ?_⟩
  cases hf : stat.isFile with
  | false =>
    rw [h.size_toNat hfits hstat]
    exact .inr ((shownSize_lt hfits hstat).2 (.inl hf))
  | true =>
    rcases h.cases hstat with ⟨hd, -⟩ | ⟨-, -, hsize, -⟩ | ⟨-, hno, -⟩ | ⟨-, hno, -⟩
    · rw [h.size_toNat hfits hstat]
      exact .inr ((shownSize_lt hfits hstat).2 (.inr hd))
    · exact .inl (congrArg UInt64.toNat hsize)
    · exact absurd (hf.symm.trans hno) (by decide)
    · exact absurd (hf.symm.trans hno) (by decide)

theorem PlacedFor.links (h : PlacedFor node inode p) (hfits : NodeFits node)
    (hstat : node.stat = .ok stat) : p.nlink.toNat = stat.nlink.toNat ∧ 1 ≤ p.nlink.toNat := by
  obtain ⟨-, -, -, -, -, hnlink, -⟩ := h.meta hstat
  obtain ⟨hpos, hlt⟩ := (hfits.stat stat hstat).links
  have hnat : p.nlink.toNat = stat.nlink.toNat := by
    rw [hnlink, UInt64.toNat_toUInt32]
    exact Nat.mod_eq_of_lt hlt
  exact ⟨hnat, hnat ▸ hpos⟩

/-! ## The reply -/

/-- The reply for an inode of usual size and time. -/
theorem makeStat_eq (fs : ErofsFs) (hroot : fs.reader.sb.rootNid = 0)
    (hbits : fs.reader.sb.blkszbits = erofsBlkszbits) {nid : Nat} (hnid : nid < 2 ^ 55) {v : ErofsInode}
    {t : UInt64} (ht : v.mtime fs.reader.sb.epoch = .ok t) (hsize : v.size.toNat < 2 ^ 63) :
    fs.makeStat nid v = .ok
      { stIno := nid + 1
        stMode := v.mode.toUInt32
        stNlink := v.nlink
        stSize := v.size.toInt64
        stBlocks := (UInt64.ofNat (divCeil v.size.toNat 4096 * 8)).toInt64
        stUid := v.uid
        stGid := v.gid
        stAtime := t.toInt64
        stMtime := t.toInt64
        stCtime := t.toInt64
        stAtimeNsec := v.mtimeNsec
        stMtimeNsec := v.mtimeNsec
        stCtimeNsec := v.mtimeNsec
        stBlksize := 4096
        stRdev := if v.mode.toUInt32 &&& sIfmt = sIfchr ∨ v.mode.toUInt32 &&& sIfmt = sIfblk then v.rdev
          else 0 } := by
  have hshl : (checkedShl 64 fs.reader.sb.blkszbits.toNat : IoResult Nat) = .ok 4096 := by
    rw [hbits]
    rfl
  have hblocks : (v.size.toNat + 4096 - 1) / 4096 * 4096 / 512 = divCeil v.size.toNat 4096 * 8 := by
    rw [divCeil]
    omega
  unfold ErofsFs.makeStat
  rw [(toIno_ok fs hroot hnid).1, bind_ok]
  dsimp only
  rw [hshl, bind_ok, ht, bind_ok, checkedAdd_ok (by omega), bind_ok, checkedSub_ok (by omega), bind_ok,
    hblocks]
  rfl

theorem rdev_inodeView {rdev : UInt32} (hd : p.data = .specialDev rdev) (epoch : UInt64)
    (chunkbits : Nat) : (inodeView p epoch chunkbits).rdev = rdev := by
  rw [ErofsInode.rdev, (iU_inodeView _ _ _).1, kindHeader, hd]
  exact (iU_inodeHeader _ _ _ _ _ _ _).1

/-- **The attributes** that the reader reports of a placed inode are those of its path. -/
theorem PlacedFor.shown (h : PlacedFor node inode p) (hfits : NodeFits node)
    (hstat : node.stat = .ok stat) (fs : ErofsFs) (hroot : fs.reader.sb.rootNid = 0)
    (hbits : fs.reader.sb.blkszbits = erofsBlkszbits) (hepoch : fs.reader.sb.epoch = epoch)
    (hlt : epoch.toNat < 2 ^ 63) {nid : Nat} (hnid : nid < 2 ^ 55) (chunkbits : Nat) :
    ∃ st, fs.makeStat nid (inodeView p epoch chunkbits) = .ok st ∧
      ShownAs epoch (nid + 1) node stat st := by
  obtain ⟨hmode, huid, hgid, hmtime, hnsec, hnlink, hext⟩ := h.meta hstat
  obtain ⟨hlinks, hpos⟩ := h.links hfits hstat
  have hformat := h.formatChosen hfits hstat
  obtain ⟨howner, hgroup, hnlink'⟩ := owners_inodeView hformat hpos epoch chunkbits
  have hsize : (inodeView p epoch chunkbits).size = p.size := by
    rw [storedSize_inodeView (hformat.fits hpos), h.storedSize hstat]
  have hsizeNat := h.size_toNat hfits hstat
  have hsmall := (shownSize_lt hfits hstat).1
  obtain ⟨t, ht⟩ := mtime_inodeView_ok p hlt chunkbits
  have hview : (inodeView p epoch chunkbits).mode.toUInt32 = stat.mode := by
    rw [(names_inodeView p epoch chunkbits).2.1, hmode]
    exact toUInt16_toUInt32 (hfits.stat stat hstat).mode
  refine ⟨_, makeStat_eq fs hroot hbits hnid (by rw [hepoch]; exact ht)
    (by rw [hsize]; omega), ?_⟩
  refine ⟨rfl, hview, ?_, ⟨howner.trans huid, hgroup.trans hgid⟩, ?_, ?_, ?_, ?_, ?_,
    rfl, rfl, rfl, rfl⟩
  · rw [hnlink', hlinks]
  · rw [hsize, h.size hstat]
  · rw [hsize, hsizeNat]
  · dsimp only
    rw [hview]
    show (if IsDevice stat then (inodeView p epoch chunkbits).rdev else 0) = _
    by_cases hd : IsDevice stat
    · have hdata : p.data = .specialDev stat.rdev.toUInt32 := by
        obtain ⟨hdir, hfile, hlink⟩ := hd.kind
        rcases h.cases hstat with ⟨hk, -⟩ | ⟨-, hk, -⟩ | ⟨-, -, hk, -⟩ | ⟨-, -, -, -, hdata⟩
        · rw [hdir] at hk
          cases hk
        · rw [hfile] at hk
          cases hk
        · rw [hlink] at hk
          cases hk
        · rw [hdata, if_pos hd]
      rw [if_pos hd, if_pos hd, rdev_inodeView hdata]
    · rw [if_neg hd, if_neg hd]
  · rw [mtime_inodeView, hext, hmtime] at ht
    unfold shownMtime
    by_cases hextended : extendedStat stat = true
    · rw [if_pos hextended] at ht ⊢
      cases ht
      exact Int64.toInt64_toUInt64 _
    · rw [if_neg hextended] at ht ⊢
      obtain ⟨n, hn, ht⟩ := bind_eq_ok.mp ht
      obtain ⟨-, rfl⟩ := checkedAdd_eq_ok.mp hn
      cases ht
      rfl
  · rw [mtimeNsec_inodeView, hext, hnsec]
    rfl

end ErofsUtils.Roundtrip
