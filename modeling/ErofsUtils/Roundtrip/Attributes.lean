import ErofsUtils.Roundtrip.Inode

/-! # The attributes of a serialized inode

The compact header has no link count and cuts owners to sixteen bits and the size to
thirty-two. None of this is lost for an inode whose format was chosen by the rule of
`buildTreeRecursive`. -/
namespace ErofsUtils.Roundtrip
open ErofsUtils.Rust ErofsUtils.Bytes ErofsUtils.Metadata ErofsUtils.Build ErofsUtils.Fs

variable {inode : InodeInfo} {epoch : UInt64} {chunkbits : Nat} {v : ErofsInode}

/-- The format was chosen by the rule of `buildTreeRecursive`. The rule looks at the size of
the source, which the size of a serialized directory or of a link target may replace. -/
def FormatChosen (inode : InodeInfo) : Prop :=
  ∃ statSize, inode.isExtended = isExtendedFor statSize inode.uid inode.gid inode.nlink ∧
    (inode.size.toNat = statSize ∨ inode.size.toNat < 2 ^ 32)

/-- The size in the header. The headers of special files hold none. -/
def storedSize (inode : InodeInfo) : UInt64 :=
  match inode.data with
  | .specialDev _ | .specialNoData => 0
  | _ => inode.size

/-- What the header says of the data of the inode's kind. -/
def PayloadKept (inode : InodeInfo) (chunkbits : Nat) (v : ErofsInode) : Prop :=
  match inode.data with
  | .regularFile _ => erofsBlkszbits.toNat + (v.chunkFormat.toNat &&& 0x1F) = chunkbits
  | .directory _ startblk _ _ => v.startblk = startblk
  | .specialDev rdev => v.rdev = rdev
  | .symlink _ | .specialNoData => True

/-- The view reports the attributes of the inode, and `size`. -/
structure Reports (inode : InodeInfo) (chunkbits : Nat) (size : UInt64) (v : ErofsInode) :
    Prop where
  format : v.isCompact = !inode.isExtended
  mode : v.mode = inode.mode
  uid : v.uid = inode.uid
  gid : v.gid = inode.gid
  size : v.size = size
  nlink : v.nlink = inode.nlink
  ino : v.ino = inode.ino
  layout : v.dataLayout = kindLayout inode.data
  xattrs : v.xattrSize = xattrIbodySize inode.xattrs
  payload : PayloadKept inode chunkbits v
  times : inode.isExtended = true →
    (∀ epoch, v.mtime epoch = .ok inode.mtime) ∧ v.mtimeNsec = inode.mtimeNsec

/-- A compact inode has one link, and nothing of it is cut. -/
theorem FormatChosen.narrow (h : FormatChosen inode) (hlink : 1 ≤ inode.nlink.toNat)
    (hc : inode.isExtended = false) :
    inode.size.toNat < 2 ^ 32 ∧ inode.uid.toNat < 2 ^ 16 ∧ inode.gid.toNat < 2 ^ 16 ∧
      inode.nlink = 1 := by
  obtain ⟨statSize, hrule, hsize⟩ := h
  rw [hc, isExtendedFor] at hrule
  simp only [Bool.false_eq, Bool.or_eq_false_iff, decide_eq_false_iff_not, UInt32.lt_iff_toNat_lt,
    gt_iff_lt] at hrule
  obtain ⟨⟨⟨hs, hu⟩, hg⟩, hn⟩ := hrule
  have hone : inode.nlink.toNat = (1 : UInt32).toNat := Nat.le_antisymm (Nat.not_lt.mp hn) hlink
  exact ⟨by omega, by omega, by omega, UInt32.toNat_inj.mp hone⟩

theorem FormatChosen.fits (h : FormatChosen inode) (hlink : 1 ≤ inode.nlink.toNat) :
    inode.isExtended = true ∨ inode.size.toNat < 2 ^ 32 := by
  cases hc : inode.isExtended with
  | true => exact Or.inl rfl
  | false => exact Or.inr (h.narrow hlink hc).1

/-! ## The fields of the view -/

/-- A sixteen-bit owner survives the compact header. -/
theorem toUInt16_toUInt32 {n : UInt32} (h : n.toNat < 2 ^ 16) : n.toUInt16.toUInt32 = n := by
  rw [← UInt32.toNat_inj, UInt16.toNat_toUInt32, UInt32.toNat_toUInt16]
  exact Nat.mod_eq_of_lt h

theorem owners_inodeView (h : FormatChosen inode) (hlink : 1 ≤ inode.nlink.toNat)
    (epoch : UInt64) (chunkbits : Nat) :
    (inodeView inode epoch chunkbits).uid = inode.uid ∧
      (inodeView inode epoch chunkbits).gid = inode.gid ∧
      (inodeView inode epoch chunkbits).nlink = inode.nlink := by
  refine inodeView_rec (P := fun v => v.uid = inode.uid ∧ v.gid = inode.gid ∧
    v.nlink = inode.nlink) fun n dl nlink1 nb size u => ?_
  unfold inodeHeader
  cases hc : inode.isExtended with
  | true => exact ⟨rfl, rfl, rfl⟩
  | false =>
    obtain ⟨-, hu, hg, hn⟩ := h.narrow hlink hc
    exact ⟨toUInt16_toUInt32 hu, toUInt16_toUInt32 hg, hn.symm⟩

theorem names_inodeView (inode : InodeInfo) (epoch : UInt64) (chunkbits : Nat) :
    (inodeView inode epoch chunkbits).isCompact = !inode.isExtended ∧
      (inodeView inode epoch chunkbits).mode = inode.mode ∧
      (inodeView inode epoch chunkbits).ino = inode.ino := by
  refine inodeView_rec (P := fun v => v.isCompact = !inode.isExtended ∧ v.mode = inode.mode ∧
    v.ino = inode.ino) fun n dl nlink1 nb size u => ?_
  unfold inodeHeader
  cases inode.isExtended <;> exact ⟨rfl, rfl, rfl⟩

theorem times_inodeView (hext : inode.isExtended = true) :
    (∀ e, (inodeView inode epoch chunkbits).mtime e = .ok inode.mtime) ∧
      (inodeView inode epoch chunkbits).mtimeNsec = inode.mtimeNsec := by
  refine inodeView_rec (P := fun v => (∀ e, v.mtime e = .ok inode.mtime) ∧
    v.mtimeNsec = inode.mtimeNsec) fun n dl nlink1 nb size u => ?_
  rw [inodeHeader, if_pos hext]
  exact ⟨fun _ => rfl, rfl⟩

/-! ## What depends on the kind -/

theorem storedSize_inodeView (hfit : inode.isExtended = true ∨ inode.size.toNat < 2 ^ 32)
    (epoch : UInt64) (chunkbits : Nat) :
    (inodeView inode epoch chunkbits).size = storedSize inode := by
  unfold storedSize
  cases hd : inode.data with
  | regularFile cis => exact size_inodeView hfit _ _ (Or.inl ⟨cis, hd⟩)
  | directory cs b s p => exact size_inodeView hfit _ _ (Or.inr (Or.inl ⟨cs, b, s, p, hd⟩))
  | symlink t => exact size_inodeView hfit _ _ (Or.inr (Or.inr ⟨t, hd⟩))
  | specialDev | specialNoData =>
    rw [inodeView, kindHeader, hd]
    unfold inodeHeader
    cases inode.isExtended <;> rfl

theorem payload_inodeView (hc : 12 ≤ chunkbits) (hc' : chunkbits ≤ 31)
    (hblk : ∀ cs startblk s p, inode.data = .directory cs startblk s p → startblk < 2 ^ 48) :
    PayloadKept inode chunkbits (inodeView inode epoch chunkbits) := by
  unfold PayloadKept
  cases hd : inode.data with
  | regularFile cis => exact chunkFormat_inodeView hd epoch hc (by omega)
  | directory cs startblk s p => exact startblk_inodeView hd _ _ (hblk _ _ _ _ hd)
  | specialDev rdev =>
    rw [ErofsInode.rdev, (iU_inodeView _ _ _).1, kindHeader, hd]
    exact (iU_inodeHeader _ _ _ _ _ _ _).1
  | symlink | specialNoData => trivial

/-- **Attributes survive.** An inode whose format was chosen by the builder's rule is read
back from its bytes with all its attributes; the headers of devices, pipes and sockets
hold no size. -/
theorem attributes_survive (inode : InodeInfo) (epoch : UInt64) {chunkbits : Nat}
    (hformat : FormatChosen inode) (hlink : 1 ≤ inode.nlink.toNat)
    (hfit : xattrIbodySize inode.xattrs ≤ 262148)
    (hblk : ∀ cs startblk s p, inode.data = .directory cs startblk s p → startblk < 2 ^ 48)
    (hc : 12 ≤ chunkbits) (hc' : chunkbits ≤ 31) :
    ReadBack inode epoch chunkbits fun _ v => Reports inode chunkbits (storedSize inode) v := by
  rw [readBack_iff inode epoch hc]
  obtain ⟨hcompact, hmode, hino⟩ := names_inodeView inode epoch chunkbits
  obtain ⟨huid, hgid, hnlink⟩ := owners_inodeView hformat hlink epoch chunkbits
  exact
    { format := hcompact
      mode := hmode
      uid := huid
      gid := hgid
      size := storedSize_inodeView (hformat.fits hlink) epoch chunkbits
      nlink := hnlink
      ino := hino
      layout := dataLayout_inodeView inode epoch chunkbits
      xattrs := (xattrSize_inodeView_iff inode epoch chunkbits).mpr hfit
      payload := payload_inodeView hc hc' hblk
      times := times_inodeView }

/-- A named pipe that claims to hold `size` bytes. -/
def sizedPipe (size : UInt64) : InodeInfo :=
  { mode := 0o010644, uid := 1000, gid := 100000, size, mtime := 1700000000, mtimeNsec := 5
    nlink := 1, ino := 3, isExtended := isExtendedFor size.toNat 1000 100000 1
    data := .specialNoData, xattrs := [(1, [97], [49])] }

theorem attributes_survive_sizedPipe :
    ReadBack (sizedPipe 0) 1700000000 12 fun _ v =>
      Reports (sizedPipe 0) 12 (storedSize (sizedPipe 0)) v :=
  attributes_survive (sizedPipe 0) 1700000000 ⟨0, rfl, Or.inl rfl⟩ (by decide) (by decide)
    (fun _ _ _ _ h => by cases h) (by decide) (by decide)

/-- The header of a pipe holds no size, whatever the inode says. -/
theorem not_reports_sizedPipe :
    FormatChosen (sizedPipe 7) ∧ 1 ≤ (sizedPipe 7).nlink.toNat ∧
      xattrIbodySize (sizedPipe 7).xattrs ≤ 262148 ∧
      ¬ ReadBack (sizedPipe 7) 1700000000 12 fun _ v =>
        Reports (sizedPipe 7) 12 (sizedPipe 7).size v := by
  refine ⟨⟨7, rfl, Or.inl rfl⟩, by decide, by decide, fun h => ?_⟩
  have hsize := ((readBack_iff _ _ (by decide) _).mp h).size
  exact absurd hsize (by decide)

end ErofsUtils.Roundtrip
