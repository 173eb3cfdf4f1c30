import ErofsUtils.Build.Image
import ErofsUtils.Fs.Fuse
import ErofsUtils.Roundtrip.Inode

/-! # Extended attributes survive the build

The writer steps over the entries of a body by their padded size, the reader by the
rounded end of each. Both positions are multiples of four, so they agree, and the reader
stops where the body ends. -/
namespace ErofsUtils.Roundtrip
open ErofsUtils.Rust ErofsUtils.Bytes ErofsUtils.Metadata ErofsUtils.Build ErofsUtils.Fs

/-- The name and the value of an entry fit the fields for their lengths. -/
def EntryFits (x : Xattr) : Prop := x.2.1.length ≤ 255 ∧ x.2.2.length ≤ 65535

/-- The full name the reader gives an entry. -/
def fullName (x : Xattr) : List UInt8 :=
  match erofsXattrPrefix x.1 with
  | some front => front ++ x.2.1
  | none => x.2.1

def namedValue (x : Xattr) : List UInt8 × List UInt8 := (fullName x, x.2.2)

theorem getAt_append {front l : List UInt8} {i k : Nat} {b : UInt8} (hi : i = front.length + k)
    (hb : l[k]? = some b) : (getAt (front ++ l) i : IoResult UInt8) = .ok b := by
  unfold getAt
  rw [List.getElem?_append_right (by omega), show i - front.length = k by omega, hb]

theorem window_append_cons {front mid rest : List UInt8} {i : Nat} (hi : i = front.length) :
    window (front ++ mid ++ rest) i mid.length = mid := hi ▸ window_middle _ _ _

/-! ## One entry -/

/-- The four bytes in front of an entry's name. -/
def xattrEntryHeader (x : Xattr) : List UInt8 :=
  [UInt8.ofNat x.2.1.length, x.1, UInt8.ofNat x.2.2.length, UInt8.ofNat (x.2.2.length / 256)]

def xattrPadding (x : Xattr) : List UInt8 :=
  List.replicate (alignUp (xattrEntrySize x) 4 - xattrEntrySize x) 0

theorem xattrPadded_eq (x : Xattr) :
    xattrPadded x = xattrEntryHeader x ++ x.2.1 ++ x.2.2 ++ xattrPadding x := rfl

/-- What the reader finds at an entry: the header bytes, the name and the value. -/
theorem entry_reads (front rest : List UInt8) (x : Xattr) :
    (∀ k b, (xattrEntryHeader x)[k]? = some b →
      (getAt (front ++ xattrPadded x ++ rest) (front.length + k) : IoResult UInt8) = .ok b) ∧
    window (front ++ xattrPadded x ++ rest) (front.length + 4) x.2.1.length = x.2.1 ∧
    window (front ++ xattrPadded x ++ rest) (front.length + 4 + x.2.1.length) x.2.2.length =
      x.2.2 := by
  have hhead : (xattrEntryHeader x).length = 4 := rfl
  refine ⟨?_, ?_, ?_⟩
  · intro k b hb
    have hk : k < (xattrEntryHeader x).length := (List.getElem?_eq_some_iff.mp hb).1
    have hdata : front ++ xattrPadded x ++ rest = front ++ (xattrEntryHeader x ++
        (x.2.1 ++ x.2.2 ++ xattrPadding x ++ rest)) := by simp [xattrPadded_eq]
    rw [hdata]
    exact getAt_append rfl (by rw [List.getElem?_append_left hk, hb])
  · have hdata : front ++ xattrPadded x ++ rest = (front ++ xattrEntryHeader x) ++ x.2.1 ++
        (x.2.2 ++ xattrPadding x ++ rest) := by simp [xattrPadded_eq]
    rw [hdata]
    exact window_append_cons (by rw [List.length_append, hhead])
  · have hdata : front ++ xattrPadded x ++ rest = (front ++ xattrEntryHeader x ++ x.2.1) ++ x.2.2 ++
        (xattrPadding x ++ rest) := by simp [xattrPadded_eq]
    rw [hdata]
    exact window_append_cons (by rw [List.length_append, List.length_append, hhead])

/-- The reader takes an entry off the front of what is left. -/
theorem readXattrEntries_cons (front rest : List UInt8) {x : Xattr} (hx : EntryFits x)
    (h4 : 4 ∣ front.length) :
    readXattrEntries (front ++ xattrPadded x ++ rest) front.length =
      readXattrEntries (front ++ xattrPadded x ++ rest)
        (front.length + alignUp (xattrEntrySize x) 4) >>= fun entries =>
      pure (namedValue x :: entries) := by
  obtain ⟨hname, hvalue⟩ := hx
  obtain ⟨hget, hsuffix, hval⟩ := entry_reads front rest x
  have hpad := le_alignUp (n := xattrEntrySize x) (show 0 < 4 by decide)
  have hsize : xattrEntrySize x = 4 + x.2.1.length + x.2.2.length := rfl
  have hlen : (front ++ xattrPadded x ++ rest).length =
      front.length + alignUp (xattrEntrySize x) 4 + rest.length := by
    rw [List.length_append, List.length_append, length_xattrPadded]
  have hnameLen : (UInt8.ofNat x.2.1.length).toNat = x.2.1.length := by
    rw [UInt8.toNat_ofNat']
    omega
  have hvalueSize : leNat [UInt8.ofNat x.2.2.length, UInt8.ofNat (x.2.2.length / 256)] =
      x.2.2.length := by
    rw [show [UInt8.ofNat x.2.2.length, UInt8.ofNat (x.2.2.length / 256)] =
      leBytes 2 x.2.2.length from rfl, leNat_leBytes]
    omega
  have hnext : roundUp (front.length + 4 + x.2.1.length + x.2.2.length) 4 =
      front.length + alignUp (xattrEntrySize x) 4 := by
    rw [roundUp_four, ← alignUp_add_of_dvd (by decide) h4, hsize, Nat.add_assoc, Nat.add_assoc,
      Nat.add_assoc]
  generalize front ++ xattrPadded x ++ rest = data at *
  have hget0 : (getAt data front.length : IoResult UInt8) = _ := hget 0 _ rfl
  rw [readXattrEntries, dif_pos (by rw [erofsXattrEntryHeaderSize]; omega), hget0, bind_ok,
    hget 1 _ rfl, bind_ok, hget 2 _ rfl, bind_ok, hget 3 _ rfl, bind_ok, hnameLen, hvalueSize,
    erofsXattrEntryHeaderSize]
  dsimp only
  rw [if_neg (by omega), slice_ok (by omega) (by omega), bind_ok, slice_ok (by omega) (by omega),
    bind_ok, hnext, Nat.add_sub_cancel_left, Nat.add_sub_cancel_left, hsuffix, hval]
  rfl

/-! ## The whole body -/

/-- **The entries of a body** are all read back, and nothing after them. -/
theorem readXattrEntries_ok {xs : List Xattr} (front : List UInt8) (hx : ∀ x ∈ xs, EntryFits x)
    (h4 : 4 ∣ front.length) :
    readXattrEntries (front ++ xattrEntries xs) front.length = .ok (xs.map namedValue) := by
  induction xs generalizing front with
  | nil =>
    rw [readXattrEntries, dif_neg (by simp [erofsXattrEntryHeaderSize])]
    rfl
  | cons x xs ih =>
    have hrest := ih (front ++ xattrPadded x) (fun y hy => hx y (List.mem_cons_of_mem _ hy))
      (by rw [List.length_append, length_xattrPadded]; exact Nat.dvd_add h4 (dvd_alignUp _ 4))
    rw [List.length_append, length_xattrPadded] at hrest
    rw [xattrEntries_cons, ← List.append_assoc,
      readXattrEntries_cons front _ (hx x List.mem_cons_self) h4, hrest]
    rfl

variable {inode : InodeInfo} {epoch : UInt64} {chunkbits : Nat} {r : ErofsReader} {nid : Nat}

/-- The reader finds the attributes of a serialized inode. -/
theorem readXattrs_ok (h : r.StandsAt nid (inodeBytes inode epoch chunkbits))
    (hfit : CountFits inode) (hx : ∀ x ∈ inode.xattrs, EntryFits x) :
    r.readXattrs nid (inodeView inode epoch chunkbits) = .ok (inode.xattrs.map namedValue) := by
  have hslot := slot_le h
  have hne := inodeBytes_ne_nil inode epoch chunkbits
  unfold ErofsReader.readXattrs
  rw [hfit.xattrSize]
  dsimp only
  cases hxs : inode.xattrs with
  | nil => rfl
  | cons x xs =>
    have h16 := sixteen_le_xattrIbodySize (List.cons_ne_nil x xs)
    rw [hxs] at hslot hx
    have hread : r.mmapSlice (r.slotOffset nid + (inodeView inode epoch chunkbits).headerSize)
        (xattrIbodySize (x :: xs)) = .ok (xattrBody (x :: xs)) := by
      have hs := ErofsReader.StandsAt.mmapSlice h hne
      rw [ErofsInode.length_asBytes, length_xattrBody, hxs] at hs
      exact hs
    have hlen := length_xattrBody (x :: xs)
    have hbody : xattrBody (x :: xs) =
        List.replicate erofsXattrIbodyHeaderSize 0 ++ xattrEntries (x :: xs) := rfl
    have hshared : (getAt (xattrBody (x :: xs)) 4 : IoResult UInt8) = .ok 0 := rfl
    have hbase := inode.base_bounds
    rw [headerSize_inodeView] at hread ⊢
    rw [if_neg (by omega), h.nidToOffset hne, bind_ok, checkedAdd_ok (by omega), bind_ok, hread,
      bind_ok, hlen, if_neg (by rw [erofsXattrIbodyHeaderSize]; omega), hshared, bind_ok]
    have hstart : ¬ erofsXattrIbodyHeaderSize + (0 : UInt8).toNat * 4 ≥ xattrIbodySize (x :: xs) := by
      show ¬ 12 ≥ xattrIbodySize (x :: xs)
      omega
    have hentries := readXattrEntries_ok (List.replicate erofsXattrIbodyHeaderSize 0) hx
      (by rw [List.length_replicate]; decide)
    rw [← hbody, List.length_replicate] at hentries
    rw [if_neg hstart]
    exact hentries

/-! ## Names and values of a path -/

/-- What `listxattr` and `getxattr` give for a path with these names and values. -/
def pathXattrs (pairs : List (List UInt8 × List UInt8)) : XattrSource :=
  some (pairs.map fun p => (p.1, some p.2))

/-- Splitting supported names loses nothing: the reader names the entries as the path did. -/
theorem namedValue_readXattrsFromPath {pairs : List (List UInt8 × List UInt8)}
    (h : ∀ p ∈ pairs, SupportedName p.1) :
    (readXattrsFromPath (pathXattrs pairs)).map namedValue = pairs := by
  induction pairs with
  | nil => rfl
  | cons p pairs ih =>
    obtain ⟨name, value⟩ := p
    obtain ⟨index, suffix, hs⟩ := erofsXattrNameSplit_isSome (h _ List.mem_cons_self)
    obtain ⟨front, hf, hn⟩ := erofsXattrNameSplit_join hs
    have hrest := ih fun q hq => h q (List.mem_cons_of_mem _ hq)
    have hcons : readXattrsFromPath (pathXattrs ((name, value) :: pairs)) =
        (index, suffix, value) :: readXattrsFromPath (pathXattrs pairs) := by
      dsimp only at hs
      simp only [readXattrsFromPath, pathXattrs, List.map_cons, List.filterMap_cons, hs,
        Option.getD_some]
    dsimp only at hn
    rw [hcons, List.map_cons, hrest, namedValue, fullName]
    dsimp only
    rw [hf, hn]

theorem namesBuf_eq (pairs : List (List UInt8 × List UInt8)) :
    ErofsFs.namesBuf pairs = pairs.flatMap fun p => p.1 ++ [0] := by
  have hfold : ∀ (l : List (List UInt8 × List UInt8)) (buf : List UInt8),
      l.foldl (fun buf x => buf ++ x.1 ++ [0]) buf = buf ++ l.flatMap fun p => p.1 ++ [0] := by
    intro l
    induction l with
    | nil => intro buf; simp
    | cons p l ih => intro buf; rw [List.foldl_cons, ih, List.flatMap_cons]; simp
  rw [ErofsFs.namesBuf, hfold, List.nil_append]

/-- A name that stands once in a list gets its own value. -/
theorem getxattrReply_mem {pairs : List (List UInt8 × List UInt8)} {p : List UInt8 × List UInt8}
    (hp : p ∈ pairs) (hnodup : (pairs.map Prod.fst).Nodup) {size : Nat} (h0 : size ≠ 0)
    (hsize : p.2.length ≤ size) :
    ErofsFs.getxattrReply p.1 size pairs = .ok (.value p.2) := by
  induction pairs with
  | nil => cases hp
  | cons q pairs ih =>
    obtain ⟨hq, hnodup⟩ := List.nodup_cons.mp hnodup
    rcases List.mem_cons.mp hp with rfl | hp
    · rw [ErofsFs.getxattrReply, if_pos rfl, if_neg h0, if_neg (by omega)]
      rfl
    · have hne : q.1 ≠ p.1 := fun he => hq (he ▸ List.mem_map_of_mem hp)
      rw [ErofsFs.getxattrReply, if_neg hne]
      exact ih hp hnodup

/-- **Extended attributes survive the build.** The attributes of a path, put into an inode of
any kind and either format, are read back as they were: the same names and values in the same
order and no others. The file system lists exactly these names and gives each its value. -/
theorem xattrs_survive {pairs : List (List UInt8 × List UInt8)}
    (hsup : ∀ p ∈ pairs, SupportedName p.1)
    (hxattrs : inode.xattrs = readXattrsFromPath (pathXattrs pairs))
    (hfits : ∀ x ∈ inode.xattrs, EntryFits x) (hcount : CountFits inode) (hc : 12 ≤ chunkbits)
    {bytes : List UInt8} (hser : serializeInode inode epoch chunkbits = .ok bytes)
    (hstands : r.StandsAt nid bytes) :
    ∃ v, ErofsInode.cast bytes = .ok v ∧ r.readXattrs nid v = .ok pairs ∧
      ∀ ino, (⟨r⟩ : ErofsFs).toNid ino = .ok nid →
        r.slotOffset nid + erofsInodeExtendedSize ≤ r.mmap.bytes.length →
        (pairs.map Prod.fst).Nodup →
        (∀ size, size ≠ 0 → (pairs.flatMap fun p => p.1 ++ [0]).length ≤ size →
          (⟨r⟩ : ErofsFs).listxattr ino size =
            .ok (.names (pairs.flatMap fun p => p.1 ++ [0]))) ∧
        ∀ p ∈ pairs, ∀ size, size ≠ 0 → p.2.length ≤ size →
          (⟨r⟩ : ErofsFs).getxattr ino p.1 size = .ok (.value p.2) := by
  rw [serializeInode_ok inode epoch hc] at hser
  cases hser
  have hcast := cast_inodeBytes inode epoch chunkbits []
  rw [List.append_nil] at hcast
  have hread := readXattrs_ok hstands hcount hfits
  rw [hxattrs, namedValue_readXattrsFromPath hsup] at hread
  refine ⟨_, hcast, hread, ?_⟩
  intro ino hino hroom hnodup
  have hinode := inode_ok hstands hroom
  refine ⟨?_, ?_⟩
  · intro size h0 hsize
    rw [← namesBuf_eq] at hsize ⊢
    rw [ErofsFs.listxattr, hino, bind_ok, hinode, bind_ok, hread, bind_ok]
    dsimp only
    rw [if_neg h0, if_neg (by omega)]
    rfl
  · intro p hp size h0 hsize
    rw [ErofsFs.getxattr, hino, bind_ok, hinode, bind_ok, hread, bind_ok]
    exact getxattrReply_mem hp hnodup h0 hsize

/-- The attributes `user.a` and `trusted.` of a link. -/
def linkXattrs : List (List UInt8 × List UInt8) := [(userDot ++ [97], [49]), (trustedDot, [])]

def linkInode : InodeInfo :=
  { mode := 0o120777, uid := 0, gid := 0, size := 3, mtime := 1700000000, mtimeNsec := 0, nlink := 1
    ino := 1, isExtended := isExtendedFor 3 0 0 1, data := .symlink [97, 47, 98]
    xattrs := readXattrsFromPath (pathXattrs linkXattrs) }

/-- An image that holds the link in slot 0, its root. -/
theorem exists_linkReader : ∃ r : ErofsReader, (⟨r⟩ : ErofsFs).toNid 1 = .ok 0 ∧
    r.StandsAt 0 (inodeBytes linkInode 1700000000 12) ∧
    r.slotOffset 0 + erofsInodeExtendedSize ≤ r.mmap.bytes.length := by
  have hlen : (inodeBytes linkInode 1700000000 12).length = 59 := by
    rw [length_inodeBytes]
    decide
  obtain ⟨r, -, hopened⟩ := exists_opened
    (inodeBytes linkInode 1700000000 12 ++ List.replicate 5 0)
    (by rw [List.length_append, hlen]; decide) 0 1700000000 none
  have hslot : window (inodeBytes linkInode 1700000000 12 ++ List.replicate 5 0) (0 * 32)
      (inodeBytes linkInode 1700000000 12).length = inodeBytes linkInode 1700000000 12 := by
    rw [window_append_left (by omega), window_all]
  refine ⟨r, ?_, hopened.standsAt hslot (inodeBytes_ne_nil _ _ _), ?_⟩
  · show (pure r.sb.rootNid : IoResult Nat) = .ok 0
    rw [hopened.rootNid]
    rfl
  · have hfits := hopened.fits
    rw [List.length_append, hlen, List.length_replicate] at hfits
    rw [hopened.slotOffset, erofsInodeExtendedSize]
    omega

theorem xattrs_survive_link : ∃ (r : ErofsReader) (v : ErofsInode),
    r.readXattrs 0 v = .ok linkXattrs ∧
      (⟨r⟩ : ErofsFs).getxattr 1 (userDot ++ [97]) 16 = .ok (.value [49]) := by
  obtain ⟨r, hino, hstands, hroom⟩ := exists_linkReader
  have hsup : ∀ p ∈ linkXattrs, SupportedName p.1 := by
    intro p hp
    rcases List.mem_cons.mp hp with rfl | hp
    · exact ⟨1, userDot, rfl, by decide⟩
    · rw [List.mem_singleton.mp hp]
      exact ⟨4, trustedDot, rfl, by decide⟩
  obtain ⟨v, -, hread, hfs⟩ := xattrs_survive hsup rfl (by unfold EntryFits; decide)
    (by unfold CountFits; decide) (by decide) (serializeInode_ok linkInode 1700000000 (by decide))
    hstands
  exact ⟨r, v, hread, (hfs 1 hino hroom (by decide)).2 _ List.mem_cons_self 16 (by decide)
    (by decide)⟩

/-! ## Sizes that do not fit their fields -/

/-- Where entry `i` starts in a serialized inode. -/
def entryOffset (inode : InodeInfo) (i : Nat) : Nat :=
  inode.base + erofsXattrIbodyHeaderSize + xattrEntriesSize (inode.xattrs.take i)

/-- Every stored length is that of what was written, and the reader looks for the tail
behind the attributes. -/
structure SizesTrue (inode : InodeInfo) (bytes : List UInt8) (v : ErofsInode) : Prop where
  nameLen : ∀ i, (hi : i < inode.xattrs.length) →
    (Codec.u8.dec (bytes.drop (entryOffset inode i))).toNat = inode.xattrs[i].2.1.length
  valueSize : ∀ i, (hi : i < inode.xattrs.length) →
    (Codec.u16.dec (bytes.drop (entryOffset inode i + 2))).toNat = inode.xattrs[i].2.2.length
  tail : v.headerSize + v.xattrSize = inode.base + xattrIbodySize inode.xattrs

/-- No size is narrowed silently: the build fails, or the image tells the true sizes. -/
def NotNarrowed (inode : InodeInfo) (epoch : UInt64) (chunkbits : Nat) : Prop :=
  (∃ e, serializeInode inode epoch chunkbits = fail e) ∨
    ReadBack inode epoch chunkbits (SizesTrue inode)

theorem xattrEntries_append (xs ys : List Xattr) :
    xattrEntries (xs ++ ys) = xattrEntries xs ++ xattrEntries ys := List.flatMap_append

/-- The header of entry `i` stands at its offset. -/
theorem drop_entryOffset (epoch : UInt64) (chunkbits : Nat) {i : Nat} (hi : i < inode.xattrs.length) :
    ∃ rest, (inodeBytes inode epoch chunkbits).drop (entryOffset inode i) =
      xattrEntryHeader inode.xattrs[i] ++ rest := by
  have hsplit : inode.xattrs = inode.xattrs.take i ++ inode.xattrs[i] :: inode.xattrs.drop (i + 1) := by
    rw [← List.drop_eq_getElem_cons hi, List.take_append_drop]
  have hne : inode.xattrs ≠ [] := List.ne_nil_of_length_pos (by omega)
  have hbody : xattrBody inode.xattrs = List.replicate erofsXattrIbodyHeaderSize 0 ++
      xattrEntries (inode.xattrs.take i) ++ (xattrPadded inode.xattrs[i] ++
        xattrEntries (inode.xattrs.drop (i + 1))) := by
    rw [xattrBody, if_neg (by simpa using hne)]
    conv_lhs => rw [hsplit, xattrEntries_append, xattrEntries_cons]
    rw [List.append_assoc]
  have hfront : ((inodeView inode epoch chunkbits).asBytes ++ (List.replicate
      erofsXattrIbodyHeaderSize 0 ++ xattrEntries (inode.xattrs.take i))).length =
      entryOffset inode i := by
    rw [List.length_append, List.length_append, ErofsInode.length_asBytes, headerSize_inodeView,
      List.length_replicate, length_xattrEntries, entryOffset, Nat.add_assoc]
  refine ⟨inode.xattrs[i].2.1 ++ (inode.xattrs[i].2.2 ++ (xattrPadding inode.xattrs[i] ++
    (xattrEntries (inode.xattrs.drop (i + 1)) ++ inodeTail inode))), ?_⟩
  rw [inodeBytes, hbody, ← List.append_assoc, List.append_assoc _ _ (inodeTail inode),
    List.drop_left' hfront, xattrPadded_eq]
  simp only [List.append_assoc]

theorem storedSizes (epoch : UInt64) (chunkbits : Nat) {i : Nat} (hi : i < inode.xattrs.length) :
    (Codec.u8.dec ((inodeBytes inode epoch chunkbits).drop (entryOffset inode i))).toNat =
        inode.xattrs[i].2.1.length % 256 ∧
      (Codec.u16.dec ((inodeBytes inode epoch chunkbits).drop (entryOffset inode i + 2))).toNat =
        inode.xattrs[i].2.2.length % 65536 := by
  obtain ⟨rest, hrest⟩ := drop_entryOffset epoch chunkbits hi
  constructor
  · rw [hrest]
    exact UInt8.toNat_ofNat'
  · rw [← List.drop_drop, hrest]
    show (UInt16.ofNat (leNat (leBytes 2 inode.xattrs[i].2.2.length))).toNat = _
    rw [leNat_leBytes, UInt16.toNat_ofNat']
    omega

theorem sizesTrue_inodeBytes_iff (inode : InodeInfo) (epoch : UInt64) (chunkbits : Nat) :
    SizesTrue inode (inodeBytes inode epoch chunkbits) (inodeView inode epoch chunkbits) ↔
      (∀ x ∈ inode.xattrs, EntryFits x) ∧ CountFits inode := by
  constructor
  · intro h
    refine ⟨?_, (xattrSize_inodeView_iff inode epoch chunkbits).mp ?_⟩
    · intro x hx
      obtain ⟨i, hi, rfl⟩ := List.mem_iff_getElem.mp hx
      have hstored := storedSizes epoch chunkbits hi
      rw [h.nameLen i hi, h.valueSize i hi] at hstored
      exact ⟨by omega, by omega⟩
    · have htail := h.tail
      rw [headerSize_inodeView] at htail
      omega
  · rintro ⟨hx, hfit⟩
    refine ⟨?_, ?_, ?_⟩
    · intro i hi
      have hle := (hx _ (List.getElem_mem hi)).1
      rw [(storedSizes epoch chunkbits hi).1]
      omega
    · intro i hi
      have hle := (hx _ (List.getElem_mem hi)).2
      rw [(storedSizes epoch chunkbits hi).2]
      omega
    · rw [headerSize_inodeView, hfit.xattrSize]

/-- The lists that `listxattr` and `getxattr` can return: names of at most 255 bytes. -/
def XattrNamesFit (source : XattrSource) : Prop :=
  ∀ names, source = some names → ∀ p ∈ names, p.1.length ≤ 255

theorem suffix_le_of_xattrNamesFit {source : XattrSource} (h : XattrNamesFit source) {x : Xattr}
    (hx : x ∈ readXattrsFromPath source) : x.2.1.length ≤ 255 := by
  cases source with
  | none => cases hx
  | some names =>
    obtain ⟨p, hp, he⟩ := List.mem_filterMap.mp hx
    have hle := h names rfl p hp
    obtain ⟨name, value⟩ := p
    dsimp only at he hle
    cases hs : erofsXattrNameSplit name with
    | none => rw [hs] at he; cases he
    | some split =>
      obtain ⟨index, suffix⟩ := split
      rw [hs] at he
      cases he
      obtain ⟨front, -, rfl⟩ := erofsXattrNameSplit_join hs
      rw [List.length_append] at hle
      show suffix.length ≤ 255
      omega

/-- The builder never fails on a size, so every size has to fit. -/
theorem notNarrowed_iff_fits (inode : InodeInfo) (epoch : UInt64) (hc : 12 ≤ chunkbits) :
    NotNarrowed inode epoch chunkbits ↔ (∀ x ∈ inode.xattrs, EntryFits x) ∧ CountFits inode := by
  have hnofail : ¬ ∃ e, serializeInode inode epoch chunkbits = fail e := by
    rintro ⟨e, he⟩
    rw [serializeInode_ok inode epoch hc] at he
    cases he
  rw [NotNarrowed, or_iff_right hnofail, readBack_iff _ _ hc, sizesTrue_inodeBytes_iff]

/-- **Sizes of extended attributes.** For the attributes of a path, no size is narrowed exactly
when no value has more than 65535 bytes and the body has at most 262148. -/
theorem notNarrowed_iff {source : XattrSource} (hnames : XattrNamesFit source)
    (hx : inode.xattrs = readXattrsFromPath source) (epoch : UInt64) (hc : 12 ≤ chunkbits) :
    NotNarrowed inode epoch chunkbits ↔
      (∀ x ∈ inode.xattrs, x.2.2.length ≤ 65535) ∧ xattrIbodySize inode.xattrs ≤ 262148 := by
  rw [notNarrowed_iff_fits _ _ hc]
  refine and_congr_left fun _ => forall₂_congr ?_
  intro x hm
  exact and_iff_right (suffix_le_of_xattrNamesFit hnames (hx ▸ hm))

theorem notNarrowed_link :
    NotNarrowed linkInode 1700000000 12 ↔
      (∀ x ∈ linkInode.xattrs, x.2.2.length ≤ 65535) ∧
        xattrIbodySize linkInode.xattrs ≤ 262148 := by
  have hnames : XattrNamesFit (pathXattrs linkXattrs) := by
    intro names hn
    cases hn
    decide
  exact notNarrowed_iff hnames rfl 1700000000 (by decide)

/-- A value of `n` zeros under the name `user.a`. -/
def zerosXattr (n : Nat) : XattrSource := pathXattrs [(userDot ++ [97], List.replicate n 0)]

/-- The largest value the platform allows is stored as an empty one. -/
theorem narrowed_65536 :
    ¬ NotNarrowed (oneByteFile (readXattrsFromPath (zerosXattr 65536))) 1700000000 12 := by
  rw [notNarrowed_iff_fits _ _ (by decide)]
  rintro ⟨hfits, -⟩
  have hmem : (1, [97], List.replicate 65536 0) ∈ readXattrsFromPath (zerosXattr 65536) :=
    List.mem_filterMap.mpr ⟨_, List.mem_singleton_self _, rfl⟩
  have hle := (hfits _ hmem).2
  rw [List.length_replicate] at hle
  omega

end ErofsUtils.Roundtrip
