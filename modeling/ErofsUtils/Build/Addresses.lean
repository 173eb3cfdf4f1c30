import ErofsUtils.Build.Image
import ErofsUtils.Metadata.Layout

/-! # Addresses of the metadata area

An offset in the buffer of the allocator has two other names: a NID counts slots of
the area, a start block counts blocks of the image. After any sequence of allocations
and any order of writes the reader finds, under the name handed out, what was written at
the offset. -/
namespace ErofsUtils.Build
open ErofsUtils.Rust ErofsUtils.Bytes ErofsUtils.Metadata ErofsUtils.Fs

/-- A call of the allocator. -/
inductive LayoutCall where
  | allocInode (size : Nat)
  | padToBlock
  | allocDirData (size : Nat)

/-- The name of an allocation besides its offset. -/
inductive Address where
  | nid (nid : Nat)
  | startblk (startblk : Nat)
  | none
deriving DecidableEq

/-- What a call returns, and the space it set aside there. -/
structure Reserved where
  off : Nat
  size : Nat
  address : Address
deriving DecidableEq

def Reserved.region (r : Reserved) : Region := ⟨r.off, r.size⟩

def reserve (l : MetadataLayout) : LayoutCall → Reserved × MetadataLayout
  | .allocInode size =>
    let ((off, nid), l) := l.allocInode size
    (⟨off, roundUpUsize size erofsSlotsize, .nid nid⟩, l)
  | .padToBlock =>
    let (off, l) := l.padToBlock
    (⟨off, 0, .none⟩, l)
  | .allocDirData size =>
    let ((off, startblk), l) := l.allocDirData size
    (⟨off, roundUpUsize size erofsBlockSize, .startblk startblk⟩, l)

/-- The allocations of a sequence of calls, one for each, and the layout they leave. -/
def reserveAll : MetadataLayout → List LayoutCall → List Reserved × MetadataLayout
  | l, [] => ([], l)
  | l, c :: cs =>
    let (r, l) := reserve l c
    let (rs, l) := reserveAll l cs
    (r :: rs, l)

/-- `writeAt` for each allocation written to, in the order of the list. -/
def storeAll (l : MetadataLayout) : List (Reserved × List UInt8) → IoResult MetadataLayout
  | [] => pure l
  | w :: ws => do
    let l ← l.writeAt w.1.off w.2
    storeAll l ws

/-! ## What is reserved -/

/-- The space of a call, as a request for a region. -/
def LayoutCall.request : LayoutCall → Request
  | .allocInode size => ⟨32, alignUp size 32⟩
  | .padToBlock => ⟨4096, 0⟩
  | .allocDirData size => ⟨4096, alignUp size 4096⟩

theorem LayoutCall.request_align (c : LayoutCall) : 0 < c.request.align := by
  cases c with
  | allocInode | padToBlock | allocDirData => exact Nat.succ_pos _

/-- The offset is aligned for its kind, and the address names it. -/
def Reserved.Addressed (r : Reserved) : Prop :=
  match r.address with
  | .nid nid => r.off = nid * 32
  | .startblk startblk => 4096 ∣ r.off ∧ startblk * 4096 = 4096 + r.off
  | .none => 4096 ∣ r.off

variable {l : MetadataLayout}

/-- One call places one region. -/
theorem reserve_spec (h : l.Wf) (c : LayoutCall) :
    (reserve l c).2.Wf ∧
      (reserve l c).2.cursor = c.request.next l.cursor ∧
      (reserve l c).1.region = c.request.place l.cursor ∧
      (reserve l c).1.Addressed := by
  cases c with
  | allocInode size =>
    obtain ⟨hwf, hcur, hret⟩ := h.allocInode size
    have hoff : (l.allocInode size).1.1 = l.cursor := rfl
    have hnid : (l.allocInode size).1.2 = l.cursor / 32 := rfl
    refine ⟨hwf, ?_, ?_, ?_⟩
    · rw [LayoutCall.request, Request.next, alignUp_of_dvd (n := alignUp size 32) (by decide)
        (dvd_alignUp _ _)]
      exact hcur
    · rw [LayoutCall.request, Request.place, alignUp_of_dvd (by decide) h.slot]
      simp [reserve, Reserved.region, hoff]
    · show l.cursor = (l.cursor / 32) * 32
      exact (Nat.div_mul_cancel h.slot).symm
  | padToBlock =>
    obtain ⟨hwf, hcur⟩ := h.padToBlock
    have hoff : l.padToBlock.1 = alignUp l.cursor 4096 := roundUpUsize_block _
    refine ⟨hwf, ?_, ?_, ?_⟩
    · show l.padToBlock.2.cursor = alignUp l.cursor 4096 + alignUp 0 4096
      rw [hcur, alignUp_of_dvd (n := 0) (by decide) (Nat.dvd_zero _), Nat.add_zero]
    · simp [reserve, Reserved.region, LayoutCall.request, Request.place, hoff]
    · show 4096 ∣ l.padToBlock.1
      rw [hoff]
      exact dvd_alignUp _ _
  | allocDirData size =>
    obtain ⟨hwf, hcur, hret⟩ := h.allocDirData size
    have hoff : (l.allocDirData size).1.1 = alignUp l.cursor 4096 := congrArg Prod.fst hret
    have hblk : (l.allocDirData size).1.2 = 1 + alignUp l.cursor 4096 / 4096 :=
      congrArg Prod.snd hret
    refine ⟨hwf, ?_, ?_, ?_⟩
    · rw [LayoutCall.request, Request.next, alignUp_of_dvd (n := alignUp size 4096) (by decide)
        (dvd_alignUp _ _)]
      exact hcur
    · simp [reserve, Reserved.region, LayoutCall.request, Request.place, hoff]
    · show 4096 ∣ (l.allocDirData size).1.1 ∧
        (l.allocDirData size).1.2 * 4096 = 4096 + (l.allocDirData size).1.1
      have hdvd := dvd_alignUp l.cursor 4096
      rw [hoff, hblk, Nat.add_mul, Nat.div_mul_cancel hdvd]
      exact ⟨hdvd, rfl⟩

/-- Calls in any order place their regions one after another. -/
theorem reserveAll_spec (h : l.Wf) (calls : List LayoutCall) :
    (reserveAll l calls).2.Wf ∧
      (reserveAll l calls).2.cursor = endCursor l.cursor (calls.map LayoutCall.request) ∧
      (reserveAll l calls).1.map Reserved.region =
        placeAll l.cursor (calls.map LayoutCall.request) ∧
      ∀ r ∈ (reserveAll l calls).1, r.Addressed := by
  induction calls generalizing l with
  | nil => exact ⟨h, rfl, rfl, nofun⟩
  | cons c cs ih =>
    obtain ⟨hwf, hcur, hregion, haddr⟩ := reserve_spec h c
    obtain ⟨hwf', hend, hregions, haddrs⟩ := ih hwf
    refine ⟨hwf', ?_, ?_, ?_⟩
    · rw [hcur] at hend
      exact hend
    · rw [hcur] at hregions
      rw [List.map_cons, placeAll, ← hregion, ← hregions]
      rfl
    · intro r hr
      rcases List.mem_cons.mp hr with rfl | hr
      · exact haddr
      · exact haddrs r hr

/-- The reserved regions lie in the buffer and share no byte. -/
theorem reserveAll_apart (h : l.Wf) (calls : List LayoutCall) :
    (∀ r ∈ (reserveAll l calls).1, r.off + r.size ≤ (reserveAll l calls).2.buf.length) ∧
      (reserveAll l calls).1.Pairwise fun r s => r.region.Apart s.region := by
  obtain ⟨hwf, hcur, hregions, -⟩ := reserveAll_spec h calls
  have halign : ∀ q ∈ calls.map LayoutCall.request, 0 < q.align := by
    intro q hq
    obtain ⟨c, -, rfl⟩ := List.mem_map.mp hq
    exact c.request_align
  constructor
  · intro r hr
    have hmem := hregions ▸ List.mem_map_of_mem (f := Reserved.region) hr
    rw [hwf.len, hcur]
    exact (placeAll_bounds halign hmem).2
  · have hp := placeAll_apart (c := l.cursor) halign
    rw [← hregions, List.pairwise_map] at hp
    exact hp

/-! ## What is written -/

/-- The writes as bytes at offsets. -/
def stores (writes : List (Reserved × List UInt8)) : List (Nat × List UInt8) :=
  writes.map fun w => (w.1.off, w.2)

/-- Writes inside the buffer succeed. -/
theorem storeAll_ok {writes : List (Reserved × List UInt8)}
    (h : ∀ w ∈ writes, w.1.off + w.2.length ≤ l.buf.length) :
    storeAll l writes = .ok { l with buf := overwriteAll l.buf (stores writes) } := by
  induction writes generalizing l with
  | nil => rfl
  | cons w ws ih =>
    have hw := h w List.mem_cons_self
    rw [storeAll, MetadataLayout.writeAt, copyAt_ok hw, bind_ok, pure_eq_ok, bind_ok, ih]
    · rfl
    · intro v hv
      rw [length_overwrite hw]
      exact h v (List.mem_cons_of_mem _ hv)

/-- Smaller regions at the same places are apart as well. -/
theorem apart_of_le {i m m' j n n' : Nat} (h : Apart i m j n) (hm : m' ≤ m) (hn : n' ≤ n) :
    Apart i m' j n' := by
  rcases h with h | h
  · exact Or.inl (by omega)
  · exact Or.inr (by omega)

variable {calls : List LayoutCall} {writes : List (Reserved × List UInt8)}

/-- Each allocation is written once, in some order, and no write is larger than the space
reserved for it. -/
structure Stores (reserved : List Reserved) (writes : List (Reserved × List UInt8)) : Prop where
  once : (writes.map Prod.fst).Perm reserved
  fit : ∀ w ∈ writes, w.2.length ≤ w.1.size

theorem Stores.mem {reserved : List Reserved} (h : Stores reserved writes)
    {w : Reserved × List UInt8} (hw : w ∈ writes) : w.1 ∈ reserved :=
  h.once.subset (List.mem_map_of_mem hw)

/-- Whatever the order of the writes, each leaves its bytes and disturbs no other. -/
theorem storeAll_reserveAll (h : l.Wf) (hs : Stores (reserveAll l calls).1 writes) :
    ∃ m, storeAll (reserveAll l calls).2 writes = .ok m ∧
      m.buf.length = (reserveAll l calls).2.buf.length ∧
      ∀ w ∈ writes, window m.buf w.1.off w.2.length = w.2 := by
  obtain ⟨hin, hapart⟩ := reserveAll_apart h calls
  have hfits : ∀ w ∈ writes, w.1.off + w.2.length ≤ (reserveAll l calls).2.buf.length := by
    intro w hw
    have hr := hin _ (hs.mem hw)
    have hle := hs.fit w hw
    omega
  have hstores : ∀ v ∈ stores writes, v.1 + v.2.length ≤ (reserveAll l calls).2.buf.length := by
    intro v hv
    obtain ⟨w, hw, rfl⟩ := List.mem_map.mp hv
    exact hfits w hw
  have hsym : ∀ {r s : Reserved}, r.region.Apart s.region → s.region.Apart r.region := Apart.symm
  have hpair := (hs.once.pairwise_iff hsym).mpr hapart
  rw [List.pairwise_map] at hpair
  have hdisjoint : (stores writes).Pairwise fun v w => Apart v.1 v.2.length w.1 w.2.length := by
    rw [stores, List.pairwise_map]
    refine hpair.imp_of_mem fun hv hw ha => ?_
    exact apart_of_le ha (hs.fit _ hv) (hs.fit _ hw)
  refine ⟨_, storeAll_ok hfits, length_overwriteAll hstores, fun w hw => ?_⟩
  exact window_overwriteAll hstores hdisjoint (List.mem_map_of_mem (f := fun w => (w.1.off, w.2)) hw)

/-! ## What the reader finds -/

/-- The reader finds the bytes under the address. -/
def Finds (r : ErofsReader) (address : Address) (data : List UInt8) : Prop :=
  match address with
  | .nid nid => ∃ off, r.nidToOffset nid = .ok off ∧ r.mmapSlice off data.length = .ok data
  | .startblk startblk => r.mmapSlice (startblk * erofsBlockSize) data.length = .ok data
  | .none => True

/-- A reader of a finished image of `n` blocks finds everything written under its address,
and in the superblock what was put there. -/
structure ReadsBack (r : ErofsReader) (writes : List (Reserved × List UInt8)) (rootNid : UInt16)
    (totalInodes epoch : UInt64) (n : Nat) : Prop where
  written : ∀ w ∈ writes, Finds r w.1.address w.2
  rootNid : r.sb.rootNid = rootNid.toNat
  inos : r.sb.inos = totalInodes
  epoch : r.sb.epoch = epoch
  blocks : n < 2 ^ 32 → r.sb.blocks = n

/-- The buffer of the layout goes into an image, given room for it; the image has whole
blocks, and whoever opens it reads everything back. -/
def ImageReadsBack (l : MetadataLayout) (writes : List (Reserved × List UInt8)) : Prop :=
  ∀ (image : Device) (rootNid : UInt16) (totalInodes epoch : UInt64) (blobBlocks : Nat)
    (uuid : Vector UInt8 16), image.bytes = [] →
    (l.buf.length + 8192 ≤ image.room →
      ∃ out, writeImage image l.buf rootNid totalInodes epoch blobBlocks uuid = .ok out) ∧
    ∀ out, writeImage image l.buf rootNid totalInodes epoch blobBlocks uuid = .ok out →
      out.bytes.length = (1 + l.totalBlocks) * erofsBlockSize ∧
      ∀ (file : Mmap) (blob : Option Mmap), file.bytes = out.bytes →
        ∃ r, ErofsReader.openImage (.ok file) (blob.map .ok) = .ok r ∧
          ReadsBack r writes rootNid totalInodes epoch (1 + l.totalBlocks)

/-- The offsets of the allocator, the addresses it hands out and those of the reader stand
for the same bytes. -/
structure AddressesAgree (reserved : List Reserved) (l : MetadataLayout)
    (writes : List (Reserved × List UInt8)) : Prop where
  inside : ∀ r ∈ reserved, r.off + r.size ≤ l.buf.length
  addressed : ∀ r ∈ reserved, r.Addressed
  apart : reserved.Pairwise fun r s => r.region.Apart s.region
  written : ∃ m, storeAll l writes = .ok m ∧ ImageReadsBack m writes

theorem Opened.mmapSlice {r : ErofsReader} {buf data : List UInt8} {rootNid : UInt16}
    {epoch : UInt64} (h : Opened r buf rootNid epoch) {off : Nat}
    (hle : off + data.length ≤ buf.length) (hw : window buf off data.length = data) :
    r.mmapSlice (4096 + off) data.length = .ok data := by
  have hfits := h.fits
  rw [ErofsReader.mmapSlice_ok (by omega), ← window_window hle, h.area, hw]

theorem Opened.finds {r : ErofsReader} {buf data : List UInt8} {rootNid : UInt16} {epoch : UInt64}
    (h : Opened r buf rootNid epoch) {reserved : Reserved} (ha : reserved.Addressed)
    (hle : reserved.off + data.length ≤ buf.length)
    (hw : window buf reserved.off data.length = data) : Finds r reserved.address data := by
  have hread := h.mmapSlice hle hw
  obtain ⟨off, size, address⟩ := reserved
  cases address with
  | nid nid =>
    have hoff : off = nid * 32 := ha
    have hslot : r.slotOffset nid = 4096 + off := by rw [h.slotOffset, hoff]
    refine ⟨4096 + off, ?_, hread⟩
    have hfits := h.fits
    have hlt := r.mmap.lenLt
    dsimp only at hle
    exact hslot ▸ ErofsReader.nidToOffset_ok (by omega)
  | startblk startblk =>
    have hblk : startblk * 4096 = 4096 + off := ha.2
    show r.mmapSlice (startblk * 4096) data.length = .ok data
    rw [hblk]
    exact hread
  | none => trivial

theorem totalBlocks_eq (l : MetadataLayout) : l.totalBlocks = divCeil l.buf.length 4096 := by
  rw [MetadataLayout.totalBlocks, roundUpUsize_block, alignUp, erofsBlockSize, divCeil,
    Nat.mul_div_cancel _ (by decide)]

/-- **Allocator, writer and reader agree.** For every sequence of allocations, written to
in any order: the regions lie in the buffer, aligned and apart; the writes succeed; and a
reader of the image made of the buffer finds each of them under the address the
allocator handed out, and the superblock that was passed. -/
theorem addresses_agree (calls : List LayoutCall) {writes : List (Reserved × List UInt8)}
    (hs : Stores (reserveAll .new calls).1 writes) :
    AddressesAgree (reserveAll .new calls).1 (reserveAll .new calls).2 writes := by
  obtain ⟨-, -, -, haddr⟩ := reserveAll_spec MetadataLayout.wf_new calls
  obtain ⟨hin, hapart⟩ := reserveAll_apart MetadataLayout.wf_new calls
  obtain ⟨m, hstore, hlen, hwritten⟩ := storeAll_reserveAll MetadataLayout.wf_new hs
  refine ⟨hin, haddr, hapart, m, hstore, ?_⟩
  intro image rootNid totalInodes epoch blobBlocks uuid himage
  constructor
  · intro hroom
    obtain ⟨out, hout, -⟩ := writeImage_ok image hroom rootNid totalInodes epoch blobBlocks uuid
    exact ⟨out, hout⟩
  intro out hout
  refine ⟨by rw [totalBlocks_eq]; exact (writeImage_bytes hout himage).1, ?_⟩
  intro file blob hfile
  obtain ⟨r, hr, -, -, hsb, hopened⟩ := openImage_writeImage hout himage hfile blob
  refine ⟨r, hr, ?_, hopened.rootNid, by rw [hsb]; rfl, hopened.epoch, ?_⟩
  · intro w hw
    have hle := hin _ (hs.mem hw)
    have hfit := hs.fit w hw
    exact hopened.finds (haddr _ (hs.mem hw)) (by omega) (hwritten w hw)
  · intro hblocks
    rw [totalBlocks_eq] at hblocks
    rw [hsb, totalBlocks_eq]
    exact UInt32.toNat_ofNat_of_lt' hblocks

/-- An inode and the entries of a directory, written in the other order. -/
def twoStores : List (Reserved × List UInt8) :=
  [(⟨4096, 4096, .startblk 2⟩, [1, 2, 3, 4, 5]), (⟨4096, 0, .none⟩, []),
    (⟨0, 64, .nid 0⟩, List.replicate 40 7)]

theorem addresses_agree_twoStores :
    AddressesAgree (reserveAll .new [.allocInode 40, .padToBlock, .allocDirData 5]).1
      (reserveAll .new [.allocInode 40, .padToBlock, .allocDirData 5]).2 twoStores :=
  addresses_agree [.allocInode 40, .padToBlock, .allocDirData 5]
    ⟨by decide, by decide⟩

end ErofsUtils.Build
