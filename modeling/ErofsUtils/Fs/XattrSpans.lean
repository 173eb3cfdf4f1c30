import ErofsUtils.Fs.Arithmetic

/-! # Extended attributes of any image

Every length in an attribute body is the image's to choose. The parser takes the body apart
into spans, one behind the other, and gives up at the first that leaves it: it reads nothing
but the body, and whatever stands there it returns. -/
namespace ErofsUtils.Fs
open ErofsUtils.Rust ErofsUtils.Bytes ErofsUtils.Metadata

/-- Where the name and the value of an entry stand in the body: the value right behind the
name. -/
structure XattrSpan where
  nameIndex : UInt8
  nameStart : Nat
  nameLen : Nat
  valueSize : Nat

namespace XattrSpan

def valueStart (s : XattrSpan) : Nat := s.nameStart + s.nameLen

def valueEnd (s : XattrSpan) : Nat := s.valueStart + s.valueSize

def suffix (s : XattrSpan) (data : List UInt8) : List UInt8 := window data s.nameStart s.nameLen

def value (s : XattrSpan) (data : List UInt8) : List UInt8 := window data s.valueStart s.valueSize

/-- What the reader returns for the entry. -/
def read (s : XattrSpan) (data : List UInt8) : List UInt8 × List UInt8 :=
  (match erofsXattrPrefix s.nameIndex with
    | some front => front ++ s.suffix data
    | none => s.suffix data,
    s.value data)

end XattrSpan

/-- The entry whose header stands at `pos`. -/
def spanAt (data : List UInt8) (pos : Nat) : XattrSpan where
  nameIndex := data.getD (pos + 1) 0
  nameStart := pos + erofsXattrEntryHeaderSize
  nameLen := (data.getD pos 0).toNat
  valueSize := leNat [data.getD (pos + 2) 0, data.getD (pos + 3) 0]

theorem le_roundUp_valueEnd (data : List UInt8) (pos : Nat) :
    (spanAt data pos).valueEnd ≤ roundUp (spanAt data pos).valueEnd erofsXattrEntryHeaderSize := by
  rw [erofsXattrEntryHeaderSize, roundUp_four]
  exact le_alignUp (by decide)

theorem lt_valueEnd (data : List UInt8) (pos : Nat) : pos + 4 ≤ (spanAt data pos).valueEnd := by
  rw [XattrSpan.valueEnd, XattrSpan.valueStart]
  show pos + 4 ≤ pos + 4 + _ + _
  omega

/-- The entries of a body from `pos` on. -/
def entrySpans (data : List UInt8) (pos : Nat) : List XattrSpan :=
  if _h : pos + erofsXattrEntryHeaderSize ≤ data.length then
    if (spanAt data pos).valueEnd > data.length then []
    else spanAt data pos ::
      entrySpans data (roundUp (spanAt data pos).valueEnd erofsXattrEntryHeaderSize)
  else []
termination_by data.length - pos
decreasing_by
  have hround := le_roundUp_valueEnd data pos
  have hlt := lt_valueEnd data pos
  rw [erofsXattrEntryHeaderSize] at *
  omega

variable {data : List UInt8} {pos : Nat} {s : XattrSpan}

/-- **The parser** returns what stands in the spans, and nothing stops it. -/
theorem readXattrEntries_eq (data : List UInt8) (pos : Nat) :
    readXattrEntries data pos = .ok ((entrySpans data pos).map fun s => s.read data) := by
  have hsize : erofsXattrEntryHeaderSize = 4 := rfl
  fun_induction entrySpans data pos with
  | case1 pos h hout =>
    rw [readXattrEntries, dif_pos h, getAt_ok (by omega) 0, bind_ok, getAt_ok (by omega) 0, bind_ok,
      getAt_ok (by omega) 0, bind_ok, getAt_ok (by omega) 0, bind_ok]
    exact if_pos hout
  | case2 pos h hin ih =>
    have hvalue : (spanAt data pos).valueEnd ≤ data.length := Nat.not_lt.mp hin
    have hname : (spanAt data pos).nameStart ≤ (spanAt data pos).valueStart := Nat.le_add_right _ _
    have hstart : (spanAt data pos).valueStart ≤ (spanAt data pos).valueEnd := Nat.le_add_right _ _
    rw [readXattrEntries, dif_pos h, getAt_ok (by omega) 0, bind_ok, getAt_ok (by omega) 0, bind_ok,
      getAt_ok (by omega) 0, bind_ok, getAt_ok (by omega) 0, bind_ok]
    show (if (spanAt data pos).valueEnd > data.length then pure [] else do
      let suffix ← slice data (spanAt data pos).nameStart (spanAt data pos).valueStart
      let fullName := match erofsXattrPrefix (spanAt data pos).nameIndex with
        | some front => front ++ suffix
        | none => suffix
      let value ← slice data (spanAt data pos).valueStart (spanAt data pos).valueEnd
      let rest ← readXattrEntries data
        (roundUp (spanAt data pos).valueEnd erofsXattrEntryHeaderSize)
      pure ((fullName, value) :: rest) : IoResult _) = _
    rw [if_neg hin, slice_ok hname (by omega), bind_ok, slice_ok hstart hvalue, bind_ok, ih,
      bind_ok, XattrSpan.valueEnd, Nat.add_sub_cancel_left, XattrSpan.valueStart,
      Nat.add_sub_cancel_left]
    rfl
  | case3 pos h =>
    rw [readXattrEntries, dif_neg h]
    rfl

/-- An entry stands behind its header and inside the body. -/
theorem entrySpans_inside (h : s ∈ entrySpans data pos) :
    pos + erofsXattrEntryHeaderSize ≤ s.nameStart ∧ s.valueEnd ≤ data.length := by
  fun_induction entrySpans data pos with
  | case1 pos _ _ => cases h
  | case2 pos _ hin ih =>
    have hround := le_roundUp_valueEnd data pos
    have hlt := lt_valueEnd data pos
    rcases List.mem_cons.mp h with rfl | h
    · exact ⟨Nat.le_refl _, Nat.not_lt.mp hin⟩
    · have := ih h
      omega
  | case3 pos _ => cases h

/-- An entry ends before the header of any later one. -/
theorem entrySpans_apart (data : List UInt8) (pos : Nat) :
    (entrySpans data pos).Pairwise fun s t =>
      s.valueEnd + erofsXattrEntryHeaderSize ≤ t.nameStart := by
  fun_induction entrySpans data pos with
  | case1 pos _ _ => exact List.Pairwise.nil
  | case2 pos _ _ ih =>
    refine List.Pairwise.cons (fun t ht => ?_) ih
    have hround := le_roundUp_valueEnd data pos
    have := (entrySpans_inside ht).1
    omega
  | case3 pos _ => exact List.Pairwise.nil

/-! ## The attributes of an inode -/

namespace ErofsReader
variable {r : ErofsReader} {nid : Nat} {v : ErofsInode}

/-- The attribute body of an inode: as many bytes behind the header as the count tells. -/
def xattrBody (r : ErofsReader) (nid : Nat) (v : ErofsInode) : List UInt8 :=
  window r.mmap.bytes (r.slotOffset nid + v.headerSize) v.xattrSize

/-- Where the entries of a body start: behind its header and the shared references. -/
def entriesStart (body : List UInt8) : Nat :=
  erofsXattrIbodyHeaderSize + (body.getD 4 0).toNat * 4

theorem twelve_le_xattrSize (h : v.xattrSize ≠ 0) : 12 ≤ v.xattrSize := by
  unfold ErofsInode.xattrSize at *
  dsimp only at *
  split at h
  · exact absurd rfl h
  · rename_i hcount
    have : v.xattrIcount.toNat ≠ 0 := fun h0 => hcount (UInt16.toNat_inj.mp h0)
    rw [if_neg hcount]
    omega

theorem slotOffset_lt (r : ErofsReader) (h : nid < 2 ^ 58) :
    r.slotOffset nid < 2 ^ 63 + 2 ^ 44 := by
  have hmeta := r.sb.metaBlkaddr.toNat_lt
  rw [slotOffset, erofsBlockSize, erofsSlotsize]
  omega

/-- The attributes of an inode are the entries of its body. -/
theorem readXattrs_eq (hnid : nid < 2 ^ 58) (h : v.xattrSize ≠ 0) :
    r.readXattrs nid v = r.mmapSlice (r.slotOffset nid + v.headerSize) v.xattrSize >>= fun body =>
      pure ((entrySpans body (entriesStart body)).map fun s => s.read body) := by
  have hslot := r.slotOffset_lt hnid
  have hheader := v.headerSize_add_xattrSize_le
  have hsize := twelve_le_xattrSize h
  unfold readXattrs
  dsimp only
  rw [if_neg h, nidToOffset_ok (by omega), bind_ok, checkedAdd_ok (by omega), bind_ok]
  cases hbody : r.mmapSlice (r.slotOffset nid + v.headerSize) v.xattrSize with
  | error e => rfl
  | ok body =>
    have hlen : body.length = v.xattrSize := by
      obtain ⟨hle, rfl⟩ := mmapSlice_eq_ok.mp hbody
      exact length_window_of_le hle
    rw [bind_ok, bind_ok, if_neg (by rw [erofsXattrIbodyHeaderSize]; omega), getAt_ok (by omega) 0,
      bind_ok]
    show (if entriesStart body ≥ body.length then pure []
      else readXattrEntries body (entriesStart body) : IoResult _) = _
    split
    · rename_i hend
      rw [entrySpans, dif_neg (by rw [erofsXattrEntryHeaderSize]; omega)]
      rfl
    · exact readXattrEntries_eq body (entriesStart body)

/-- The body of an inode ends in the image. -/
def BodyFits (r : ErofsReader) (nid : Nat) (v : ErofsInode) : Prop :=
  r.slotOffset nid + v.headerSize + v.xattrSize ≤ r.mmap.bytes.length

/-- **Attributes of any inode** are read without a panic. The read fails only where the body
does not fit; what it returns stands in spans of the body behind the shared references, each
behind the one before; and it depends on the bytes of the body alone. -/
theorem readXattrs_safe (r : ErofsReader) (v : ErofsInode) (hnid : nid < 2 ^ 58) :
    NoPanic (r.readXattrs nid v) ∧
    ((∃ e, r.readXattrs nid v = fail e) ↔ v.xattrSize ≠ 0 ∧ ¬ r.BodyFits nid v) ∧
    ∀ l, r.readXattrs nid v = .ok l →
      (∃ spans : List XattrSpan, l = spans.map (fun s => s.read (r.xattrBody nid v)) ∧
        (∀ s ∈ spans, entriesStart (r.xattrBody nid v) + erofsXattrEntryHeaderSize ≤ s.nameStart ∧
          s.valueEnd ≤ v.xattrSize) ∧
        spans.Pairwise fun s t => s.valueEnd + erofsXattrEntryHeaderSize ≤ t.nameStart) ∧
      ∀ (r' : ErofsReader) (v' : ErofsInode) (nid' : Nat), nid' < 2 ^ 58 →
        v'.xattrSize = v.xattrSize → r'.xattrBody nid' v' = r.xattrBody nid v →
        r'.readXattrs nid' v' = .ok l := by
  by_cases h0 : v.xattrSize = 0
  · have hnone : ∀ (r : ErofsReader) (v : ErofsInode) nid, v.xattrSize = 0 →
        r.readXattrs nid v = .ok [] := fun r v nid h => if_pos h
    rw [hnone r v nid h0]
    refine ⟨noPanic_ok _, ?_, ?_⟩
    · simp [h0, fail]
    · intro l hl
      cases hl
      refine ⟨⟨[], rfl, nofun, List.Pairwise.nil⟩, fun r' v' nid' _ hv' _ => ?_⟩
      exact hnone r' v' nid' (hv'.trans h0)
  · have hsize := twelve_le_xattrSize h0
    rw [readXattrs_eq hnid h0]
    refine ⟨noPanic_bind.mpr ⟨mmapSlice_noPanic _ _ _, fun body _ => noPanic_ok _⟩, ?_, ?_⟩
    · rw [and_iff_right h0, BodyFits]
      by_cases hfits : r.slotOffset nid + v.headerSize + v.xattrSize ≤ r.mmap.bytes.length
      · rw [mmapSlice_ok hfits]
        simp [hfits, fail]
      · have hfail := mmapSlice_noPanic r (r.slotOffset nid + v.headerSize) v.xattrSize
        cases hslice : r.mmapSlice (r.slotOffset nid + v.headerSize) v.xattrSize with
        | ok body => exact absurd (mmapSlice_eq_ok.mp hslice).1 hfits
        | error e =>
          cases e with
          | panic p => exact absurd hslice (hfail p)
          | fail e => exact ⟨fun _ => hfits, fun _ => ⟨e, rfl⟩⟩
    · intro l hl
      obtain ⟨body, hbody, hl⟩ := bind_eq_ok.mp hl
      obtain ⟨hfits, hwin⟩ := mmapSlice_eq_ok.mp hbody
      have hlen : body.length = v.xattrSize := hwin ▸ length_window_of_le hfits
      change r.xattrBody nid v = body at hwin
      cases hl
      rw [hwin]
      refine ⟨⟨_, rfl, fun s hs => hlen ▸ entrySpans_inside hs, entrySpans_apart _ _⟩, ?_⟩
      intro r' v' nid' hnid' hv' hbody'
      have hfits' : r'.slotOffset nid' + v'.headerSize + v'.xattrSize ≤ r'.mmap.bytes.length := by
        have hlen' := congrArg List.length hbody'
        rw [xattrBody, length_window] at hlen'
        omega
      rw [readXattrs_eq hnid' (hv' ▸ h0), mmapSlice_ok hfits', bind_ok, ← xattrBody, hbody']
      rfl

/-- A compact inode with the attribute `user.a`, and the image it stands in. -/
def userAInode : ErofsInodeCompact :=
  { ErofsInodeCompact.new 0 0o100644 0 0 0 0 1 0 0 with iXattrIcount := 3 }

def userAReader : ErofsReader :=
  imageReader { magic := erofsSuperMagicV1 }
    (userAInode.asBytes ++ List.replicate 12 0 ++ [1, 1, 1, 0, 97, 49, 0, 0]) none (by decide)

theorem readXattrs_safe_userA : NoPanic (userAReader.readXattrs 36 (.compact userAInode)) ∧
    ¬ ∃ e, userAReader.readXattrs 36 (.compact userAInode) = fail e := by
  obtain ⟨hsafe, hfails, -⟩ := readXattrs_safe userAReader (.compact userAInode)
    (show 36 < 2 ^ 58 by decide)
  refine ⟨hsafe, fun h => (hfails.mp h).2 ?_⟩
  unfold BodyFits
  decide +kernel

end ErofsReader
end ErofsUtils.Fs
