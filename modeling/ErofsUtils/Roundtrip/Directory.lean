import ErofsUtils.Build.Dir
import ErofsUtils.Fs.Directory

/-! # Reading a serialized directory back

The packer and the parser find the end of a name by different rules: the next dirent's
offset inside a block, and a scan for NUL for the last name of a block. -/
namespace ErofsUtils.Roundtrip
open ErofsUtils.Rust ErofsUtils.Bytes ErofsUtils.Metadata ErofsUtils.Build ErofsUtils.Fs

/-- A name that a block can hold and the parser can find: some bytes, none of them NUL. -/
structure StorableName (name : List UInt8) : Prop where
  ne_nil : name ≠ []
  noNul : (0 : UInt8) ∉ name
  fits : 12 + name.length ≤ 4096

theorem storableName_dot : StorableName dot := ⟨by decide, by decide, by decide⟩
theorem storableName_dotdot : StorableName dotdot := ⟨by decide, by decide, by decide⟩

/-- An entry whose name and nid are stored as they are. -/
structure Storable (e : DirChild) : Prop where
  name : StorableName e.name
  nid : e.nid < 2 ^ 64

/-- The entry as the reader hands it out. -/
def cached (e : DirChild) : CachedDirEntry :=
  { nid := e.nid, fileType := e.fileType, name := e.name }

/-! ## A block -/

theorem direntTable_append (off : Nat) (es fs : List DirChild) :
    direntTable off (es ++ fs) = direntTable off es ++ direntTable (off + namesLen es) fs := by
  induction es generalizing off with
  | nil => rfl
  | cons e es ih =>
    rw [List.cons_append, direntTable, direntTable, ih, namesLen_cons, List.append_assoc,
      Nat.add_assoc]

theorem nameBytes_append (es fs : List DirChild) :
    nameBytes (es ++ fs) = nameBytes es ++ nameBytes fs := List.flatMap_append

theorem namesLen_append (es fs : List DirChild) :
    namesLen (es ++ fs) = namesLen es + namesLen fs := by
  rw [namesLen, nameBytes_append, List.length_append]
  rfl

variable {es front rest : List DirChild} {e : DirChild}

theorem direntAt_blockBytes (hes : es = front ++ e :: rest) :
    direntAt (blockBytes es) front.length =
      ErofsDirent.new e.nid (UInt16.ofNat (es.length * 12 + namesLen front)) e.fileType := by
  have htable : blockBytes es = direntTable (es.length * 12) front ++
      (ErofsDirent.codec.enc
          (.new e.nid (UInt16.ofNat (es.length * 12 + namesLen front)) e.fileType) ++
        (direntTable (es.length * 12 + namesLen front + e.name.length) rest ++ nameBytes es ++
          List.replicate (4096 - (es.length * 12 + namesLen es)) 0)) := by
    have happ := direntTable_append (es.length * 12) front (e :: rest)
    rw [← hes, direntTable] at happ
    rw [blockBytes, happ]
    simp only [List.append_assoc]
    rfl
  rw [direntAt, htable, show front.length * erofsDirentSize =
    (direntTable (es.length * 12) front).length from (length_direntTable _ _).symm,
    List.drop_left, Codec.dec_enc_append]

theorem nameoffAt_blockBytes (hes : es = front ++ e :: rest) (hfits : FitsBlock es) :
    nameoffAt (blockBytes es) front.length = es.length * 12 + namesLen front := by
  have hlt : es.length * 12 + namesLen front < 2 ^ 16 := by
    have := namesLen_append front (e :: rest)
    rw [← hes] at this
    unfold FitsBlock at hfits
    omega
  rw [nameoffAt, direntAt_blockBytes hes]
  exact (UInt16.toNat_ofNat').trans (Nat.mod_eq_of_lt hlt)

theorem drop_blockBytes (hes : es = front ++ rest) :
    (blockBytes es).drop (es.length * 12 + namesLen front) =
      nameBytes rest ++ List.replicate (4096 - (es.length * 12 + namesLen es)) 0 := by
  have hnames : blockBytes es = (direntTable (es.length * 12) es ++ nameBytes front) ++
      (nameBytes rest ++ List.replicate (4096 - (es.length * 12 + namesLen es)) 0) := by
    rw [blockBytes]
    conv_lhs => arg 1; arg 2; rw [hes, nameBytes_append]
    simp only [List.append_assoc]
  rw [hnames, show es.length * 12 + namesLen front =
    (direntTable (es.length * 12) es ++ nameBytes front).length by
      rw [List.length_append, length_direntTable]; rfl, List.drop_left]

/-- The scan stops right behind a name that zeros follow. -/
theorem takeWhile_name {name : List UInt8} (h : (0 : UInt8) ∉ name) (n : Nat) :
    (name ++ List.replicate n 0).takeWhile (· ≠ 0) = name := by
  have hall : ∀ b ∈ name, decide (b ≠ 0) = true := by
    intro b hb
    refine decide_eq_true ?_
    intro h0
    subst h0
    exact h hb
  rw [List.takeWhile_append_of_pos hall]
  cases n <;> simp [List.replicate_succ]

theorem nameEndAt_blockBytes (hes : es = front ++ e :: rest) (hfits : FitsBlock es)
    (hname : (0 : UInt8) ∉ e.name) :
    nameEndAt (blockBytes es) es.length front.length =
      es.length * 12 + namesLen front + e.name.length := by
  rw [nameEndAt]
  cases rest with
  | nil =>
    have hlast : ¬ front.length + 1 < es.length := by rw [hes]; simp
    rw [if_neg hlast, nameoffAt_blockBytes hes hfits, scanName, drop_blockBytes hes]
    rw [show nameBytes [e] = e.name by simp [nameBytes], takeWhile_name hname]
  | cons f rest =>
    have hnext : es = (front ++ [e]) ++ f :: rest := by rw [hes]; simp
    have hoff := nameoffAt_blockBytes hnext hfits
    rw [if_pos (by rw [hes]; simp)]
    rw [List.length_append, namesLen_append] at hoff
    simpa [Nat.add_assoc] using hoff

/-- An entry of the block, read back. -/
theorem entryAt_blockBytes (hes : es = front ++ e :: rest) (hfits : FitsBlock es)
    (he : Storable e) : entryAt (blockBytes es) es.length front.length = cached e := by
  have hname : window (blockBytes es) (es.length * 12 + namesLen front) e.name.length = e.name := by
    rw [window, drop_blockBytes hes, nameBytes_cons, List.append_assoc, List.take_left]
  rw [entryAt, nameEndAt_blockBytes hes hfits he.name.noNul, nameoffAt_blockBytes hes hfits,
    Nat.add_sub_cancel_left, hname, direntAt_blockBytes hes]
  have hnid : (UInt64.ofNat e.nid).toNat = e.nid :=
    UInt64.toNat_ofNat_of_lt' he.nid
  simp only [ErofsDirent.new, hnid, cached]

/-- **A block** lists its entries and nothing else. -/
theorem scanBlock_blockBytes (hes : es = front ++ rest) (hfits : FitsBlock es)
    (hall : ∀ e ∈ es, Storable e) :
    scanBlock (blockBytes es) es.length rest.length front.length = (rest.map cached, none) := by
  induction rest generalizing front with
  | nil => rfl
  | cons e rest ih =>
    have he := hall e (hes ▸ List.mem_append_right _ List.mem_cons_self)
    have hnext := ih (show es = (front ++ [e]) ++ rest by rw [hes]; simp)
    have hlen := length_blockBytes hfits
    have hsplit := namesLen_append front (e :: rest)
    have hcount := congrArg List.length hes
    have hpos := List.length_pos_iff.mpr he.name.ne_nil
    rw [← hes, namesLen_cons] at hsplit
    rw [List.length_append, List.length_cons] at hcount
    rw [List.length_append, List.length_singleton] at hnext
    unfold FitsBlock at hfits
    rw [List.length_cons, scanBlock, if_neg (by omega), if_neg (by omega),
      nameEndAt_blockBytes hes hfits he.name.noNul, nameoffAt_blockBytes hes hfits,
      if_neg (by omega), if_neg (by omega), entryAt_blockBytes hes hfits he, hnext]
    rfl

theorem scanWhole_blockBytes (hne : es ≠ []) (hfits : FitsBlock es)
    (hall : ∀ e ∈ es, Storable e) : scanWhole (blockBytes es) = (es.map cached, none) := by
  have hlen := length_blockBytes hfits
  have hds : erofsDirentSize = 12 := rfl
  have hfirst : nameoffAt (blockBytes es) 0 = es.length * 12 := by
    cases es with
    | nil => exact absurd rfl hne
    | cons e rest =>
      have hfront : e :: rest = [] ++ e :: rest := rfl
      have hoff := nameoffAt_blockBytes hfront hfits
      rw [List.length_nil] at hoff
      exact hoff
  have hfront : es = [] ++ es := rfl
  have hscan := scanBlock_blockBytes hfront hfits hall
  rw [List.length_nil] at hscan
  rw [scanWhole, if_neg (by omega), hfirst, hds, Nat.mul_div_cancel _ (by decide)]
  exact hscan

/-! ## A whole directory -/

/-- The blocks that a buffer is made of. -/
theorem dirBlocks_flatten (front : List UInt8) (k : Nat) (hfront : front.length = k * 4096)
    {blocks : List (List UInt8)} (h : ∀ b ∈ blocks, b.length = 4096) :
    dirBlocks (front ++ blocks.flatten) k blocks.length = blocks := by
  induction blocks generalizing front k with
  | nil => rfl
  | cons b blocks ih =>
    have hb := h b List.mem_cons_self
    have hrest := ih (front ++ b) (k + 1) (by rw [List.length_append]; omega)
      fun c hc => h c (List.mem_cons_of_mem _ hc)
    rw [List.append_assoc] at hrest
    rw [List.flatten_cons, List.length_cons, dirBlocks, List.range'_succ, List.map_cons,
      ← dirBlocks, hrest, ← hfront, ← hb, ← List.append_assoc, window_middle]

theorem length_flatten_blocks {blocks : List (List UInt8)} (h : ∀ b ∈ blocks, b.length = 4096) :
    blocks.flatten.length = blocks.length * 4096 := by
  induction blocks with
  | nil => rfl
  | cons b blocks ih =>
    rw [List.flatten_cons, List.length_append, h b List.mem_cons_self,
      ih fun c hc => h c (List.mem_cons_of_mem _ hc), List.length_cons]
    omega

/-- **Reading a directory back.** The packer succeeds on entries with storable names, its
result is a whole number of blocks, and the parser runs its callback over exactly the entries
packed, in order. -/
theorem parse_serializeBlocks (entries : List DirChild) (hall : ∀ e ∈ entries, Storable e) :
    ∃ data, serializeBlocks entries = .ok data ∧ 4096 ∣ data.length ∧
      (entries ≠ [] → 0 < data.length) ∧
      ∀ (σ : Type) (cb : DirCallback σ) (s : σ),
        parseDirEntries data data.length cb 0 s = runCallback cb (entries.map cached) s := by
  obtain ⟨hok, hflat, hgroups⟩ := serializeBlocks_ok entries fun e he => (hall e he).name.fits
  have hmem : ∀ g ∈ blockGroups entries, ∀ e ∈ g, Storable e := fun g hg e he =>
    hall e (hflat ▸ List.mem_flatten.mpr ⟨g, hg, he⟩)
  have hblocks : ∀ b ∈ (blockGroups entries).map blockBytes, b.length = 4096 := by
    intro b hb
    obtain ⟨g, hg, rfl⟩ := List.mem_map.mp hb
    exact length_blockBytes (hgroups g hg).1
  have hlen := length_flatten_blocks hblocks
  have hscan : ∀ b ∈ (blockGroups entries).map blockBytes, (scanWhole b).2 = none := by
    intro b hb
    obtain ⟨g, hg, rfl⟩ := List.mem_map.mp hb
    rw [scanWhole_blockBytes (hgroups g hg).2 (hgroups g hg).1 (hmem g hg)]
  have hentries : ((blockGroups entries).map blockBytes).flatMap (fun b => (scanWhole b).1) =
      entries.map cached := by
    rw [List.flatMap_map, ← hflat, List.map_flatten, hflat, ← List.flatMap_def]
    exact List.flatMap_congr fun g hg =>
      by rw [scanWhole_blockBytes (hgroups g hg).2 (hgroups g hg).1 (hmem g hg)]
  refine ⟨_, hok, ?_, ?_, ?_⟩
  · rw [List.flatMap_def, hlen]
    exact Nat.dvd_mul_left _ _
  · intro hne
    rw [List.flatMap_def, hlen, List.length_map]
    have hpos : 0 < (blockGroups entries).length := by
      rw [List.length_pos_iff]
      intro hnil
      rw [hnil] at hflat
      exact hne hflat.symm
    omega
  · intro σ cb s
    rw [List.flatMap_def, parseDirEntries_zero, hlen]
    have hcells := dirBlocks_flatten [] 0 rfl hblocks
    rw [show divCeil (((blockGroups entries).map blockBytes).length * 4096) 4096 =
      ((blockGroups entries).map blockBytes).length from mul_divCeil _ (by decide)]
    rw [List.nil_append] at hcells
    rw [hcells, runBlocks_of_none hscan, hentries]

end ErofsUtils.Roundtrip
