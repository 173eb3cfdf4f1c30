import ErofsUtils.Metadata.Records

/-! # Serializing directories

Entries are packed greedily into blocks: a block takes entries as long as their dirents
and names fit. It holds the dirents, then the names they point to, then zeros. -/
namespace ErofsUtils.Build
open ErofsUtils.Rust ErofsUtils.Bytes ErofsUtils.Metadata

/-- A name, the inode it stands for and its file type. -/
structure DirChild where
  name : List UInt8
  nid : Nat
  fileType : UInt8
deriving DecidableEq

def dot : List UInt8 := [46]
def dotdot : List UInt8 := [46, 46]

/-- The entries of the next block and those behind it, `count` entries with `nameArea` bytes
of names being in the block already. -/
def takeBlock (count nameArea : Nat) : List DirChild → List DirChild × List DirChild
  | [] => ([], [])
  | e :: es =>
    let newDirentArea := (count + 1) * erofsDirentSize
    let newNameArea := nameArea + e.name.length
    if newDirentArea + newNameArea > erofsBlockSize then ([], e :: es)
    else
      let (taken, rest) := takeBlock (count + 1) newNameArea es
      (e :: taken, rest)

theorem takeBlock_append (count nameArea : Nat) (es : List DirChild) :
    (takeBlock count nameArea es).1 ++ (takeBlock count nameArea es).2 = es := by
  induction es generalizing count nameArea with
  | nil => rfl
  | cons e es ih =>
    rw [takeBlock]
    dsimp only
    split
    · rfl
    · rw [List.cons_append, ih]

/-- Dirent `i` and its name, and the entries after it, written into a block. -/
def writeEntries (block : List UInt8) (i nameOffset : Nat) : List DirChild → IoResult (List UInt8)
  | [] => pure block
  | e :: es => do
    let de := ErofsDirent.new e.nid (UInt16.ofNat nameOffset) e.fileType
    let deOffset := i * erofsDirentSize
    let block ← copyAt block deOffset de.asBytes
    let block ← copyAt block nameOffset e.name
    writeEntries block (i + 1) (nameOffset + e.name.length) es

def serializeBlock (entries : List DirChild) : IoResult (List UInt8) :=
  let namesStart := entries.length * erofsDirentSize
  writeEntries (List.replicate erofsBlockSize 0) 0 namesStart entries

def serializeBlocks (entries : List DirChild) : IoResult (List UInt8) :=
  if entries.isEmpty then pure []
  else if _h : (takeBlock 0 0 entries).1.length > 0 then do
    let block ← serializeBlock (takeBlock 0 0 entries).1
    let result ← serializeBlocks (takeBlock 0 0 entries).2
    pure (block ++ result)
  else abort (.assertion "directory entry too large for a single block")
termination_by entries.length
decreasing_by
  have h := congrArg List.length (takeBlock_append 0 0 entries)
  rw [List.length_append] at h
  omega

def dirEntryList (children : List DirChild) (selfNid parentNid : Nat) : List DirChild :=
  ⟨dot, selfNid, erofsFtDir⟩ :: ⟨dotdot, parentNid, erofsFtDir⟩ :: children

def serializeDirectory (children : List DirChild) (selfNid parentNid : Nat) :
    IoResult (List UInt8) := serializeBlocks (dirEntryList children selfNid parentNid)

/-! ## The bytes of a block -/

/-- The dirents of entries whose first name starts at `off`. -/
def direntTable (off : Nat) : List DirChild → List UInt8
  | [] => []
  | e :: es => (ErofsDirent.new e.nid (UInt16.ofNat off) e.fileType).asBytes ++
    direntTable (off + e.name.length) es

def nameBytes (entries : List DirChild) : List UInt8 := entries.flatMap DirChild.name

/-- The bytes the names of the entries take. -/
def namesLen (entries : List DirChild) : Nat := (nameBytes entries).length

def blockBytes (entries : List DirChild) : List UInt8 :=
  direntTable (entries.length * 12) entries ++ nameBytes entries ++
    List.replicate (4096 - (entries.length * 12 + namesLen entries)) 0

@[simp] theorem namesLen_nil : namesLen [] = 0 := rfl
@[simp] theorem namesLen_cons (e : DirChild) (es : List DirChild) :
    namesLen (e :: es) = e.name.length + namesLen es := by simp [namesLen, nameBytes]

@[simp] theorem nameBytes_cons (e : DirChild) (es : List DirChild) :
    nameBytes (e :: es) = e.name ++ nameBytes es := rfl

@[simp] theorem length_direntTable (off : Nat) (es : List DirChild) :
    (direntTable off es).length = es.length * 12 := by
  induction es generalizing off with
  | nil => rfl
  | cons e es ih => rw [direntTable, List.length_append, ih, List.length_cons]; simp; omega

/-- The entries fit a block. -/
def FitsBlock (entries : List DirChild) : Prop := entries.length * 12 + namesLen entries ≤ 4096

theorem length_blockBytes {entries : List DirChild} (h : FitsBlock entries) :
    (blockBytes entries).length = 4096 := by
  have : (nameBytes entries).length = namesLen entries := rfl
  unfold FitsBlock at h
  simp only [blockBytes, List.length_append, length_direntTable, List.length_replicate]
  omega

/-- What a greedy block takes fits. -/
theorem takeBlock_fits (count nameArea : Nat) (es : List DirChild)
    (h : count * 12 + nameArea ≤ 4096) :
    (count + (takeBlock count nameArea es).1.length) * 12 +
      (nameArea + namesLen (takeBlock count nameArea es).1) ≤ 4096 := by
  induction es generalizing count nameArea with
  | nil => simpa [takeBlock] using h
  | cons e es ih =>
    have hds : (count + 1) * erofsDirentSize = (count + 1) * 12 := rfl
    have hbs : erofsBlockSize = 4096 := rfl
    rw [takeBlock]
    dsimp only
    by_cases hfull : (count + 1) * erofsDirentSize + (nameArea + e.name.length) > erofsBlockSize
    · rw [if_pos hfull]
      simpa using h
    · have hrest := ih (count + 1) (nameArea + e.name.length) (by omega)
      rw [if_neg hfull]
      dsimp only
      rw [List.length_cons, namesLen_cons]
      omega

/-- The block is dirents and names so far, with zeros where the rest will stand. -/
theorem writeEntries_ok (es : List DirChild) (front names : List UInt8) (i m : Nat)
    (hi : front.length = i * 12) (hm : namesLen es ≤ m) :
    writeEntries (front ++ List.replicate (es.length * 12) 0 ++ (names ++ List.replicate m 0)) i
        (front.length + es.length * 12 + names.length) es =
      .ok (front ++ direntTable (front.length + es.length * 12 + names.length) es ++
        (names ++ nameBytes es ++ List.replicate (m - namesLen es) 0)) := by
  induction es generalizing front names i m with
  | nil => simp [writeEntries, direntTable, nameBytes]
  | cons e es ih =>
    have hlen : (e :: es).length * 12 = 12 + es.length * 12 := by rw [List.length_cons]; omega
    rw [namesLen_cons] at hm
    obtain ⟨k, rfl⟩ := Nat.exists_eq_add_of_le hm
    rw [hlen]
    generalize hoff : front.length + (12 + es.length * 12) + names.length = off
    generalize hde : (ErofsDirent.new e.nid (UInt16.ofNat off) e.fileType).asBytes = dirent
    have hsize : dirent.length = 12 := by rw [← hde, ErofsDirent.length_asBytes]
    have hdirent : (copyAt (front ++ List.replicate (12 + es.length * 12) 0 ++
        (names ++ List.replicate (e.name.length + namesLen es + k) 0)) (i * 12) dirent :
        IoResult (List UInt8)) = .ok (front ++ dirent ++ List.replicate (es.length * 12) 0 ++
          (names ++ List.replicate (e.name.length + namesLen es + k) 0)) := by
      rw [copyAt_replicate _ _ _ 0 hi.symm (by omega), hsize, Nat.add_sub_cancel_left]
    have hname : (copyAt (front ++ dirent ++ List.replicate (es.length * 12) 0 ++
        (names ++ List.replicate (e.name.length + namesLen es + k) 0)) off e.name :
        IoResult (List UInt8)) =
        .ok (front ++ dirent ++ List.replicate (es.length * 12) 0 ++
          (names ++ e.name ++ List.replicate (namesLen es + k) 0)) := by
      have hcopy : (copyAt (front ++ dirent ++ List.replicate (es.length * 12) 0 ++ names ++
          List.replicate (e.name.length + namesLen es + k) 0 ++ []) off e.name :
          IoResult (List UInt8)) = _ := copyAt_replicate _ _ _ 0
        (by simp only [List.length_append, List.length_replicate]; omega) (by omega)
      rw [show e.name.length + namesLen es + k - e.name.length = namesLen es + k by omega] at hcopy
      simpa only [List.append_nil, List.append_assoc] using hcopy
    have hrest := ih (front ++ dirent) (names ++ e.name) (i + 1) (namesLen es + k)
      (by rw [List.length_append]; omega) (by omega)
    rw [show (front ++ dirent).length + es.length * 12 + (names ++ e.name).length =
      off + e.name.length by simp only [List.length_append]; omega] at hrest
    rw [writeEntries, direntTable, hde, show i * erofsDirentSize = i * 12 from rfl, hdirent,
      bind_ok, hname, bind_ok, hrest, nameBytes_cons, namesLen_cons, Nat.add_sub_cancel_left,
      Nat.add_sub_cancel_left]
    simp only [List.append_assoc]

/-- **A block** is the dirents of its entries, their names and zeros. -/
theorem serializeBlock_ok {entries : List DirChild} (h : FitsBlock entries) :
    serializeBlock entries = .ok (blockBytes entries) := by
  unfold FitsBlock at h
  have hzeros : List.replicate erofsBlockSize (0 : UInt8) =
      [] ++ List.replicate (entries.length * 12) 0 ++
        ([] ++ List.replicate (4096 - entries.length * 12) 0) := by
    rw [List.nil_append, List.nil_append, List.replicate_append_replicate,
      Nat.add_sub_cancel' (by omega)]
    rfl
  have hwrite := writeEntries_ok entries [] [] 0 (4096 - entries.length * 12) rfl (by omega)
  rw [List.length_nil, Nat.zero_add, Nat.add_zero, Nat.sub_sub] at hwrite
  rw [serializeBlock, hzeros, show entries.length * erofsDirentSize = entries.length * 12 from rfl,
    hwrite]
  simp only [blockBytes, List.nil_append, List.append_assoc]

/-! ## The blocks of a directory -/

/-- The entries of each block of a directory. -/
def blockGroups (entries : List DirChild) : List (List DirChild) :=
  if _h : (takeBlock 0 0 entries).1.length > 0 then
    (takeBlock 0 0 entries).1 :: blockGroups (takeBlock 0 0 entries).2
  else []
termination_by entries.length
decreasing_by
  have h := congrArg List.length (takeBlock_append 0 0 entries)
  rw [List.length_append] at h
  omega

/-- A dirent and a name that fit an empty block. -/
def NameFits (e : DirChild) : Prop := 12 + e.name.length ≤ 4096

theorem takeBlock_pos {entries : List DirChild} (h : ∀ e ∈ entries, NameFits e)
    (hne : entries ≠ []) : 0 < (takeBlock 0 0 entries).1.length := by
  cases entries with
  | nil => exact absurd rfl hne
  | cons e es =>
    have he : 12 + e.name.length ≤ 4096 := h e List.mem_cons_self
    have hds : (0 + 1) * erofsDirentSize = 12 := rfl
    have hbs : erofsBlockSize = 4096 := rfl
    rw [takeBlock]
    dsimp only
    rw [if_neg (by omega)]
    exact Nat.succ_pos _

/-- **A directory** whose names fit is the blocks of its groups, and its groups are its entries
in order. -/
theorem serializeBlocks_ok (entries : List DirChild) (h : ∀ e ∈ entries, NameFits e) :
    serializeBlocks entries = .ok ((blockGroups entries).flatMap blockBytes) ∧
      (blockGroups entries).flatten = entries ∧
      ∀ g ∈ blockGroups entries, FitsBlock g ∧ g ≠ [] := by
  induction hn : entries.length using Nat.strongRecOn generalizing entries with
  | ind n ih =>
    rw [serializeBlocks, blockGroups]
    cases entries with
    | nil => simp [takeBlock]
    | cons e es =>
      have hpos := takeBlock_pos h (List.cons_ne_nil e es)
      have happ := takeBlock_append 0 0 (e :: es)
      have hfits := takeBlock_fits 0 0 (e :: es) (by omega)
      have hlen := congrArg List.length happ
      rw [List.length_append] at hlen
      generalize takeBlock 0 0 (e :: es) = split at hpos happ hfits hlen ⊢
      obtain ⟨taken, rest⟩ := split
      dsimp only at hpos happ hfits hlen ⊢
      have htaken : FitsBlock taken := by
        unfold FitsBlock
        omega
      obtain ⟨hbytes, hflat, hall⟩ := ih rest.length (by omega) rest
        (fun e he => h e (happ ▸ List.mem_append_right _ he)) rfl
      rw [if_neg (by simp), dif_pos hpos, dif_pos hpos, serializeBlock_ok htaken, bind_ok, hbytes,
        bind_ok, List.flatMap_cons, List.flatten_cons, hflat]
      refine ⟨rfl, happ, ?_⟩
      intro g hg
      rcases List.mem_cons.mp hg with rfl | hg
      · exact ⟨htaken, List.length_pos_iff.mp hpos⟩
      · exact hall g hg

theorem dirEntryList_fits {children : List DirChild} (h : ∀ c ∈ children, NameFits c)
    (selfNid parentNid : Nat) : ∀ c ∈ dirEntryList children selfNid parentNid, NameFits c := by
  intro c hc
  rcases List.mem_cons.mp hc with rfl | hc
  · exact show 12 + dot.length ≤ 4096 by decide
  rcases List.mem_cons.mp hc with rfl | hc
  · exact show 12 + dotdot.length ≤ 4096 by decide
  · exact h c hc

theorem length_flatMap_blockBytes {groups : List (List DirChild)}
    (h : ∀ g ∈ groups, FitsBlock g ∧ g ≠ []) :
    (groups.flatMap blockBytes).length = groups.length * 4096 ∧
      groups.length ≤ groups.flatten.length := by
  induction groups with
  | nil => exact ⟨rfl, Nat.le_refl _⟩
  | cons g groups ih =>
    obtain ⟨hfits, hne⟩ := h g List.mem_cons_self
    obtain ⟨hlen, hle⟩ := ih fun g hg => h g (List.mem_cons_of_mem _ hg)
    have hpos := List.length_pos_iff.mpr hne
    rw [List.flatMap_cons, List.flatten_cons, List.length_append, List.length_append,
      length_blockBytes hfits, hlen, List.length_cons]
    omega

/-- **Packing** succeeds on names that fit a block, and takes one block at least and no more
than one an entry. -/
theorem serializeDirectory_ok {children : List DirChild} (h : ∀ c ∈ children, NameFits c)
    (selfNid parentNid : Nat) :
    ∃ data, serializeDirectory children selfNid parentNid = .ok data ∧ 4096 ≤ data.length ∧
      data.length ≤ (children.length + 2) * 4096 := by
  obtain ⟨hok, hflat, hgroups⟩ := serializeBlocks_ok _ (dirEntryList_fits h selfNid parentNid)
  obtain ⟨hlen, hle⟩ := length_flatMap_blockBytes hgroups
  have hentries : (dirEntryList children selfNid parentNid).length = children.length + 2 := rfl
  rw [hflat] at hle
  refine ⟨_, hok, ?_, by omega⟩
  have hpos : 0 < (blockGroups (dirEntryList children selfNid parentNid)).length := by
    rw [List.length_pos_iff]
    intro hnil
    rw [hnil] at hflat
    cases hflat
  omega

end ErofsUtils.Build
