import ErofsUtils.Build.Dir
import ErofsUtils.Store.Packing

/-! # How long a directory is

The blocks of a directory are those of a greedy packing of its entries in order: no other way
to put the entries into blocks in this order is shorter. -/
namespace ErofsUtils.Build
open ErofsUtils.Rust ErofsUtils.Bytes ErofsUtils.Metadata ErofsUtils.Store

/-- What an entry takes of a block: its dirent and its name. -/
def DirChild.room (e : DirChild) : Nat := erofsDirentSize + e.name.length

theorem load_room (entries : List DirChild) :
    load DirChild.room entries = entries.length * 12 + namesLen entries := by
  induction entries with
  | nil => rfl
  | cons e es ih =>
    have hds : erofsDirentSize = 12 := rfl
    rw [load_cons, ih, DirChild.room, namesLen_cons, List.length_cons]
    omega

theorem fitsBlock_iff {entries : List DirChild} :
    FitsBlock entries ↔ load DirChild.room entries ≤ erofsBlockSize := by
  rw [FitsBlock, load_room]
  rfl

/-- The loop over the entries of a block is the general one. -/
theorem takeBlock_eq (count nameArea : Nat) (entries : List DirChild) :
    takeBlock count nameArea entries =
      takeFit DirChild.room erofsBlockSize (count * 12 + nameArea) entries := by
  induction entries generalizing count nameArea with
  | nil => rfl
  | cons e es ih =>
    have hds : (count + 1) * erofsDirentSize = (count + 1) * 12 := rfl
    have hroom : e.room = 12 + e.name.length := rfl
    have hused : count * 12 + nameArea + e.room = (count + 1) * 12 + (nameArea + e.name.length) := by
      omega
    rw [takeBlock, takeFit, hused, ih, hds]

theorem blockGroups_eq_pack {entries : List DirChild} (h : ∀ e ∈ entries, NameFits e) :
    blockGroups entries = pack DirChild.room erofsBlockSize entries := by
  induction hn : entries.length using Nat.strongRecOn generalizing entries with
  | ind n ih =>
    cases entries with
    | nil =>
      rw [blockGroups, pack_nil, dif_neg (by simp [takeBlock])]
    | cons e es =>
      have hfit : 0 + e.room ≤ erofsBlockSize := by
        have he : 12 + e.name.length ≤ 4096 := h e List.mem_cons_self
        have hroom : e.room = 12 + e.name.length := rfl
        have hbs : erofsBlockSize = 4096 := rfl
        omega
      have hlen := congrArg List.length (takeFit_append DirChild.room erofsBlockSize e.room es)
      rw [List.length_append] at hlen
      rw [List.length_cons] at hn
      have hfirst : takeBlock 0 0 (e :: es) =
          (e :: (takeFit DirChild.room erofsBlockSize e.room es).1,
            (takeFit DirChild.room erofsBlockSize e.room es).2) := by
        rw [takeBlock_eq, takeFit, if_neg (by omega)]
        simp
      rw [blockGroups, hfirst, dif_pos (by simp), pack_cons, ih _ (by dsimp only; omega) ?_ rfl]
      intro c hc
      refine h c (List.mem_cons_of_mem _ ?_)
      rw [← takeFit_append DirChild.room erofsBlockSize e.room es]
      exact List.mem_append_right _ hc

/-- A directory is serialized, or it has a name that fits no block. -/
theorem serializeBlocks_cases (entries : List DirChild) : (∀ e ∈ entries, NameFits e) ∨
    serializeBlocks entries = abort (.assertion "directory entry too large for a single block") := by
  induction hn : entries.length using Nat.strongRecOn generalizing entries with
  | ind n ih =>
    cases entries with
    | nil => exact .inl nofun
    | cons e es =>
      have happ := takeBlock_append 0 0 (e :: es)
      have hfits := takeBlock_fits 0 0 (e :: es) (by omega)
      have hlen := congrArg List.length happ
      rw [serializeBlocks, if_neg (by simp)]
      rw [List.length_append] at hlen
      split
      · rename_i hpos
        rcases ih _ (by omega) (takeBlock 0 0 (e :: es)).2 rfl with hrest | habort
        · left
          intro c hc
          rw [← happ] at hc
          rcases List.mem_append.mp hc with hc | hc
          · have htaken : FitsBlock (takeBlock 0 0 (e :: es)).1 := by
              unfold FitsBlock
              omega
            exact (size_le_load hc).trans (fitsBlock_iff.mp htaken)
          · exact hrest c hc
        · right
          have htaken : FitsBlock (takeBlock 0 0 (e :: es)).1 := by
            unfold FitsBlock
            omega
          rw [serializeBlock_ok htaken, bind_ok, habort]
          rfl
      · exact .inr rfl

/-- The blocks hold the entries in order, each as many as fit. -/
structure PackedAs (entries : List DirChild) (blocks : List (List DirChild)) : Prop where
  entries : blocks.flatten = entries
  fits : ∀ b ∈ blocks, FitsBlock b

/-- **A directory is as short as its order allows.** Serializing one ends in the assertion
when a name fits no block. Otherwise its data is a packing of the entries into whole blocks,
and every packing of them in this order takes as many blocks at least. -/
theorem serializeDirectory_shortest (children : List DirChild) (selfNid parentNid : Nat) :
    ((∃ c ∈ children, ¬ NameFits c) → serializeDirectory children selfNid parentNid =
        abort (.assertion "directory entry too large for a single block")) ∧
      ((∀ c ∈ children, NameFits c) → ∃ blocks,
        PackedAs (dirEntryList children selfNid parentNid) blocks ∧
        serializeDirectory children selfNid parentNid = .ok (blocks.flatMap blockBytes) ∧
        (blocks.flatMap blockBytes).length = blocks.length * erofsBlockSize ∧
        ∀ others, PackedAs (dirEntryList children selfNid parentNid) others →
          blocks.length ≤ others.length) := by
  constructor
  · rintro ⟨c, hc, hlong⟩
    refine (serializeBlocks_cases (dirEntryList children selfNid parentNid)).resolve_left ?_
    exact fun hall => hlong (hall c (List.mem_cons_of_mem _ (List.mem_cons_of_mem _ hc)))
  · intro h
    have hall := dirEntryList_fits h selfNid parentNid
    obtain ⟨hok, hflat, hgroups⟩ := serializeBlocks_ok _ hall
    refine ⟨_, ⟨hflat, fun b hb => (hgroups b hb).1⟩, hok,
      (length_flatMap_blockBytes hgroups).1, ?_⟩
    rintro others ⟨hothers, hfit⟩
    rw [blockGroups_eq_pack hall, ← hothers]
    exact length_pack_le fun b hb => fitsBlock_iff.mp (hfit b hb)

/-- The blocks that a directory with these names takes. -/
def dirBlocks (names : List (List UInt8)) : Nat :=
  (pack id erofsBlockSize ((dot :: dotdot :: names).map fun name =>
    erofsDirentSize + name.length)).length

theorem dirBlocks_pos (names : List (List UInt8)) : 0 < dirBlocks names := by
  rw [dirBlocks, List.map_cons, pack_cons]
  exact Nat.succ_pos _

/-- The names alone decide how long a directory is. -/
theorem length_serializeDirectory {children : List DirChild} {selfNid parentNid : Nat}
    {data : List UInt8} (h : serializeDirectory children selfNid parentNid = .ok data) :
    data.length = dirBlocks (children.map DirChild.name) * erofsBlockSize := by
  have hall : ∀ e ∈ dirEntryList children selfNid parentNid, NameFits e := by
    refine (serializeBlocks_cases _).resolve_right fun habort => ?_
    rw [serializeDirectory, habort] at h
    cases h
  obtain ⟨hok, -, hgroups⟩ := serializeBlocks_ok _ hall
  rw [serializeDirectory, hok] at h
  cases h
  have hsizes : ((dot :: dotdot :: children.map DirChild.name).map fun name =>
      erofsDirentSize + name.length) =
      (dirEntryList children selfNid parentNid).map DirChild.room := by
    simp [dirEntryList, DirChild.room]
  rw [(length_flatMap_blockBytes hgroups).1, blockGroups_eq_pack hall, dirBlocks, hsizes,
    length_pack_map]
  rfl

/-- A directory has no more blocks than entries, itself and its parent among them. -/
theorem dirBlocks_le {names : List (List UInt8)} (h : ∀ name ∈ names, name.length ≤ 4084) :
    dirBlocks names ≤ names.length + 2 := by
  have hfits : ∀ b ∈ ((dot :: dotdot :: names).map fun name =>
      [erofsDirentSize + name.length]), load id b ≤ erofsBlockSize := by
    have hdots : ∀ name ∈ dot :: dotdot :: names, name.length ≤ 4084 := by
      intro name hname
      rcases List.mem_cons.mp hname with rfl | hname
      · decide
      rcases List.mem_cons.mp hname with rfl | hname
      · decide
      · exact h name hname
    intro b hb
    obtain ⟨name, hname, rfl⟩ := List.mem_map.mp hb
    have hlen := hdots name hname
    rw [load_cons, load_nil, erofsDirentSize, erofsBlockSize]
    exact Nat.add_le_add (Nat.add_le_add_left hlen 12) (Nat.le_refl 0)
  have hle := length_pack_le hfits
  rw [← List.flatMap_def, ← List.map_eq_flatMap, List.length_map] at hle
  exact hle

end ErofsUtils.Build
