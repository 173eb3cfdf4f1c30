import ErofsUtils.Roundtrip.Directory
import ErofsUtils.Store.Search

/-! # The order of stored names

The format wants the names of a directory in strictly increasing order of their bytes, so
that they can be searched. Nothing is sorted here: `.` and `..` are put in front of the children
whatever their names, and the children stay as they come. -/
namespace ErofsUtils.Roundtrip
open ErofsUtils.Rust ErofsUtils.Bytes ErofsUtils.Metadata ErofsUtils.Build ErofsUtils.Fs
open ErofsUtils.Store

variable {children : List DirChild} {selfNid parentNid : Nat}

theorem runCallback_collect (es : List CachedDirEntry) :
    runCallback ErofsReader.collect es [] = .ok es := by
  rw [runCallback, runScan_collect]
  rfl

/-- The names of the directory, in the order they are read, increase strictly, and searching
them finds every entry. -/
def StoredInOrder (children : List DirChild) (selfNid parentNid : Nat) : Prop :=
  ∃ data es, serializeDirectory children selfNid parentNid = .ok data ∧
    parseDirEntries data data.length ErofsReader.collect 0 [] = .ok es ∧
    (es.map CachedDirEntry.name).Pairwise (· < ·) ∧
    ∀ e ∈ dirEntryList children selfNid parentNid, ∃ i,
      search (es.map CachedDirEntry.name) e.name = some i ∧ es[i]? = some (cached e)

theorem storable_dirEntryList (h : ∀ c ∈ children, Storable c) (hself : selfNid < 2 ^ 64)
    (hparent : parentNid < 2 ^ 64) :
    ∀ e ∈ dirEntryList children selfNid parentNid, Storable e := by
  intro e he
  rcases List.mem_cons.mp he with rfl | he
  · exact ⟨storableName_dot, hself⟩
  rcases List.mem_cons.mp he with rfl | he
  · exact ⟨storableName_dotdot, hparent⟩
  · exact h e he

theorem read_serializeDirectory (h : ∀ c ∈ children, Storable c) (hself : selfNid < 2 ^ 64)
    (hparent : parentNid < 2 ^ 64) :
    ∃ data, serializeDirectory children selfNid parentNid = .ok data ∧
      parseDirEntries data data.length ErofsReader.collect 0 [] =
        .ok ((dirEntryList children selfNid parentNid).map cached) := by
  obtain ⟨data, hdata, -, -, hparse⟩ :=
    parse_serializeBlocks _ (storable_dirEntryList h hself hparent)
  exact ⟨data, hdata, by rw [hparse, runCallback_collect]⟩

theorem names_dirEntryList (children : List DirChild) (selfNid parentNid : Nat) :
    ((dirEntryList children selfNid parentNid).map cached).map CachedDirEntry.name =
      dot :: dotdot :: children.map DirChild.name := by
  simp only [dirEntryList, List.map_cons, List.map_map]
  rfl

theorem names_inOrder_iff {names : List (List UInt8)} :
    (dot :: dotdot :: names).Pairwise (· < ·) ↔
      (∀ name ∈ names, dotdot < name) ∧ names.Pairwise (· < ·) := by
  have hfirst : dot < dotdot := by decide
  rw [List.pairwise_cons, List.pairwise_cons, and_iff_right_of_imp]
  rintro ⟨hdotdot, -⟩ name hname
  rcases List.mem_cons.mp hname with rfl | hname
  · exact hfirst
  · exact List.lt_trans hfirst (hdotdot name hname)

/-- **The order of stored names.** Any children are stored in order exactly when their names
increase and are larger than `..`. -/
theorem storedInOrder_children_iff (h : ∀ c ∈ children, Storable c) (hself : selfNid < 2 ^ 64)
    (hparent : parentNid < 2 ^ 64) :
    StoredInOrder children selfNid parentNid ↔
      (∀ name ∈ children.map DirChild.name, dotdot < name) ∧
        (children.map DirChild.name).Pairwise (· < ·) := by
  obtain ⟨data, hdata, hread⟩ := read_serializeDirectory h hself hparent
  rw [← names_inOrder_iff, ← names_dirEntryList children selfNid parentNid]
  constructor
  · rintro ⟨data', es, hdata', hread', hsorted, -⟩
    rw [hdata] at hdata'
    cases hdata'
    rw [hread] at hread'
    cases hread'
    exact hsorted
  · intro hsorted
    refine ⟨data, _, hdata, hread, hsorted, ?_⟩
    intro e he
    obtain ⟨i, hi⟩ := List.mem_iff_getElem?.mp he
    refine ⟨i, search_of_sorted hsorted ?_, ?_⟩
    · rw [List.getElem?_map, List.getElem?_map, hi]
      rfl
    · rw [List.getElem?_map, hi]
      rfl

end ErofsUtils.Roundtrip
