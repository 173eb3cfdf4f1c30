import ErofsUtils.Bytes.Spells
import ErofsUtils.Fs.HandleRuns

/-! # Listing a directory in pieces

A directory is listed by any number of calls, each taking up where the last accepted entry
ended. A call shows the entries from its offset on, `readdir` and `readdirplus` the same ones,
so that the pieces join into the entries of the handle. -/
namespace ErofsUtils.Fs
open ErofsUtils.Rust ErofsUtils.Bytes ErofsUtils.Metadata

/-! ## Calls -/

/-- The buffer a call fills: it takes one entry at least, and reports no error. -/
structure ReplyBuffer (α : Type) where
  σ : Type
  start : σ
  add : AddEntry σ α
  takesOne : ∀ x s, add start x ≠ .ok (s, 0)
  noError : ∀ s x e, add s x ≠ .error e

/-- The buffer with what it has accepted: all it did not answer with 0. -/
def ReplyBuffer.logged {α : Type} (b : ReplyBuffer α) : AddEntry (b.σ × List α) α :=
  fun (s, taken) x => match b.add s x with
    | .error e => .error e
    | .ok (s, n) => .ok ((s, if n = 0 then taken else taken ++ [x]), n)

inductive ListCall where
  | readdir (b : ReplyBuffer FuseDirEntry)
  | readdirplus (b : ReplyBuffer (FuseDirEntry × Entry))

namespace ErofsFs

/-- The entries a call at `offset` gets accepted. -/
def serve (fs : ErofsFs) (st : DirHandles) (handle offset : Nat) :
    ListCall → IoResult (List FuseDirEntry)
  | .readdir b => Prod.snd <$> fs.readdir st handle offset b.logged (b.start, [])
  | .readdirplus b =>
    (fun r => r.2.map Prod.fst) <$> fs.readdirplus st handle offset b.logged (b.start, [])

/-- The offset of the last accepted entry, if there is one. -/
def nextOffset (offset : Nat) (accepted : List FuseDirEntry) : Nat :=
  match accepted.getLast? with
  | some d => d.offset
  | none => offset

/-- The pieces a sequence of calls gets. Other handles may come and go between the calls. -/
def listing (fs : ErofsFs) (handle : Nat) :
    (offset : Nat) → List (DirHandles × ListCall) → IoResult (List (List FuseDirEntry))
  | _, [] => pure []
  | offset, (st, call) :: calls => do
    let accepted ← fs.serve st handle offset call
    let rest ← fs.listing handle (nextOffset offset accepted) calls
    pure (accepted :: rest)

/-- A buffer without end. -/
def collectAll : AddEntry (List FuseDirEntry) FuseDirEntry := fun l x => .ok (l ++ [x], 1)

/-! ## What a call shows -/

section
variable {α σ : Type} {value : Nat → CachedDirEntry → IoResult α} {entries : List CachedDirEntry}
  {idx : Nat}

/-- The value shown for entry `i`. -/
def shownAt (value : Nat → CachedDirEntry → IoResult α) (entries : List CachedDirEntry) (i : Nat) :
    Option α := entries[i]?.bind fun e => (value i e).toOption

theorem shownAt_eq_some {i : Nat} {x : α} :
    shownAt value entries i = some x ↔ ∃ e, entries[i]? = some e ∧ value i e = .ok x := by
  unfold shownAt
  cases entries[i]? with
  | none => simp
  | some e => cases h : value i e <;> simp [Except.toOption, h]

/-- **A call** gets entries accepted from its index on, one at least where there is one. -/
theorem addEntries_logged (b : ReplyBuffer α) {rest : List CachedDirEntry}
    (hrest : rest = entries.drop idx) {s s' : b.σ} {taken taken' : List α}
    (h : addEntries value b.logged idx rest (s, taken) = .ok (s', taken')) :
    ∃ new, taken' = taken ++ new ∧ Spells (shownAt value entries) idx new ∧
      (s = b.start → new = [] → rest = []) := by
  induction rest generalizing idx s taken with
  | nil =>
    rw [addEntries] at h
    cases h
    exact ⟨[], by simp, spells_nil _ _, fun _ _ => rfl⟩
  | cons e rest ih =>
    have he : entries[idx]? = some e := by
      rw [← List.head?_drop, ← hrest]
      rfl
    have htail : rest = entries.drop (idx + 1) := by
      rw [← List.tail_drop, ← hrest]
      rfl
    rw [addEntries] at h
    obtain ⟨x, hx, h⟩ := bind_eq_ok.mp h
    have hshown : shownAt value entries idx = some x := shownAt_eq_some.mpr ⟨e, he, hx⟩
    cases hadd : b.add s x with
    | error err => exact absurd hadd (b.noError s x err)
    | ok r =>
      obtain ⟨s₁, n⟩ := r
      simp only [ReplyBuffer.logged, hadd] at h
      cases n with
      | zero =>
        cases h
        exact ⟨[], by simp, spells_nil _ _, fun hs _ => absurd (hs ▸ hadd) (b.takesOne x _)⟩
      | succ n =>
        obtain ⟨new, hnew, hspells, -⟩ := ih htail h
        refine ⟨x :: new, ?_, ?_, fun _ hnil => absurd hnil (List.cons_ne_nil x new)⟩
        · rw [hnew, if_neg (Nat.succ_ne_zero n), List.append_assoc, List.singleton_append]
        · refine (spells_append (a := [x])).mpr ⟨?_, hspells⟩
          intro i hi
          obtain rfl : i = 0 := by simpa using hi
          exact hshown

/-- A call returns where every entry it may come to has a value. -/
theorem addEntries_returns (b : ReplyBuffer α) {rest : List CachedDirEntry}
    (hvalue : ∀ e ∈ rest, ∀ i, ∃ x, value i e = .ok x) (s : b.σ) (taken : List α) :
    ∃ r, addEntries value b.logged idx rest (s, taken) = .ok r := by
  induction rest generalizing idx s taken with
  | nil => exact ⟨_, rfl⟩
  | cons e rest ih =>
    obtain ⟨x, hx⟩ := hvalue e List.mem_cons_self idx
    rw [addEntries, hx, bind_ok]
    cases hadd : b.add s x with
    | error err => exact absurd hadd (b.noError s x err)
    | ok r =>
      obtain ⟨s₁, n⟩ := r
      simp only [ReplyBuffer.logged, hadd]
      cases n with
      | zero => exact ⟨_, rfl⟩
      | succ n => exact ih (fun e he => hvalue e (List.mem_cons_of_mem _ he)) s₁ _

end

variable {fs : ErofsFs} {st : DirHandles} {handle offset idx : Nat} {d : DirHandle}
  {e : CachedDirEntry} {accepted : List FuseDirEntry}

theorem dirEntry_of_dirEntryPlus {x : FuseDirEntry × Entry} (h : fs.dirEntryPlus idx e = .ok x) :
    fs.dirEntry idx e = .ok x.1 := by
  obtain ⟨vi, -, h⟩ := bind_eq_ok.mp h
  obtain ⟨entry, -, h⟩ := bind_eq_ok.mp h
  obtain ⟨de, hde, h⟩ := bind_eq_ok.mp h
  cases h
  exact hde

/-- The cookie of an entry is the index behind it. -/
theorem offset_of_dirEntry {x : FuseDirEntry} (h : fs.dirEntry idx e = .ok x) :
    x.name = e.name ∧ x.offset = idx + 1 := by
  obtain ⟨ino, -, h⟩ := bind_eq_ok.mp h
  cases h
  exact ⟨rfl, rfl⟩

/-- **Either operation** shows the entries from its offset on, as `readdir` shows them. -/
theorem serve_shows {call : ListCall} (hopen : getDirHandle st handle = .ok d)
    (h : fs.serve st handle offset call = .ok accepted) :
    Spells (shownAt fs.dirEntry d.entries) offset accepted ∧
      (accepted = [] → d.entries.length ≤ offset) := by
  have hend : d.entries.drop offset = [] → d.entries.length ≤ offset := List.drop_eq_nil_iff.mp
  cases call with
  | readdir b =>
    obtain ⟨⟨s, taken⟩, hrun, rfl⟩ := map_eq_ok.mp h
    rw [readdir, hopen, bind_ok] at hrun
    obtain ⟨new, rfl, hspells, hnil⟩ := addEntries_logged b rfl hrun
    exact ⟨hspells, fun h => hend (hnil rfl h)⟩
  | readdirplus b =>
    obtain ⟨⟨s, taken⟩, hrun, rfl⟩ := map_eq_ok.mp h
    rw [readdirplus, hopen, bind_ok] at hrun
    obtain ⟨new, rfl, hspells, hnil⟩ := addEntries_logged b rfl hrun
    refine ⟨?_, fun h => hend (hnil rfl (List.map_eq_nil_iff.mp h))⟩
    intro i hi
    rw [List.length_map] at hi
    dsimp only at hi ⊢
    obtain ⟨x, hx, hget⟩ := hspells.isSome (Nat.le_add_right offset i) (by omega)
    obtain ⟨e, he, hvalue⟩ := shownAt_eq_some.mp hx
    rw [Nat.add_sub_cancel_left] at hget
    rw [List.getElem?_map, hget, shownAt_eq_some.mpr ⟨e, he,
      dirEntry_of_dirEntryPlus hvalue⟩]
    rfl

/-- The next call takes up behind what was accepted. -/
theorem nextOffset_eq (h : Spells (shownAt fs.dirEntry d.entries) offset accepted) :
    nextOffset offset accepted = offset + accepted.length := by
  unfold nextOffset
  cases hlast : accepted.getLast? with
  | none =>
    rw [List.getLast?_eq_none_iff.mp hlast]
    rfl
  | some x =>
    have hpos : 0 < accepted.length := by
      rw [List.length_pos_iff]
      rintro rfl
      cases hlast
    rw [List.getLast?_eq_getElem?] at hlast
    have hx := h (accepted.length - 1) (by omega)
    rw [hlast] at hx
    obtain ⟨e, -, hvalue⟩ := shownAt_eq_some.mp hx
    dsimp only
    rw [(offset_of_dirEntry hvalue).2]
    omega

/-! ## A sequence of calls -/

variable {calls : List (DirHandles × ListCall)} {pages : List (List FuseDirEntry)}

/-- **The pieces** join, and a piece without entries is behind the last of them. -/
theorem listing_shows (hopen : ∀ c ∈ calls, getDirHandle c.1 handle = .ok d)
    (h : fs.listing handle offset calls = .ok pages) :
    Spells (shownAt fs.dirEntry d.entries) offset pages.flatten ∧ pages.length = calls.length ∧
      ([] ∈ pages → d.entries.length ≤ offset + pages.flatten.length) := by
  induction calls generalizing offset pages with
  | nil =>
    cases h
    exact ⟨spells_nil _ _, rfl, nofun⟩
  | cons c calls ih =>
    obtain ⟨st, call⟩ := c
    obtain ⟨accepted, hserve, h⟩ := bind_eq_ok.mp h
    obtain ⟨rest, hrest, h⟩ := bind_eq_ok.mp h
    cases h
    obtain ⟨hspells, hnil⟩ := serve_shows (hopen _ List.mem_cons_self) hserve
    rw [nextOffset_eq hspells] at hrest
    obtain ⟨hspells', hlen, hnil'⟩ := ih (fun c hc => hopen c (List.mem_cons_of_mem _ hc)) hrest
    rw [List.flatten_cons, List.length_append]
    refine ⟨spells_append.mpr ⟨hspells, hspells'⟩, by rw [List.length_cons, List.length_cons, hlen],
      fun hmem => ?_⟩
    rcases List.mem_cons.mp hmem with heq | hmem
    · have := hnil heq.symm
      omega
    · have := hnil' hmem
      omega

/-- A call without end gets every entry. -/
theorem readdir_collectAll (hopen : getDirHandle st handle = .ok d) {all : List FuseDirEntry} :
    fs.readdir st handle 0 collectAll [] = .ok all ↔
      all.length = d.entries.length ∧ Spells (shownAt fs.dirEntry d.entries) 0 all := by
  have hrun : ∀ rest idx acc, rest = d.entries.drop idx →
      (addEntries fs.dirEntry collectAll idx rest acc = .ok all ↔ ∃ new, all = acc ++ new ∧
        new.length = rest.length ∧ Spells (shownAt fs.dirEntry d.entries) idx new) := by
    intro rest
    induction rest with
    | nil =>
      intro idx acc _
      rw [addEntries]
      simp only [pure_eq_ok, Except.ok.injEq, List.length_nil, List.length_eq_zero_iff]
      refine ⟨fun h => ⟨[], by rw [h, List.append_nil], rfl, spells_nil _ _⟩, ?_⟩
      rintro ⟨new, rfl, rfl, -⟩
      rw [List.append_nil]
    | cons e rest ih =>
      intro idx acc hrest
      have he : d.entries[idx]? = some e := by
        rw [← List.head?_drop, ← hrest]
        rfl
      have htail : rest = d.entries.drop (idx + 1) := by
        rw [← List.tail_drop, ← hrest]
        rfl
      have hshown : ∀ x, shownAt fs.dirEntry d.entries idx = some x ↔
          fs.dirEntry idx e = .ok x := by
        intro x
        simp [shownAt_eq_some, he]
      rw [addEntries, bind_eq_ok]
      constructor
      · rintro ⟨x, hx, h⟩
        obtain ⟨new, rfl, hlen, hspells⟩ := (ih (idx + 1) (acc ++ [x]) htail).mp h
        refine ⟨x :: new, by simp, by simp [hlen], (spells_append (a := [x])).mpr ⟨?_, hspells⟩⟩
        intro i hi
        obtain rfl : i = 0 := by simpa using hi
        exact (hshown x).mpr hx
      · rintro ⟨new, rfl, hlen, hspells⟩
        obtain ⟨x, new, rfl⟩ := List.exists_cons_of_length_eq_add_one hlen
        obtain ⟨hx, hspells⟩ := (spells_append (a := [x])).mp hspells
        refine ⟨x, (hshown x).mp (hx 0 Nat.one_pos), ?_⟩
        exact (ih (idx + 1) (acc ++ [x]) htail).mpr
          ⟨new, by simp, by simpa using hlen, hspells⟩
  rw [readdir, hopen, bind_ok, List.drop_zero, hrun _ 0 [] List.drop_zero.symm]
  simp

/-- The inode of the entry and its attributes can be read. -/
def ChildReadable (fs : ErofsFs) (e : CachedDirEntry) : Prop :=
  ∃ vi stat, fs.reader.inode e.nid = .ok vi ∧ fs.makeStat e.nid vi = .ok stat

/-- What a call asks of an entry: `readdir` a number for it, `readdirplus` a readable inode. -/
def CanShow (fs : ErofsFs) (e : CachedDirEntry) : ListCall → Prop
  | .readdir _ => ∃ ino, fs.toIno e.nid = .ok ino
  | .readdirplus _ => fs.ChildReadable e

theorem dirEntry_returns {ino : Nat} (h : fs.toIno e.nid = .ok ino) (idx : Nat) :
    ∃ x, fs.dirEntry idx e = .ok x := by
  rw [dirEntry, h, bind_ok]
  exact ⟨_, rfl⟩

theorem ChildReadable.dirEntryPlus_returns (h : fs.ChildReadable e) (idx : Nat) :
    ∃ x, fs.dirEntryPlus idx e = .ok x := by
  obtain ⟨vi, stat, hinode, hstat⟩ := h
  obtain ⟨ino, hino, -⟩ := bind_eq_ok.mp hstat
  rw [dirEntryPlus, hinode, bind_ok, makeEntry, hino, bind_ok, hstat, bind_ok, pure_eq_ok, bind_ok,
    dirEntry, hino, bind_ok]
  exact ⟨_, rfl⟩

theorem serve_returns {call : ListCall} (hopen : getDirHandle st handle = .ok d)
    (hshow : ∀ e ∈ d.entries, fs.CanShow e call) (offset : Nat) :
    ∃ accepted, fs.serve st handle offset call = .ok accepted := by
  cases call with
  | readdir b =>
    have hvalue : ∀ e ∈ d.entries.drop offset, ∀ i, ∃ x, fs.dirEntry i e = .ok x := by
      intro e he i
      obtain ⟨ino, hino⟩ := hshow e (List.mem_of_mem_drop he)
      exact dirEntry_returns hino i
    obtain ⟨r, hr⟩ := @addEntries_returns _ fs.dirEntry offset b _ hvalue b.start []
    rw [serve, readdir, hopen, bind_ok, hr]
    exact ⟨_, rfl⟩
  | readdirplus b =>
    have hvalue : ∀ e ∈ d.entries.drop offset, ∀ i, ∃ x, fs.dirEntryPlus i e = .ok x :=
      fun e he i => (hshow e (List.mem_of_mem_drop he)).dirEntryPlus_returns i
    obtain ⟨r, hr⟩ := @addEntries_returns _ fs.dirEntryPlus offset b _ hvalue b.start []
    rw [serve, readdirplus, hopen, bind_ok, hr]
    exact ⟨_, rfl⟩

/-- With children that can be shown every sequence of calls returns. -/
theorem listing_returns (hopen : ∀ c ∈ calls, getDirHandle c.1 handle = .ok d)
    (hshow : ∀ c ∈ calls, ∀ e ∈ d.entries, fs.CanShow e c.2) (offset : Nat) :
    ∃ pages, fs.listing handle offset calls = .ok pages := by
  induction calls generalizing offset with
  | nil => exact ⟨_, rfl⟩
  | cons c calls ih =>
    obtain ⟨accepted, hserve⟩ :=
      serve_returns (hopen c List.mem_cons_self) (hshow c List.mem_cons_self) offset
    obtain ⟨rest, hrest⟩ := ih (fun c hc => hopen c (List.mem_cons_of_mem _ hc))
      (fun c hc => hshow c (List.mem_cons_of_mem _ hc)) (nextOffset offset accepted)
    rw [listing, hserve, bind_ok, hrest]
    exact ⟨_, rfl⟩

/-- A call without end returns where every entry has a number. -/
theorem readdir_collectAll_returns (hopen : getDirHandle st handle = .ok d)
    (hino : ∀ e ∈ d.entries, ∃ ino, fs.toIno e.nid = .ok ino) :
    ∃ all, fs.readdir st handle 0 collectAll [] = .ok all := by
  have hrun : ∀ rest : List CachedDirEntry, (∀ e ∈ rest, ∃ ino, fs.toIno e.nid = .ok ino) →
      ∀ idx acc, ∃ all, addEntries fs.dirEntry collectAll idx rest acc = .ok all := by
    intro rest
    induction rest with
    | nil => exact fun _ idx acc => ⟨acc, rfl⟩
    | cons e rest ih =>
      intro h idx acc
      obtain ⟨ino, hino⟩ := h e List.mem_cons_self
      obtain ⟨x, hx⟩ := dirEntry_returns hino idx
      rw [addEntries, hx, bind_ok]
      exact ih (fun e he => h e (List.mem_cons_of_mem _ he)) (idx + 1) (acc ++ [x])
  rw [readdir, hopen, bind_ok, List.drop_zero]
  exact hrun d.entries hino 0 []

/-- What is shown from the start has the names of the first entries. -/
theorem map_name_of_spells {shown : List FuseDirEntry}
    (h : Spells (shownAt fs.dirEntry d.entries) 0 shown) :
    shown.map (·.name) = (d.entries.map (·.name)).take shown.length := by
  refine List.ext_getElem? fun i => ?_
  rw [List.getElem?_map]
  by_cases hi : i < shown.length
  · have hget := h i hi
    rw [Nat.zero_add, List.getElem?_eq_getElem hi] at hget
    obtain ⟨e, he, hvalue⟩ := shownAt_eq_some.mp hget
    rw [List.getElem?_take_of_lt hi, List.getElem?_map, he, List.getElem?_eq_getElem hi,
      Option.map_some, Option.map_some, (offset_of_dirEntry hvalue).1]
  · rw [List.getElem?_eq_none (by omega), List.getElem?_eq_none (by rw [List.length_take]; omega)]
    rfl

/-- No more is shown than there is. -/
theorem length_le_of_spells {shown : List FuseDirEntry}
    (h : Spells (shownAt fs.dirEntry d.entries) 0 shown) : shown.length ≤ d.entries.length := by
  have hlen := congrArg List.length (map_name_of_spells h)
  rw [List.length_map, List.length_take, List.length_map] at hlen
  omega

/-- Pages that all hold something hold one entry each at least. -/
theorem length_le_flatten {α : Type} {pages : List (List α)} (h : [] ∉ pages) :
    pages.length ≤ pages.flatten.length := by
  induction pages with
  | nil => exact Nat.le_refl 0
  | cons page pages ih =>
    obtain ⟨hne, hrest⟩ := not_or.mp (mt List.mem_cons.mpr h)
    have := List.length_pos_iff.mpr (Ne.symm hne)
    have := ih hrest
    rw [List.flatten_cons, List.length_append, List.length_cons]
    omega

/-- **Listing in pieces**, by any calls of both kinds into any buffers, loses and repeats
nothing: the pieces join into a front of what one call without end lists, into all of it once a
piece is empty, and more calls than there are entries make it so. -/
theorem listing_complete (hopen : ∀ c ∈ calls, getDirHandle c.1 handle = .ok d) :
    (∀ pages, fs.listing handle 0 calls = .ok pages →
      pages.flatten.map (·.name) <+: d.entries.map (·.name) ∧
      (∀ i x, pages.flatten[i]? = some x →
        ∃ e, d.entries[i]? = some e ∧ fs.dirEntry i e = .ok x) ∧
      ([] ∈ pages → pages.flatten.map (·.name) = d.entries.map (·.name)) ∧
      (d.entries.length < calls.length → [] ∈ pages) ∧
      ∀ st all, getDirHandle st handle = .ok d → fs.readdir st handle 0 collectAll [] = .ok all →
        pages.flatten <+: all ∧ ([] ∈ pages → pages.flatten = all)) ∧
    ((∀ c ∈ calls, ∀ e ∈ d.entries, fs.CanShow e c.2) →
      ∃ pages, fs.listing handle 0 calls = .ok pages) ∧
    (∀ st, getDirHandle st handle = .ok d →
      (∀ e ∈ d.entries, ∃ ino, fs.toIno e.nid = .ok ino) →
      ∃ all, fs.readdir st handle 0 collectAll [] = .ok all) := by
  refine ⟨fun pages h => ?_, fun hshow => listing_returns hopen hshow 0,
    fun st hst hino => readdir_collectAll_returns hst hino⟩
  obtain ⟨hspells, hlen, hend⟩ := listing_shows hopen h
  have hnames := map_name_of_spells hspells
  have hle := length_le_of_spells hspells
  have hwhole : [] ∈ pages → pages.flatten.length = d.entries.length := by
    intro hmem
    have := hend hmem
    omega
  refine ⟨hnames ▸ List.take_prefix _ _, ?_, ?_, ?_, ?_⟩
  · intro i x hx
    have hget := hspells i (List.getElem?_eq_some_iff.mp hx).1
    rw [Nat.zero_add, hx] at hget
    exact shownAt_eq_some.mp hget
  · intro hmem
    rw [hnames, hwhole hmem, List.take_of_length_le (by rw [List.length_map])]
  · intro hlt
    by_contra hmem
    have := length_le_flatten hmem
    omega
  · intro st all hst hall
    obtain ⟨halllen, hallspells⟩ := (readdir_collectAll hst).mp hall
    have heq := hspells.eq_take hallspells (by omega)
    refine ⟨heq ▸ List.take_prefix _ _, fun hmem => ?_⟩
    rw [heq, hwhole hmem, List.take_of_length_le (by omega)]

/-- A buffer with room for one entry. -/
def oneEntry {α : Type} : ReplyBuffer α where
  σ := Bool
  start := false
  add full _ := .ok (true, if full then 0 else 24)
  takesOne := by simp
  noError := by simp

/-- An open directory of two names for the root. -/
def twoNames : DirHandle :=
  { entries := [{ nid := 36, fileType := 2, name := [46] },
      { nid := 36, fileType := 2, name := [46, 46] }] }

theorem emptyRootFs_childReadable {e : CachedDirEntry} (h : e ∈ twoNames.entries) :
    emptyRootFs.ChildReadable e := by
  have hroot : (emptyRootFs.reader.inode 36 >>= emptyRootFs.makeStat 36).isOk := by decide +kernel
  have hnid : e.nid = 36 := by
    revert e
    decide
  cases hstat : emptyRootFs.reader.inode 36 >>= emptyRootFs.makeStat 36 with
  | error err =>
    rw [hstat] at hroot
    cases hroot
  | ok stat =>
    obtain ⟨vi, hinode, hmake⟩ := bind_eq_ok.mp hstat
    rw [← hnid] at hinode hmake
    exact ⟨vi, stat, hinode, hmake⟩

def threeCalls : List (DirHandles × ListCall) :=
  [(DirHandles.new.insert 1 twoNames, .readdir oneEntry),
    (DirHandles.new.insert 1 twoNames, .readdirplus oneEntry),
    (DirHandles.new.insert 1 twoNames, .readdir oneEntry)]

/-- Three calls for one entry each get both names and nothing more. -/
theorem listing_complete_threeCalls : ∃ pages, emptyRootFs.listing 1 0 threeCalls = .ok pages ∧
    pages.flatten.map (·.name) = [[46], [46, 46]] := by
  have hcalls := @listing_complete emptyRootFs 1 twoNames threeCalls
    (by simp [threeCalls, getDirHandle, DirHandles.insert])
  have hshow : ∀ e ∈ twoNames.entries, ∀ call, emptyRootFs.CanShow e call := by
    intro e he call
    have hread := emptyRootFs_childReadable he
    cases call with
    | readdir b =>
      obtain ⟨vi, stat, -, hstat⟩ := hread
      obtain ⟨ino, hino, -⟩ := bind_eq_ok.mp hstat
      exact ⟨ino, hino⟩
    | readdirplus b => exact hread
  obtain ⟨pages, hpages⟩ := hcalls.2.1 fun c _ e he => hshow e he c.2
  obtain ⟨-, -, hall, hmany, -⟩ := hcalls.1 pages hpages
  exact ⟨pages, hpages, hall (hmany (by decide))⟩

end ErofsFs
end ErofsUtils.Fs
