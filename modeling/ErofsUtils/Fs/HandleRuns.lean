import ErofsUtils.Concurrent.Interleaving
import ErofsUtils.Fs.DirHandle
import ErofsUtils.Fs.Images

/-! # Directory handles under any interleaving

The calls on directory handles as programs of atomic steps: an `opendir` reads the
directory, takes a handle from the counter and inserts its entries into the table, three
steps between which other calls may run. A `readdir` holds on to what it got from the
table, whatever happens to the table afterwards. -/
namespace ErofsUtils.Fs
open ErofsUtils.Rust ErofsUtils.Metadata ErofsUtils.Concurrent

inductive HandleRequest where
  | opendir (inode : Nat)
  | readdir (plus : Bool) (handle : Nat)
  | releasedir (handle : Nat)

/-- A call and how far it has come. -/
inductive HandleCall where
  | opendir (inode : Nat)
  | opendirRead (inode : Nat) (entries : List CachedDirEntry)
  | opendirNumbered (inode : Nat) (entries : List CachedDirEntry) (handle : Nat)
  | opendirDone (inode : Nat) (entries : List CachedDirEntry) (handle : Nat)
  | opendirFailed (inode : Nat) (e : Fault IoError)
  | readdir (plus : Bool) (handle : Nat)
  | readdirGot (plus : Bool) (handle : Nat) (d : DirHandle)
  | readdirFailed (plus : Bool) (handle : Nat) (e : Fault IoError)
  | releasedir (handle : Nat)
  | releasedirDone (handle : Nat)

abbrev HandleConfig := Config DirHandles HandleCall

def noCalls : HandleConfig := { shared := DirHandles.new, calls := [] }

namespace ErofsFs
variable {fs : ErofsFs}

/-- The next atomic step of a call; `none` where the shared state is not touched any more. -/
def advance (fs : ErofsFs) (st : DirHandles) : HandleCall → Option (DirHandles × HandleCall)
  | .opendir inode =>
    match (do fs.checkDir inode; fs.readDirEntries inode) with
    | .ok entries => some (st, .opendirRead inode entries)
    | .error e => some (st, .opendirFailed inode e)
  | .opendirRead inode entries =>
    let (handle, st) := st.fetchAdd
    some (st, .opendirNumbered inode entries handle)
  | .opendirNumbered inode entries handle =>
    some (st.insert handle { entries }, .opendirDone inode entries handle)
  | .readdir plus handle =>
    match getDirHandle st handle with
    | .ok d => some (st, .readdirGot plus handle d)
    | .error e => some (st, .readdirFailed plus handle e)
  | .releasedir handle => some (st.remove handle, .releasedirDone handle)
  | .opendirDone .. | .opendirFailed .. | .readdirGot .. | .readdirFailed ..
  | .releasedirDone .. => none

def handleCall : HandleRequest → HandleCall
  | .opendir inode => .opendir inode
  | .readdir plus handle => .readdir plus handle
  | .releasedir handle => .releasedir handle

/-- The calls of all workers on one file system. -/
def handleProgram (fs : ErofsFs) : Program HandleRequest DirHandles HandleCall where
  call := handleCall
  advance := fs.advance

/-- What one step of a call does. -/
theorem advance_cases {st st' : DirHandles} {k k' : HandleCall}
    (h : fs.advance st k = some (st', k')) :
    (∃ inode, k = .opendir inode ∧ st' = st ∧
      ((∃ entries, fs.readDirEntries inode = .ok entries ∧ k' = .opendirRead inode entries) ∨
        ∃ e, k' = .opendirFailed inode e)) ∨
    (∃ inode entries, k = .opendirRead inode entries ∧ st' = st.fetchAdd.2 ∧
      k' = .opendirNumbered inode entries st.nextDirHandle) ∨
    (∃ inode entries handle, k = .opendirNumbered inode entries handle ∧
      st' = st.insert handle { entries } ∧ k' = .opendirDone inode entries handle) ∨
    (∃ plus handle, k = .readdir plus handle ∧ st' = st ∧
      ((∃ d, st.dirHandles handle = some d ∧ k' = .readdirGot plus handle d) ∨
        st.dirHandles handle = none ∧ k' = .readdirFailed plus handle (.fail (.os ebadf)))) ∨
    (∃ handle, k = .releasedir handle ∧ st' = st.remove handle ∧ k' = .releasedirDone handle) := by
  cases k with
  | opendir inode =>
    left
    simp only [advance] at h
    split at h
    · rename_i entries hread
      obtain ⟨_, -, hread⟩ := bind_eq_ok.mp hread
      cases h
      exact ⟨inode, rfl, rfl, .inl ⟨entries, hread, rfl⟩⟩
    · cases h
      exact ⟨inode, rfl, rfl, .inr ⟨_, rfl⟩⟩
  | opendirRead inode entries =>
    cases h
    exact .inr (.inl ⟨inode, entries, rfl, rfl, rfl⟩)
  | opendirNumbered inode entries handle =>
    cases h
    exact .inr (.inr (.inl ⟨inode, entries, handle, rfl, rfl, rfl⟩))
  | readdir plus handle =>
    refine .inr (.inr (.inr (.inl ⟨plus, handle, rfl, ?_⟩)))
    unfold advance getDirHandle at h
    cases hd : st.dirHandles handle with
    | some d =>
      simp only [hd] at h
      cases h
      exact ⟨rfl, .inl ⟨d, rfl, rfl⟩⟩
    | none =>
      simp only [hd] at h
      cases h
      exact ⟨rfl, .inr ⟨rfl, rfl⟩⟩
  | releasedir handle =>
    cases h
    exact .inr (.inr (.inr (.inr ⟨handle, rfl, rfl, rfl⟩)))
  | opendirDone _ _ _ => cases h
  | opendirFailed _ _ => cases h
  | readdirGot _ _ _ => cases h
  | readdirFailed _ _ _ => cases h
  | releasedirDone _ => cases h

/-- An `opendir` that runs alone takes its three steps one after the other. -/
theorem opendir_eq_ok {st st' : DirHandles} {inode handle : Nat} :
    fs.opendir st inode = .ok (handle, st') ↔ ∃ entries st₁,
      fs.advance st (.opendir inode) = some (st, .opendirRead inode entries) ∧
      fs.advance st (.opendirRead inode entries) =
        some (st₁, .opendirNumbered inode entries handle) ∧
      fs.advance st₁ (.opendirNumbered inode entries handle) =
        some (st', .opendirDone inode entries handle) := by
  have hopen : fs.opendir st inode = (do
      let entries ← (do fs.checkDir inode; fs.readDirEntries inode)
      pure (st.fetchAdd.1, st.fetchAdd.2.insert st.fetchAdd.1 { entries })) := by
    rw [opendir, createDirHandle]
    cases fs.checkDir inode with
    | error e => rfl
    | ok u => cases fs.readDirEntries inode <;> rfl
  rw [hopen]
  simp only [advance]
  cases hread : (do fs.checkDir inode; fs.readDirEntries inode : IoResult _) with
  | error e => simp
  | ok entries =>
    rw [bind_ok, pure_eq_ok, Except.ok.injEq]
    constructor
    · rintro h
      cases h
      exact ⟨entries, _, rfl, rfl, rfl⟩
    · rintro ⟨_, _, h₁, h₂, h₃⟩
      cases h₁
      cases h₂
      cases h₃
      rfl

end ErofsFs

/-! ## What every schedule keeps -/

namespace HandleCall

/-- The handle an `opendir` has taken from the counter. -/
def number? : HandleCall → Option Nat
  | opendirNumbered _ _ handle => some handle
  | opendirDone _ _ handle => some handle
  | _ => none

def isOpendir : HandleCall → Bool
  | opendir .. | opendirRead .. | opendirNumbered .. | opendirDone .. | opendirFailed .. => true
  | _ => false

/-- A `releasedir` of the handle, begun or done. -/
def releases (handle : Nat) : HandleCall → Prop
  | releasedir h => h = handle
  | releasedirDone h => h = handle
  | _ => False

/-- The directory an `opendir` has read, with the entries it found. -/
def directory? : HandleCall → Option (Nat × List CachedDirEntry)
  | opendirRead inode entries => some (inode, entries)
  | opendirNumbered inode entries _ => some (inode, entries)
  | opendirDone inode entries _ => some (inode, entries)
  | _ => none

end HandleCall

def taken (calls : List HandleCall) : Nat := calls.countP (·.number?.isSome)

def opendirs (calls : List HandleCall) : Nat := calls.countP (·.isOpendir)

theorem taken_le_opendirs (calls : List HandleCall) : taken calls ≤ opendirs calls := by
  refine List.countP_mono_left fun k _ hk => ?_
  cases k <;> first | rfl | cases hk

/-- The handles taken are the first values of the counter, one for each `opendir` that has
taken one. -/
structure Numbered (c : HandleConfig) : Prop where
  next : c.shared.nextDirHandle = (1 + taken c.calls) % 2 ^ 64
  numbers : ∀ {i : Nat} {k : HandleCall} {handle : Nat}, c.calls[i]? = some k →
    k.number? = some handle → ∃ n < taken c.calls, handle = (1 + n) % 2 ^ 64
  distinct : ∀ {i j : Nat} {k l : HandleCall} {handle : Nat}, c.calls[i]? = some k →
    c.calls[j]? = some l → k.number? = some handle → l.number? = some handle → i = j

variable {fs : ErofsFs} {c c' : HandleConfig} {m : Move HandleRequest}

theorem opendirs_le_of_move (h : fs.handleProgram.move c m = some c') :
    opendirs c.calls ≤ opendirs c'.calls := by
  refine countP_le_of_move (fun {s k s' k'} hadv hk => ?_) h
  rcases ErofsFs.advance_cases hadv with ⟨_, rfl, -, ⟨_, -, rfl⟩ | ⟨_, rfl⟩⟩ | ⟨_, _, rfl, -, rfl⟩ |
    ⟨_, _, _, rfl, -, rfl⟩ | ⟨_, _, rfl, -, -⟩ | ⟨_, rfl, -, -⟩
  · rfl
  · rfl
  · rfl
  · rfl
  · cases hk
  · cases hk

/-- A step keeps the handle a call has taken, or takes the next one of the counter. -/
theorem number?_of_advance {st st' : DirHandles} {k k' : HandleCall}
    (h : fs.advance st k = some (st', k')) :
    (k'.number? = k.number? ∧ st'.nextDirHandle = st.nextDirHandle) ∨
      (k.number? = none ∧ k'.number? = some st.nextDirHandle ∧
        st'.nextDirHandle = (st.nextDirHandle + 1) % 2 ^ 64 ∧ st'.dirHandles = st.dirHandles) := by
  rcases ErofsFs.advance_cases h with ⟨_, rfl, rfl, ⟨_, -, rfl⟩ | ⟨_, rfl⟩⟩ | ⟨_, _, rfl, rfl, rfl⟩ |
    ⟨_, _, _, rfl, rfl, rfl⟩ | ⟨_, _, rfl, rfl, ⟨_, -, rfl⟩ | ⟨-, rfl⟩⟩ | ⟨_, rfl, rfl, rfl⟩
  · exact .inl ⟨rfl, rfl⟩
  · exact .inl ⟨rfl, rfl⟩
  · exact .inr ⟨rfl, rfl, rfl, rfl⟩
  · exact .inl ⟨rfl, rfl⟩
  · exact .inl ⟨rfl, rfl⟩
  · exact .inl ⟨rfl, rfl⟩
  · exact .inl ⟨rfl, rfl⟩

theorem numbered_noCalls : Numbered noCalls where
  next := rfl
  numbers := by simp [noCalls]
  distinct := by simp [noCalls]

theorem Numbered.start (h : Numbered c) (q : HandleRequest) :
    Numbered { c with calls := c.calls ++ [ErofsFs.handleCall q] } := by
  have hnone : (ErofsFs.handleCall q).number? = none := by cases q <;> rfl
  have hold : ∀ {i : Nat} {k : HandleCall} {handle : Nat},
      (c.calls ++ [ErofsFs.handleCall q])[i]? = some k →
      k.number? = some handle → c.calls[i]? = some k := by
    intro i k handle hi hk
    rw [List.getElem?_append] at hi
    split at hi
    · exact hi
    · obtain ⟨hlt, rfl⟩ := List.getElem?_eq_some_iff.mp hi
      rw [List.getElem_singleton, hnone] at hk
      cases hk
  have htaken : taken (c.calls ++ [ErofsFs.handleCall q]) = taken c.calls := by
    rw [taken, taken, List.countP_append, List.countP_singleton, hnone]
    rfl
  refine ⟨?_, ?_, ?_⟩
  · rw [htaken]
    exact h.next
  · intro i k handle hi hk
    rw [htaken]
    exact h.numbers (hold hi hk) hk
  · intro i j k l handle hi hj hk hl
    exact h.distinct (hold hi hk) (hold hj hl) hk hl

theorem Numbered.step (h : Numbered c) {i : Nat} {k k' : HandleCall} {s : DirHandles}
    (hk : c.calls[i]? = some k) (hadv : fs.advance c.shared k = some (s, k'))
    (hsmall : taken (c.calls.set i k') ≤ 2 ^ 64) :
    Numbered { shared := s, calls := c.calls.set i k' } := by
  have hlt := (List.getElem?_eq_some_iff.mp hk).1
  rcases number?_of_advance hadv with ⟨hnum, hnext⟩ | ⟨hnone, hnum, hnext, -⟩
  · have htaken : taken (c.calls.set i k') = taken c.calls :=
      countP_set_of_eq hk (by rw [hnum])
    -- the call that moved has the number it had
    have hold : ∀ {j : Nat} {l : HandleCall} {handle : Nat}, (c.calls.set i k')[j]? = some l →
        l.number? = some handle →
        ∃ l', c.calls[j]? = some l' ∧ l'.number? = some handle := by
      intro j l handle hj hl
      by_cases hij : i = j
      · subst hij
        rw [List.getElem?_set_self hlt] at hj
        cases hj
        exact ⟨k, hk, hnum ▸ hl⟩
      · rw [List.getElem?_set_ne hij] at hj
        exact ⟨l, hj, hl⟩
    refine ⟨?_, ?_, ?_⟩
    · rw [htaken]
      exact hnext.trans h.next
    · intro j l handle hj hl
      obtain ⟨l', hj', hl'⟩ := hold hj hl
      rw [htaken]
      exact h.numbers hj' hl'
    · intro j j' l l' handle hj hj' hl hl'
      obtain ⟨a, ha, ha'⟩ := hold hj hl
      obtain ⟨b, hb, hb'⟩ := hold hj' hl'
      exact h.distinct ha hb ha' hb'
  · have htaken : taken (c.calls.set i k') = taken c.calls + 1 :=
      countP_set_of_new hk (by rw [hnone]; rfl) (by rw [hnum]; rfl)
    rw [htaken] at hsmall
    have hsplit : ∀ {j : Nat} {l : HandleCall} {handle : Nat}, (c.calls.set i k')[j]? = some l →
        l.number? = some handle →
        (j = i ∧ handle = c.shared.nextDirHandle) ∨
          (c.calls[j]? = some l ∧ ∃ n < taken c.calls, handle = (1 + n) % 2 ^ 64) := by
      intro j l handle hj hl
      by_cases hij : i = j
      · subst hij
        rw [List.getElem?_set_self hlt] at hj
        cases hj
        exact .inl ⟨rfl, (Option.some.inj (hl.symm.trans hnum))⟩
      · rw [List.getElem?_set_ne hij] at hj
        exact .inr ⟨hj, h.numbers hj hl⟩
    have hfirst := h.next
    refine ⟨?_, ?_, ?_⟩
    · rw [htaken]
      dsimp only
      omega
    · intro j l handle hj hl
      rw [htaken]
      rcases hsplit hj hl with ⟨-, rfl⟩ | ⟨-, n, hn, rfl⟩
      · exact ⟨taken c.calls, Nat.lt_succ_self _, hfirst⟩
      · exact ⟨n, by omega, rfl⟩
    · intro j j' l l' handle hj hj' hl hl'
      rcases hsplit hj hl with ⟨rfl, rfl⟩ | ⟨ha, n, hn, rfl⟩
      · rcases hsplit hj' hl' with ⟨rfl, -⟩ | ⟨-, n, hn, heq⟩
        · rfl
        · omega
      · rcases hsplit hj' hl' with ⟨rfl, heq⟩ | ⟨hb, -⟩
        · omega
        · exact h.distinct ha hb hl hl'

/-! ## The table -/

/-- The table holds under a handle what the `opendir` that returned it has read, as long as no
release of it has begun; a call has never got anything else from it. -/
structure TableOk (fs : ErofsFs) (c : HandleConfig) : Prop where
  read : ∀ k ∈ c.calls, ∀ inode entries, k.directory? = some (inode, entries) →
    fs.readDirEntries inode = .ok entries
  table : ∀ handle d, c.shared.dirHandles handle = some d →
    ∃ inode, .opendirDone inode d.entries handle ∈ c.calls
  got : ∀ plus handle d, .readdirGot plus handle d ∈ c.calls →
    ∃ inode, .opendirDone inode d.entries handle ∈ c.calls
  present : ∀ inode entries handle, .opendirDone inode entries handle ∈ c.calls →
    (∀ k ∈ c.calls, ¬ k.releases handle) → c.shared.dirHandles handle = some { entries }

theorem directory?_of_advance {st st' : DirHandles} {k k' : HandleCall} {inode : Nat}
    {entries : List CachedDirEntry} (h : fs.advance st k = some (st', k'))
    (hk' : k'.directory? = some (inode, entries)) :
    k.directory? = some (inode, entries) ∨ fs.readDirEntries inode = .ok entries := by
  rcases ErofsFs.advance_cases h with ⟨_, rfl, -, ⟨_, hread, rfl⟩ | ⟨_, rfl⟩⟩ | ⟨_, _, rfl, -, rfl⟩ |
    ⟨_, _, _, rfl, -, rfl⟩ | ⟨_, _, rfl, -, ⟨_, -, rfl⟩ | ⟨-, rfl⟩⟩ | ⟨_, rfl, -, rfl⟩
  · cases hk'
    exact .inr hread
  · cases hk'
  · exact .inl hk'
  · exact .inl hk'
  · cases hk'
  · cases hk'
  · cases hk'

theorem releases_of_advance {st st' : DirHandles} {k k' : HandleCall} {handle : Nat}
    (h : fs.advance st k = some (st', k')) (hk : k.releases handle) : k'.releases handle := by
  rcases ErofsFs.advance_cases h with ⟨_, rfl, -⟩ | ⟨_, _, rfl, -⟩ | ⟨_, _, _, rfl, -⟩ |
    ⟨_, _, rfl, -⟩ | ⟨_, rfl, -, rfl⟩
  · exact hk.elim
  · exact hk.elim
  · exact hk.elim
  · exact hk.elim
  · exact hk

/-- A step leaves the table alone, inserts what it has read, or removes one handle. -/
theorem table_of_advance {st st' : DirHandles} {k k' : HandleCall}
    (h : fs.advance st k = some (st', k')) :
    (st'.dirHandles = st.dirHandles ∧
      (∀ inode entries handle, k' ≠ .opendirDone inode entries handle) ∧
      ∀ handle, k' ≠ .releasedirDone handle) ∨
    (∃ inode entries handle, k' = .opendirDone inode entries handle ∧
      st' = st.insert handle { entries }) ∨
    ∃ handle, k' = .releasedirDone handle ∧ st' = st.remove handle := by
  rcases ErofsFs.advance_cases h with ⟨_, -, rfl, ⟨_, -, rfl⟩ | ⟨_, rfl⟩⟩ | ⟨_, _, -, rfl, rfl⟩ |
    ⟨inode, entries, handle, -, rfl, rfl⟩ | ⟨_, _, -, rfl, ⟨_, -, rfl⟩ | ⟨-, rfl⟩⟩ |
    ⟨handle, -, rfl, rfl⟩
  · exact .inl ⟨rfl, nofun, nofun⟩
  · exact .inl ⟨rfl, nofun, nofun⟩
  · exact .inl ⟨rfl, nofun, nofun⟩
  · exact .inr (.inl ⟨inode, entries, handle, rfl, rfl⟩)
  · exact .inl ⟨rfl, nofun, nofun⟩
  · exact .inl ⟨rfl, nofun, nofun⟩
  · exact .inr (.inr ⟨handle, rfl, rfl⟩)

/-- What a `readdir` gets is in the table. -/
theorem got_of_advance {st st' : DirHandles} {k : HandleCall} {plus : Bool} {handle : Nat}
    {d : DirHandle} (h : fs.advance st k = some (st', .readdirGot plus handle d)) :
    k = .readdir plus handle ∧ st' = st ∧ st.dirHandles handle = some d := by
  rcases ErofsFs.advance_cases h with ⟨_, -, -, ⟨_, -, heq⟩ | ⟨_, heq⟩⟩ | ⟨_, _, -, -, heq⟩ |
    ⟨_, _, _, -, -, heq⟩ | ⟨_, _, rfl, rfl, ⟨_, hd, heq⟩ | ⟨-, heq⟩⟩ | ⟨_, -, -, heq⟩
  all_goals cases heq
  exact ⟨rfl, rfl, hd⟩

theorem tableOk_noCalls : TableOk fs noCalls where
  read := by simp [noCalls]
  table := by intro handle d h; cases h
  got := by simp [noCalls]
  present := by simp [noCalls]

theorem TableOk.start (h : TableOk fs c) (q : HandleRequest) :
    TableOk fs { c with calls := c.calls ++ [ErofsFs.handleCall q] } := by
  have hnew : ∀ {k}, k ∈ c.calls ++ [ErofsFs.handleCall q] → k ∈ c.calls ∨
      k = ErofsFs.handleCall q := by
    intro k hk
    simpa using hk
  refine ⟨?_, ?_, ?_, ?_⟩
  · intro k hk inode entries hdir
    rcases hnew hk with hk | rfl
    · exact h.read k hk inode entries hdir
    · cases q <;> cases hdir
  · intro handle d hd
    obtain ⟨inode, hi⟩ := h.table handle d hd
    exact ⟨inode, List.mem_append_left _ hi⟩
  · intro plus handle d hd
    rcases hnew hd with hd | hd
    · obtain ⟨inode, hi⟩ := h.got plus handle d hd
      exact ⟨inode, List.mem_append_left _ hi⟩
    · cases q <;> cases hd
  · intro inode entries handle hdone hfree
    rcases hnew hdone with hdone | hdone
    · exact h.present inode entries handle hdone fun k hk => hfree k (List.mem_append_left _ hk)
    · cases q <;> cases hdone

theorem move_step {i : Nat} {k k' : HandleCall} {s : DirHandles} (hk : c.calls[i]? = some k)
    (hadv : fs.advance c.shared k = some (s, k')) :
    fs.handleProgram.move c (.step i) = some { shared := s, calls := c.calls.set i k' } := by
  simp [Program.move, ErofsFs.handleProgram, hk, hadv]

theorem TableOk.step (h : TableOk fs c) {i : Nat} {k k' : HandleCall} {s : DirHandles}
    (hk : c.calls[i]? = some k) (hadv : fs.advance c.shared k = some (s, k'))
    (hnum : Numbered { shared := s, calls := c.calls.set i k' }) :
    TableOk fs { shared := s, calls := c.calls.set i k' } := by
  have hlt := (List.getElem?_eq_some_iff.mp hk).1
  have hmem := List.mem_of_getElem? hk
  have hk'mem : k' ∈ c.calls.set i k' := List.mem_set hlt k'
  have hnew : ∀ {l}, l ∈ c.calls.set i k' → l ∈ c.calls ∨ l = k' := fun hl =>
    List.mem_or_eq_of_mem_set hl
  have hmove : fs.handleProgram.move c (.step i) = _ := move_step hk hadv
  have hdone : ∀ {inode entries handle}, .opendirDone inode entries handle ∈ c.calls →
      .opendirDone inode entries handle ∈ c.calls.set i k' :=
    fun hl => by
      obtain ⟨j, hj⟩ := List.mem_iff_getElem?.mp hl
      exact List.mem_of_getElem? (Program.move_finished hmove hj fun _ => rfl)
  have hfree : ∀ {handle}, (∀ l ∈ c.calls.set i k', ¬ l.releases handle) →
      ∀ l ∈ c.calls, ¬ l.releases handle := by
    intro handle hfr l hl hrel
    obtain ⟨j, hj⟩ := List.mem_iff_getElem?.mp hl
    obtain ⟨l', hl', hrel'⟩ := Program.move_kept hmove releases_of_advance hj hrel
    exact hfr l' (List.mem_of_getElem? hl') hrel'
  refine ⟨?_, ?_, ?_, ?_⟩
  · intro l hl inode entries hdir
    rcases hnew hl with hl | rfl
    · exact h.read l hl inode entries hdir
    · rcases directory?_of_advance hadv hdir with hdir | hread
      · exact h.read k hmem inode entries hdir
      · exact hread
  · intro handle d hd
    have hsame : c.shared.dirHandles handle = some d →
        ∃ inode, .opendirDone inode d.entries handle ∈ c.calls.set i k' := by
      intro hd
      obtain ⟨inode, hi⟩ := h.table handle d hd
      exact ⟨inode, hdone hi⟩
    dsimp only at hd
    rcases table_of_advance hadv with ⟨heq, -⟩ | ⟨inode, entries, handle', rfl, rfl⟩ |
      ⟨handle', -, rfl⟩
    · exact hsame (heq ▸ hd)
    · simp only [DirHandles.insert] at hd
      split at hd
      · cases hd
        subst handle
        exact ⟨inode, hk'mem⟩
      · exact hsame hd
    · simp only [DirHandles.remove] at hd
      split at hd
      · cases hd
      · exact hsame hd
  · intro plus handle d hd
    rcases hnew hd with hd | rfl
    · obtain ⟨inode, hi⟩ := h.got plus handle d hd
      exact ⟨inode, hdone hi⟩
    · obtain ⟨-, -, hd⟩ := got_of_advance hadv
      obtain ⟨inode, hi⟩ := h.table handle d hd
      exact ⟨inode, hdone hi⟩
  · intro inode entries handle hin hfr
    have hpresent := fun hin => h.present inode entries handle hin (hfree hfr)
    rcases table_of_advance hadv with ⟨heq, hne, -⟩ | ⟨inode', entries', handle', rfl, rfl⟩ |
      ⟨handle', rfl, rfl⟩
    · rcases hnew hin with hin | hin
      · exact (congrFun heq handle).trans (hpresent hin)
      · exact absurd hin.symm (hne inode entries handle)
    · by_cases hh : handle = handle'
      · -- one handle, one `opendir`: the one that has just inserted it
        subst hh
        obtain ⟨j, hj⟩ := List.mem_iff_getElem?.mp hin
        have hij := hnum.distinct hj (List.getElem?_set_self hlt) rfl rfl
        subst hij
        rw [List.getElem?_set_self hlt] at hj
        cases hj
        simp [DirHandles.insert]
      · rcases hnew hin with hin | hin
        · simp only [DirHandles.insert, if_neg hh]
          exact hpresent hin
        · cases hin
          exact absurd rfl hh
    · have hh : handle ≠ handle' := by
        rintro rfl
        exact hfr _ hk'mem rfl
      rcases hnew hin with hin | hin
      · simp only [DirHandles.remove, if_neg hh]
        exact hpresent hin
      · cases hin

structure HandlesOk (fs : ErofsFs) (c : HandleConfig) : Prop where
  numbered : Numbered c
  table : TableOk fs c

theorem HandlesOk.move (h : HandlesOk fs c) (hm : fs.handleProgram.move c m = some c')
    (hsmall : opendirs c'.calls < 2 ^ 64) : HandlesOk fs c' := by
  rcases Program.move_cases hm with ⟨q, rfl⟩ | ⟨i, k, s, k', hk, hadv, rfl⟩
  · exact ⟨h.numbered.start q, h.table.start q⟩
  · have htaken := taken_le_opendirs (c.calls.set i k')
    have hnum := h.numbered.step hk hadv (by dsimp only at hsmall; omega)
    exact ⟨hnum, h.table.step hk hadv hnum⟩

variable {ms : List (Move HandleRequest)}

theorem HandlesOk.run (h : HandlesOk fs c) (hm : fs.handleProgram.run ms c = some c')
    (hsmall : opendirs c'.calls < 2 ^ 64) : HandlesOk fs c' := by
  refine Program.run_invariant (I := fun c => opendirs c.calls < 2 ^ 64 → HandlesOk fs c) ?_
    (fun _ => h) hm hsmall
  intro c m c' hI hm hsmall
  exact (hI (Nat.lt_of_le_of_lt (opendirs_le_of_move hm) hsmall)).move hm hsmall

theorem handlesOk_noCalls : HandlesOk fs noCalls := ⟨numbered_noCalls, tableOk_noCalls⟩

/-! ## After a release -/

section
variable {i n inode handle : Nat} {entries : List CachedDirEntry}

/-- A handle that was returned and is gone from the table is not inserted again. -/
theorem gone_of_move (hnum : Numbered c')
    (hi : c.calls[i]? = some (.opendirDone inode entries handle))
    (hgone : c.shared.dirHandles handle = none) (hm : fs.handleProgram.move c m = some c') :
    c'.shared.dirHandles handle = none := by
  have hi' := Program.move_finished hm hi fun _ => rfl
  rcases Program.move_cases hm with ⟨q, rfl⟩ | ⟨j, k, s, k', hk, hadv, rfl⟩
  · exact hgone
  rcases table_of_advance hadv with ⟨heq, -⟩ | ⟨inode', entries', handle', rfl, rfl⟩ |
    ⟨handle', -, rfl⟩
  · exact (congrFun heq handle).trans hgone
  · have hne : handle ≠ handle' := by
      rintro rfl
      have hlt := (List.getElem?_eq_some_iff.mp hk).1
      have hij := hnum.distinct hi' (List.getElem?_set_self hlt) rfl rfl
      subst hij
      rw [hi] at hk
      cases hk
      cases hadv
    simp only [DirHandles.insert, if_neg hne]
    exact hgone
  · simp only [DirHandles.remove]
    split
    · rfl
    · exact hgone

/-- The handle was returned, and a release begun later that is done has emptied its place. -/
structure Returned (n i inode : Nat) (entries : List CachedDirEntry) (handle : Nat)
    (c : HandleConfig) : Prop where
  returned : c.calls[i]? = some (.opendirDone inode entries handle)
  length : n ≤ c.calls.length
  released : ∀ k ≥ n, c.calls[k]? = some (.releasedirDone handle) →
    c.shared.dirHandles handle = none

theorem Returned.move (h : Returned n i inode entries handle c) (hnum : Numbered c')
    (hm : fs.handleProgram.move c m = some c') : Returned n i inode entries handle c' := by
  refine ⟨Program.move_finished hm h.returned fun _ => rfl,
    Nat.le_trans h.length (Program.length_le_of_move hm), fun k hk hdone => ?_⟩
  rcases Program.move_calls hm hdone with hold | ⟨-, q, hq⟩ | ⟨l, -, hadv⟩
  · exact gone_of_move hnum h.returned (h.released k hk hold) hm
  · cases q <;> cases hq
  · rcases table_of_advance hadv with ⟨-, -, hne⟩ | ⟨_, _, _, heq, -⟩ | ⟨handle', heq, hs⟩
    · exact absurd rfl (hne handle)
    · cases heq
    · cases heq
      rw [hs]
      simp [DirHandles.remove]

/-- The handle was returned and is gone, and no call from the `n`-th on has got anything. -/
structure Gone (n i inode : Nat) (entries : List CachedDirEntry) (handle : Nat)
    (c : HandleConfig) : Prop where
  returned : c.calls[i]? = some (.opendirDone inode entries handle)
  gone : c.shared.dirHandles handle = none
  length : n ≤ c.calls.length
  unserved : ∀ j ≥ n, ∀ plus d, c.calls[j]? ≠ some (.readdirGot plus handle d)

theorem Gone.move (h : Gone n i inode entries handle c) (hnum : Numbered c')
    (hm : fs.handleProgram.move c m = some c') : Gone n i inode entries handle c' := by
  refine ⟨Program.move_finished hm h.returned fun _ => rfl, gone_of_move hnum h.returned h.gone hm,
    Nat.le_trans h.length (Program.length_le_of_move hm), fun j hj plus d hgot => ?_⟩
  rcases Program.move_calls hm hgot with hold | ⟨-, q, hq⟩ | ⟨k, -, hadv⟩
  · exact h.unserved j hj plus d hold
  · cases q <;> cases hq
  · obtain ⟨-, -, hd⟩ := got_of_advance hadv
    rw [h.gone] at hd
    cases hd

/-- What moves keep while the handles are numbered, runs with fewer than 2^64 opens keep. -/
theorem run_numbered {I : HandleConfig → Prop} (hc : HandlesOk fs c) (hI : I c)
    (hkeep : ∀ c m c', I c → Numbered c' → fs.handleProgram.move c m = some c' → I c')
    (hm : fs.handleProgram.run ms c = some c') (hsmall : opendirs c'.calls < 2 ^ 64) : I c' := by
  have hboth := Program.run_invariant
    (I := fun c => opendirs c.calls < 2 ^ 64 → HandlesOk fs c ∧ I c) ?_ (fun _ => ⟨hc, hI⟩) hm hsmall
  · exact hboth.2
  · intro c m c' h hm hsmall
    obtain ⟨hok, hI⟩ := h (Nat.lt_of_le_of_lt (opendirs_le_of_move hm) hsmall)
    have hok' := hok.move hm hsmall
    exact ⟨hok', hkeep c m c' hI hok'.numbered hm⟩

theorem opendirs_le_of_run (hm : fs.handleProgram.run ms c = some c') :
    opendirs c.calls ≤ opendirs c'.calls :=
  Program.run_invariant (I := fun d => opendirs c.calls ≤ opendirs d.calls)
    (fun _ _ _ h hm => Nat.le_trans h (opendirs_le_of_move hm)) (Nat.le_refl _) hm

theorem HandlesOk.served (h : HandlesOk fs c) {j : Nat} {plus : Bool}
    (hi : c.calls[i]? = some (.opendirDone inode entries handle))
    (hj : c.calls[j]? = some (.readdir plus handle)) (hfree : ∀ k ∈ c.calls, ¬ k.releases handle) :
    fs.readDirEntries inode = .ok entries ∧ fs.handleProgram.move c (.step j) =
      some { c with calls := c.calls.set j (.readdirGot plus handle { entries }) } := by
  have hmem := List.mem_of_getElem? hi
  refine ⟨h.table.read _ hmem inode entries rfl, move_step hj ?_⟩
  have hd := h.table.present inode entries handle hmem hfree
  simp [ErofsFs.advance, ErofsFs.getDirHandle, hd]

theorem Gone.refused (h : Gone n i inode entries handle c) {j : Nat} {plus : Bool}
    (hj : c.calls[j]? = some (.readdir plus handle)) :
    fs.handleProgram.move c (.step j) = some { c with
      calls := c.calls.set j (.readdirFailed plus handle (.fail (.os ebadf))) } := by
  refine move_step hj ?_
  simp [ErofsFs.advance, ErofsFs.getDirHandle, h.gone, osError, fail]

/-- A release changes nothing but the place of its own handle. -/
theorem release_frame {k : Nat} (hk : c.calls[k]? = some (.releasedir handle))
    (hm : fs.handleProgram.move c (.step k) = some c') :
    (∀ h ≠ handle, c'.shared.dirHandles h = c.shared.dirHandles h) ∧
      c'.shared.nextDirHandle = c.shared.nextDirHandle ∧ ∀ j ≠ k, c'.calls[j]? = c.calls[j]? := by
  have hstep := @move_step fs c k _ _ (c.shared.remove handle) hk rfl
  rw [hstep] at hm
  cases hm
  refine ⟨fun h hne => if_neg hne, rfl, fun j hj => List.getElem?_set_ne (Ne.symm hj)⟩

/-- **Directory handles stay separate** under every schedule with fewer than 2^64 opens. No two
opens return one handle; whoever reads a returned handle before a release of it has begun
sees what its open has read; once a handle was returned and a release begun after that is
done, every later call on it is refused; a release touches no other handle. -/
theorem handles_separate {ms₀ ms₁ ms₂ : List (Move HandleRequest)} {c₀ c₁ c₂ : HandleConfig}
    (h₀ : fs.handleProgram.run ms₀ noCalls = some c₀) (h₁ : fs.handleProgram.run ms₁ c₀ = some c₁)
    (h₂ : fs.handleProgram.run ms₂ c₁ = some c₂) (hsmall : opendirs c₂.calls < 2 ^ 64) :
    (∀ (i j inode inode' : Nat) entries entries' handle,
      c₂.calls[i]? = some (.opendirDone inode entries handle) →
      c₂.calls[j]? = some (.opendirDone inode' entries' handle) → i = j) ∧
    (∀ (i j inode : Nat) entries handle plus, c₂.calls[i]? = some (.opendirDone inode entries handle) →
      c₂.calls[j]? = some (.readdir plus handle) → (∀ k ∈ c₂.calls, ¬ k.releases handle) →
      fs.readDirEntries inode = .ok entries ∧ fs.handleProgram.move c₂ (.step j) =
        some { c₂ with calls := c₂.calls.set j (.readdirGot plus handle { entries }) }) ∧
    (∀ (i k inode : Nat) entries handle, c₀.calls[i]? = some (.opendirDone inode entries handle) →
      c₀.calls.length ≤ k → c₁.calls[k]? = some (.releasedirDone handle) →
      ∀ j ≥ c₁.calls.length, ∀ plus, (∀ d, c₂.calls[j]? ≠ some (.readdirGot plus handle d)) ∧
        (c₂.calls[j]? = some (.readdir plus handle) → fs.handleProgram.move c₂ (.step j) =
          some { c₂ with
            calls := c₂.calls.set j (.readdirFailed plus handle (.fail (.os ebadf))) })) ∧
    ∀ (k handle : Nat) c, c₂.calls[k]? = some (.releasedir handle) →
      fs.handleProgram.move c₂ (.step k) = some c →
      (∀ h ≠ handle, c.shared.dirHandles h = c₂.shared.dirHandles h) ∧
        c.shared.nextDirHandle = c₂.shared.nextDirHandle ∧
        ∀ j ≠ k, c.calls[j]? = c₂.calls[j]? := by
  have hsmall₁ := Nat.lt_of_le_of_lt (opendirs_le_of_run h₂) hsmall
  have hsmall₀ := Nat.lt_of_le_of_lt (opendirs_le_of_run h₁) hsmall₁
  have hok₀ := handlesOk_noCalls.run h₀ hsmall₀
  have hok₁ := hok₀.run h₁ hsmall₁
  have hok₂ := hok₁.run h₂ hsmall
  refine ⟨?_, ?_, ?_, ?_⟩
  · intro i j inode inode' entries entries' handle hi hj
    exact hok₂.numbered.distinct hi hj rfl rfl
  · intro i j inode entries handle plus hi hj hfree
    exact hok₂.served hi hj hfree
  · intro i k inode entries handle hi hk hdone j hj plus
    have hret : Returned c₀.calls.length i inode entries handle c₀ := by
      refine ⟨hi, Nat.le_refl _, fun k hk hdone => ?_⟩
      have := (List.getElem?_eq_some_iff.mp hdone).1
      omega
    have hret₁ := run_numbered hok₀ hret (fun _ _ _ h hnum hm => h.move hnum hm) h₁ hsmall₁
    have hgone : Gone c₁.calls.length i inode entries handle c₁ := by
      refine ⟨hret₁.returned, hret₁.released k hk hdone, Nat.le_refl _, fun j hj plus d hgot => ?_⟩
      have := (List.getElem?_eq_some_iff.mp hgot).1
      omega
    have hgone₂ := run_numbered hok₁ hgone (fun _ _ _ h hnum hm => h.move hnum hm) h₂ hsmall
    exact ⟨fun d => hgone₂.unserved j hj plus d, fun hread => hgone₂.refused hread⟩
  · intro k handle c hk hm
    exact release_frame hk hm

end

/-! ## A release before the open -/

/-- The root, behind the superblock, is an empty directory. -/
def emptyRootFs : ErofsFs where
  reader := imageReader { magic := erofsSuperMagicV1, rootnid2b := 36 }
    (ErofsInodeCompact.asBytes (.new 0 0o040755 0 0 0 0 1 0 0) ++ List.replicate 32 0) none
    (by simp)

theorem emptyRootFs_opens :
    (do emptyRootFs.checkDir 1; emptyRootFs.readDirEntries 1) = .ok [] := by
  decide +kernel

/-- An open of the root starts and reads the directory. -/
theorem run_opendir (c : HandleConfig) : emptyRootFs.handleProgram.run
    [.start (.opendir 1), .step c.calls.length] c =
      some { c with calls := c.calls ++ [.opendirRead 1 []] } := by
  have hread : emptyRootFs.advance c.shared (.opendir 1) = some (c.shared, .opendirRead 1 []) := by
    rw [ErofsFs.advance, emptyRootFs_opens]
  have hstart : emptyRootFs.handleProgram.move c (.start (.opendir 1)) =
      some { c with calls := c.calls ++ [.opendir 1] } := rfl
  have hstep := @move_step emptyRootFs { c with calls := c.calls ++ [.opendir 1] } c.calls.length
    _ _ _ (List.getElem?_concat_length ..) hread
  rw [Program.run, hstart, Option.bind_eq_bind, Option.bind_some, Program.run, hstep]
  simp [Program.run]

/-- Handle 1 is released before anything has returned it. -/
def releasedFirst : HandleConfig :=
  { shared := DirHandles.new.remove 1, calls := [.releasedirDone 1] }

def openedAfterwards : HandleConfig :=
  { shared := releasedFirst.shared.fetchAdd.2.insert 1 { entries := [] }
    calls := [.releasedirDone 1, .opendirDone 1 [] 1, .readdirGot false 1 { entries := [] }] }

theorem run_openedAfterwards : emptyRootFs.handleProgram.run
    ([.start (.opendir 1), .step 1] ++ [.step 1, .step 1, .start (.readdir false 1), .step 2])
    releasedFirst = some openedAfterwards := by
  have hopen : emptyRootFs.handleProgram.run [.start (.opendir 1), .step 1] releasedFirst = _ :=
    run_opendir releasedFirst
  rw [Program.run_append, hopen]
  rfl

/-- A release that comes before the open does not keep later calls from the handle. -/
theorem released_handle_read : ¬ ∀ (fs : ErofsFs) (ms₁ ms₂ : List (Move HandleRequest))
    (c₁ c₂ : HandleConfig) (handle : Nat), fs.handleProgram.run ms₁ noCalls = some c₁ →
    .releasedirDone handle ∈ c₁.calls → fs.handleProgram.run ms₂ c₁ = some c₂ →
    opendirs c₂.calls < 2 ^ 64 → ∀ j ≥ c₁.calls.length, ∀ plus d,
      c₂.calls[j]? ≠ some (.readdirGot plus handle d) := by
  intro h
  have hrelease : emptyRootFs.handleProgram.run [.start (.releasedir 1), .step 0] noCalls =
      some releasedFirst := rfl
  exact h emptyRootFs _ _ _ _ 1 hrelease (by simp [releasedFirst]) run_openedAfterwards
    (by decide) 2 (by decide) false { entries := [] } rfl

def openedRoot : HandleConfig :=
  { shared := DirHandles.new.fetchAdd.2.insert 1 { entries := [] }, calls := [.opendirDone 1 [] 1] }

/-- Opened, released, and read too late. -/
theorem handles_separate_readLate : ∃ c, emptyRootFs.handleProgram.run
      [.start (.releasedir 1), .step 1, .start (.readdir true 1), .step 2] openedRoot = some c ∧
    ∀ d, c.calls[2]? ≠ some (.readdirGot true 1 d) := by
  have hread : emptyRootFs.handleProgram.run [.start (.opendir 1), .step 0] noCalls = _ :=
    run_opendir noCalls
  have hopen : emptyRootFs.handleProgram.run
      ([.start (.opendir 1), .step 0] ++ [.step 0, .step 0]) noCalls = some openedRoot := by
    rw [Program.run_append, hread]
    rfl
  exact ⟨_, rfl, fun d => ((handles_separate hopen
    (show emptyRootFs.handleProgram.run [.start (.releasedir 1), .step 1] _ = some _ from rfl)
    (show emptyRootFs.handleProgram.run [.start (.readdir true 1), .step 2] _ = some _ from rfl)
    (by decide)).2.2.1 0 1 1 [] 1 rfl (by decide) rfl 2 (by decide) true).1 d⟩

end ErofsUtils.Fs
