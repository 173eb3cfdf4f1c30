import ErofsUtils.Concurrent.Linearizable
import ErofsUtils.Fs.Server

/-! # Requests that are served at once

Any number of workers serve requests on one file system. Whatever a request does besides is
its own; the table of open directories and the counter of handles are shared, and reached in
single steps. An `opendir` has two of them, a step that takes a number and a step that fills
its place in the table, and others may come between. As long as a handle is used only after it
was returned, nobody sees the difference. -/
namespace ErofsUtils.Fs
open ErofsUtils.Rust ErofsUtils.Metadata ErofsUtils.Concurrent ErofsUtils.Refine

/-- The handle of an open directory that a request is about. -/
def Request.handle? {ι : Type} : Request ι → Option Nat
  | .readdir handle .. => some handle
  | .readdirplus handle .. => some handle
  | .releasedir handle => some handle
  | _ => none

/-- The handle that a request gives back. -/
def Request.released? {ι : Type} : Request ι → Option Nat
  | .releasedir handle => some handle
  | _ => none

theorem Request.handle?_of_released? {ι : Type} {q : Request ι} {handle : Nat}
    (h : q.released? = some handle) : q.handle? = some handle := by
  cases q <;> first | exact h | cases h

def Request.isOpendir {ι : Type} : Request ι → Bool
  | .opendir _ => true
  | _ => false

/-- A request and how far it has come. -/
inductive ServeCall where
  | asked (q : Request Nat)
  | opendirRead (inode : Nat) (entries : List CachedDirEntry)
  | opendirNumbered (inode : Nat) (entries : List CachedDirEntry) (handle : Nat)
  | served (q : Request Nat) (reply : IoResult Reply)

namespace ServeCall

def request : ServeCall → Request Nat
  | asked q => q
  | opendirRead inode _ => .opendir inode
  | opendirNumbered inode _ _ => .opendir inode
  | served q _ => q

/-- The reply, fixed from the moment on when an open has its number. -/
def answer : ServeCall → Option (IoResult Reply)
  | asked _ => none
  | opendirRead .. => none
  | opendirNumbered _ _ handle => some (.ok (.opened handle))
  | served _ reply => some reply

def isAsked : ServeCall → Bool
  | asked _ => true
  | _ => false

def isServed : ServeCall → Bool
  | served .. => true
  | _ => false

/-- An open that has its number and not yet its place in the table. -/
def isFilling : ServeCall → Bool
  | opendirNumbered .. => true
  | _ => false

/-- The handle that an open has taken. -/
def number? : ServeCall → Option Nat
  | opendirNumbered _ _ handle => some handle
  | served (.opendir _) (.ok (.opened handle)) => some handle
  | _ => none

end ServeCall

abbrev ServeConfig := Config DirHandles ServeCall

def noRequests : ServeConfig := { shared := .new, calls := [] }

def numbersTaken (calls : List ServeCall) : Nat := calls.countP fun k => k.number?.isSome

def opensStarted (calls : List ServeCall) : Nat := calls.countP fun k => k.request.isOpendir

/-- There are handles left, and the handle of the request was returned. -/
structure MayAsk (c : ServeConfig) (q : Request Nat) : Prop where
  few : q.isOpendir = true → opensStarted c.calls + 1 < 2 ^ 64
  returned : ∀ handle, q.handle? = some handle →
    ∃ inode, .served (.opendir inode) (.ok (.opened handle)) ∈ c.calls

namespace ErofsFs

/-- What an `opendir` does before it touches what is shared. -/
def opendirEntries (fs : ErofsFs) (inode : Nat) : IoResult (List CachedDirEntry) := do
  fs.checkDir inode
  fs.readDirEntries inode

/-- The next step of a call. -/
def advanceCall (fs : ErofsFs) (st : DirHandles) : ServeCall → Option (DirHandles × ServeCall)
  | .asked q =>
    match q with
    | .opendir inode =>
      match fs.opendirEntries inode with
      | .ok entries => some (st, .opendirRead inode entries)
      | .error e => some (st, .served q (.error e))
    | _ => some ((fs.serveRequest st q).1, .served q (fs.serveRequest st q).2)
  | .opendirRead inode entries =>
    let (handle, st) := st.fetchAdd
    some (st, .opendirNumbered inode entries handle)
  | .opendirNumbered inode entries handle =>
    some (st.insert handle { entries }, .served (.opendir inode) (.ok (.opened handle)))
  | .served .. => none

def serveProgram (fs : ErofsFs) : Program (Request Nat) DirHandles ServeCall where
  call := .asked
  advance := fs.advanceCall

variable {fs : ErofsFs} {st st' : DirHandles} {k k' : ServeCall} {q : Request Nat} {inode : Nat}
  {entries : List CachedDirEntry}

/-- What one step of a call does. -/
theorem advanceCall_cases (h : fs.advanceCall st k = some (st', k')) :
    (∃ inode e, k = .asked (.opendir inode) ∧ fs.opendirEntries inode = .error e ∧ st' = st ∧
        k' = .served (.opendir inode) (.error e)) ∨
      (∃ inode entries, k = .asked (.opendir inode) ∧ fs.opendirEntries inode = .ok entries ∧
        st' = st ∧ k' = .opendirRead inode entries) ∨
      (∃ inode entries, k = .opendirRead inode entries ∧ st' = st.fetchAdd.2 ∧
        k' = .opendirNumbered inode entries st.nextDirHandle) ∨
      (∃ inode entries handle, k = .opendirNumbered inode entries handle ∧
        st' = st.insert handle { entries } ∧
        k' = .served (.opendir inode) (.ok (.opened handle))) ∨
      ∃ q, k = .asked q ∧ q.isOpendir = false ∧ st' = (fs.serveRequest st q).1 ∧
        k' = .served q (fs.serveRequest st q).2 := by
  cases k with
  | asked q =>
    by_cases hq : ∃ inode, q = .opendir inode
    · obtain ⟨inode, rfl⟩ := hq
      rw [advanceCall] at h
      split at h
      · rename_i entries hread
        cases h
        exact .inr (.inl ⟨inode, entries, rfl, hread, rfl, rfl⟩)
      · rename_i e hread
        cases h
        exact .inl ⟨inode, e, rfl, hread, rfl, rfl⟩
    · refine .inr (.inr (.inr (.inr ⟨q, rfl, ?_⟩)))
      cases q with
      | opendir inode => exact absurd ⟨inode, rfl⟩ hq
      | _ =>
        cases h
        exact ⟨rfl, rfl, rfl⟩
  | opendirRead inode entries =>
    cases h
    exact .inr (.inr (.inl ⟨inode, entries, rfl, rfl, rfl⟩))
  | opendirNumbered inode entries handle =>
    cases h
    exact .inr (.inr (.inr (.inl ⟨inode, entries, handle, rfl, rfl, rfl⟩)))
  | served q reply => cases h

/-! ## What a request needs of the shared state -/

theorem serveRequest_opendir_error {e : Fault IoError} (h : fs.opendirEntries inode = .error e)
    (st : DirHandles) : fs.serveRequest st (.opendir inode) = (st, .error e) := by
  rw [serveRequest]
  have hopen : fs.opendir st inode = .error e := by
    unfold opendirEntries at h
    rw [opendir]
    cases hcheck : fs.checkDir inode with
    | error e' =>
      rw [hcheck, bind_error] at h
      cases h
      rfl
    | ok u =>
      rw [hcheck, bind_ok] at h
      rw [bind_ok, createDirHandle, h]
      rfl
  rw [hopen]

theorem serveRequest_opendir_ok (h : fs.opendirEntries inode = .ok entries) (st : DirHandles) :
    fs.serveRequest st (.opendir inode) =
      (st.fetchAdd.2.insert st.nextDirHandle { entries }, .ok (.opened st.nextDirHandle)) := by
  unfold opendirEntries at h
  obtain ⟨u, hcheck, hread⟩ := bind_eq_ok.mp h
  have hopen : fs.opendir st inode =
      .ok (st.nextDirHandle, st.fetchAdd.2.insert st.nextDirHandle { entries }) := by
    rw [opendir, hcheck, bind_ok, createDirHandle, hread]
    rfl
  rw [serveRequest]
  rw [hopen]
  rfl

/-- The table at the handle is all that a request looks at. -/
theorem serveRequest_congr (hq : q.isOpendir = false)
    (h : ∀ handle, q.handle? = some handle → st.dirHandles handle = st'.dirHandles handle) :
    (fs.serveRequest st q).2 = (fs.serveRequest st' q).2 := by
  have hdir : ∀ handle, q.handle? = some handle →
      getDirHandle st handle = getDirHandle st' handle := by
    intro handle hhandle
    rw [getDirHandle, getDirHandle, h handle hhandle]
  cases q with
  | opendir inode => cases hq
  | readdir handle offset b =>
    simp only [serveRequest, readdir, hdir handle rfl]
  | readdirplus handle offset b =>
    simp only [serveRequest, readdirplus, hdir handle rfl]
  | _ => rfl

/-- Only a release changes the table, at its handle. -/
theorem serveRequest_frame (hq : q.isOpendir = false) (st : DirHandles) :
    (fs.serveRequest st q).1.nextDirHandle = st.nextDirHandle ∧
      ∀ handle, (fs.serveRequest st q).1.dirHandles handle =
        if q.released? = some handle then none else st.dirHandles handle := by
  cases q with
  | opendir inode => cases hq
  | releasedir handle =>
    refine ⟨rfl, fun other => ?_⟩
    show (if other = handle then none else st.dirHandles other) =
      if some handle = some other then none else st.dirHandles other
    simp only [Option.some.injEq, eq_comm]
  | _ => exact ⟨rfl, fun _ => rfl⟩

end ErofsFs

/-! ## Numbers -/

/-- The numbers that opens have taken are those up to the counter, one for each. -/
structure NumbersApart (c : ServeConfig) : Prop where
  few : opensStarted c.calls < 2 ^ 64
  next : c.shared.nextDirHandle = (1 + numbersTaken c.calls) % 2 ^ 64
  bound : ∀ {i : Nat} {k : ServeCall} {handle : Nat}, c.calls[i]? = some k →
    k.number? = some handle → handle ≤ numbersTaken c.calls
  distinct : ∀ {i j : Nat} {k l : ServeCall} {handle : Nat}, c.calls[i]? = some k →
    c.calls[j]? = some l → k.number? = some handle → l.number? = some handle → i = j

theorem isOpendir_of_number? {k : ServeCall} (h : k.number?.isSome = true) :
    k.request.isOpendir = true := by
  cases k with
  | opendirNumbered inode entries handle => rfl
  | served q reply =>
    cases q with
    | opendir inode => rfl
    | _ => cases h
  | _ => cases h

theorem numbersTaken_le (calls : List ServeCall) : numbersTaken calls ≤ opensStarted calls :=
  List.countP_mono_left fun _ _ h => isOpendir_of_number? h

variable {fs : ErofsFs} {c : ServeConfig} {st st' s : DirHandles} {k k' : ServeCall} {i : Nat}
  {q : Request Nat}

theorem NumbersApart.start (h : NumbersApart c) (hq : MayAsk c q) :
    NumbersApart { c with calls := c.calls ++ [.asked q] } := by
  have htaken : numbersTaken (c.calls ++ [.asked q]) = numbersTaken c.calls := by
    rw [numbersTaken, List.countP_append]
    rfl
  have hcall : ∀ {j : Nat} {l : ServeCall} {handle : Nat}, (c.calls ++ [.asked q])[j]? = some l →
      l.number? = some handle → c.calls[j]? = some l := by
    intro j l handle hl hnumber
    rw [List.getElem?_append] at hl
    split at hl
    · exact hl
    · rw [List.mem_singleton.mp (List.mem_of_getElem? hl)] at hnumber
      cases hnumber
  refine ⟨?_, ?_, ?_, ?_⟩
  · show opensStarted (c.calls ++ [.asked q]) < 2 ^ 64
    rw [opensStarted, List.countP_append, List.countP_singleton]
    have hfew := h.few
    have hmay := hq.few
    unfold opensStarted at hfew hmay
    split
    · exact hmay ‹_›
    · exact hfew
  · show c.shared.nextDirHandle = _
    rw [htaken, h.next]
  · intro j l handle hl hnumber
    rw [htaken]
    exact h.bound (hcall hl hnumber) hnumber
  · intro j j' l l' handle hl hl' hnumber hnumber'
    exact h.distinct (hcall hl hnumber) (hcall hl' hnumber') hnumber hnumber'

/-- A step that takes no number. -/
theorem NumbersApart.step (h : NumbersApart c) (hk : c.calls[i]? = some k)
    (hrequest : k'.request = k.request) (hnumber : k'.number? = k.number?)
    (hnext : s.nextDirHandle = c.shared.nextDirHandle) :
    NumbersApart { shared := s, calls := c.calls.set i k' } := by
  have hopens : opensStarted (c.calls.set i k') = opensStarted c.calls :=
    countP_set_of_eq hk (by rw [hrequest])
  have htaken : numbersTaken (c.calls.set i k') = numbersTaken c.calls :=
    countP_set_of_eq hk (by rw [hnumber])
  have hcall : ∀ {j : Nat} {l : ServeCall} {handle : Nat}, (c.calls.set i k')[j]? = some l →
      l.number? = some handle → ∃ l', c.calls[j]? = some l' ∧ l'.number? = some handle := by
    intro j l handle hl hl'
    rcases getElem?_set_cases hl with ⟨rfl, rfl⟩ | ⟨-, hl⟩
    · exact ⟨k, hk, hnumber ▸ hl'⟩
    · exact ⟨l, hl, hl'⟩
  refine ⟨hopens ▸ h.few, ?_, ?_, ?_⟩
  · show s.nextDirHandle = _
    rw [hnext, htaken, h.next]
  · intro j l handle hl hl'
    obtain ⟨l', hat, hnum⟩ := hcall hl hl'
    rw [htaken]
    exact h.bound hat hnum
  · intro j j' l l' handle hl hl' hn hn'
    obtain ⟨_, hat, hnum⟩ := hcall hl hn
    obtain ⟨_, hat', hnum'⟩ := hcall hl' hn'
    exact h.distinct hat hat' hnum hnum'

/-- The next number is new: there are fewer of them than opens. -/
theorem NumbersApart.next_eq (h : NumbersApart c) (hk : c.calls[i]? = some k)
    (hopen : k.request.isOpendir = true) (hnone : k.number? = none) :
    c.shared.nextDirHandle = 1 + numbersTaken c.calls ∧ 1 + numbersTaken c.calls < 2 ^ 64 := by
  have hlt : numbersTaken c.calls < opensStarted c.calls := by
    have hmore := numbersTaken_le (c.calls.set i (.opendirNumbered 0 [] 0))
    rw [numbersTaken, countP_set_of_new hk (by rw [hnone]; rfl) rfl, opensStarted,
      countP_set_of_eq hk (by rw [hopen]; rfl)] at hmore
    exact hmore
  have hfew := h.few
  refine ⟨?_, by omega⟩
  rw [h.next, Nat.mod_eq_of_lt (by omega)]

theorem NumbersApart.take (h : NumbersApart c) (hk : c.calls[i]? = some k)
    (hopen : k.request.isOpendir = true) (hnone : k.number? = none)
    (hrequest : k'.request = k.request) (hnumber : k'.number? = some c.shared.nextDirHandle) :
    NumbersApart { shared := c.shared.fetchAdd.2, calls := c.calls.set i k' } := by
  obtain ⟨hnext, hlt⟩ := h.next_eq hk hopen hnone
  have hopens : opensStarted (c.calls.set i k') = opensStarted c.calls :=
    countP_set_of_eq hk (by rw [hrequest])
  have htaken : numbersTaken (c.calls.set i k') = numbersTaken c.calls + 1 :=
    countP_set_of_new hk (by rw [hnone]; rfl) (by rw [hnumber]; rfl)
  refine ⟨hopens ▸ h.few, ?_, ?_, ?_⟩
  · show (c.shared.nextDirHandle + 1) % 2 ^ 64 = _
    rw [htaken, hnext, Nat.add_assoc]
  · intro j l handle hl hl'
    rw [htaken]
    rcases getElem?_set_cases hl with ⟨rfl, rfl⟩ | ⟨-, hl⟩
    · cases hnumber.symm.trans hl'
      omega
    · exact Nat.le_succ_of_le (h.bound hl hl')
  · intro j j' l l' handle hl hl' hn hn'
    rcases getElem?_set_cases hl with ⟨rfl, rfl⟩ | ⟨-, hat⟩ <;>
      rcases getElem?_set_cases hl' with ⟨rfl, rfl⟩ | ⟨-, hat'⟩
    · rfl
    · cases hnumber.symm.trans hn
      have := h.bound hat' hn'
      omega
    · cases hnumber.symm.trans hn'
      have := h.bound hat hn
      omega
    · exact h.distinct hat hat' hn hn'

/-! ## The table -/

/-- An open has a number whose place in the table it has not filled yet. -/
def Filling (calls : List ServeCall) (handle : Nat) : Prop :=
  ∃ inode entries, .opendirNumbered inode entries handle ∈ calls

/-- The server whose opens fill their places at once is ahead by the places to be filled. -/
structure Serving (fs : ErofsFs) (c : ServeConfig) (st : DirHandles) : Prop where
  numbers : NumbersApart c
  next : st.nextDirHandle = c.shared.nextDirHandle
  returned : ∀ q handle, .asked q ∈ c.calls → q.handle? = some handle →
    ∃ inode, .served (.opendir inode) (.ok (.opened handle)) ∈ c.calls
  read : ∀ inode entries, .opendirRead inode entries ∈ c.calls →
    fs.opendirEntries inode = .ok entries
  ahead : ∀ inode entries handle, .opendirNumbered inode entries handle ∈ c.calls →
    st.dirHandles handle = some { entries }
  table : ∀ handle, ¬ Filling c.calls handle → c.shared.dirHandles handle = st.dirHandles handle

theorem serving_noRequests : Serving fs noRequests .new where
  numbers := by
    refine ⟨?_, rfl, ?_, ?_⟩
    · decide
    · intro i k handle hk
      cases hk
    · intro i j k l handle hk
      cases hk
  next := rfl
  returned := by
    intro q handle hq
    cases hq
  read := by
    intro inode entries hk
    cases hk
  ahead := by
    intro inode entries handle hk
    cases hk
  table := fun _ _ => rfl

theorem mem_set_of_ne {l : List ServeCall} {x : ServeCall} (hk : l[i]? = some k) (hx : x ∈ l)
    (hne : x ≠ k) : x ∈ l.set i k' := by
  obtain ⟨j, hj⟩ := List.mem_iff_getElem?.mp hx
  have hij : i ≠ j := by
    rintro rfl
    rw [hk] at hj
    exact hne (Option.some.inj hj).symm
  exact List.mem_of_getElem? ((List.getElem?_set_ne hij).trans hj)

theorem Serving.start (h : Serving fs c st) (hq : MayAsk c q) :
    Serving fs { c with calls := c.calls ++ [.asked q] } st where
  numbers := h.numbers.start hq
  next := h.next
  returned := by
    intro q' handle hmem hhandle
    have hold : ∃ inode, .served (.opendir inode) (.ok (.opened handle)) ∈ c.calls := by
      rcases List.mem_append.mp hmem with hmem | hmem
      · exact h.returned q' handle hmem hhandle
      · cases List.mem_singleton.mp hmem
        exact hq.returned handle hhandle
    obtain ⟨inode, hserved⟩ := hold
    exact ⟨inode, List.mem_append_left _ hserved⟩
  read := by
    intro inode entries hmem
    rcases List.mem_append.mp hmem with hmem | hmem
    · exact h.read inode entries hmem
    · cases List.mem_singleton.mp hmem
  ahead := by
    intro inode entries handle hmem
    rcases List.mem_append.mp hmem with hmem | hmem
    · exact h.ahead inode entries handle hmem
    · cases List.mem_singleton.mp hmem
  table := by
    intro handle hnot
    refine h.table handle fun ⟨inode, entries, hmem⟩ => hnot ⟨inode, entries, ?_⟩
    exact List.mem_append_left _ hmem

/-- Whoever has asked goes on having a returned handle. -/
theorem Serving.returned_set (h : Serving fs c st) (hk : c.calls[i]? = some k)
    (hopen : k.isServed = false) (hasked : k'.isAsked = false) (q : Request Nat)
    (handle : Nat) (hmem : .asked q ∈ c.calls.set i k') (hhandle : q.handle? = some handle) :
    ∃ inode, .served (.opendir inode) (.ok (.opened handle)) ∈ c.calls.set i k' := by
  obtain ⟨inode, hserved⟩ := h.returned q handle
    ((List.mem_or_eq_of_mem_set hmem).resolve_right fun heq => by
      rw [← heq] at hasked
      cases hasked) hhandle
  refine ⟨inode, mem_set_of_ne hk hserved fun heq => ?_⟩
  rw [← heq] at hopen
  cases hopen

/-- Nobody fills the place of a handle that was returned. -/
theorem Serving.not_filling (h : Serving fs c st) (hmem : .asked q ∈ c.calls) {handle : Nat}
    (hhandle : q.handle? = some handle) : ¬ Filling c.calls handle := by
  rintro ⟨inode, entries, hfilling⟩
  obtain ⟨inode', hserved⟩ := h.returned q handle hmem hhandle
  obtain ⟨i, hi⟩ := List.mem_iff_getElem?.mp hfilling
  obtain ⟨j, hj⟩ := List.mem_iff_getElem?.mp hserved
  obtain rfl := h.numbers.distinct hi hj rfl rfl
  cases hi.symm.trans hj

/-- A step of a call that has no place to fill, before and after. -/
theorem Serving.quiet (h : Serving fs c st) (hk : c.calls[i]? = some k)
    (hrequest : k'.request = k.request) (hnumber : k'.number? = k.number?)
    (hplace : k.isFilling = false) (hplace' : k'.isFilling = false)
    (hopen : k.isServed = false) (hasked : k'.isAsked = false)
    (hread : ∀ inode entries, k' = .opendirRead inode entries → fs.opendirEntries inode = .ok entries)
    (hnext : s.nextDirHandle = c.shared.nextDirHandle) (hnext' : st'.nextDirHandle = st.nextDirHandle)
    (hfilling : ∀ handle, Filling c.calls handle → st'.dirHandles handle = st.dirHandles handle)
    (htable : ∀ handle, ¬ Filling c.calls handle → s.dirHandles handle = st'.dirHandles handle) :
    Serving fs { shared := s, calls := c.calls.set i k' } st' where
  numbers := h.numbers.step hk hrequest hnumber hnext
  next := (hnext'.trans h.next).trans hnext.symm
  returned := h.returned_set hk hopen hasked
  read := by
    intro inode entries hmem
    rcases List.mem_or_eq_of_mem_set hmem with hmem | heq
    · exact h.read inode entries hmem
    · exact hread inode entries heq.symm
  ahead := by
    intro inode entries handle hmem
    rcases List.mem_or_eq_of_mem_set hmem with hmem | heq
    · rw [hfilling handle ⟨inode, entries, hmem⟩]
      exact h.ahead inode entries handle hmem
    · rw [← heq] at hplace'
      cases hplace'
  table := by
    intro handle hnot
    refine htable handle fun ⟨inode, entries, hmem⟩ => hnot ⟨inode, entries, ?_⟩
    refine mem_set_of_ne hk hmem fun heq => ?_
    rw [← heq] at hplace
    cases hplace

/-- An open that takes its number takes effect. -/
theorem Serving.number (h : Serving fs c st) {inode : Nat} {entries : List CachedDirEntry}
    (hk : c.calls[i]? = some (.opendirRead inode entries)) :
    Serving fs { shared := c.shared.fetchAdd.2,
                 calls := c.calls.set i (.opendirNumbered inode entries c.shared.nextDirHandle) }
      (st.fetchAdd.2.insert st.nextDirHandle { entries }) where
  numbers := h.numbers.take hk rfl rfl rfl rfl
  next := congrArg (fun n => (n + 1) % 2 ^ 64) h.next
  returned := h.returned_set hk rfl rfl
  read := by
    intro inode' entries' hmem
    rcases List.mem_or_eq_of_mem_set hmem with hmem | heq
    · exact h.read inode' entries' hmem
    · cases heq
  ahead := by
    intro inode' entries' handle hmem
    rcases List.mem_or_eq_of_mem_set hmem with hmem | heq
    · have hnew : handle ≠ st.nextDirHandle := by
        obtain ⟨j, hj⟩ := List.mem_iff_getElem?.mp hmem
        have hbound := h.numbers.bound hj rfl
        have hnext := (h.numbers.next_eq hk rfl rfl).1
        rw [h.next]
        omega
      exact (if_neg hnew).trans (h.ahead inode' entries' handle hmem)
    · cases heq
      exact if_pos h.next.symm
  table := by
    intro handle hnot
    have hnew : handle ≠ st.nextDirHandle := by
      rintro rfl
      refine hnot ⟨inode, entries, ?_⟩
      rw [h.next]
      exact List.mem_of_getElem? (List.getElem?_set_self (List.getElem?_eq_some_iff.mp hk).1)
    refine (h.table handle fun ⟨inode', entries', hmem⟩ => hnot ⟨inode', entries', ?_⟩).trans
      (if_neg hnew).symm
    exact mem_set_of_ne hk hmem nofun

/-- An open that fills its place makes up for the server being ahead. -/
theorem Serving.fill (h : Serving fs c st) {inode handle : Nat} {entries : List CachedDirEntry}
    (hk : c.calls[i]? = some (.opendirNumbered inode entries handle)) :
    Serving fs { shared := c.shared.insert handle { entries },
                 calls := c.calls.set i (.served (.opendir inode) (.ok (.opened handle))) } st where
  numbers := h.numbers.step hk rfl rfl rfl
  next := h.next
  returned := h.returned_set hk rfl rfl
  read := by
    intro inode' entries' hmem
    rcases List.mem_or_eq_of_mem_set hmem with hmem | heq
    · exact h.read inode' entries' hmem
    · cases heq
  ahead := by
    intro inode' entries' handle' hmem
    rcases List.mem_or_eq_of_mem_set hmem with hmem | heq
    · exact h.ahead inode' entries' handle' hmem
    · cases heq
  table := by
    intro other hnot
    by_cases hsame : other = handle
    · rw [hsame]
      exact (if_pos rfl).trans (h.ahead inode entries handle (List.mem_of_getElem? hk)).symm
    · refine (if_neg hsame).trans
        (h.table other fun ⟨inode', entries', hmem⟩ => hnot ⟨inode', entries', ?_⟩)
      exact mem_set_of_ne hk hmem fun heq => hsame (ServeCall.opendirNumbered.inj heq).2.2

/-! ## Linearizability -/

/-- An open takes effect when it takes its number or fails to, any other request when it looks
at what is shared. -/
theorem serve_points (fs : ErofsFs) : Points fs.serveProgram MayAsk fs.serveRequest
    ServeCall.request ServeCall.answer (Serving fs) where
  called := fun _ => ⟨rfl, rfl⟩
  started := Serving.start
  stepped := by
    intro c st i k s k' h hk hstep
    rcases ErofsFs.advanceCall_cases hstep with ⟨inode, e, rfl, hread, rfl, rfl⟩ |
      ⟨inode, entries, rfl, hread, rfl, rfl⟩ | ⟨inode, entries, rfl, rfl, rfl⟩ |
      ⟨inode, entries, handle, rfl, rfl, rfl⟩ | ⟨q, rfl, hq, rfl, rfl⟩
    · refine ⟨rfl, .inr ⟨rfl, ?_, ?_⟩⟩
      · rw [ServeCall.request, ErofsFs.serveRequest_opendir_error hread]
        rfl
      · rw [ServeCall.request, ErofsFs.serveRequest_opendir_error hread]
        refine h.quiet hk rfl rfl rfl rfl rfl rfl ?_ rfl rfl (fun _ _ => rfl) h.table
        rintro _ _ ⟨⟩
    · refine ⟨rfl, .inl ⟨rfl, ?_⟩⟩
      refine h.quiet hk rfl rfl rfl rfl rfl rfl ?_ rfl rfl (fun _ _ => rfl) h.table
      rintro _ _ ⟨⟩
      exact hread
    · have hread := h.read inode entries (List.mem_of_getElem? hk)
      refine ⟨rfl, .inr ⟨rfl, ?_, ?_⟩⟩
      · rw [ServeCall.request, ErofsFs.serveRequest_opendir_ok hread, h.next]
        rfl
      · rw [ServeCall.request, ErofsFs.serveRequest_opendir_ok hread]
        exact h.number hk
    · exact ⟨rfl, .inl ⟨rfl, h.fill hk⟩⟩
    · have hmem := List.mem_of_getElem? hk
      have hsame : ∀ handle, q.handle? = some handle →
          c.shared.dirHandles handle = st.dirHandles handle :=
        fun handle hhandle => h.table handle (h.not_filling hmem hhandle)
      obtain ⟨hnext, hframe⟩ := @ErofsFs.serveRequest_frame fs q hq c.shared
      obtain ⟨hnext', hframe'⟩ := @ErofsFs.serveRequest_frame fs q hq st
      have hnone : ServeCall.number? (.served q (fs.serveRequest c.shared q).2) = none := by
        cases q with
        | opendir inode => cases hq
        | _ => rfl
      refine ⟨rfl, .inr ⟨rfl, ?_, ?_⟩⟩
      · exact congrArg some (ErofsFs.serveRequest_congr hq hsame)
      · refine h.quiet hk rfl hnone rfl rfl rfl rfl ?_ hnext hnext' ?_ ?_
        · rintro _ _ ⟨⟩
        · intro handle hfilling
          show (fs.serveRequest st q).1.dirHandles handle = _
          rw [hframe', if_neg]
          exact fun hreleased => h.not_filling hmem (Request.handle?_of_released? hreleased) hfilling
        · intro handle hnot
          show (fs.serveRequest c.shared q).1.dirHandles handle =
            (fs.serveRequest st q).1.dirHandles handle
          rw [hframe, hframe', h.table handle hnot]

/-- What is reached has an order of effects, and what is reached from there a longer one. -/
theorem serve_explained {c d : ServeConfig} (hc : fs.serveProgram.Reaches MayAsk noRequests c)
    (hd : fs.serveProgram.Reaches MayAsk c d) : ∃ log more st st',
      Explains fs.serveRequest ServeCall.request ServeCall.answer .new c log st ∧
      Explains fs.serveRequest ServeCall.request ServeCall.answer .new d (log ++ more) st' ∧
      Serving fs d st' := by
  obtain ⟨log, st, hR, hlog⟩ := (serve_points fs).explained serving_noRequests
    (explains_nil fun k hk => absurd hk List.not_mem_nil) hc
  obtain ⟨more, st', hR', hmore⟩ := (serve_points fs).explained hR hlog hd
  exact ⟨log, more, st, st', hlog, hmore, hR'⟩

/-- **Requests that are served at once** are answered as if they were served one after the
other, under every schedule: each answered call has one effect, and the sequential server gives
the same replies in the order of the effects. Effects only come to the end of that order, so
that a call that started after another had its answer stands behind it. The tables differ only
where an open has yet to fill its place. -/
theorem serve_linearizable {c d : ServeConfig}
    (hc : fs.serveProgram.Reaches MayAsk noRequests c) (hd : fs.serveProgram.Reaches MayAsk c d) :
    ∃ log more st st',
      Explains fs.serveRequest ServeCall.request ServeCall.answer .new c log st ∧
      Explains fs.serveRequest ServeCall.request ServeCall.answer .new d (log ++ more) st' ∧
      (∀ e ∈ log ++ more, c.calls.length ≤ e.index → e ∈ more) ∧
      ∀ handle, ¬ Filling d.calls handle → d.shared.dirHandles handle = st'.dirHandles handle := by
  obtain ⟨log, more, st, st', hlog, hmore, hserving⟩ := serve_explained hc hd
  exact ⟨log, more, st, st', hlog, hmore, fun e he hlate => hlog.later he hlate, hserving.table⟩

/-- Two opens overlap, and the one that has the later number returns first. -/
def overlappingOpens : ServeConfig where
  shared := (DirHandles.new.fetchAdd.2.fetchAdd.2).insert 2 { entries := [] }
  calls := [.served (.opendir 1) (.ok (.opened 2)), .opendirNumbered 1 [] 1]

theorem reaches_overlappingOpens (h : fs.opendirEntries 1 = .ok []) :
    fs.serveProgram.Reaches MayAsk noRequests overlappingOpens := by
  have hread : ∀ st, fs.serveProgram.advance st (.asked (.opendir 1)) =
      some (st, .opendirRead 1 []) := by
    intro st
    simp only [ErofsFs.serveProgram, ErofsFs.advanceCall, h]
  have hmay : ∀ c : ServeConfig, c.calls.length ≤ 1 → MayAsk c (.opendir 1) := by
    intro c hlen
    refine ⟨fun _ => ?_, fun handle hhandle => by cases hhandle⟩
    have hcount : opensStarted c.calls ≤ c.calls.length := List.countP_le_length
    omega
  have first : fs.serveProgram.Reaches MayAsk noRequests ⟨.new, [.asked (.opendir 1)]⟩ :=
    .start .refl (hmay _ (by decide))
  have both : fs.serveProgram.Reaches MayAsk noRequests
      ⟨.new, [.asked (.opendir 1), .asked (.opendir 1)]⟩ := first.start (hmay _ (Nat.le_refl 1))
  have firstRead := both.step (i := 0) rfl (hread _)
  have bothRead := firstRead.step (i := 1) rfl (hread _)
  have secondNumbered := bothRead.step (i := 1) (k := .opendirRead 1 []) rfl rfl
  have bothNumbered := secondNumbered.step (i := 0) (k := .opendirRead 1 []) rfl rfl
  exact bothNumbered.step (i := 0) (k := .opendirNumbered 1 [] 2) rfl rfl

/-- The handle that was returned is released, and the other open returns. -/
def releasedThen : ServeConfig where
  shared := (overlappingOpens.shared.remove 2).insert 1 { entries := [] }
  calls := [.served (.opendir 1) (.ok (.opened 2)), .served (.opendir 1) (.ok (.opened 1)),
    .served (.releasedir 2) (.ok .done)]

theorem reaches_releasedThen :
    fs.serveProgram.Reaches MayAsk overlappingOpens releasedThen := by
  have hmay : MayAsk overlappingOpens (.releasedir 2) := by
    constructor
    · intro hopen
      cases hopen
    · intro handle hhandle
      cases hhandle
      exact ⟨1, List.mem_cons_self⟩
  have asked := (Program.Reaches.refl (P := fs.serveProgram)).start hmay
  have released := asked.step (i := 2) (k := .asked (.releasedir 2)) rfl rfl
  exact released.step (i := 1) (k := .opendirNumbered 1 [] 1) rfl rfl

/-- The release is the last effect, though an open returned after it. -/
theorem serve_linearizable_releasedThen : ∃ log more st st',
    Explains emptyRootFs.serveRequest ServeCall.request ServeCall.answer .new overlappingOpens
      log st ∧
    Explains emptyRootFs.serveRequest ServeCall.request ServeCall.answer .new releasedThen
      (log ++ more) st' ∧ ⟨2, .releasedir 2, .ok .done⟩ ∈ more := by
  obtain ⟨log, more, st, st', hlog, hmore, hlate, -⟩ :=
    serve_linearizable (reaches_overlappingOpens emptyRootFs_opens) reaches_releasedThen
  exact ⟨log, more, st, st', hlog, hmore,
    hlate _ (hmore.all 2 (.served (.releasedir 2) (.ok .done)) _ rfl rfl) (Nat.le_refl 2)⟩

end ErofsUtils.Fs
