import ErofsUtils.Concurrent.Interleaving
import ErofsUtils.Refine.Session

/-! # Calls that take effect at one point

Every call of a concurrent program has a point at which it takes effect, and its answer is
fixed there. If what happens at these points is what a sequential server does, on a state of
its own, then whatever the schedule, the answers are those of the server to the same requests
in the order of the points. That order only grows at its end, so a call that has returned
before another starts comes before it. -/
namespace ErofsUtils.Concurrent
open ErofsUtils.Refine

universe u
variable {ρ σ κ τ α : Type}

/-- Moves of a program whose calls are started only when they may be. -/
inductive Program.Reaches (P : Program ρ σ κ) (may : Config σ κ → ρ → Prop) (c : Config σ κ) :
    Config σ κ → Prop
  | refl : Reaches P may c c
  | start {d : Config σ κ} {q : ρ} (h : Reaches P may c d) (hq : may d q) :
      Reaches P may c { d with calls := d.calls ++ [P.call q] }
  | step {d : Config σ κ} {i : Nat} {k k' : κ} {s : σ} (h : Reaches P may c d)
      (hk : d.calls[i]? = some k) (hstep : P.advance d.shared k = some (s, k')) :
      Reaches P may c { shared := s, calls := d.calls.set i k' }

/-- A call that has taken effect. -/
structure Effect (ρ α : Type) where
  index : Nat
  request : ρ
  reply : α

/-- The effect of a call whose request is put so. -/
def Effect.map {ρ' : Type} (asked : ρ' → ρ) (e : Effect ρ' α) : Effect ρ α :=
  { index := e.index, request := asked e.request, reply := e.reply }

/-- Every step of a call is no point, or takes effect as the server serves its request.
`answer` is the answer of a call once it is fixed, and `R` relates the states of both. -/
structure Points (P : Program ρ σ κ) (may : Config σ κ → ρ → Prop) (serve : Server τ ρ α)
    (request : κ → ρ) (answer : κ → Option α) (R : Config σ κ → τ → Prop) : Prop where
  called : ∀ q, request (P.call q) = q ∧ answer (P.call q) = none
  started : ∀ {c t q}, R c t → may c q → R { c with calls := c.calls ++ [P.call q] } t
  stepped : ∀ {c t i k s k'}, R c t → c.calls[i]? = some k → P.advance c.shared k = some (s, k') →
    request k' = request k ∧
      ((answer k' = answer k ∧ R { shared := s, calls := c.calls.set i k' } t) ∨
        (answer k = none ∧ answer k' = some (serve t (request k)).2 ∧
          R { shared := s, calls := c.calls.set i k' } (serve t (request k)).1))

/-- The effects so far are one for each answered call, and those of a session of the server. -/
structure Explains (serve : Server τ ρ α) (request : κ → ρ) (answer : κ → Option α) (t₀ : τ)
    (c : Config σ κ) (log : List (Effect ρ α)) (t : τ) : Prop where
  once : (log.map Effect.index).Nodup
  all : ∀ i k a, c.calls[i]? = some k → answer k = some a → ⟨i, request k, a⟩ ∈ log
  each : ∀ e ∈ log, ∃ k, c.calls[e.index]? = some k ∧ request k = e.request ∧
    answer k = some e.reply
  served : serve.run t₀ (log.map Effect.request) = (t, log.map Effect.reply)

variable {P : Program ρ σ κ} {may : Config σ κ → ρ → Prop} {serve : Server τ ρ α}
  {request : κ → ρ} {answer : κ → Option α} {R : Config σ κ → τ → Prop} {t₀ t : τ}
  {c d : Config σ κ} {log : List (Effect ρ α)}

theorem getElem?_set_cases {l : List κ} {i j : Nat} {k x : κ} (h : (l.set i k)[j]? = some x) :
    (j = i ∧ x = k) ∨ (j ≠ i ∧ l[j]? = some x) := by
  by_cases hij : i = j
  · subst hij
    rw [List.getElem?_set_self (by simpa using (List.getElem?_eq_some_iff.mp h).1)] at h
    exact .inl ⟨rfl, (Option.some.inj h).symm⟩
  · exact .inr ⟨Ne.symm hij, (List.getElem?_set_ne hij).symm.trans h⟩

theorem explains_nil (hnone : ∀ k ∈ c.calls, answer k = none) :
    Explains serve request answer t₀ c [] t₀ where
  once := List.nodup_nil
  all := by
    intro i k a hk ha
    rw [hnone k (List.mem_of_getElem? hk)] at ha
    cases ha
  each := by
    intro e he
    cases he
  served := rfl

theorem Explains.started (h : Explains serve request answer t₀ c log t)
    {k : κ} (hk : answer k = none) :
    Explains serve request answer t₀ { c with calls := c.calls ++ [k] } log t where
  once := h.once
  served := h.served
  all := by
    intro i l a hl ha
    dsimp only at hl
    rw [List.getElem?_append] at hl
    split at hl
    · exact h.all i l a hl ha
    · have hmem := List.mem_of_getElem? hl
      rw [List.mem_singleton.mp hmem, hk] at ha
      cases ha
  each := by
    intro e he
    obtain ⟨l, hl, hrest⟩ := h.each e he
    exact ⟨l, (List.getElem?_append_left (List.getElem?_eq_some_iff.mp hl).1).trans hl, hrest⟩

/-- A step that is no point changes nothing of what is to be explained. -/
theorem Explains.stepped (h : Explains serve request answer t₀ c log t) {i : Nat} {k k' : κ}
    (s : σ) (hk : c.calls[i]? = some k) (hrequest : request k' = request k)
    (hanswer : answer k' = answer k) :
    Explains serve request answer t₀ { shared := s, calls := c.calls.set i k' } log t where
  once := h.once
  served := h.served
  all := by
    intro j l a hl ha
    rcases getElem?_set_cases hl with ⟨rfl, rfl⟩ | ⟨-, hl⟩
    · rw [hrequest]
      exact h.all j k a hk (hanswer ▸ ha)
    · exact h.all j l a hl ha
  each := by
    intro e he
    obtain ⟨l, hl, hlrequest, hlanswer⟩ := h.each e he
    by_cases hie : i = e.index
    · subst hie
      cases hk.symm.trans hl
      exact ⟨k', List.getElem?_set_self (List.getElem?_eq_some_iff.mp hk).1,
        hrequest.trans hlrequest, hanswer.trans hlanswer⟩
    · exact ⟨l, (List.getElem?_set_ne hie).trans hl, hlrequest, hlanswer⟩

/-- A point is the last effect. -/
theorem Explains.effect (h : Explains serve request answer t₀ c log t) {i : Nat} {k k' : κ}
    (s : σ) (hk : c.calls[i]? = some k) (hrequest : request k' = request k)
    (hnone : answer k = none) (hanswer : answer k' = some (serve t (request k)).2) :
    Explains serve request answer t₀ { shared := s, calls := c.calls.set i k' }
      (log ++ [⟨i, request k, (serve t (request k)).2⟩]) (serve t (request k)).1 where
  once := by
    have hnew : i ∉ log.map Effect.index := by
      intro hmem
      obtain ⟨e, he, rfl⟩ := List.mem_map.mp hmem
      obtain ⟨l, hl, -, hlanswer⟩ := h.each e he
      cases hk.symm.trans hl
      rw [hnone] at hlanswer
      cases hlanswer
    rw [List.map_append, List.map_singleton, List.nodup_append]
    refine ⟨h.once, List.pairwise_singleton _ _, ?_⟩
    rintro j hj _ hi rfl
    obtain rfl : j = i := List.mem_singleton.mp hi
    exact hnew hj
  all := by
    intro j l a hl ha
    rcases getElem?_set_cases hl with ⟨rfl, rfl⟩ | ⟨-, hl⟩
    · cases hanswer.symm.trans ha
      rw [hrequest]
      exact List.mem_append_right _ List.mem_cons_self
    · exact List.mem_append_left _ (h.all j l a hl ha)
  each := by
    intro e he
    rcases List.mem_append.mp he with he | he
    · obtain ⟨l, hl, hlrequest, hlanswer⟩ := h.each e he
      have hie : i ≠ e.index := by
        rintro rfl
        cases hk.symm.trans hl
        rw [hnone] at hlanswer
        cases hlanswer
      exact ⟨l, (List.getElem?_set_ne hie).trans hl, hlrequest, hlanswer⟩
    · rw [List.mem_singleton.mp he]
      exact ⟨k', List.getElem?_set_self (List.getElem?_eq_some_iff.mp hk).1, hrequest, hanswer⟩
  served := by
    rw [List.map_append, List.map_append, List.map_singleton, List.map_singleton,
      Server.run_append, h.served]
    rfl

/-- What starts later takes effect later. -/
theorem Explains.later {more : List (Effect ρ α)} (h : Explains serve request answer t₀ c log t)
    {e : Effect ρ α} (he : e ∈ log ++ more) (hlate : c.calls.length ≤ e.index) : e ∈ more := by
  refine (List.mem_append.mp he).resolve_left fun hlog => ?_
  obtain ⟨k, hk, -⟩ := h.each e hlog
  have := (List.getElem?_eq_some_iff.mp hk).1
  omega

/-- **Every schedule is explained.** What explains a configuration goes on to explain all that
is reached from it. -/
theorem Points.explained (h : Points P may serve request answer R) (hR : R c t)
    (hexp : Explains serve request answer t₀ c log t) (hreach : P.Reaches may c d) :
    ∃ more t', R d t' ∧ Explains serve request answer t₀ d (log ++ more) t' := by
  induction hreach with
  | refl => exact ⟨[], t, hR, by rwa [List.append_nil]⟩
  | start _ hq ih =>
    obtain ⟨more, t', hR', hexp'⟩ := ih
    exact ⟨more, t', h.started hR' hq, hexp'.started (h.called _).2⟩
  | step _ hk hstep ih =>
    obtain ⟨more, t', hR', hexp'⟩ := ih
    obtain ⟨hrequest, ⟨hanswer, hR''⟩ | ⟨hnone, hanswer, hR''⟩⟩ := h.stepped hR' hk hstep
    · exact ⟨more, t', hR'', hexp'.stepped _ hk hrequest hanswer⟩
    · exact ⟨_, _, hR'', by rw [← List.append_assoc]; exact hexp'.effect _ hk hrequest hnone hanswer⟩

end ErofsUtils.Concurrent
