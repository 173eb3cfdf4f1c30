import Mathlib.Tactic.TypeStar

/-! # Servers and what they may answer

A server answers requests from its state. A specification says which replies a request may get
in a state of its own, over requests of its own. A server that answers every request as the
specification allows does so in every session. -/
namespace ErofsUtils.Refine

universe u v
variable {σ τ : Type u} {ρ ρ' : Type v} {α : Type u}

/-- The state behind a request, and the reply. -/
abbrev Server (σ : Type u) (ρ : Type v) (α : Type u) := σ → ρ → σ × α

def Server.run (serve : Server σ ρ α) : σ → List ρ → σ × List α
  | st, [] => (st, [])
  | st, q :: qs =>
    let (st, reply) := serve st q
    let (st, replies) := serve.run st qs
    (st, reply :: replies)

theorem Server.run_cons (serve : Server σ ρ α) (q : ρ) (qs : List ρ) (st : σ) :
    serve.run st (q :: qs) = ((serve.run (serve st q).1 qs).1,
      (serve st q).2 :: (serve.run (serve st q).1 qs).2) := rfl

theorem Server.run_append (serve : Server σ ρ α) (qs rs : List ρ) (st : σ) :
    serve.run st (qs ++ rs) = ((serve.run (serve.run st qs).1 rs).1,
      (serve.run st qs).2 ++ (serve.run (serve.run st qs).1 rs).2) := by
  induction qs generalizing st with
  | nil => rfl
  | cons q qs ih => rw [List.cons_append, run_cons, ih, run_cons, List.cons_append]

/-- In a state, a request may leave this state behind and get this reply. -/
abbrev Spec (τ : Type u) (ρ : Type v) (α : Type u) := τ → ρ → τ → α → Prop

/-- A session that the specification allows. -/
inductive Spec.Runs (allows : Spec τ ρ α) : τ → List ρ → τ → List α → Prop
  | nil {t : τ} : Runs allows t [] t []
  | cons {t t' t'' : τ} {q : ρ} {qs : List ρ} {reply : α} {replies : List α}
      (h : allows t q t' reply) (hs : Runs allows t' qs t'' replies) :
      Runs allows t (q :: qs) t'' (reply :: replies)

/-- The server answers the legal requests as the specification allows. `asked` is the form in
which a request reaches the server, and `R` relates the states of both. -/
structure Refines (serve : Server σ ρ' α) (allows : Spec τ ρ α) (asked : ρ → ρ') (legal : ρ → Prop)
    (R : σ → τ → Prop) : Prop where
  step : ∀ {st t q}, R st t → legal q →
    ∃ t', allows t q t' (serve st (asked q)).2 ∧ R (serve st (asked q)).1 t'

/-- **Sessions.** -/
theorem Refines.run {serve : Server σ ρ' α} {allows : Spec τ ρ α} {asked : ρ → ρ'}
    {legal : ρ → Prop} {R : σ → τ → Prop} (h : Refines serve allows asked legal R) {st : σ} {t : τ}
    (hR : R st t) {qs : List ρ} (hlegal : ∀ q ∈ qs, legal q) :
    ∃ t', allows.Runs t qs t' (serve.run st (qs.map asked)).2 ∧
      R (serve.run st (qs.map asked)).1 t' := by
  induction qs generalizing st t with
  | nil => exact ⟨t, .nil, hR⟩
  | cons q qs ih =>
    obtain ⟨t₁, hallows, hR₁⟩ := h.step hR (hlegal q List.mem_cons_self)
    obtain ⟨t₂, hruns, hR₂⟩ := ih hR₁ fun p hp => hlegal p (List.mem_cons_of_mem _ hp)
    exact ⟨t₂, .cons hallows hruns, hR₂⟩

end ErofsUtils.Refine
