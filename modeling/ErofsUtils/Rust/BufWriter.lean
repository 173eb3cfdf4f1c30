import Mathlib.Data.List.Basic

/-! # Buffered writers

A writer may take any front part of the bytes it is offered. A buffered one collects bytes and
passes them on when its buffer has no room for more, or when it is dropped. Errors of the last
pass are lost with the writer; what it was given is a front part of what arrives all the same. -/
namespace ErofsUtils.Rust

/-- A writer with state `δ`: how many of the bytes offered a call takes, or an error. -/
structure Sink (δ ε : Type) where
  write : δ → List UInt8 → δ × Except ε Nat
  contents : δ → List UInt8
  takes : ∀ {d d' : δ} {data : List UInt8} {n : Nat}, write d data = (d', .ok n) →
    n ≤ data.length ∧ contents d' = contents d ++ data.take n
  keeps : ∀ {d d' : δ} {data : List UInt8} {e : ε}, write d data = (d', .error e) →
    contents d' = contents d

variable {δ ε : Type} (s : Sink δ ε)

/-- Offers what is left until all of it is taken, and returns what is left then. A call that
takes nothing is the error `zero`. -/
def offerAll (zero : ε) (d : δ) (data : List UInt8) : δ × List UInt8 × Except ε Unit :=
  if data = [] then (d, [], .ok ())
  else match s.write d data with
    | (d, .ok 0) => (d, data, .error zero)
    | (d, .ok (n + 1)) => offerAll zero d (data.drop (n + 1))
    | (d, .error e) => (d, data, .error e)
termination_by data.length
decreasing_by
  have := List.length_pos_iff.mpr ‹_›
  rw [List.length_drop]
  omega

/-- A writer with a buffer that holds `capacity` bytes. -/
structure BufWriter (δ : Type) where
  inner : δ
  buffer : List UInt8
  capacity : Nat

namespace BufWriter

def new (capacity : Nat) (inner : δ) : BufWriter δ := { inner, buffer := [], capacity }

def spareCapacity (w : BufWriter δ) : Nat := w.capacity - w.buffer.length

/-- What was not taken stays in the buffer. -/
def flushBuf (zero : ε) (w : BufWriter δ) : BufWriter δ × Except ε Unit :=
  let (inner, buffer, result) := offerAll s zero w.inner w.buffer
  ({ w with inner, buffer }, result)

/-- The bytes go into the buffer if it has room for them. -/
def writeAll (zero : ε) (w : BufWriter δ) (data : List UInt8) : BufWriter δ × Except ε Unit :=
  if data.length < w.spareCapacity then ({ w with buffer := w.buffer ++ data }, .ok ())
  else
    match if data.length > w.spareCapacity then w.flushBuf s zero else (w, .ok ()) with
    | (w, .error e) => (w, .error e)
    | (w, .ok ()) =>
      if data.length ≥ w.capacity then
        let (inner, _, result) := offerAll s zero w.inner data
        ({ w with inner }, result)
      else ({ w with buffer := w.buffer ++ data }, .ok ())

/-- Dropping the writer flushes it, whatever comes of that. -/
def drop (zero : ε) (w : BufWriter δ) : δ := (w.flushBuf s zero).1.inner

/-- Everything the writer was given, as far as it has not been refused. -/
def held (w : BufWriter δ) : List UInt8 := s.contents w.inner ++ w.buffer

end BufWriter

/-! ## What arrives -/

variable {s} {zero : ε}

/-- What was taken and what is left are the bytes offered, and something is left exactly when
a call failed. -/
theorem offerAll_spec {d d' : δ} {data rest : List UInt8} {result : Except ε Unit}
    (h : offerAll s zero d data = (d', rest, result)) : ∃ taken, data = taken ++ rest ∧
      s.contents d' = s.contents d ++ taken ∧ (result = .ok () ↔ rest = []) := by
  induction hn : data.length using Nat.strongRecOn generalizing d data with
  | ind n ih =>
    rw [offerAll] at h
    split at h
    · rename_i hnil
      cases h
      exact ⟨[], by rw [hnil]; rfl, (List.append_nil _).symm, iff_of_true rfl rfl⟩
    rename_i hne
    split at h
    · rename_i d₁ hwrite
      cases h
      obtain ⟨-, hc⟩ := s.takes hwrite
      exact ⟨[], rfl, by rw [hc, List.take_zero], iff_of_false nofun hne⟩
    · rename_i d₁ m hwrite
      obtain ⟨hle, hc⟩ := s.takes hwrite
      obtain ⟨taken, hdata, hc', hiff⟩ := ih (data.drop (m + 1)).length
        (by rw [List.length_drop]; omega) h rfl
      refine ⟨data.take (m + 1) ++ taken, ?_, by rw [hc', hc, List.append_assoc], hiff⟩
      rw [List.append_assoc, ← hdata, List.take_append_drop]
    · rename_i d₁ e hwrite
      cases h
      exact ⟨[], rfl, by rw [s.keeps hwrite, List.append_nil], iff_of_false nofun hne⟩

namespace BufWriter
variable {w w' : BufWriter δ} {data : List UInt8} {result : Except ε Unit}

/-- A flush keeps what is held, and leaves the buffer empty exactly when it succeeds. -/
theorem flushBuf_spec (h : w.flushBuf s zero = (w', result)) :
    w'.held s = w.held s ∧ w'.capacity = w.capacity ∧ (result = .ok () ↔ w'.buffer = []) := by
  unfold flushBuf at h
  cases hoffer : offerAll s zero w.inner w.buffer with
  | mk d p =>
    obtain ⟨rest, result'⟩ := p
    rw [hoffer] at h
    cases h
    obtain ⟨taken, hbuf, hc, hiff⟩ := offerAll_spec hoffer
    refine ⟨?_, rfl, hiff⟩
    rw [held, held, hbuf, hc, List.append_assoc]

/-- Dropping a writer delivers a front part of what it holds. -/
theorem drop_front (s : Sink δ ε) (zero : ε) (w : BufWriter δ) : s.contents (w.drop s zero) <+: w.held s := by
  cases hflush : w.flushBuf s zero with
  | mk w' result =>
    have hheld := (flushBuf_spec hflush).1
    rw [drop, hflush, ← hheld]
    exact List.prefix_append _ _

/-- A writer with an empty buffer has delivered everything. -/
theorem drop_of_nil (s : Sink δ ε) (zero : ε) (h : w.buffer = []) :
    s.contents (w.drop s zero) = w.held s := by
  have hoffer : offerAll s zero w.inner w.buffer = (w.inner, [], .ok ()) := by
    rw [offerAll, if_pos h]
  rw [drop, flushBuf, hoffer, held, h, List.append_nil]

/-- **A write** that succeeds adds its bytes to what is held, and one that fails adds less. -/
theorem writeAll_spec (h : w.writeAll s zero data = (w', result)) :
    w'.capacity = w.capacity ∧ ∃ part, part <+: data ∧ w'.held s = w.held s ++ part ∧
      (result = .ok () ↔ part = data) := by
  unfold writeAll at h
  split at h
  · cases h
    exact ⟨rfl, data, List.prefix_rfl, (List.append_assoc ..).symm, iff_of_true rfl rfl⟩
  rename_i hfull
  split at h
  · rename_i w₁ e hfirst
    split at hfirst
    · rename_i hgt
      obtain ⟨hheld, hcap, -⟩ := flushBuf_spec hfirst
      cases h
      refine ⟨hcap, [], List.nil_prefix, by rw [hheld, List.append_nil], iff_of_false nofun ?_⟩
      rintro rfl
      exact absurd hgt (Nat.not_lt_zero _)
    · cases hfirst
  · rename_i w₁ hfirst
    have hkeep : w₁.held s = w.held s ∧ w₁.capacity = w.capacity ∧
        (data.length ≥ w.capacity → w₁.buffer = [] ∨ data = []) := by
      split at hfirst
      · obtain ⟨hheld, hcap, hiff⟩ := flushBuf_spec hfirst
        exact ⟨hheld, hcap, fun _ => .inl (hiff.mp rfl)⟩
      · rename_i hle
        cases hfirst
        refine ⟨rfl, rfl, fun hge => ?_⟩
        unfold spareCapacity at hle hfull
        rw [← List.length_eq_zero_iff, ← List.length_eq_zero_iff]
        omega
    obtain ⟨hheld, hcap, hempty⟩ := hkeep
    split at h
    · rename_i hlarge
      cases hoffer : offerAll s zero w₁.inner data with
      | mk d p =>
        obtain ⟨rest, result'⟩ := p
        rw [hoffer] at h
        cases h
        obtain ⟨taken, hdata, hc, hiff⟩ := offerAll_spec hoffer
        refine ⟨hcap, taken, ⟨rest, hdata.symm⟩, ?_, ?_⟩
        · rw [← hheld, held, held, hc]
          rcases hempty (hcap ▸ hlarge) with hnil | hnil
          · rw [hnil, List.append_nil, List.append_nil]
          · rw [(List.append_eq_nil_iff.mp (hdata.symm.trans hnil)).1, List.append_nil, List.append_nil]
        · rw [hiff, hdata]
          exact ⟨fun h => by rw [h, List.append_nil], fun h => List.self_eq_append_right.mp h⟩
    · cases h
      refine ⟨hcap, data, List.prefix_rfl, ?_, iff_of_true rfl rfl⟩
      rw [← hheld]
      exact (List.append_assoc ..).symm

/-- A write as large as the buffer leaves nothing in it when it succeeds. -/
theorem writeAll_large (h : w.writeAll s zero data = (w', .ok ())) (hpos : 0 < w.capacity)
    (hlarge : w.capacity ≤ data.length) : w'.buffer = [] := by
  have hne : data ≠ [] := List.length_pos_iff.mp (by omega)
  unfold writeAll spareCapacity at h
  rw [if_neg (by omega)] at h
  split at h
  · cases h
  · rename_i w₁ hfirst
    have hkeep : w₁.buffer = [] ∧ w₁.capacity = w.capacity := by
      split at hfirst
      · obtain ⟨-, hcap, hiff⟩ := flushBuf_spec hfirst
        exact ⟨hiff.mp rfl, hcap⟩
      · cases hfirst
        exact ⟨List.length_eq_zero_iff.mp (by omega), rfl⟩
    rw [if_pos (by omega)] at h
    have hsame := congrArg (fun p => p.1.buffer) h
    dsimp only at hsame
    rw [← hsame, hkeep.1]

end BufWriter

/-! ## Writers with room for so much -/

/-- The writer takes bytes as long as it has room, and only then. -/
structure Sink.Bounded (s : Sink δ ε) (room : δ → Nat) : Prop where
  kept : ∀ d data, (s.contents (s.write d data).1).length + room (s.write d data).1 =
    (s.contents d).length + room d
  stuck : ∀ d data, data ≠ [] → (∀ n, (s.write d data).2 ≠ .ok (n + 1)) → room d = 0

section
variable {room : δ → Nat} (hb : s.Bounded room)
include hb

/-- Whatever is left over was left over by a full writer. -/
theorem offerAll_bounded {d d' : δ} {data rest : List UInt8} {result : Except ε Unit}
    (h : offerAll s zero d data = (d', rest, result)) :
    (s.contents d').length + room d' = (s.contents d).length + room d ∧
      (rest ≠ [] → room d' = 0) := by
  induction hn : data.length using Nat.strongRecOn generalizing d data with
  | ind n ih =>
    rw [offerAll] at h
    split at h
    · cases h
      exact ⟨rfl, fun hne => absurd rfl hne⟩
    rename_i hne
    have hkept := hb.kept d data
    have hstuck := hb.stuck d data hne
    split at h
    · rename_i d₁ hwrite
      rw [hwrite] at hkept hstuck
      have hzero := hstuck nofun
      have hsame := congrArg List.length (s.takes hwrite).2
      rw [List.take_zero, List.append_nil] at hsame
      cases h
      exact ⟨hkept, fun _ => by dsimp only at hkept; omega⟩
    · rename_i d₁ m hwrite
      rw [hwrite] at hkept
      have hle := (s.takes hwrite).1
      obtain ⟨hkept', hfull⟩ := ih (data.drop (m + 1)).length (by rw [List.length_drop]; omega) h rfl
      exact ⟨hkept'.trans hkept, hfull⟩
    · rename_i d₁ e hwrite
      rw [hwrite] at hkept hstuck
      have hzero := hstuck nofun
      have hsame := congrArg List.length (s.keeps hwrite)
      cases h
      exact ⟨hkept, fun _ => by dsimp only at hkept; omega⟩

namespace BufWriter
variable {w w' : BufWriter δ} {data : List UInt8} {result : Except ε Unit}

theorem flushBuf_bounded (h : w.flushBuf s zero = (w', result)) :
    (s.contents w'.inner).length + room w'.inner = (s.contents w.inner).length + room w.inner ∧
      (w'.buffer ≠ [] → room w'.inner = 0) := by
  unfold flushBuf at h
  cases hoffer : offerAll s zero w.inner w.buffer with
  | mk d p =>
    rw [hoffer] at h
    cases h
    exact offerAll_bounded hb hoffer

/-- A write that fails leaves the inner writer full. -/
theorem writeAll_bounded (h : w.writeAll s zero data = (w', result)) :
    (s.contents w'.inner).length + room w'.inner = (s.contents w.inner).length + room w.inner ∧
      (result ≠ .ok () → room w'.inner = 0) := by
  unfold writeAll at h
  split at h
  · cases h
    exact ⟨rfl, fun hne => absurd rfl hne⟩
  have hfirst : ∀ {w₁ : BufWriter δ} {result₁ : Except ε Unit},
      (if data.length > w.spareCapacity then w.flushBuf s zero else (w, .ok ())) = (w₁, result₁) →
      (s.contents w₁.inner).length + room w₁.inner = (s.contents w.inner).length + room w.inner ∧
        (result₁ ≠ .ok () → room w₁.inner = 0) := by
    intro w₁ result₁ h
    split at h
    · obtain ⟨hkept, hfull⟩ := flushBuf_bounded hb h
      exact ⟨hkept, fun hne => hfull fun hnil => hne ((flushBuf_spec h).2.2.mpr hnil)⟩
    · cases h
      exact ⟨rfl, fun hne => absurd rfl hne⟩
  split at h
  · rename_i w₁ e hrun
    obtain ⟨hkept, hfull⟩ := hfirst hrun
    cases h
    exact ⟨hkept, fun _ => hfull nofun⟩
  · rename_i w₁ hrun
    obtain ⟨hkept, -⟩ := hfirst hrun
    split at h
    · cases hoffer : offerAll s zero w₁.inner data with
      | mk d p =>
        obtain ⟨rest, result'⟩ := p
        rw [hoffer] at h
        cases h
        obtain ⟨hkept', hfull⟩ := offerAll_bounded hb hoffer
        obtain ⟨-, -, -, hiff⟩ := offerAll_spec hoffer
        exact ⟨hkept'.trans hkept, fun hne => hfull fun hnil => hne (hiff.mpr hnil)⟩
    · cases h
      exact ⟨hkept, fun hne => absurd rfl hne⟩

/-- **Dropping** a writer delivers everything it holds, or fills the inner writer. -/
theorem drop_bounded (zero : ε) (w : BufWriter δ) :
    (s.contents (w.drop s zero)).length + room (w.drop s zero) =
        (s.contents w.inner).length + room w.inner ∧
      (s.contents (w.drop s zero) = w.held s ∨ room (w.drop s zero) = 0) := by
  cases hflush : w.flushBuf s zero with
  | mk w' result =>
    obtain ⟨hkept, hfull⟩ := flushBuf_bounded hb hflush
    have hheld := (flushBuf_spec hflush).1
    have hdrop : w.drop s zero = w'.inner := by rw [drop, hflush]
    rw [hdrop]
    refine ⟨hkept, ?_⟩
    by_cases hnil : w'.buffer = []
    · exact .inl (by rw [← hheld, held, hnil, List.append_nil])
    · exact .inr (hfull hnil)

end BufWriter
end
end ErofsUtils.Rust
