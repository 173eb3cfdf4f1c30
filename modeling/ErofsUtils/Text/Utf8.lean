import Mathlib.Tactic.Common

/-! # UTF-8 and lossy conversion

Text is the concatenation of the encodings of its scalar values. `toStringLossy` keeps
text as it is and puts the replacement character for every maximal piece of bytes that
starts no character. -/
namespace ErofsUtils.Text

/-! ## Encodings -/

/-- A code point that is no surrogate. -/
def IsScalar (v : Nat) : Prop := v < 0xD800 ∨ 0xDFFF < v ∧ v < 0x110000

def encode (v : Nat) : List UInt8 :=
  if v < 0x80 then [UInt8.ofNat v]
  else if v < 0x800 then [UInt8.ofNat (0xC0 + v / 64), UInt8.ofNat (0x80 + v % 64)]
  else if v < 0x10000 then
    [UInt8.ofNat (0xE0 + v / 4096), UInt8.ofNat (0x80 + v / 64 % 64), UInt8.ofNat (0x80 + v % 64)]
  else
    [UInt8.ofNat (0xF0 + v / 262144), UInt8.ofNat (0x80 + v / 4096 % 64),
      UInt8.ofNat (0x80 + v / 64 % 64), UInt8.ofNat (0x80 + v % 64)]

/-- The bytes are text. -/
def IsUtf8 (bytes : List UInt8) : Prop :=
  ∃ vs : List Nat, (∀ v ∈ vs, IsScalar v) ∧ bytes = vs.flatMap encode

/-! ## The scan -/

def safeGet (xs : List UInt8) (i : Nat) : UInt8 := xs.getD i 0

def isContinuation (b : UInt8) : Bool := b &&& 192 == 128

def utf8CharWidth (b : UInt8) : Nat :=
  if b < 0x80 then 1
  else if 0xC2 ≤ b ∧ b ≤ 0xDF then 2
  else if 0xE0 ≤ b ∧ b ≤ 0xEF then 3
  else if 0xF0 ≤ b ∧ b ≤ 0xF4 then 4
  else 0

/-- The second bytes allowed behind the lead byte of three or four bytes. -/
def isSecond (lead b : UInt8) : Bool :=
  if lead = 0xE0 then 0xA0 ≤ b && b ≤ 0xBF
  else if lead = 0xED then 0x80 ≤ b && b ≤ 0x9F
  else if lead = 0xF0 then 0x90 ≤ b && b ≤ 0xBF
  else if lead = 0xF4 then 0x80 ≤ b && b ≤ 0x8F
  else 0x80 ≤ b && b ≤ 0xBF

/-- The number of bytes of the next piece, and whether they are a character. -/
def scanChar (source : List UInt8) : Nat × Bool :=
  let byte := safeGet source 0
  if byte < 128 then (1, true)
  else match utf8CharWidth byte with
    | 2 => if isContinuation (safeGet source 1) then (2, true) else (1, false)
    | 3 =>
      if ¬ isSecond byte (safeGet source 1) then (1, false)
      else if isContinuation (safeGet source 2) then (3, true) else (2, false)
    | 4 =>
      if ¬ isSecond byte (safeGet source 1) then (1, false)
      else if ¬ isContinuation (safeGet source 2) then (2, false)
      else if isContinuation (safeGet source 3) then (4, true) else (3, false)
    | _ => (1, false)

theorem scanChar_pos (source : List UInt8) : 0 < (scanChar source).1 := by
  unfold scanChar
  dsimp only
  repeat' split
  all_goals exact Nat.succ_pos _

/-- U+FFFD. -/
def replacement : List UInt8 := [0xEF, 0xBF, 0xBD]

/-- The bytes of the string. -/
def toStringLossy (source : List UInt8) : List UInt8 :=
  if _h : source = [] then []
  else
    (if (scanChar source).2 then source.take (scanChar source).1 else replacement) ++
      toStringLossy (source.drop (scanChar source).1)
termination_by source.length
decreasing_by
  have := scanChar_pos source
  have := List.length_pos_iff.mpr _h
  rw [List.length_drop]
  omega

/-! ## Characters -/

theorem isContinuation_iff (b : UInt8) :
    isContinuation b = true ↔ 0x80 ≤ b.toNat ∧ b.toNat ≤ 0xBF := by
  have hall : ∀ n < 256, isContinuation (UInt8.ofNat n) = true ↔ 0x80 ≤ n ∧ n ≤ 0xBF := by
    decide +kernel
  have hb := hall b.toNat b.toNat_lt
  rwa [UInt8.ofNat_toNat] at hb

/-- The second bytes, by the values of the bytes. -/
structure SecondOk (lead b : Nat) : Prop where
  cont : 0x80 ≤ b ∧ b ≤ 0xBF
  e0 : lead = 0xE0 → 0xA0 ≤ b
  ed : lead = 0xED → b ≤ 0x9F
  f0 : lead = 0xF0 → 0x90 ≤ b
  f4 : lead = 0xF4 → b ≤ 0x8F

theorem isSecond_iff (lead b : UInt8) : isSecond lead b = true ↔ SecondOk lead.toNat b.toNat := by
  unfold isSecond
  constructor
  · intro h
    repeat' split at h
    all_goals
      simp only [Bool.and_eq_true, decide_eq_true_eq, ← UInt8.toNat_inj, UInt8.le_iff_toNat_le,
        UInt8.reduceToNat] at *
      constructor <;> omega
  · rintro ⟨hc, he0, hed, hf0, hf4⟩
    repeat' split
    all_goals
      simp only [Bool.and_eq_true, decide_eq_true_eq, ← UInt8.toNat_inj, UInt8.le_iff_toNat_le,
        UInt8.reduceToNat] at *
      omega

/-- The bytes of one character. -/
inductive IsChar : List UInt8 → Prop
  | one {a : UInt8} (h : a.toNat < 0x80) : IsChar [a]
  | two {a b : UInt8} (h : 0xC2 ≤ a.toNat ∧ a.toNat ≤ 0xDF) (hb : isContinuation b = true) :
      IsChar [a, b]
  | three {a b c : UInt8} (h : 0xE0 ≤ a.toNat ∧ a.toNat ≤ 0xEF) (hb : isSecond a b = true)
      (hc : isContinuation c = true) : IsChar [a, b, c]
  | four {a b c d : UInt8} (h : 0xF0 ≤ a.toNat ∧ a.toNat ≤ 0xF4) (hb : isSecond a b = true)
      (hc : isContinuation c = true) (hd : isContinuation d = true) : IsChar [a, b, c, d]

theorem ofNat_eq {n : Nat} {b : UInt8} (h : n = b.toNat) : UInt8.ofNat n = b := by
  rw [h, UInt8.ofNat_toNat]

theorem toNat_ofNat {n : Nat} (h : n < 256) : (UInt8.ofNat n).toNat = n := by
  rw [UInt8.toNat_ofNat']
  omega

theorem exists_scalar {c : List UInt8} (h : IsChar c) : ∃ v, IsScalar v ∧ c = encode v := by
  unfold IsScalar
  cases h with
  | @one a h =>
    refine ⟨a.toNat, by omega, ?_⟩
    rw [encode, if_pos h, UInt8.ofNat_toNat]
  | @two a b h hb =>
    have hb := (isContinuation_iff b).mp hb
    refine ⟨(a.toNat - 0xC0) * 64 + (b.toNat - 0x80), by omega, ?_⟩
    rw [encode, if_neg (by omega), if_pos (by omega), ofNat_eq (b := a) (by omega),
      ofNat_eq (b := b) (by omega)]
  | @three a b c h hb hc =>
    obtain ⟨hb, he0, hed, -, -⟩ := (isSecond_iff a b).mp hb
    have hc := (isContinuation_iff c).mp hc
    refine ⟨(a.toNat - 0xE0) * 4096 + (b.toNat - 0x80) * 64 + (c.toNat - 0x80), by omega, ?_⟩
    rw [encode, if_neg (by omega), if_neg (by omega), if_pos (by omega),
      ofNat_eq (b := a) (by omega), ofNat_eq (b := b) (by omega), ofNat_eq (b := c) (by omega)]
  | @four a b c d h hb hc hd =>
    obtain ⟨hb, -, -, hf0, hf4⟩ := (isSecond_iff a b).mp hb
    have hc := (isContinuation_iff c).mp hc
    have hd := (isContinuation_iff d).mp hd
    refine ⟨(a.toNat - 0xF0) * 262144 + (b.toNat - 0x80) * 4096 + (c.toNat - 0x80) * 64 +
      (d.toNat - 0x80), by omega, ?_⟩
    rw [encode, if_neg (by omega), if_neg (by omega), if_neg (by omega),
      ofNat_eq (b := a) (by omega), ofNat_eq (b := b) (by omega), ofNat_eq (b := c) (by omega),
      ofNat_eq (b := d) (by omega)]

theorem isChar_encode {v : Nat} (h : IsScalar v) : IsChar (encode v) := by
  unfold IsScalar at h
  rw [encode]
  split
  · exact .one (by rw [toNat_ofNat (by omega)]; omega)
  split
  · refine .two (by rw [toNat_ofNat (by omega)]; omega) ?_
    rw [isContinuation_iff, toNat_ofNat (by omega)]
    omega
  split
  · refine .three (by rw [toNat_ofNat (by omega)]; omega) ?_ ?_
    · rw [isSecond_iff, toNat_ofNat (by omega), toNat_ofNat (by omega)]
      constructor <;> omega
    · rw [isContinuation_iff, toNat_ofNat (by omega)]
      omega
  · refine .four (by rw [toNat_ofNat (by omega)]; omega) ?_ ?_ ?_
    · rw [isSecond_iff, toNat_ofNat (by omega), toNat_ofNat (by omega)]
      constructor <;> omega
    · rw [isContinuation_iff, toNat_ofNat (by omega)]
      omega
    · rw [isContinuation_iff, toNat_ofNat (by omega)]
      omega

/-- Characters are the encodings of scalar values. -/
theorem isChar_iff {c : List UInt8} : IsChar c ↔ ∃ v, IsScalar v ∧ c = encode v := by
  refine ⟨exists_scalar, ?_⟩
  rintro ⟨v, hv, rfl⟩
  exact isChar_encode hv

/-! ## The scan finds characters -/

theorem utf8CharWidth_iff (a : UInt8) :
    (utf8CharWidth a = 2 ↔ 0xC2 ≤ a.toNat ∧ a.toNat ≤ 0xDF) ∧
      (utf8CharWidth a = 3 ↔ 0xE0 ≤ a.toNat ∧ a.toNat ≤ 0xEF) ∧
      (utf8CharWidth a = 4 ↔ 0xF0 ≤ a.toNat ∧ a.toNat ≤ 0xF4) := by
  unfold utf8CharWidth
  simp only [UInt8.lt_iff_toNat_lt, UInt8.le_iff_toNat_le, UInt8.reduceToNat]
  repeat' split
  all_goals omega

theorem not_lt_128 {a : UInt8} (h : 128 ≤ a.toNat) : ¬ a < 128 := by
  rw [UInt8.lt_iff_toNat_lt]
  exact Nat.not_lt.mpr h

theorem scanChar_append {c : List UInt8} (h : IsChar c) (rest : List UInt8) :
    scanChar (c ++ rest) = (c.length, true) := by
  cases h with
  | @one a h =>
    have hlt : a < 128 := by
      rw [UInt8.lt_iff_toNat_lt]
      exact h
    simp [scanChar, safeGet, hlt]
  | @two a b h hb =>
    have hw := (utf8CharWidth_iff a).1.mpr h
    simp [scanChar, safeGet, not_lt_128 (show 128 ≤ a.toNat by omega), hw, hb]
  | @three a b c h hb hc =>
    have hw := (utf8CharWidth_iff a).2.1.mpr h
    simp [scanChar, safeGet, not_lt_128 (show 128 ≤ a.toNat by omega), hw, hb, hc]
  | @four a b c d h hb hc hd =>
    have hw := (utf8CharWidth_iff a).2.2.mpr h
    simp [scanChar, safeGet, not_lt_128 (show 128 ≤ a.toNat by omega), hw, hb, hc, hd]

theorem ne_zero_of_isContinuation {b : UInt8} (h : isContinuation b = true) : b ≠ 0 := by
  rintro rfl
  exact absurd h (by decide)

theorem ne_zero_of_isSecond {a b : UInt8} (h : isSecond a b = true) : b ≠ 0 := by
  rintro rfl
  have := ((isSecond_iff a 0).mp h).cont.1
  exact absurd this (by decide)

/-- What the scan takes for a character is one. -/
theorem isChar_scanChar {l : List UInt8} (hne : l ≠ []) (h : (scanChar l).2 = true) :
    IsChar (l.take (scanChar l).1) := by
  obtain ⟨a, rest, rfl⟩ := List.exists_cons_of_ne_nil hne
  have hfirst : safeGet (a :: rest) 0 = a := rfl
  obtain ⟨hw₂, hw₃, hw₄⟩ := utf8CharWidth_iff a
  unfold scanChar at h ⊢
  rw [hfirst] at h ⊢
  dsimp only at h ⊢
  split at h
  · rename_i hlt
    rw [if_pos hlt]
    rw [UInt8.lt_iff_toNat_lt] at hlt
    exact .one hlt
  rename_i hlt
  rw [if_neg hlt]
  split at h
  · rename_i hw
    split at h
    · rename_i hb
      rw [if_pos hb]
      cases rest with
      | nil => exact absurd rfl (ne_zero_of_isContinuation hb)
      | cons b rest => exact .two (hw₂.mp hw) hb
    · cases h
  · rename_i hw
    split at h
    · cases h
    rename_i hb
    split at h
    · rename_i hc
      rw [if_neg hb, if_pos hc]
      match rest, hb, hc with
      | [], hb, _ => exact absurd rfl (ne_zero_of_isSecond (not_not.mp hb))
      | [_], _, hc => exact absurd rfl (ne_zero_of_isContinuation hc)
      | b :: c :: rest, hb, hc => exact .three (hw₃.mp hw) (not_not.mp hb) hc
    · cases h
  · rename_i hw
    split at h
    · cases h
    rename_i hb
    split at h
    · cases h
    rename_i hc
    split at h
    · rename_i hd
      rw [if_neg hb, if_neg hc, if_pos hd]
      match rest, hb, hc, hd with
      | [], hb, _, _ => exact absurd rfl (ne_zero_of_isSecond (not_not.mp hb))
      | [_], _, hc, _ => exact absurd rfl (ne_zero_of_isContinuation (not_not.mp hc))
      | [_, _], _, _, hd => exact absurd rfl (ne_zero_of_isContinuation hd)
      | b :: c :: d :: rest, hb, hc, hd =>
        exact .four (hw₄.mp hw) (not_not.mp hb) (not_not.mp hc) hd
    · cases h
  · cases h

theorem IsChar.ne_nil {c : List UInt8} (h : IsChar c) : c ≠ [] := by cases h <;> nofun

/-! ## Lossy conversion -/

theorem toStringLossy_append {c : List UInt8} (h : IsChar c) (rest : List UInt8) :
    toStringLossy (c ++ rest) = c ++ toStringLossy rest := by
  have hne : c ++ rest ≠ [] := by
    intro h'
    exact h.ne_nil (List.append_eq_nil_iff.mp h').1
  rw [toStringLossy, dif_neg hne, scanChar_append h, if_pos rfl, List.take_left, List.drop_left]

theorem isUtf8_nil : IsUtf8 [] := ⟨[], nofun, rfl⟩

theorem IsUtf8.append {c rest : List UInt8} (hc : IsChar c) (h : IsUtf8 rest) : IsUtf8 (c ++ rest) := by
  obtain ⟨v, hv, rfl⟩ := isChar_iff.mp hc
  obtain ⟨vs, hvs, rfl⟩ := h
  refine ⟨v :: vs, ?_, rfl⟩
  intro u hu
  rcases List.mem_cons.mp hu with rfl | hu
  · exact hv
  · exact hvs u hu

theorem toStringLossy_of_isUtf8 {bytes : List UInt8} (h : IsUtf8 bytes) :
    toStringLossy bytes = bytes := by
  obtain ⟨vs, hvs, rfl⟩ := h
  induction vs with
  | nil => rw [List.flatMap_nil, toStringLossy, dif_pos rfl]
  | cons v vs ih =>
    rw [List.flatMap_cons, toStringLossy_append (isChar_encode (hvs v List.mem_cons_self)),
      ih fun u hu => hvs u (List.mem_cons_of_mem _ hu)]

theorem isChar_replacement : IsChar replacement := .three (by decide) (by decide) (by decide)

theorem toStringLossy_ne_nil {bytes : List UInt8} (h : bytes ≠ []) : toStringLossy bytes ≠ [] := by
  rw [toStringLossy, dif_neg h]
  intro hnil
  have hpiece := (List.append_eq_nil_iff.mp hnil).1
  split at hpiece
  · rename_i hok
    exact (isChar_scanChar h hok).ne_nil hpiece
  · cases hpiece

/-- A byte of the string is one of the bytes, or of the replacement character. -/
theorem mem_toStringLossy {bytes : List UInt8} {b : UInt8} (h : b ∈ toStringLossy bytes) :
    b ∈ bytes ∨ b ∈ replacement := by
  induction bytes using toStringLossy.induct with
  | case1 =>
    rw [toStringLossy, dif_pos rfl] at h
    cases h
  | case2 bytes hne ih =>
    rw [toStringLossy, dif_neg hne] at h
    rcases List.mem_append.mp h with hpiece | hrest
    · split at hpiece
      · exact .inl (List.mem_of_mem_take hpiece)
      · exact .inr hpiece
    · exact (ih hrest).imp_left List.mem_of_mem_drop

theorem length_toStringLossy_le (bytes : List UInt8) :
    (toStringLossy bytes).length ≤ 3 * bytes.length := by
  induction bytes using toStringLossy.induct with
  | case1 =>
    rw [toStringLossy, dif_pos rfl]
    exact Nat.zero_le _
  | case2 bytes hne ih =>
    rw [toStringLossy, dif_neg hne, List.length_append]
    rw [List.length_drop] at ih
    have hpos := scanChar_pos bytes
    have hlen := List.length_pos_iff.mpr hne
    split
    · rw [List.length_take]
      omega
    · rw [show replacement.length = 3 from rfl]
      omega

/-- **Lossy conversion** keeps text, and nothing else. -/
theorem toStringLossy_eq_self_iff {bytes : List UInt8} :
    toStringLossy bytes = bytes ↔ IsUtf8 bytes := by
  refine ⟨?_, toStringLossy_of_isUtf8⟩
  intro h
  induction hn : bytes.length using Nat.strongRecOn generalizing bytes with
  | ind n ih =>
    by_cases hne : bytes = []
    · rw [hne]
      exact isUtf8_nil
    have hpos := scanChar_pos bytes
    have hlen := List.length_pos_iff.mpr hne
    rw [toStringLossy, dif_neg hne] at h
    cases hok : (scanChar bytes).2 with
    | true =>
      have hchar := isChar_scanChar hne hok
      rw [hok, if_pos rfl] at h
      have hsplit := List.take_append_drop (scanChar bytes).1 bytes
      have hrest : toStringLossy (bytes.drop (scanChar bytes).1) = bytes.drop (scanChar bytes).1 :=
        List.append_cancel_left (h.trans hsplit.symm)
      rw [← hsplit]
      exact (ih _ (by rw [List.length_drop]; omega) hrest rfl).append hchar
    | false =>
      -- bytes that come out unchanged begin with the replacement, a character
      rw [hok, if_neg Bool.false_ne_true] at h
      have hscan := scanChar_append isChar_replacement (toStringLossy (bytes.drop (scanChar bytes).1))
      rw [h] at hscan
      rw [hscan] at hok
      cases hok

end ErofsUtils.Text
