import ErofsUtils.Bytes.LittleEndian
import Mathlib.Data.Vector.Basic

/-! # Codecs of packed records

A codec of fixed size carries the laws a packed record needs: every encoding has the
record's size, decoding looks only at that many bytes, and it gives the record back. The
codec of a record is the product of the codecs of its fields, in the order in which they
are stored. -/
namespace ErofsUtils.Bytes
open ErofsUtils.Rust

structure Codec (α : Type) where
  size : Nat
  enc : α → List UInt8
  dec : List UInt8 → α
  length_enc : ∀ a, (enc a).length = size
  dec_enc_append : ∀ a rest, dec (enc a ++ rest) = a
  dec_take : ∀ l, dec (l.take size) = dec l

namespace Codec
variable {α β : Type}

theorem dec_enc (c : Codec α) (a : α) : c.dec (c.enc a) = a := by
  simpa using c.dec_enc_append a []

/-- The field of type `α` followed by the field of type `β`. -/
def pair (c : Codec α) (d : Codec β) : Codec (α × β) where
  size := c.size + d.size
  enc p := c.enc p.1 ++ d.enc p.2
  dec l := (c.dec l, d.dec (l.drop c.size))
  length_enc p := by simp [c.length_enc, d.length_enc]
  dec_enc_append p rest := by
    rw [List.append_assoc, c.dec_enc_append, ← c.length_enc p.1, List.drop_left,
      d.dec_enc_append]
  dec_take l := by
    have hfront : c.dec (l.take (c.size + d.size)) = c.dec l := by
      rw [← c.dec_take (l.take (c.size + d.size)), List.take_take,
        Nat.min_eq_left (Nat.le_add_right _ _), c.dec_take]
    rw [hfront, List.drop_take, Nat.add_sub_cancel_left, d.dec_take]

/-- A record with the fields `α`. -/
def record (c : Codec α) (mk : α → β) (fields : β → α) (h : ∀ b, mk (fields b) = b) :
    Codec β where
  size := c.size
  enc b := c.enc (fields b)
  dec l := mk (c.dec l)
  length_enc b := c.length_enc _
  dec_enc_append b rest := by rw [c.dec_enc_append, h]
  dec_take l := by rw [c.dec_take]

def u8 : Codec UInt8 where
  size := 1
  enc v := [v]
  dec l := l.headD 0
  length_enc _ := rfl
  dec_enc_append _ _ := rfl
  dec_take l := by cases l <;> rfl

theorem take_leBytes_append (w n : Nat) (rest : List UInt8) :
    (leBytes w n ++ rest).take w = leBytes w n := by
  conv_lhs => arg 1; rw [← length_leBytes w n]
  exact List.take_left

def u16 : Codec UInt16 where
  size := 2
  enc v := leBytes 2 v.toNat
  dec l := UInt16.ofNat (leNat (l.take 2))
  length_enc _ := length_leBytes 2 _
  dec_enc_append v rest := by
    rw [take_leBytes_append, leNat_leBytes,
      Nat.mod_eq_of_lt (show v.toNat < 256 ^ 2 from v.toNat_lt), UInt16.ofNat_toNat]
  dec_take l := by rw [List.take_take, Nat.min_self]

def u32 : Codec UInt32 where
  size := 4
  enc v := leBytes 4 v.toNat
  dec l := UInt32.ofNat (leNat (l.take 4))
  length_enc _ := length_leBytes 4 _
  dec_enc_append v rest := by
    rw [take_leBytes_append, leNat_leBytes,
      Nat.mod_eq_of_lt (show v.toNat < 256 ^ 4 from v.toNat_lt), UInt32.ofNat_toNat]
  dec_take l := by rw [List.take_take, Nat.min_self]

def u64 : Codec UInt64 where
  size := 8
  enc v := leBytes 8 v.toNat
  dec l := UInt64.ofNat (leNat (l.take 8))
  length_enc _ := length_leBytes 8 _
  dec_enc_append v rest := by
    rw [take_leBytes_append, leNat_leBytes,
      Nat.mod_eq_of_lt (show v.toNat < 256 ^ 8 from v.toNat_lt), UInt64.ofNat_toNat]
  dec_take l := by rw [List.take_take, Nat.min_self]

/-- `[u8; n]`. -/
def array (n : Nat) : Codec (Vector UInt8 n) where
  size := n
  enc v := v.toList
  dec l := Vector.ofFn fun i => l.getD i 0
  length_enc v := by simp
  dec_enc_append v rest := by
    ext i hi
    simp [List.getElem?_append]
  dec_take l := by
    ext i hi
    simp

/-- The record at the front of `data`; the length is asserted. -/
def castRef {ε : Type} (c : Codec α) (data : List UInt8) : Outcome ε α :=
  if c.size ≤ data.length then .ok (c.dec data)
  else abort (.assertion "data.len() >= mem::size_of::<T>()")

theorem castRef_ok {ε : Type} (c : Codec α) {data : List UInt8} (h : c.size ≤ data.length) :
    (c.castRef data : Outcome ε α) = .ok (c.dec data) := if_pos h

@[simp] theorem castRef_enc_append {ε : Type} (c : Codec α) (a : α) (rest : List UInt8) :
    (c.castRef (c.enc a ++ rest) : Outcome ε α) = .ok a := by
  rw [castRef_ok _ (by rw [List.length_append, c.length_enc]; omega), c.dec_enc_append]

end Codec
end ErofsUtils.Bytes
