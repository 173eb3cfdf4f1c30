import ErofsUtils.Build.BlobChunk
import ErofsUtils.Rust.BufWriter

/-! # Files as writers

What a full file has taken of a write stays in it. `writeAll` gives the file only after a write
that was taken whole; here it is kept after a failed one as well. -/
namespace ErofsUtils.Build
open ErofsUtils.Rust ErofsUtils.Bytes ErofsUtils.Metadata ErofsUtils.Store

/-- `write(2)` on a file: a full one takes a front part of the bytes, or reports that it is
full. -/
def Device.write (d : Device) (data : List UInt8) : Device × Except BuildError Nat :=
  if data = [] then (d, .ok 0)
  else if d.room = 0 then (d, .error (.io (.os enospc)))
  else
    let n := min data.length d.room
    ({ bytes := d.bytes ++ data.take n, room := d.room - n }, .ok n)

def Device.sink : Sink Device BuildError where
  write := Device.write
  contents := Device.bytes
  takes := by
    intro d d' data n h
    unfold Device.write at h
    split at h
    · cases h
      simp
    · split at h
      · cases h
      · cases h
        exact ⟨Nat.min_le_left _ _, rfl⟩
  keeps := by
    intro d d' data e h
    unfold Device.write at h
    split at h
    · cases h
    · split at h
      · cases h
        rfl
      · cases h

theorem Device.sink_bounded : Device.sink.Bounded Device.room where
  kept := by
    intro d data
    show (Device.write d data).1.bytes.length + (Device.write d data).1.room = _
    unfold Device.write
    split
    · rfl
    · split
      · rfl
      · simp only [List.length_append, List.length_take]
        show _ = d.bytes.length + d.room
        omega
  stuck := by
    intro d data hne h
    by_contra hroom
    have hpos := List.length_pos_iff.mpr hne
    have hwrite : Device.sink.write d data =
        ({ bytes := d.bytes ++ data.take (min data.length d.room)
           room := d.room - min data.length d.room }, .ok (min data.length d.room)) := by
      show Device.write d data = _
      rw [Device.write, if_neg hne, if_neg hroom]
    refine h (min data.length d.room - 1) ?_
    rw [hwrite, Nat.sub_add_cancel (by omega)]

/-- What `write_all` reports of a writer that takes nothing. -/
def writeZero : BuildError := .bail "failed to write whole buffer"

/-- `write_all` on a file without a buffer. -/
def Device.writeOut (d : Device) (data : List UInt8) : Device × Except BuildError Unit :=
  let (d, _, result) := offerAll Device.sink writeZero d data
  (d, result)

/-- That succeeds exactly when the file has the room. -/
theorem writeOut_eq_ok {d d' : Device} {data : List UInt8} :
    d.writeOut data = (d', .ok ()) ↔ d.writeAll data = .ok d' := by
  cases hoffer : offerAll Device.sink writeZero d data with
  | mk d₁ p =>
    obtain ⟨rest, result⟩ := p
    obtain ⟨taken, hdata, hbytes, hiff⟩ := offerAll_spec hoffer
    obtain ⟨hkept, hfull⟩ := offerAll_bounded Device.sink_bounded hoffer
    change d₁.bytes = d.bytes ++ taken at hbytes
    change d₁.bytes.length + d₁.room = d.bytes.length + d.room at hkept
    have hlen := congrArg List.length hdata
    rw [List.length_append] at hlen
    rw [hbytes, List.length_append] at hkept
    rw [Device.writeOut, hoffer, Device.writeAll]
    by_cases hroom : data.length ≤ d.room
    · have hnil : rest = [] := by
        by_contra hne
        have hzero := hfull hne
        have hpos := List.length_pos_iff.mpr hne
        omega
      subst hnil
      obtain rfl := hiff.mpr rfl
      rw [List.append_nil] at hdata
      rw [if_pos hroom, hdata, ← hbytes, show d.room - taken.length = d₁.room by omega]
      simp
    · have hne : rest ≠ [] := by
        rintro rfl
        rw [List.length_nil] at hlen
        omega
      rw [if_neg hroom]
      exact iff_of_false (fun h => hne (hiff.mp (congrArg Prod.snd h))) nofun

end ErofsUtils.Build
