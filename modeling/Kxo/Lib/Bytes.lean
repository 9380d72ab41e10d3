import Mathlib.Data.BitVec
import Mathlib.Tactic.Common

/-!
# Kxo — byte buffers

A buffer is a function from offsets to bytes. `memcpy` overwrites a range of it and `bytesAt` reads
one; the bounds of the memory behind it are a client's to check.
-/

namespace Kxo

abbrev Byte := BitVec 8

/-- `memcpy` of `data` to an offset. -/
def memcpy (dst : Nat → Byte) (offset : Nat) (data : List Byte) : Nat → Byte := fun k =>
  if offset ≤ k ∧ k < offset + data.length then data.getD (k - offset) 0 else dst k

/-- The `n` bytes at an offset. -/
def bytesAt (src : Nat → Byte) (offset n : Nat) : List Byte :=
  (List.range n).map fun k => src (offset + k)

/-- As many bytes as were asked for. -/
theorem length_bytesAt (src : Nat → Byte) (offset n : Nat) : (bytesAt src offset n).length = n := by
  simp [bytesAt]

/-- A range read in two parts. -/
theorem bytesAt_add (src : Nat → Byte) (offset n m : Nat) :
    bytesAt src offset (n + m) = bytesAt src offset n ++ bytesAt src (offset + n) m := by
  simp [bytesAt, List.range_add, Nat.add_assoc]

/-- What is read depends on nothing outside the range. -/
theorem bytesAt_congr {src src' : Nat → Byte} {offset n : Nat}
    (h : ∀ k, offset ≤ k → k < offset + n → src k = src' k) :
    bytesAt src offset n = bytesAt src' offset n := by
  refine List.map_congr_left fun k hk => ?_
  rw [List.mem_range] at hk
  exact h _ (by omega) (by omega)

/-- The frame of `memcpy`: a byte outside the range is as it was. -/
theorem memcpy_outside {dst : Nat → Byte} {offset k : Nat} {data : List Byte}
    (h : k < offset ∨ offset + data.length ≤ k) : memcpy dst offset data k = dst k := by
  rw [memcpy, if_neg]
  omega

/-- What was copied is read back. -/
theorem bytesAt_memcpy (dst : Nat → Byte) (offset : Nat) (data : List Byte) :
    bytesAt (memcpy dst offset data) offset data.length = data := by
  refine List.ext_getElem (by simp [bytesAt]) fun k hk hk' => ?_
  simp only [bytesAt, List.getElem_map, List.getElem_range, memcpy]
  rw [if_pos ⟨by omega, by omega⟩, Nat.add_sub_cancel_left]
  simp [hk']

/-- Bytes copied right behind a range are read behind it, as many as are asked for. -/
theorem bytesAt_memcpy_append (dst : Nat → Byte) (offset n : Nat) (data rest : List Byte) :
    bytesAt (memcpy dst (offset + n) (data ++ rest)) offset (n + data.length) =
      bytesAt dst offset n ++ data := by
  have hread := bytesAt_memcpy dst (offset + n) (data ++ rest)
  rw [List.length_append, bytesAt_add] at hread
  rw [bytesAt_add, (List.append_inj hread (length_bytesAt _ _ _)).1]
  congr 1
  exact bytesAt_congr fun k _ hk => memcpy_outside (.inl hk)

end Kxo
