import Mathlib.Algebra.Group.Nat.Defs
import Mathlib.Tactic.Common

/-!
# Bit fields of a machine word

A word of `w` bits holds fields: `k` consecutive bits starting at bit `n`. This library reads a
field with `get` and writes it with `set`, both by mask and shift, and proves the three laws a
client needs: reading back what was written (`get_set_same`), a write leaves every disjoint field
alone (`get_set_other`), and two words with the same bits in every field are equal
(`eq_of_get_eq`).

`set` does not mask the value it is given. The laws therefore ask that the value fits its field.
-/

namespace BitField

variable {w : Nat}

/-- The mask of `k` low ones. -/
def ones (w k : Nat) : BitVec w := BitVec.ofNat w (2 ^ k - 1)

/-- Read the field selected by `mask <<< n`. -/
def get (x mask : BitVec w) (n : Nat) : BitVec w :=
  (x &&& (mask <<< n)) >>> n

/-- Overwrite the field selected by `mask <<< n` with `value`, which is shifted but not masked. -/
def set (x value mask : BitVec w) (n : Nat) : BitVec w :=
  (x &&& ~~~(mask <<< n)) ||| (value <<< n)

/-- A value fits a field of `k` bits when it has no bit at or above `k`. -/
def Fits (v : BitVec w) (k : Nat) : Prop := v.toNat < 2 ^ k

instance (v : BitVec w) (k : Nat) : Decidable (Fits v k) := inferInstanceAs (Decidable (_ < _))

/-! ## Bit-level characterisations

`get` and `set` bit by bit. The mask `ones w k` selects the bits below `k`; shifted by `n` it
selects the field, and both operations reduce to a case distinction on where a bit lies. -/

/-- Bit `i` of the mask is set below `k`, as far as the word reaches. -/
theorem getLsbD_ones (k i : Nat) : (ones w k).getLsbD i = (decide (i < w) && decide (i < k)) := by
  simp [ones, BitVec.getLsbD_ofNat, Nat.testBit_two_pow_sub_one]

/-- A value that fits `k` bits has none at or above bit `k`: its number is below `2 ^ k`, so below
`2 ^ i` for every `i` from `k` on. -/
theorem Fits.getLsbD_eq_false {v : BitVec w} {k i : Nat} (hv : Fits v k) (hi : k ≤ i) :
    v.getLsbD i = false :=
  Nat.testBit_lt_two_pow (Nat.lt_of_lt_of_le hv (Nat.pow_le_pow_right (by omega) hi))

/-- Bit `i` of a `k`-bit field at `n` is bit `n + i` of the word. -/
theorem getLsbD_get (x : BitVec w) {k n i : Nat} (hk : n + k ≤ w) :
    (get x (ones w k) n).getLsbD i = (decide (i < k) && x.getLsbD (n + i)) := by
  by_cases hi : i < k
  · simp [get, getLsbD_ones, hi, show n + i < w from by omega, show i < w from by omega]
  · simp [get, getLsbD_ones, hi]

/-- A write replaces the bits of its field and keeps the rest. -/
theorem getLsbD_set (x : BitVec w) {v : BitVec w} {k n i : Nat} (hv : Fits v k) (hi : i < w) :
    (set x v (ones w k) n).getLsbD i =
      if n ≤ i ∧ i < n + k then v.getLsbD (i - n) else x.getLsbD i := by
  have hbits : (set x v (ones w k) n).getLsbD i =
      (x.getLsbD i && !(!decide (i < n) && (ones w k).getLsbD (i - n)) ||
        !decide (i < n) && v.getLsbD (i - n)) := by
    simp only [set, BitVec.getLsbD_or, BitVec.getLsbD_and, BitVec.getLsbD_not,
      BitVec.getLsbD_shiftLeft, hi, decide_true, Bool.true_and]
  rw [hbits, getLsbD_ones]
  by_cases hlo : n ≤ i
  · by_cases hhi : i < n + k
    · simp [hlo, hhi, show i - n < w from by omega, show i - n < k from by omega,
        show ¬ i < n from by omega]
    · have hvi : v.getLsbD (i - n) = false := hv.getLsbD_eq_false (by omega)
      simp [hhi, hvi, show ¬ i - n < k from by omega]
  · simp [hlo, show i < n from by omega]

/-! ## Reading back, and the frame

The three laws. All of them compare two words bit by bit, and a bit is either inside the field that
was written or outside it. -/

/-- A read of a `k`-bit field fits `k` bits. -/
theorem fits_get (x : BitVec w) {k n : Nat} (hk : n + k ≤ w) : Fits (get x (ones w k) n) k := by
  apply Nat.lt_pow_two_of_testBit
  intro i hi
  have h := getLsbD_get x (i := i) hk
  rw [BitVec.getLsbD] at h
  simp [h, show ¬ i < k from by omega]

/-- **Reading back.** A field that was written is read as it was written, because the value fits:
`set` leaves a higher bit of the value where it falls, outside the field. -/
theorem get_set_same (x : BitVec w) {v : BitVec w} {k n : Nat} (hk : n + k ≤ w) (hv : Fits v k) :
    get (set x v (ones w k) n) (ones w k) n = v := by
  apply BitVec.eq_of_getLsbD_eq
  intro i hi
  rw [getLsbD_get _ hk]
  by_cases hik : i < k
  · rw [getLsbD_set x hv (by omega), if_pos (by omega)]
    simp [hik]
  · simp [hik, hv.getLsbD_eq_false (by omega : k ≤ i)]

/-- The frame: a write at `n` does not change a field at `n'` that does not overlap it. -/
theorem get_set_other (x : BitVec w) {v : BitVec w} {k n k' n' : Nat} (hk' : n' + k' ≤ w)
    (hv : Fits v k) (hdisj : n + k ≤ n' ∨ n' + k' ≤ n) :
    get (set x v (ones w k) n) (ones w k') n' = get x (ones w k') n' := by
  apply BitVec.eq_of_getLsbD_eq
  intro i hi
  rw [getLsbD_get _ hk', getLsbD_get _ hk']
  by_cases hik : i < k'
  · rw [getLsbD_set x hv (by omega), if_neg (by omega)]
  · simp [hik]

/-- Writing back the value a field already holds changes nothing, whatever was there between. -/
theorem set_set_get (x : BitVec w) {v : BitVec w} {k n : Nat} (hk : n + k ≤ w) (hv : Fits v k) :
    set (set x v (ones w k) n) (get x (ones w k) n) (ones w k) n = x := by
  apply BitVec.eq_of_getLsbD_eq
  intro i hi
  rw [getLsbD_set _ (fits_get x hk) hi]
  by_cases hin : n ≤ i ∧ i < n + k
  · rw [if_pos hin, getLsbD_get x hk]
    simp [show i - n < k from by omega, show n + (i - n) = i from by omega]
  · rw [if_neg hin, getLsbD_set x hv hi, if_neg hin]

/-- A word cut into `m` fields of `k` bits is determined by them. -/
theorem eq_of_get_eq {x y : BitVec w} {k m : Nat} (hk : 0 < k) (hw : w = m * k)
    (h : ∀ j, j < m → get x (ones w k) (j * k) = get y (ones w k) (j * k)) : x = y := by
  apply BitVec.eq_of_getLsbD_eq
  intro i hi
  have hj : i / k < m := by
    rw [Nat.div_lt_iff_lt_mul hk, ← hw]
    exact hi
  have hfit : i / k * k + k ≤ w := by
    rw [hw, ← Nat.succ_mul]
    exact Nat.mul_le_mul_right k hj
  have hbit := congrArg (BitVec.getLsbD · (i % k)) (h (i / k) hj)
  simp only [getLsbD_get _ hfit] at hbit
  rw [show i / k * k + i % k = i from Nat.div_add_mod' i k] at hbit
  simpa [Nat.mod_lt i hk] using hbit

end BitField
