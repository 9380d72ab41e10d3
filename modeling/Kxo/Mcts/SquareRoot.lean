import Kxo.Mcts.Fixed

/-!
# Kxo — where `fixed_sqrt` is the square root (`src/mcts.c`)

The root of a number `x` in 16.16 fixed point is the largest `s` whose square, scaled back, is at
most `x`. The loop of `fixed_sqrt` looks for it among the numbers with as many bits as `x` has. That
is enough when `x` is at least one half; below, the root has more bits than its argument, and the
loop ends with all bits set.
-/

namespace Kxo

/-- `s` is the square root of `x` in 16.16 fixed point, rounded down. -/
def IsFixedSqrt (x s : Nat) : Prop := s * s / 2 ^ 16 ≤ x ∧ x < (s + 1) * (s + 1) / 2 ^ 16

instance (x s : Nat) : Decidable (IsFixedSqrt x s) := inferInstanceAs (Decidable (_ ∧ _))

/-- The root is the number at which the test passes for the last time. -/
theorem isFixedSqrt_iff {x s : Nat} : IsFixedSqrt x s ↔ SquareLe x s ∧ ¬ SquareLe x (s + 1) :=
  and_congr_right fun _ => Nat.not_le.symm

/-! ## The bits of the argument

How far the test passes on powers of two decides whether the search range contains the root. -/

/-- The number of bits of a number. -/
theorem rootBits_eq {x : Nat} (hx : x ≠ 0) : 2 ^ (rootBits x - 1) ≤ x ∧ x < 2 ^ rootBits x := by
  have hor : x ||| 1 ≠ 0 := Nat.ne_of_gt (Nat.right_le_or (n := x))
  have hle : x ≤ x ||| 1 := Nat.left_le_or
  have hlow : 2 ^ (x ||| 1).log2 ≤ x ||| 1 := Nat.log2_self_le hor
  refine ⟨?_, Nat.lt_of_le_of_lt hle Nat.lt_log2_self⟩
  rw [rootBits, Nat.add_sub_cancel]
  -- setting the lowest bit moves no number past a power of two
  have hhalf : (x ||| 1) / 2 = x / 2 := by
    rw [Nat.or_div_two]
    simp
  rcases Nat.eq_zero_or_pos (x ||| 1).log2 with hzero | hpos
  · rw [hzero]
    omega
  · obtain ⟨k, hk⟩ : ∃ k, (x ||| 1).log2 = k + 1 := ⟨_, (Nat.sub_add_cancel hpos).symm⟩
    rw [hk, Nat.pow_succ] at hlow ⊢
    omega

/-- A square of `n` bits or more, for the number of bits of the argument. -/
theorem squareLe_two_pow {x n : Nat} (hlow : 2 ^ (n - 1) ≤ x) (hhigh : x < 2 ^ n) :
    SquareLe x (2 ^ n) ↔ n < 16 := by
  have hsq : 2 ^ n * 2 ^ n = 2 ^ (2 * n) := by ring
  rw [SquareLe, hsq]
  constructor
  · intro h
    by_contra hn
    have hdiv : 2 ^ (2 * n) / 2 ^ 16 = 2 ^ (2 * n - 16) := Nat.pow_div (by omega) (by norm_num)
    have hge : 2 ^ n ≤ 2 ^ (2 * n - 16) := Nat.pow_le_pow_right (by norm_num) (by omega)
    omega
  · intro hn
    have hpow : 2 ^ (2 * n) ≤ 2 ^ 16 * 2 ^ (n - 1) := by
      rw [← Nat.pow_add]
      exact Nat.pow_le_pow_right (by norm_num) (by omega)
    exact (Nat.div_le_of_le_mul hpow).trans hlow

/-- A number has less than 16 bits when it is below one half. -/
theorem rootBits_lt_iff {x : Nat} (hx : x ≠ 0) : rootBits x < 16 ↔ x < 2 ^ 15 := by
  obtain ⟨hlow, hhigh⟩ := rootBits_eq hx
  constructor
  · intro hn
    exact hhigh.trans_le (Nat.pow_le_pow_right (by norm_num) (by omega))
  · intro hlt
    have hpow := (Nat.pow_lt_pow_iff_right (by norm_num)).mp (hlow.trans_lt hlt)
    omega

/-! ## The root

Below one half the search ends at the upper end of its range, with all its bits set. -/

/-- **`fixed_sqrt` is the square root exactly from one half on.** Below, the search starts from too
few bits: every number it can build passes the test, and so does the one after the last. -/
theorem fixedSqrt_iff {x : Nat} (hx : x ≠ 0) (h : x < 2 ^ 32) :
    IsFixedSqrt x (fixedSqrt x) ↔ 2 ^ 15 ≤ x := by
  rw [fixedSqrt_eq_search hx h, isFixedSqrt_iff]
  obtain ⟨hlow, hhigh⟩ := rootBits_eq hx
  have hbits := squareLe_two_pow hlow hhigh
  rw [rootBits_lt_iff hx] at hbits
  set n := rootBits x
  have hgreatest := BitSearch.isGreatest_search (squareLe_mono x) (squareLe_zero x) n
  rw [and_iff_right hgreatest.1.2]
  constructor
  · intro hnot
    by_contra hlt
    -- every number of `n` bits passes, and the next one does too
    have hpass : SquareLe x (2 ^ n) := hbits.mpr (by omega)
    rw [BitSearch.search_eq_of_pass (squareLe_mono x)
      (squareLe_mono x _ _ (Nat.sub_le _ _) hpass), Nat.sub_add_cancel (Nat.two_pow_pos n)] at hnot
    exact hnot hpass
  · intro hge hnext
    have hout : ¬ BitSearch.search (SquareLe x) n 0 + 1 < 2 ^ n := fun hlt => by
      have hle := hgreatest.2 ⟨hlt, hnext⟩
      omega
    -- a root out of range would be one with a bit too many
    have hpass : SquareLe x (2 ^ n) := squareLe_mono x _ _ (Nat.not_lt.mp hout) hnext
    have hlt := hbits.mp hpass
    omega

/-- Two, in fixed point. -/
theorem fixedSqrt_iff_two : IsFixedSqrt (2 ^ 17) (fixedSqrt (2 ^ 17)) ↔ 2 ^ 15 ≤ 2 ^ 17 :=
  fixedSqrt_iff (by decide) (by decide)

/-- The root of one quarter, which is one half, comes out just under one quarter. -/
theorem fixedSqrt_not_quarter :
    fixedSqrt (2 ^ 14) = 2 ^ 15 - 1 ∧ ¬ IsFixedSqrt (2 ^ 14) (fixedSqrt (2 ^ 14)) := by
  decide +kernel

end Kxo
