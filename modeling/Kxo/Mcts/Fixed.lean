import Kxo.Lib.BitSearch
import Kxo.Spec.Mcts
import Mathlib.Algebra.Group.Action.Defs
import Mathlib.Algebra.Order.BigOperators.Group.List
import Mathlib.Data.Nat.Bitwise
import Mathlib.Tactic.Linarith
import Mathlib.Tactic.NormNum
import Mathlib.Tactic.Ring

/-!
# Kxo — the UCT arithmetic never rates a child zero (`src/mcts.c`)

`select_move` starts from a best score of zero and asks for strictly more, so it returns `NULL`
exactly when every child rates zero. A visited child's rating is `score / n` plus the exploration
term, and the term is at least one: the fixed-point logarithm of the parent's count is at least the
child's count, whose quotient has a positive square root.

* **`fixedSqrt_eq_search`** — the loop of `fixed_sqrt` is a `BitSearch` for the largest number whose
  square, scaled back, is at most the argument.
* **`fixedLog_eq`** — the series of `fixed_log` without its casts, where nothing overflows.
* **`le_logTotal`** — the logarithm of a parent's visits is at least a child's visits, up to the
  most visits that a search can make. From 32769 visits on it carries a sign bit and is larger
  still.
* **`exploration_pos`**, **`uctScore_pos`** — so no child rates zero.
-/

namespace Kxo

/-! ## `fixed_sqrt`

The loop sets bits from the top, and keeps those with which the square is not too large. The number
of bits it starts from is that of its argument. -/

/-- A candidate below `2 ^ 32` is compared and taken without wrapping. -/
theorem fixedSqrtLoop_succ (x i : Nat) {s : Nat} (h : s + 2 ^ i < 2 ^ 32) :
    fixedSqrtLoop x (i + 1) s =
      if (s + 2 ^ i) * (s + 2 ^ i) / 2 ^ 16 ≤ x then fixedSqrtLoop x i (s + 2 ^ i)
      else fixedSqrtLoop x i s := by
  have hsq : (s + 2 ^ i) * (s + 2 ^ i) < 2 ^ 64 :=
    calc (s + 2 ^ i) * (s + 2 ^ i) < 2 ^ 32 * 2 ^ 32 := Nat.mul_lt_mul'' h h
      _ = 2 ^ 64 := by norm_num
  show (if (s + 2 ^ i) % 2 ^ 64 * ((s + 2 ^ i) % 2 ^ 64) % 2 ^ 64 / 2 ^ 16 ≤ x then
    fixedSqrtLoop x i ((s + 2 ^ i) % 2 ^ 32) else fixedSqrtLoop x i s) = _
  rw [Nat.mod_eq_of_lt (show s + 2 ^ i < 2 ^ 64 by omega), Nat.mod_eq_of_lt hsq,
    Nat.mod_eq_of_lt h]

/-- What the loop tests: the square, scaled back, is at most `x`. -/
abbrev SquareLe (x s : Nat) : Prop := s * s / 2 ^ 16 ≤ x

/-- The test passes below every number it passes at. -/
theorem squareLe_mono (x : Nat) : ∀ a b, a ≤ b → SquareLe x b → SquareLe x a := fun _ _ hab hb =>
  (Nat.div_le_div_right (Nat.mul_le_mul hab hab)).trans hb

/-- It passes at zero. -/
theorem squareLe_zero (x : Nat) : SquareLe x 0 := Nat.zero_le x

/-- The loop is a search bit by bit; no candidate leaves 32 bits. -/
theorem fixedSqrtLoop_eq_search (x : Nat) (i : Nat) {s : Nat} (hroom : s + 2 ^ i ≤ 2 ^ 32) :
    fixedSqrtLoop x i s = BitSearch.search (SquareLe x) i s := by
  induction i generalizing s with
  | zero => rfl
  | succ i ih =>
    -- the candidate takes half the room, the lower bits the other half
    have hpow := BitSearch.two_pow_succ i
    have hpos : 0 < 2 ^ i := Nat.two_pow_pos i
    rw [fixedSqrtLoop_succ x i (by omega), BitSearch.search, ih (by omega), ih (by omega)]

/-- A 32-bit number has at most 32 bits, and zero counts as one. -/
theorem log2_or_one_lt {x : Nat} (h : x < 2 ^ 32) : (x ||| 1).log2 < 32 := by
  have hor : x ||| 1 < 2 ^ 32 := Nat.or_lt_two_pow h (by norm_num)
  have hne : x ||| 1 ≠ 0 := Nat.ne_of_gt (Nat.right_le_or (n := x))
  exact (Nat.log2_lt hne).mpr hor

/-- The number of bits `fixed_sqrt` decides. -/
def rootBits (x : Nat) : Nat := (x ||| 1).log2 + 1

/-- `1.0`, answered at once, is what the search would find. -/
theorem search_fixedOne :
    BitSearch.search (SquareLe fixedOne) (rootBits fixedOne) 0 = fixedOne := by
  have hbits : rootBits fixedOne = 17 := by decide
  have hgreatest :=
    BitSearch.isGreatest_search (squareLe_mono fixedOne) (squareLe_zero fixedOne) 17
  rw [hbits]
  refine hgreatest.unique ⟨by decide, fun r hr => ?_⟩
  -- the next number already has too large a square
  by_contra hlt
  have hnext := squareLe_mono fixedOne _ _ (Nat.not_le.mp hlt) hr.2
  exact absurd hnext (by decide)

/-- The loop of `fixed_sqrt` is a search for the largest number that passes. -/
theorem fixedSqrt_eq_search {x : Nat} (hx : x ≠ 0) (h : x < 2 ^ 32) :
    fixedSqrt x = BitSearch.search (SquareLe x) (rootBits x) 0 := by
  rw [fixedSqrt]
  split
  case isTrue hspecial =>
    obtain rfl := hspecial.resolve_left hx
    exact search_fixedOne.symm
  case isFalse =>
    refine fixedSqrtLoop_eq_search x _ ?_
    rw [Nat.zero_add]
    exact Nat.pow_le_pow_right (by norm_num) (log2_or_one_lt h)

/-- A positive number has a positive root: at least the lowest bit passes. -/
theorem fixedSqrt_pos {x : Nat} (hpos : 0 < x) (h : x < 2 ^ 32) : 0 < fixedSqrt x := by
  rw [fixedSqrt_eq_search (Nat.ne_of_gt hpos) h]
  have hone : 1 < 0 + 2 ^ rootBits x := by
    rw [Nat.zero_add]
    exact Nat.one_lt_two_pow (Nat.succ_ne_zero _)
  exact BitSearch.le_search (squareLe_mono x) (show SquareLe x 1 by simp [SquareLe]) hone

/-- A root has half as many bits, and eight more for the scaling. -/
theorem fixedSqrt_lt {x : Nat} (h : x < 2 ^ 32) : fixedSqrt x < 2 ^ 24 := by
  rcases Nat.eq_zero_or_pos x with rfl | hpos
  · decide
  · rw [fixedSqrt_eq_search (Nat.ne_of_gt hpos) h]
    have hr : SquareLe x (BitSearch.search (SquareLe x) (rootBits x) 0) :=
      BitSearch.search_pass (squareLe_zero x)
    -- a root of 24 bits or more would have a square above `2 ^ 32`
    by_contra hge
    have hsq := squareLe_mono x _ _ (Nat.not_lt.mp hge) hr
    norm_num [SquareLe] at hsq
    omega

/-- The square root of two. -/
theorem explorationFactor_eq : explorationFactor = 92682 := by decide +kernel

/-! ## `fixed_log`

`ln` as twice a series in `(v - 1) / (v + 1)`. The code decides by bit 31 of `v - 1` whether `v` is
below one, and then works with the number without that bit; a `v` from 32769 on has it too. -/

/-- The first term of the series is its argument. -/
theorem fixedLogTerm_one {y : Nat} (h : y < 2 ^ 32) : fixedLogTerm y 1 = y := by
  simp only [fixedLogTerm, fixedPow, fixedOne, fixedScaleBits]
  rw [Nat.mul_div_cancel_left _ (by norm_num), Nat.mod_eq_of_lt h, Nat.one_mul,
    Nat.mul_div_cancel _ (by norm_num), Nat.mod_eq_of_lt h]

/-- A power of a number up to one is at most one. -/
theorem fixedPow_le {y : Nat} (h : y ≤ 2 ^ 16) (j : Nat) : fixedPow y j ≤ 2 ^ 16 := by
  induction j with
  | zero => exact Nat.le_refl _
  | succ j ih =>
    simp only [fixedPow, fixedScaleBits]
    calc fixedPow y j * y / 2 ^ 16 % 2 ^ 32 ≤ fixedPow y j * y / 2 ^ 16 := Nat.mod_le _ _
      _ ≤ 2 ^ 16 * 2 ^ 16 / 2 ^ 16 := Nat.div_le_div_right (Nat.mul_le_mul ih h)
      _ = 2 ^ 16 := by norm_num

/-- So is each term of the series. -/
theorem fixedLogTerm_le {y : Nat} (h : y ≤ 2 ^ 16) (i : Nat) : fixedLogTerm y i ≤ 2 ^ 16 := by
  simp only [fixedLogTerm, fixedScaleBits]
  calc fixedPow y i * 2 ^ 16 / (i * 2 ^ 16) % 2 ^ 32
      ≤ fixedPow y i * 2 ^ 16 / (i * 2 ^ 16) := Nat.mod_le _ _
    _ = fixedPow y i / i := Nat.mul_div_mul_right _ _ (by norm_num)
    _ ≤ fixedPow y i := Nat.div_le_self _ _
    _ ≤ 2 ^ 16 := fixedPow_le h i

/-- While the accumulator cannot wrap, the loop adds up its terms. -/
theorem foldl_fixedLogTerm {y : Nat} (h : y ≤ 2 ^ 16) (exponents : List Nat) {acc : Nat}
    (hacc : acc + exponents.length * 2 ^ 16 < 2 ^ 31) :
    exponents.foldl (fun ans i => (ans + fixedLogTerm y i) % 2 ^ 32) acc =
      acc + (exponents.map (fixedLogTerm y)).sum := by
  induction exponents generalizing acc with
  | nil => rfl
  | cons i rest ih =>
    have hterm := fixedLogTerm_le h i
    rw [List.length_cons] at hacc
    rw [List.foldl_cons, Nat.mod_eq_of_lt (by omega), ih (by omega), List.map_cons, List.sum_cons,
      Nat.add_assoc]

/-- The terms of the series add up to little. -/
theorem sum_fixedLogTerm_le {y : Nat} (h : y ≤ 2 ^ 16) :
    (fixedLogExponents.map (fixedLogTerm y)).sum ≤ 10 * 2 ^ 16 := by
  have hsum := List.sum_le_card_nsmul (fixedLogExponents.map (fixedLogTerm y)) (2 ^ 16) ?_
  · rw [List.length_map, smul_eq_mul] at hsum
    exact hsum
  · rintro z hz
    obtain ⟨i, _, rfl⟩ := List.mem_map.mp hz
    exact fixedLogTerm_le h i

/-- Below `2 ^ 31` the sign bit is clear. -/
theorem getSign_eq_zero {x : Nat} (h : x < 2 ^ 31) : getSign x = 0 := by
  rw [getSign, Nat.and_two_pow, Nat.testBit_lt_two_pow h]
  simp

/-- From there on it is set. -/
theorem getSign_ne_zero {x : Nat} (h : 2 ^ 31 ≤ x) (hlt : x < 2 ^ 32) : getSign x ≠ 0 := by
  have hbit : x.testBit 31 = true := by
    rw [Nat.testBit_eq_decide_div_mod_eq]
    simp only [decide_eq_true_eq]
    omega
  rw [getSign, Nat.and_two_pow, hbit]
  norm_num

/-- A difference that is not negative is exact. -/
theorem fixedSub_of_le {a b : Nat} (h : b ≤ a) (ha : a < 2 ^ 32) : fixedSub a b = a - b := by
  rw [fixedSub, show a + 2 ^ 32 - b = a - b + 2 ^ 32 from by omega, Nat.add_mod_right,
    Nat.mod_eq_of_lt (by omega)]

/-- The logarithm is a 32-bit number. -/
theorem fixedLog_lt (v : Nat) : fixedLog v < 2 ^ 32 := by
  unfold fixedLog
  split
  · norm_num
  · dsimp only
    split
    · exact Nat.or_lt_two_pow (Nat.mod_lt _ (by norm_num)) (by norm_num)
    · exact Nat.mod_lt _ (by norm_num)

/-- The argument of the series, `(v - 1) / (v + 1)` in fixed point. -/
def logRatio (v : Nat) : Nat := (v - fixedOne) * 2 ^ 16 / (v + fixedOne)

/-- The argument of the series is at most one. -/
theorem logRatio_le (v : Nat) : logRatio v ≤ 2 ^ 16 := by
  refine Nat.div_le_of_le_mul ?_
  exact Nat.mul_le_mul_right _ (by omega)

/-- Up to 32768 the series runs on the positive side. -/
theorem fixedLog_eq {v : Nat} (hlow : fixedOne ≤ v) (h : v < 2 ^ 31 + 2 ^ 16) :
    fixedLog v = 2 * (fixedLogExponents.map (fixedLogTerm (logRatio v))).sum := by
  have hone : fixedOne = 2 ^ 16 := rfl
  unfold fixedLog
  split
  case isTrue hv =>
    obtain rfl := hv.resolve_left (by omega)
    decide
  case isFalse =>
    have hsub : fixedSub v fixedOne = v - fixedOne := fixedSub_of_le hlow (by omega)
    have hsign : getSign (v - fixedOne) = 0 := getSign_eq_zero (by omega)
    have hle := logRatio_le v
    have hsum := sum_fixedLogTerm_le hle
    simp only [hsub, hsign, ne_eq, not_true_eq_false, if_false, fixedScaleBits]
    rw [← logRatio, Nat.mod_eq_of_lt (show logRatio v < 2 ^ 32 by omega), foldl_fixedLogTerm hle _
      (by simp only [fixedLogExponents, List.length_cons, List.length_nil]; omega),
      Nat.zero_add, Nat.mod_eq_of_lt (by omega), Nat.mul_comm]

/-- Where the series is followed, its result has no sign bit. -/
theorem fixedLog_lt_sign {v : Nat} (hlow : fixedOne ≤ v) (h : v < 2 ^ 31 + 2 ^ 16) :
    fixedLog v < 2 ^ 31 := by
  have hsum := sum_fixedLogTerm_le (logRatio_le v)
  rw [fixedLog_eq hlow h]
  omega

/-- From two on the first term of the series, the quotient itself, is at least a third of one. -/
theorem le_fixedLog_of_small {n : Nat} (h2 : 2 ≤ n) (hn : n ≤ 32768) :
    43690 ≤ fixedLog (n * fixedOne) := by
  have hone : fixedOne = 2 ^ 16 := rfl
  have hscale : n * fixedOne = n * 2 ^ 16 := rfl
  have hle := logRatio_le (n * fixedOne)
  have hge : 21845 ≤ logRatio (n * fixedOne) := by
    rw [logRatio, Nat.le_div_iff_mul_le (by omega)]
    omega
  rw [fixedLog_eq (by omega) (by omega), fixedLogExponents, List.map_cons, List.sum_cons,
    fixedLogTerm_one (by omega)]
  omega

/-- From there on the difference looks negative, and the result carries the sign bit. -/
theorem le_fixedLog_of_sign {v : Nat} (h : 2 ^ 31 + 2 ^ 16 ≤ v) (hv : v < 2 ^ 32) :
    2 ^ 31 ≤ fixedLog v := by
  have hsub : fixedSub v fixedOne = v - 2 ^ 16 :=
    fixedSub_of_le (by simp only [fixedOne, fixedScaleBits]; omega) hv
  have hsign : getSign (v - 2 ^ 16) ≠ 0 := getSign_ne_zero (by omega) (by omega)
  unfold fixedLog
  rw [if_neg (by simp only [fixedOne, fixedScaleBits]; omega)]
  dsimp only
  rw [hsub, if_pos hsign]
  exact Nat.right_le_or

/-! ## `uct_score`

The share of wins and the exploration term, and what is known of their sizes. -/

/-- `log_val`. -/
def logTotal (nTotal : Nat) : Nat :=
  fixedLog (if nTotal < 65536 then nTotal * 2 ^ fixedScaleBits % 2 ^ 32 else fixedMax)

/-- The exploration term `tmp`. -/
def exploration (nTotal nVisits : Nat) : Nat :=
  explorationFactor * fixedSqrt (logTotal nTotal / nVisits) / 2 ^ fixedScaleBits

/-- Up to 32769 visits the count is scaled before its logarithm is taken. -/
theorem logTotal_of_le {n : Nat} (h : n ≤ 32769) : logTotal n = fixedLog (n * fixedOne) := by
  have hone : fixedOne = 2 ^ 16 := rfl
  rw [logTotal, if_pos (by omega), fixedScaleBits, hone, Nat.mod_eq_of_lt (by omega)]

/-- Above 32768 visits the logarithm has its sign bit set. -/
theorem sign_le_logTotal {n : Nat} (h : 32768 < n) : 2 ^ 31 ≤ logTotal n := by
  apply le_fixedLog_of_sign
  · split
    · rw [Nat.mod_eq_of_lt (by simp only [fixedScaleBits]; omega)]
      simp only [fixedScaleBits]
      omega
    · simp only [fixedMax]; omega
  · split
    · exact Nat.mod_lt _ (by norm_num)
    · simp only [fixedMax]; omega

/-- The logarithm of a count is a 32-bit number. -/
theorem logTotal_lt (n : Nat) : logTotal n < 2 ^ 32 := fixedLog_lt _

/-- The logarithm of the parent's count is at least the count of any of its children. -/
theorem le_logTotal {nTotal n : Nat} (h1 : 1 ≤ n) (hn : n < nTotal) (hmax : nTotal ≤ 2 ^ 31) :
    n ≤ logTotal nTotal := by
  by_cases hsmall : nTotal ≤ 32768
  · have hlog := le_fixedLog_of_small (n := nTotal) (by omega) hsmall
    rw [logTotal_of_le (by omega)]
    omega
  · -- the sign bit is larger than any count
    have hlog := sign_le_logTotal (Nat.not_le.mp hsmall)
    omega

/-- The exploration term has at most 25 bits. -/
theorem exploration_lt (nTotal n : Nat) : exploration nTotal n < 2 ^ 25 := by
  have hlt : logTotal nTotal / n < 2 ^ 32 :=
    Nat.lt_of_le_of_lt (Nat.div_le_self _ _) (logTotal_lt nTotal)
  have hroot := fixedSqrt_lt hlt
  rw [exploration, explorationFactor_eq, fixedScaleBits]
  omega

/-- **The exploration term is positive** at a parent with more visits than the child. -/
theorem exploration_pos {nTotal n : Nat} (h1 : 1 ≤ n) (hn : n < nTotal) (hmax : nTotal ≤ 2 ^ 31) :
    0 < exploration nTotal n := by
  have hquot : 0 < logTotal nTotal / n := Nat.div_pos (le_logTotal h1 hn hmax) h1
  have hroot := fixedSqrt_pos hquot
    (Nat.lt_of_le_of_lt (Nat.div_le_self _ _) (logTotal_lt nTotal))
  rw [exploration, explorationFactor_eq, fixedScaleBits]
  omega

/-- The rating of a visited child; only the last sum can wrap. -/
theorem uctScore_eq {n : Nat} (hn : n ≠ 0) (nTotal score : Nat) :
    uctScore nTotal n score = (score / n % 2 ^ 32 + exploration nTotal n) % 2 ^ 32 := by
  have hlt := exploration_lt nTotal n
  rw [uctScore, if_neg hn]
  show (score / n % 2 ^ 32 + exploration nTotal n % 2 ^ 32) % 2 ^ 32 = _
  rw [Nat.mod_eq_of_lt (show exploration nTotal n < 2 ^ 32 by omega)]

/-- A score of at most one a visit averages to at most one. -/
theorem div_le_fixedOne {n score : Nat} (hscore : score ≤ n * fixedOne) : score / n ≤ fixedOne :=
  Nat.div_le_of_le_mul hscore

/-- With a score of at most one a visit nothing wraps. -/
theorem uctScore_eq_add {n score : Nat} (hn : n ≠ 0) (nTotal : Nat)
    (hscore : score ≤ n * fixedOne) :
    uctScore nTotal n score = score / n + exploration nTotal n := by
  have hres := div_le_fixedOne hscore
  have hlt := exploration_lt nTotal n
  have hone : fixedOne = 2 ^ 16 := rfl
  rw [uctScore_eq hn, Nat.mod_eq_of_lt (show score / n < 2 ^ 32 by omega),
    Nat.mod_eq_of_lt (by omega)]

/-- **A child never rates zero**: not before its first visit, and not after it, when its count is
below its parent's and its score at most one a visit. -/
theorem uctScore_pos {nTotal n score : Nat} (hn : n < nTotal) (hmax : nTotal ≤ 2 ^ 31)
    (hscore : score ≤ n * fixedOne) : 0 < uctScore nTotal n score := by
  rcases Nat.eq_zero_or_pos n with rfl | hpos
  · simp [uctScore, fixedMax]
  · rw [uctScore_eq_add (Nat.ne_of_gt hpos) nTotal hscore]
    exact Nat.add_pos_right _ (exploration_pos hpos hn hmax)

end Kxo
