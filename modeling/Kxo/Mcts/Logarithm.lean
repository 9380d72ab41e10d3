import Kxo.Mcts.SquareRoot

/-!
# Kxo — where `fixed_log` and `uct_score` grow (`src/mcts.c`)

`fixed_log` tells numbers below one by bit 31 of `v - 1.0`. The bit is clear from 1.0 up to 32769.0,
where every step of the series is monotone; from there on it is set, the result carries a sign bit
and its other bits shrink as `v` grows. In `uct_score` the first of these is the parent's 32769th
visit: the exploration term still rises there, and falls with the next.
-/

namespace Kxo

/-! ## The series

Each operation rounds down, and rounding down keeps the order. -/

/-- The argument of the series grows with the number, from one on. -/
theorem logRatio_mono {v w : Nat} (hlow : fixedOne ≤ v) (h : v ≤ w) : logRatio v ≤ logRatio w := by
  have hone : fixedOne = 2 ^ 16 := rfl
  rw [logRatio, logRatio, Nat.le_div_iff_mul_le (by omega)]
  -- cross-multiplied, with the denominator of the left side restored
  have hdiv := Nat.div_mul_le_self ((v - fixedOne) * 2 ^ 16) (v + fixedOne)
  have hcross : (v - fixedOne) * (w + fixedOne) ≤ (w - fixedOne) * (v + fixedOne) := by
    obtain ⟨a, rfl⟩ := Nat.exists_eq_add_of_le hlow
    obtain ⟨b, rfl⟩ := Nat.exists_eq_add_of_le h
    rw [Nat.add_sub_cancel_left, show fixedOne + a + b - fixedOne = a + b by omega]
    nlinarith
  refine Nat.le_of_mul_le_mul_right ?_ (show 0 < v + fixedOne by omega)
  calc (v - fixedOne) * 2 ^ 16 / (v + fixedOne) * (w + fixedOne) * (v + fixedOne)
      = (v - fixedOne) * 2 ^ 16 / (v + fixedOne) * (v + fixedOne) * (w + fixedOne) := by ring
    _ ≤ (v - fixedOne) * 2 ^ 16 * (w + fixedOne) := Nat.mul_le_mul_right _ hdiv
    _ = (v - fixedOne) * (w + fixedOne) * 2 ^ 16 := by ring
    _ ≤ (w - fixedOne) * (v + fixedOne) * 2 ^ 16 := Nat.mul_le_mul_right _ hcross
    _ = (w - fixedOne) * 2 ^ 16 * (v + fixedOne) := by ring

/-- The powers of a number of at most one never wrap. -/
theorem fixedPow_succ {y : Nat} (h : y ≤ 2 ^ 16) (j : Nat) :
    fixedPow y (j + 1) = fixedPow y j * y / 2 ^ 16 := by
  have hle := fixedPow_le h j
  have hmul : fixedPow y j * y ≤ 2 ^ 16 * 2 ^ 16 := Nat.mul_le_mul hle h
  rw [fixedPow, fixedScaleBits, Nat.mod_eq_of_lt (by omega)]

/-- Powers of numbers up to one grow with the number, rounding included. -/
theorem fixedPow_mono {y z : Nat} (hyz : y ≤ z) (hz : z ≤ 2 ^ 16) (j : Nat) :
    fixedPow y j ≤ fixedPow z j := by
  induction j with
  | zero => exact Nat.le_refl _
  | succ j ih =>
    rw [fixedPow_succ (hyz.trans hz), fixedPow_succ hz]
    exact Nat.div_le_div_right (Nat.mul_le_mul ih hyz)

/-- A term of the series is a power divided by its exponent. -/
theorem fixedLogTerm_eq {y : Nat} (h : y ≤ 2 ^ 16) (i : Nat) :
    fixedLogTerm y i = fixedPow y i / i := by
  have hle := (Nat.div_le_self (fixedPow y i) i).trans (fixedPow_le h i)
  rw [fixedLogTerm, fixedScaleBits, Nat.mul_div_mul_right _ _ (by norm_num),
    Nat.mod_eq_of_lt (by omega)]

/-- So each term grows. -/
theorem fixedLogTerm_mono {y z : Nat} (hyz : y ≤ z) (hz : z ≤ 2 ^ 16) (i : Nat) :
    fixedLogTerm y i ≤ fixedLogTerm z i := by
  rw [fixedLogTerm_eq (hyz.trans hz), fixedLogTerm_eq hz]
  exact Nat.div_le_div_right (fixedPow_mono hyz hz i)

/-! ## The logarithm

Up to 32769.0 the test for numbers below one fails, as it should. -/

/-- From 1.0 up to 32769.0 the logarithm grows. -/
theorem fixedLog_mono {v w : Nat} (hlow : fixedOne ≤ v) (h : v ≤ w) (hw : w < 2 ^ 31 + 2 ^ 16) :
    fixedLog v ≤ fixedLog w := by
  rw [fixedLog_eq hlow (h.trans_lt hw), fixedLog_eq (hlow.trans h) hw]
  refine Nat.mul_le_mul_left 2 (List.sum_le_sum fun i _ => ?_)
  exact fixedLogTerm_mono (logRatio_mono hlow h) (logRatio_le w) i

/-- Its sign bit is clear exactly there. -/
theorem getSign_fixedLog {w : Nat} (hlow : fixedOne ≤ w) (hw : w < 2 ^ 32) :
    getSign (fixedLog w) = 0 ↔ w < 2 ^ 31 + 2 ^ 16 := by
  constructor
  · intro hsign
    by_contra hge
    exact getSign_ne_zero (le_fixedLog_of_sign (Nat.not_lt.mp hge) hw) (fixedLog_lt w) hsign
  · intro h
    exact getSign_eq_zero (fixedLog_lt_sign hlow h)

/-! ## The exploration term

A product of a quotient's root: each factor grows with the logarithm. -/

/-- A larger number has a root at least as large: the test passes at more numbers. -/
theorem fixedSqrt_mono {x y : Nat} (h : x ≤ y) (hy : y < 2 ^ 32) : fixedSqrt x ≤ fixedSqrt y := by
  rcases Nat.eq_zero_or_pos x with rfl | hpos
  · exact Nat.zero_le _
  have hx : x ≠ 0 := Nat.ne_of_gt hpos
  have hy0 : y ≠ 0 := by omega
  rw [fixedSqrt_eq_search hx (h.trans_lt hy), fixedSqrt_eq_search hy0 hy]
  refine BitSearch.search_mono (squareLe_mono y) (squareLe_zero x) (fun _ hr => hr.trans h) ?_
  have hpow := ((rootBits_eq hx).1.trans h).trans_lt (rootBits_eq hy0).2
  have hbits := (Nat.pow_lt_pow_iff_right (by norm_num)).mp hpow
  omega

/-- Up to the first visit whose logarithm carries a sign bit, the logarithm grows. -/
theorem logTotal_mono {t u : Nat} (ht : 1 ≤ t) (h : t ≤ u) (hu : u ≤ 32769) :
    logTotal t ≤ logTotal u := by
  have hone : fixedOne = 2 ^ 16 := rfl
  have hscale : ∀ k, k * fixedOne = k * 2 ^ 16 := fun _ => rfl
  rcases Nat.lt_or_ge 32768 u with hlast | hsmall
  · rcases Nat.lt_or_ge 32768 t with htlast | htsmall
    · obtain rfl : t = u := by omega
      exact Nat.le_refl _
    · have hsign := sign_le_logTotal hlast
      have hlow := fixedLog_lt_sign (v := t * fixedOne)
        (by rw [hscale, hone]; omega) (by rw [hscale]; omega)
      rw [logTotal_of_le (by omega)]
      omega
  · rw [logTotal_of_le (by omega), logTotal_of_le (by omega)]
    exact fixedLog_mono (by rw [hscale, hone]; omega) (Nat.mul_le_mul_right _ h)
      (by rw [hscale]; omega)

/-- The exploration term grows with the parent's visits, up to 32769. -/
theorem exploration_mono {t u n : Nat} (ht : 1 ≤ t) (h : t ≤ u) (hu : u ≤ 32769) :
    exploration t n ≤ exploration u n := by
  have hlt : logTotal u / n < 2 ^ 32 := (Nat.div_le_self _ _).trans_lt (logTotal_lt u)
  have hroot := fixedSqrt_mono (Nat.div_le_div_right (logTotal_mono ht h hu)) hlt
  exact Nat.div_le_div_right (Nat.mul_le_mul_left _ hroot)

/-- At a parent visited once there is nothing to explore: `ln 1` is zero. -/
theorem exploration_one (n : Nat) : exploration 1 n = 0 := by
  have hlog : logTotal 1 = 0 := by decide
  rw [exploration, hlog, Nat.zero_div]
  decide

/-! ## `uct_score`

The condition is on the inputs: how many visits the parent may have. -/

/-- The rating does not fall while the parent's visits grow from 1 to `total`. -/
def UctGrows (total nVisits score : Nat) : Prop :=
  ∀ t u, 1 ≤ t → t ≤ u → u ≤ total → uctScore t nVisits score ≤ uctScore u nVisits score

/-- Up to 32769 visits the rating grows as long as it does not wrap. -/
theorem uctGrows_iff {total n score : Nat} (h1 : 1 ≤ total) (htotal : total ≤ 32769)
    (hn : 1 ≤ n) :
    UctGrows total n score ↔ score / n % 2 ^ 32 + exploration total n < 2 ^ 32 := by
  have hne : n ≠ 0 := Nat.ne_of_gt hn
  constructor
  · intro hgrows
    -- a sum that wraps is below the rating of a parent with one visit
    have hle := hgrows 1 total (Nat.le_refl _) h1 (Nat.le_refl _)
    have hlt := exploration_lt total n
    have hres : score / n % 2 ^ 32 < 2 ^ 32 := Nat.mod_lt _ (by norm_num)
    rw [uctScore_eq hne, uctScore_eq hne, exploration_one] at hle
    generalize score / n % 2 ^ 32 = result at *
    omega
  · intro hroom t u ht htu hu
    have hmono := exploration_mono (n := n) ht htu (hu.trans htotal)
    have hlast := exploration_mono (n := n) (ht.trans htu) hu htotal
    rw [uctScore_eq hne, uctScore_eq hne]
    generalize score / n % 2 ^ 32 = result at *
    rw [Nat.mod_eq_of_lt (by omega), Nat.mod_eq_of_lt (by omega)]
    omega

/-- Where the parent's 32770th visit lowers a rating. -/
theorem uctScore_falls : uctScore 32770 177 0 < uctScore 32769 177 0 := by decide +kernel

/-- With scores of at most one a visit, as MCTS keeps them, 32769 visits are as far as every rating
grows. -/
theorem uctGrows_forall_iff (total : Nat) :
    (∀ n score, 1 ≤ n → score ≤ n * fixedOne → UctGrows total n score) ↔ total ≤ 32769 := by
  constructor
  · intro hgrows
    by_contra hlt
    have hle := hgrows 177 0 (by omega) (Nat.zero_le _) 32769 32770 (by omega) (by omega) (by omega)
    have hfalls := uctScore_falls
    omega
  · intro htotal n score hn hscore
    rcases Nat.eq_zero_or_pos total with rfl | hpos
    · intro t u ht htu hu
      omega
    · refine (uctGrows_iff hpos htotal hn).mpr ?_
      have hres := div_le_fixedOne hscore
      have hlt := exploration_lt total n
      have hone : fixedOne = 2 ^ 16 := rfl
      rw [Nat.mod_eq_of_lt (by omega)]
      omega

/-- **Where `fixed_log` and `uct_score` grow.** For arguments of at least 1.0 the logarithm grows
and is not negative exactly below 32769.0; every rating with a score of at most one a visit grows
with the parent's visits exactly up to 32769 of them; and with any score, exactly when it does not
wrap. -/
theorem fixedLog_uctScore_grow_iff (v w total n score : Nat) :
    (fixedOne ≤ v → v ≤ w → w < 2 ^ 32 →
      (fixedLog v ≤ fixedLog w ∧ getSign (fixedLog w) = 0 ↔ w < 2 ^ 31 + 2 ^ 16)) ∧
    ((∀ n score, 1 ≤ n → score ≤ n * fixedOne → UctGrows total n score) ↔ total ≤ 32769) ∧
    (1 ≤ total → total ≤ 32769 → 1 ≤ n →
      (UctGrows total n score ↔ score / n % 2 ^ 32 + exploration total n < 2 ^ 32)) := by
  refine ⟨fun hlow h hw => ?_, uctGrows_forall_iff total, uctGrows_iff⟩
  have hsign := getSign_fixedLog (hlow.trans h) hw
  exact ⟨fun hboth => hsign.mp hboth.2, fun hlt => ⟨fixedLog_mono hlow h hlt, hsign.mpr hlt⟩⟩

/-- Both parts fail: 32769.0 has a negative logarithm, 32770.0 a smaller one, and a child visited
177 times rates less after the parent's 32770th visit. -/
theorem fixedLog_not_grows :
    getSign (fixedLog (32769 * fixedOne)) ≠ 0 ∧
      fixedLog (32770 * fixedOne) < fixedLog (32769 * fixedOne) ∧
      uctScore 32770 177 0 < uctScore 32769 177 0 := by
  decide +kernel

end Kxo
