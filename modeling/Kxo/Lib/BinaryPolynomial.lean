import Mathlib.Algebra.Algebra.ZMod
import Mathlib.Algebra.CharP.Two
import Mathlib.Algebra.Field.ZMod
import Mathlib.Algebra.Module.ZMod
import Mathlib.Algebra.Polynomial.AlgebraMap

/-!
# Kxo — polynomials over GF(2) as bit vectors

A bit vector holds the coefficients of a polynomial over GF(2). With a monic modulus given by its
bits below the leading one, multiplication by `X`, multiplication and squaring of remainders are
loops over bits, and in every ring in which the modulus vanishes they compute what they stand for.

## The architecture

* **`toPoly`** — the polynomial of a bit vector; exclusive or is addition (`toPoly_xor`).
* **`map_mulX`**, **`map_mulBits`**, **`map_square`** — under a ring homomorphism that sends the
  modulus to zero the loops over bits are multiplications. The modulus enters only as the hypothesis
  `hlow` that `X ^ d` and its lower part have the same image.
* **`map_iterate_square`** — so `n` squarings compute the power `2 ^ n`.
* **`foldl_evalStep`** — a second loop applies such a polynomial of a linear map to a vector, by
  adding up the iterates of the map at the bits that are set.
* **`aeval_iterate_square`** — both together: the polynomial found by `n` squarings of `X`, applied
  to a linear map that the modulus annihilates, is the `2 ^ n`-th power of the map.
* **`xor_induction`** — what holds at zero and at single bits and passes to exclusive ors holds of
  all bit vectors: how a linear identity is checked by a computation on a basis.
-/

namespace Kxo.BinaryPolynomial

open Polynomial

variable {d : Nat}

/-! ## Coefficients

`toPoly` is the abstraction function. Every operation on words below is described by what it does to
the polynomial. -/

/-- The polynomial that has the bits of `p` as its coefficients. -/
noncomputable def toPoly (p : BitVec d) : (ZMod 2)[X] :=
  ∑ i ∈ Finset.range d, if p.getLsbD i then X ^ i else 0

/-- The coefficients are the bits, with zeros from `d` on. -/
theorem coeff_toPoly (p : BitVec d) (i : Nat) :
    (toPoly p).coeff i = if p.getLsbD i then 1 else 0 := by
  have hterm : ∀ j, (if p.getLsbD j then (X : (ZMod 2)[X]) ^ j else 0).coeff i =
      if j = i then (if p.getLsbD i then 1 else 0) else 0 := by
    intro j
    by_cases hij : j = i
    · subst hij
      split <;> simp
    · split <;> simp [coeff_X_pow, Ne.symm hij]
  rw [toPoly, finsetSum_coeff, Finset.sum_congr rfl fun j _ => hterm j, Finset.sum_ite_eq']
  by_cases hi : i < d
  · simp [hi]
  · simp [hi, BitVec.getLsbD_of_ge p i (by omega)]

/-- The zero word has no coefficients. -/
@[simp] theorem toPoly_zero : toPoly 0#d = 0 := by
  ext i
  simp [coeff_toPoly]

/-- Exclusive or of words is addition of polynomials: coefficients are added modulo 2. -/
theorem toPoly_xor (p q : BitVec d) : toPoly (p ^^^ q) = toPoly p + toPoly q := by
  ext i
  rw [coeff_add, coeff_toPoly, coeff_toPoly, coeff_toPoly, BitVec.getLsbD_xor]
  cases p.getLsbD i <;> cases q.getLsbD i <;> decide

/-- A single bit is a power of `X`. -/
theorem toPoly_twoPow {i : Nat} (hi : i < d) : toPoly (BitVec.twoPow d i) = X ^ i := by
  ext j
  rw [coeff_toPoly, coeff_X_pow, BitVec.getLsbD_twoPow]
  simp [hi, eq_comm]

/-- A bit vector is its lowest bit and, above it, the rest. -/
theorem toPoly_eq_lowest (p : BitVec d) :
    toPoly p = (if p.getLsbD 0 then 1 else (0 : (ZMod 2)[X])) + X * toPoly (p >>> 1) := by
  ext i
  rw [coeff_add]
  cases i with
  | zero => cases h : p.getLsbD 0 <;> simp [coeff_toPoly, h]
  | succ i => cases h : p.getLsbD 0 <;> simp [coeff_toPoly, coeff_X_mul, coeff_one, Nat.add_comm]

/-- A shift to the left multiplies by `X`, but for the bit that is shifted out. -/
theorem X_mul_toPoly (p : BitVec d) :
    X * toPoly p = toPoly (p <<< 1) + if p.msb then X ^ d else 0 := by
  ext i
  rw [coeff_add]
  cases i with
  | zero =>
    rcases Nat.eq_zero_or_pos d with rfl | hd
    · simp [BitVec.eq_nil p]
    · split <;> simp [coeff_toPoly, coeff_X_pow, Nat.ne_of_lt hd]
  | succ i =>
    have hout : (if p.msb then (X : (ZMod 2)[X]) ^ d else 0).coeff (i + 1) =
        if i + 1 = d then (if p.getLsbD i then 1 else 0) else 0 := by
      by_cases hi : i + 1 = d
      · subst hi
        rw [BitVec.msb_eq_getLsbD_last, Nat.add_sub_cancel]
        split <;> simp
      · split <;> simp [coeff_X_pow, hi]
    rw [coeff_X_mul, coeff_toPoly, coeff_toPoly, BitVec.getLsbD_shiftLeft, hout]
    rcases Nat.lt_trichotomy (i + 1) d with hi | hi | hi
    · simp [hi, Nat.ne_of_lt hi]
    · simp [hi]
    · simp [Nat.ne_of_gt hi, BitVec.getLsbD_of_ge p i (by omega)]

/-! ## Arithmetic of remainders

Remainders modulo a monic polynomial of degree `d` are words of `d` bits. The loops never compute a
remainder by division: they replace `X ^ d` by `low` as soon as it arises, which is right in every
ring where the two agree. -/

/-- `X * p`, with `X ^ d` replaced by `low` where it arises. -/
def mulX (low p : BitVec d) : BitVec d :=
  (p <<< 1) ^^^ if p.msb then low else 0#d

/-- `a * b` for a `b` of `n` bits. -/
def mulBits (low a : BitVec d) : Nat → BitVec d → BitVec d
  | 0, _ => 0#d
  | n + 1, b => (if b.getLsbD 0 then a else 0#d) ^^^ mulX low (mulBits low a n (b >>> 1))

def square (low p : BitVec d) : BitVec d := mulBits low p d p

section Modulus

variable {R : Type*} [Ring R] {φ : (ZMod 2)[X] →+* R} {low : BitVec d}

/-- Multiplication by `X` shifts the coefficients up; the one that would fall out is `X ^ d`, and
`low` stands for it in the image. -/
theorem map_mulX (hlow : φ (X ^ d) = φ (toPoly low)) (p : BitVec d) :
    φ (toPoly (mulX low p)) = φ X * φ (toPoly p) := by
  rw [← map_mul, X_mul_toPoly, mulX, toPoly_xor, map_add, map_add]
  congr 1
  split
  · exact hlow.symm
  · rw [toPoly_zero]

/-- Multiplication bit by bit: the lowest bit of `b` selects `a`, and the rest of `b` is worth `X`
times as much. Induction on the number of bits. -/
theorem map_mulBits (hlow : φ (X ^ d) = φ (toPoly low)) (a : BitVec d) (n : Nat) :
    ∀ b : BitVec d, b.toNat < 2 ^ n →
      φ (toPoly (mulBits low a n b)) = φ (toPoly a) * φ (toPoly b) := by
  induction n with
  | zero =>
    intro b hb
    have hzero : b = 0#d := BitVec.eq_of_toNat_eq (by simpa using hb)
    simp [mulBits, hzero]
  | succ n ih =>
    intro b hb
    have hrest : (b >>> 1).toNat < 2 ^ n := by
      rw [BitVec.toNat_ushiftRight, Nat.shiftRight_one]
      omega
    have hlowest : φ (toPoly (if b.getLsbD 0 then a else 0#d)) =
        φ (toPoly a) * φ (if b.getLsbD 0 then 1 else 0) := by
      split <;> simp
    have hcomm : φ X * (φ (toPoly a) * φ (toPoly (b >>> 1))) =
        φ (toPoly a) * (φ X * φ (toPoly (b >>> 1))) := by
      rw [← map_mul, ← map_mul, ← map_mul, ← map_mul, mul_left_comm]
    calc φ (toPoly (mulBits low a (n + 1) b))
        = φ (toPoly (if b.getLsbD 0 then a else 0#d)) +
            φ X * (φ (toPoly a) * φ (toPoly (b >>> 1))) := by
          rw [mulBits, toPoly_xor, map_add, map_mulX hlow, ih _ hrest]
      _ = φ (toPoly a) * φ (if b.getLsbD 0 then 1 else 0) +
            φ (toPoly a) * (φ X * φ (toPoly (b >>> 1))) := by
          rw [hlowest, hcomm]
      _ = φ (toPoly a) * φ (toPoly b) := by
          rw [toPoly_eq_lowest b, map_add, map_mul, mul_add]

/-- Squaring is a multiplication of all `d` bits. -/
theorem map_square (hlow : φ (X ^ d) = φ (toPoly low)) (p : BitVec d) :
    φ (toPoly (square low p)) = φ (toPoly p) ^ 2 := by
  rw [square, map_mulBits hlow p d p p.isLt, pow_two]

/-- Repeated squaring. -/
theorem map_iterate_square (hlow : φ (X ^ d) = φ (toPoly low)) (n : Nat) (p : BitVec d) :
    φ (toPoly ((square low)^[n] p)) = φ (toPoly p) ^ 2 ^ n := by
  induction n with
  | zero => rw [Function.iterate_zero_apply, pow_zero, pow_one]
  | succ n ih => rw [Function.iterate_succ_apply', map_square hlow, ih, ← pow_mul, ← pow_succ]

end Modulus

/-! ## Polynomials of a linear map

A loop that walks through the bits of a polynomial and applies a step function once a bit computes
that polynomial of the step function, if the step function is linear. -/

section Evaluation

variable {M : Type*} [AddCommGroup M] [Module (ZMod 2) M]

/-- One round of the loop that applies a polynomial of `step`: the sum so far, then the vector. -/
def evalStep (step : M → M) (acc : M × M) (bit : Bool) : M × M :=
  (if bit then acc.1 + acc.2 else acc.1, step acc.2)

/-- The loop carries the sum of the iterates taken so far and the next iterate. -/
theorem foldl_evalStep (T : Module.End (ZMod 2) M) (bit : Nat → Bool) (v : M) (n : Nat) :
    ((List.range n).map bit).foldl (evalStep T) (0, v) =
      (∑ i ∈ Finset.range n, if bit i then (T ^ i) v else 0, (T ^ n) v) := by
  induction n with
  | zero => simp
  | succ n ih =>
    rw [List.range_succ, List.map_append, List.foldl_append, ih, Finset.sum_range_succ]
    cases h : bit n <;> simp [evalStep, h, pow_succ']

/-- The loop over the bits of `p` computes `p` at the linear map. -/
theorem foldl_evalStep_toPoly (T : Module.End (ZMod 2) M) (p : BitVec d) (v : M) :
    ((List.range d).map p.getLsbD).foldl (evalStep T) (0, v) =
      (aeval T (toPoly p) v, (T ^ d) v) := by
  rw [foldl_evalStep, toPoly, map_sum, LinearMap.sum_apply]
  congr 1
  refine Finset.sum_congr rfl fun i _ => ?_
  split <;> simp

end Evaluation

/-- The power `2 ^ n` of an element, by squaring `X` modulo a polynomial it is a root of. -/
theorem aeval_iterate_square {A : Type*} [Ring A] [Algebra (ZMod 2) A] {a : A} {low : BitVec d}
    (hlow : aeval a (X ^ d : (ZMod 2)[X]) = aeval a (toPoly low)) (hd : 1 < d) (n : Nat) :
    aeval a (toPoly ((square low)^[n] (BitVec.twoPow d 1))) = a ^ 2 ^ n := by
  have hpow : (aeval a).toRingHom (toPoly ((square low)^[n] (BitVec.twoPow d 1))) =
      (aeval a).toRingHom (toPoly (BitVec.twoPow d 1)) ^ 2 ^ n :=
    map_iterate_square hlow n (BitVec.twoPow d 1)
  rw [toPoly_twoPow hd, pow_one] at hpow
  simpa using hpow

/-! ## Vectors of bits

Words of `w` bits under exclusive or are a vector space over GF(2), with the single bits as its
basis. -/

/-- Exclusive or twice with the same word changes nothing. -/
theorem xor_xor_self {w : Nat} (x y : BitVec w) : x ^^^ y ^^^ y = x := by
  rw [BitVec.xor_assoc, BitVec.xor_self, BitVec.xor_zero]

/-- What holds of the vectors with one bit and of sums holds of all vectors. -/
theorem xor_induction {w : Nat} {P : BitVec w → Prop} (zero : P 0#w)
    (twoPow : ∀ i < w, P (BitVec.twoPow w i)) (xor : ∀ x y, P x → P y → P (x ^^^ y))
    (x : BitVec w) : P x := by
  suffices hlow : ∀ n ≤ w, ∀ y : BitVec w, (∀ i, n ≤ i → y.getLsbD i = false) → P y from
    hlow w le_rfl x fun i hi => BitVec.getLsbD_of_ge x i hi
  intro n
  induction n with
  | zero =>
    intro _ y hy
    have hzero : y = 0#w := BitVec.eq_of_getLsbD_eq fun i _ => by simpa using hy i (Nat.zero_le i)
    rwa [hzero]
  | succ n ih =>
    intro hn y hy
    cases hbit : y.getLsbD n with
    | false =>
      refine ih (by omega) y fun i hi => ?_
      rcases Nat.eq_or_lt_of_le hi with rfl | hi
      · exact hbit
      · exact hy i hi
    | true =>
      -- without its highest bit
      have hrest : P (y ^^^ BitVec.twoPow w n) := ih (by omega) _ fun i hi => by
        rw [BitVec.getLsbD_xor, BitVec.getLsbD_twoPow]
        rcases Nat.eq_or_lt_of_le hi with rfl | hi
        · simpa [hbit] using hn
        · simp [hy i hi, Nat.ne_of_lt hi]
      rw [← xor_xor_self y (BitVec.twoPow w n)]
      exact xor _ _ hrest (twoPow n hn)

end Kxo.BinaryPolynomial
