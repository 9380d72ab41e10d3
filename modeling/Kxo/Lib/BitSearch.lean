import Mathlib.Order.Bounds.Basic
import Mathlib.Tactic.Ring

/-!
# Kxo — searching a bound bit by bit

A number is built from its top bit down, and a bit is kept when the number with it passes a test.
Where the test passes below every number it passes at, the search ends with the largest number of so
many bits that passes.
-/

namespace Kxo

namespace BitSearch

/-- Decide the bits `n - 1` to `0`; `s` holds the bits already kept. -/
def search (P : Nat → Prop) [DecidablePred P] : Nat → Nat → Nat
  | 0, s => s
  | n + 1, s => if P (s + 2 ^ n) then search P n (s + 2 ^ n) else search P n s

section Search

variable {P Q : Nat → Prop} [DecidablePred P] [DecidablePred Q]

/-- A bit is worth as much as all numbers below it. -/
theorem two_pow_succ (n : Nat) : 2 ^ (n + 1) = 2 ^ n + 2 ^ n := by ring

/-- Only lower bits are added. -/
theorem search_bounds (n s : Nat) : s ≤ search P n s ∧ search P n s < s + 2 ^ n := by
  induction n generalizing s with
  | zero => exact ⟨Nat.le_refl _, Nat.lt_succ_self _⟩
  | succ n ih =>
    have hpow := two_pow_succ n
    rw [search]
    split
    · have h := ih (s + 2 ^ n)
      omega
    · have h := ih s
      omega

/-- The search never leaves the numbers that pass: it moves only to one that does. -/
theorem search_pass {n s : Nat} (hs : P s) : P (search P n s) := by
  induction n generalizing s with
  | zero => exact hs
  | succ n ih =>
    rw [search]
    split
    case isTrue h => exact ih h
    case isFalse => exact ih hs

/-- **The search misses nothing** below its range, where the test passes on an initial segment. -/
theorem le_search (hP : ∀ a b, a ≤ b → P b → P a) {n s r : Nat} (hr : P r) (hlt : r < s + 2 ^ n) :
    r ≤ search P n s := by
  induction n generalizing s with
  | zero => exact Nat.le_of_lt_succ hlt
  | succ n ih =>
    have hpow := two_pow_succ n
    rw [search]
    split
    case isTrue => exact ih (by omega)
    case isFalse h =>
      refine ih (Nat.lt_of_not_le fun hge => ?_)
      -- the bit refused would have passed
      exact h (hP _ _ hge hr)

/-- **The search finds the largest number that passes**, of those with `n` bits, when the test
passes below every number it passes at. -/
theorem isGreatest_search (hP : ∀ a b, a ≤ b → P b → P a) (h0 : P 0) (n : Nat) :
    IsGreatest {r | r < 2 ^ n ∧ P r} (search P n 0) := by
  have hbounds := search_bounds (P := P) n 0
  rw [Nat.zero_add] at hbounds
  refine ⟨⟨hbounds.2, search_pass h0⟩, fun r hr => le_search hP hr.2 ?_⟩
  rw [Nat.zero_add]
  exact hr.1

/-- When the whole range passes, every bit is kept. -/
theorem search_eq_of_pass (hP : ∀ a b, a ≤ b → P b → P a) {n : Nat} (h : P (2 ^ n - 1)) :
    search P n 0 = 2 ^ n - 1 := by
  have hpos : 0 < 2 ^ n := Nat.two_pow_pos n
  have hle := le_search hP (n := n) (s := 0) h (by omega)
  have hlt := (search_bounds (P := P) n 0).2
  omega

/-- A weaker test and more bits find a larger number. -/
theorem search_mono (hQ : ∀ a b, a ≤ b → Q b → Q a) (h0 : P 0) (hPQ : ∀ r, P r → Q r) {n m : Nat}
    (hnm : n ≤ m) : search P n 0 ≤ search Q m 0 := by
  have hlt := (search_bounds (P := P) n 0).2
  have hpow : 2 ^ n ≤ 2 ^ m := Nat.pow_le_pow_right (by omega) hnm
  exact le_search hQ (hPQ _ (search_pass h0)) (by omega)

end Search

end BitSearch

end Kxo
