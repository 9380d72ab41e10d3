import Mathlib.Order.Lattice
import Mathlib.Algebra.Order.Group.Int

/-!
# Fail-soft window search

A search of a position with window `(alpha, beta)` returns a score that is exact when it falls
strictly inside the window, an upper bound of the true value when it falls at or below `alpha`, and
a lower bound when it falls at or above `beta`. This library states that contract (`FailSoft`), its
mirror image under negation, the two ways a null-window search may end, and the step of a
move loop that keeps the best score and raises `alpha` with it.

Nothing here mentions a game: values and scores are integers.
-/

/-- `r` is what a search with window `(alpha, beta)` may return for a position of value `v`. -/
structure FailSoft (alpha beta v r : Int) : Prop where
  low : r ≤ alpha → v ≤ r
  high : beta ≤ r → r ≤ v
  exact : alpha < r → r < beta → r = v

instance (alpha beta v r : Int) : Decidable (FailSoft alpha beta v r) :=
  decidable_of_iff
    ((r ≤ alpha → v ≤ r) ∧ (beta ≤ r → r ≤ v) ∧ (alpha < r → r < beta → r = v))
    ⟨fun h => ⟨h.1, h.2.1, h.2.2⟩, fun h => ⟨h.low, h.high, h.exact⟩⟩

namespace FailSoft

variable {alpha beta v r s : Int}

/-- An exact score meets the contract of every window. -/
theorem of_eq (h : r = v) : FailSoft alpha beta v r :=
  ⟨fun _ => h.ge, fun _ => h.le, fun _ _ => h⟩

/-- Seen from the other side, window, value and score change sign. -/
theorem neg (h : FailSoft alpha beta v r) : FailSoft (-beta) (-alpha) (-v) (-r) where
  low hr := by have := h.high (by omega); omega
  high hr := by have := h.low (by omega); omega
  exact h1 h2 := by have := h.exact (by omega) (by omega); omega

/-- A null-window score outside `(alpha, beta)` settles the wider window too. -/
theorem of_null (h : FailSoft alpha (alpha + 1) v s) (hwin : alpha < beta)
    (hout : ¬ (alpha < s ∧ s < beta)) : FailSoft alpha beta v s where
  low hs := h.low hs
  high hs := h.high (by omega)
  exact h1 h2 := absurd ⟨h1, h2⟩ hout

/-- A null-window score inside `(alpha, beta)` is a lower bound, so the second search may start
from it. -/
theorem of_research (hnull : FailSoft alpha (alpha + 1) v s) (hin : alpha < s)
    (h : FailSoft s beta v r) : FailSoft alpha beta v r where
  low hr := h.low (by omega)
  high hr := h.high hr
  exact h1 h2 := by
    by_cases hrs : r ≤ s
    · have hlow := h.low hrs
      have hlower := hnull.high (by omega)
      omega
    · exact h.exact (by omega) h2

/-- After a cutoff, moves left out can only raise the value above a bound that still holds. -/
theorem of_cutoff {V : Int} (h : FailSoft alpha beta v r) (hwin : alpha < beta) (hcut : beta ≤ r)
    (hle : v ≤ V) : FailSoft alpha beta V r where
  low hr := by omega
  high _ := (h.high hcut).trans hle
  exact _ h2 := by omega

/-! ## Scores kept for another window

A score says less of the value than it did of its window's search: at or below `alpha` it only
bounds the value from above, at or above `beta` from below. A score that is kept and read under
another window settles that search when its kind does.
-/

/-- What a score says of the value, once the window it was found under is known. -/
inductive Bound where
  | upper
  | exact
  | lower
  deriving DecidableEq, Repr

/-- The kind of a score found under the window `(alpha, beta)`. -/
def Bound.of (alpha beta s : Int) : Bound :=
  if s ≤ alpha then .upper else if beta ≤ s then .lower else .exact

/-- A score of this kind answers a search under `(alpha, beta)`: an exact one always does, an upper
bound that lies at or below `alpha`, and a lower bound that lies at or above `beta`. -/
def Bound.Settles (alpha beta s : Int) : Bound → Prop
  | .upper => s ≤ alpha
  | .exact => True
  | .lower => beta ≤ s

instance (alpha beta s : Int) (k : Bound) : Decidable (k.Settles alpha beta s) :=
  match k with
  | .upper => inferInstanceAs (Decidable (s ≤ alpha))
  | .exact => isTrue trivial
  | .lower => inferInstanceAs (Decidable (beta ≤ s))

/-- **A kept score may be read back** under every window that its kind settles. -/
theorem settles {a b : Int} (h : FailSoft a b v s) (hwin : alpha < beta)
    (hset : (Bound.of a b s).Settles alpha beta s) : FailSoft alpha beta v s := by
  unfold Bound.of at hset
  split at hset
  case isTrue hlow =>
    -- an upper bound, at or below `alpha`
    have hv := h.low hlow
    have hs : s ≤ alpha := hset
    exact ⟨fun _ => hv, fun hge => by omega, fun hgt _ => by omega⟩
  case isFalse hlow =>
    split at hset
    case isTrue hhigh =>
      have hv := h.high hhigh
      have hs : beta ≤ s := hset
      exact ⟨fun hle => by omega, fun _ => hv, fun _ hlt => by omega⟩
    case isFalse hhigh => exact of_eq (h.exact (by omega) (by omega))

/-! ## The move loop

`M` is the maximum of the values tried so far and `best` the maximum of their scores. -/

/-- One more move: the value `v`, searched with `alpha` raised to `best`, joins the maximum. -/
theorem step {alpha₀ M best : Int} (h : FailSoft alpha₀ beta M best)
    (hopen : max alpha₀ best < beta) (hmove : FailSoft (max alpha₀ best) beta v s) :
    FailSoft alpha₀ beta (max M v) (max best s) := by
  have hb : best < beta := lt_of_le_of_lt (le_max_right _ _) hopen
  refine ⟨fun hle => ?_, fun hge => ?_, fun h1 h2 => ?_⟩
  · -- nothing beat the window: both bounds are upper bounds
    have hM := h.low (by omega)
    have hv := hmove.low (by omega)
    omega
  · have hs : beta ≤ s := by omega
    have hv := hmove.high hs
    omega
  · by_cases hbest : best ≤ alpha₀
    · have hM := h.low hbest
      have hv := hmove.exact (by omega) (by omega)
      omega
    · have hM := h.exact (by omega) hb
      by_cases hs : s ≤ best
      · have hv := hmove.low (by omega)
        omega
      · have hv := hmove.exact (by omega) (by omega)
        omega

/-- If the new score is the better one and inside the window, it is the value of its move. -/
theorem eq_of_step_lt {alpha₀ best : Int} (hmove : FailSoft (max alpha₀ best) beta v s)
    (hlt : best < s) (hlow : alpha₀ < s) (hhigh : s < beta) : s = v :=
  hmove.exact (by omega) hhigh

end FailSoft
