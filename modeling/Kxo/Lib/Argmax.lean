import Mathlib.Order.MinMax
import Mathlib.Tactic.TypeStar

/-!
# Kxo — scanning a list for its largest value

A scan keeps the best value so far and the position it was found at, and moves on only to a strictly
larger one. It therefore ends at the first position of the largest value, if that exceeds the value
it started from, and at its start otherwise.
-/

namespace Kxo

namespace Argmax

variable {α β : Type*} [LinearOrder β]

/-- Scan a list, whose first element has position `i`. -/
def scan (f : α → β) : List α → Nat → β → Option Nat → Option Nat
  | [], _, _, best => best
  | a :: rest, i, bound, best =>
      if bound < f a then scan f rest (i + 1) (f a) (some i) else scan f rest (i + 1) bound best

/-- Position `i` of the list is the first with the largest value, which `a` has. -/
structure IsFirstMax (f : α → β) (l : List α) (i : Nat) (a : α) : Prop where
  get : l[i]? = some a
  max : ∀ b ∈ l, f b ≤ f a
  first : ∀ j b, j < i → l[j]? = some b → f b < f a

variable {f : α → β} {l : List α} {a : α}

/-- Nothing exceeds the bound, so the scan keeps what it started with. -/
theorem scan_of_le {bound : β} (h : ∀ b ∈ l, f b ≤ bound) (i : Nat) (best : Option Nat) :
    scan f l i bound best = best := by
  induction l generalizing i with
  | nil => rfl
  | cons a rest ih =>
    rw [scan, if_neg (not_lt_of_ge (h a (by simp)))]
    exact ih (fun b hb => h b (by simp [hb])) (i + 1)

/-- The first element is the first maximum if no later one is larger. -/
theorem IsFirstMax.head (h : ∀ b ∈ l, f b ≤ f a) : IsFirstMax f (a :: l) 0 a where
  get := rfl
  max b hb := by
    rcases List.mem_cons.mp hb with rfl | hb
    · exact le_refl _
    · exact h b hb
  first j b hj := absurd hj (Nat.not_lt_zero j)

/-- A strictly smaller element in front moves the first maximum by one position. -/
theorem IsFirstMax.tail {i : Nat} {b : α} (h : IsFirstMax f l i a) (hb : f b < f a) :
    IsFirstMax f (b :: l) (i + 1) a where
  get := by simpa using h.get
  max c hc := by
    rcases List.mem_cons.mp hc with rfl | hc
    · exact le_of_lt hb
    · exact h.max c hc
  first j c hj hc := by
    cases j with
    | zero =>
      obtain rfl : b = c := by simpa using hc
      exact hb
    | succ j => exact h.first j c (Nat.lt_of_succ_lt_succ hj) (by simpa using hc)

/-- **The scan ends at the first largest value**, when some value exceeds the bound. -/
theorem exists_scan {bound : β} (h : ∃ b ∈ l, bound < f b) (i : Nat) (best : Option Nat) :
    ∃ j a, scan f l i bound best = some (i + j) ∧ IsFirstMax f l j a := by
  induction l generalizing bound i best with
  | nil => simp at h
  | cons a rest ih =>
    rw [scan]
    by_cases hrest : ∃ b ∈ rest, max bound (f a) < f b
    · -- the largest value lies further on
      obtain ⟨b, hb, hlt⟩ := hrest
      obtain ⟨hbound, ha⟩ := max_lt_iff.mp hlt
      split
      · obtain ⟨j, c, hscan, hmax⟩ := ih ⟨b, hb, ha⟩ (i + 1) (some i)
        exact ⟨j + 1, c, by rw [hscan, Nat.add_assoc, Nat.add_comm 1],
          hmax.tail (ha.trans_le (hmax.max b hb))⟩
      · obtain ⟨j, c, hscan, hmax⟩ := ih ⟨b, hb, hbound⟩ (i + 1) best
        exact ⟨j + 1, c, by rw [hscan, Nat.add_assoc, Nat.add_comm 1],
          hmax.tail (ha.trans_le (hmax.max b hb))⟩
    · -- no later value exceeds both, so the first element is the one above the bound
      have hle : ∀ b ∈ rest, f b ≤ max bound (f a) := fun b hb =>
        le_of_not_gt fun hlt => hrest ⟨b, hb, hlt⟩
      have ha : bound < f a := by
        obtain ⟨b, hb, hlt⟩ := h
        rcases List.mem_cons.mp hb with rfl | hb
        · exact hlt
        · exact (lt_max_iff.mp (hlt.trans_le (hle b hb))).resolve_left (lt_irrefl _)
      rw [max_eq_right (le_of_lt ha)] at hle
      rw [if_pos ha]
      exact ⟨0, a, scan_of_le hle (i + 1) (some i), .head hle⟩

end Argmax

end Kxo
