import Mathlib.Data.List.Basic
import Mathlib.Data.List.Nodup

/-!
# Kxo — recency of look-ups

A log of keyed events, most recent first, gives every key an age: how many events came after its
last one. A list kept in two runs, the first from young to old and the second from old to young, is
what insertion at the head and moving to the tail produce.

* **`age`**, **`last`** — what a log says of a key.
* **`TwoRuns`** — the shape of such a list. Nothing is said about how the two runs lie to each
  other.
* **`TwoRuns.lt_of_cut`**, **`TwoRuns.kept_lt_head`** — the two directions: if the cut takes the
  oldest, no element of the first run stays; and if the head of the list is older than as many
  elements as stay, then all that stay are younger than it.
* **`take_oldest_iff`** — cutting the list at its head removes its oldest elements exactly when each
  element of the first run is older than as many elements as stay.

The condition counts, and does not mention positions, so a client can read it off a log of look-ups.
-/

namespace Kxo.Recency

section Age

variable {κ ε : Type*} [DecidableEq κ]

/-- The number of events after the last one of a key; the log's length when there is none. -/
def age (log : List (κ × ε)) (k : κ) : Nat := log.findIdx fun e => e.1 = k

/-- What the last event of a key carried. -/
def last (log : List (κ × ε)) (k : κ) : Option ε := (log.find? fun e => e.1 = k).map Prod.snd

/-- The key of the last event has age 0. -/
@[simp] theorem age_cons_self (log : List (κ × ε)) (k : κ) (x : ε) : age ((k, x) :: log) k = 0 := by
  simp [age, List.findIdx_cons]

/-- An event of another key makes a key one event older. -/
theorem age_cons_ne (log : List (κ × ε)) {k k' : κ} (x : ε) (h : k' ≠ k) :
    age ((k, x) :: log) k' = age log k' + 1 := by
  simp [age, List.findIdx_cons, Ne.symm h]

/-- The last event of a key is the one just logged. -/
@[simp] theorem last_cons_self (log : List (κ × ε)) (k : κ) (x : ε) :
    last ((k, x) :: log) k = some x := by
  simp [last]

/-- An event of another key changes nothing for a key. -/
theorem last_cons_ne (log : List (κ × ε)) {k k' : κ} (x : ε) (h : k' ≠ k) :
    last ((k, x) :: log) k' = last log k' := by
  simp [last, Ne.symm h]

end Age

/-! ## Two runs -/

section TwoRuns

variable {α : Type*} {f : α → Nat}

/-- `young` runs from young to old, `old` from old to young. -/
structure TwoRuns (f : α → Nat) (young old : List α) : Prop where
  young : young.Pairwise fun a b => f a < f b
  old : old.Pairwise fun a b => f b < f a

/-- Cutting at the head keeps two runs. -/
theorem TwoRuns.drop {young old : List α} (h : TwoRuns f young old) (n : Nat) :
    TwoRuns f (young.drop n) (old.drop (n - young.length)) :=
  ⟨h.young.drop, h.old.drop⟩

/-- In the old run, nothing before a position is younger than the element there. -/
theorem countP_take_eq_zero {young old : List α} (h : TwoRuns f young old) {a : α}
    (hyoung : ∀ b ∈ young, f a ≤ f b) {j : Nat} {k : α} (hj : (young ++ old)[j]? = some k)
    (hin : young.length ≤ j) (hk : f a ≤ f k) :
    ((young ++ old).take (j + 1)).countP (fun b => f b < f a) = 0 := by
  rw [List.countP_eq_zero]
  intro b hb
  simp only [decide_eq_true_eq, Nat.not_lt]
  obtain ⟨i, hi, rfl⟩ := List.mem_iff_getElem.mp hb
  rw [List.length_take] at hi
  rw [List.getElem_take]
  by_cases hiy : i < young.length
  · rw [List.getElem_append_left hiy]
    exact hyoung _ (List.getElem_mem hiy)
  · rw [List.getElem_append_right (by omega)]
    rw [List.getElem?_append_right hin] at hj
    obtain ⟨hjlt, rfl⟩ := List.getElem?_eq_some_iff.mp hj
    rcases Nat.lt_or_ge (i - young.length) (j - young.length) with hlt | hge
    · have := List.pairwise_iff_getElem.mp h.old (i - young.length) (j - young.length)
        (by omega) hjlt hlt
      omega
    · have heq : i - young.length = j - young.length := by omega
      simp only [heq]
      exact hk

/-- If the cut removes the oldest, it removes the whole first run but for elements older than all
that stay: a kept element of that run would be older than the head, which is cut. -/
theorem TwoRuns.lt_of_cut {young old : List α} (h : TwoRuns f young old) {c i : Nat} (hpos : 0 < c)
    (hi : i < young.length)
    (hcut : ∀ r ∈ (young ++ old).take c, ∀ k ∈ (young ++ old).drop c, f k < f r) : i < c := by
  by_contra hge
  have hkept : young[i] ∈ (young ++ old).drop c := by
    have hci : c + (i - c) = i := by omega
    refine List.mem_of_getElem? (i := i - c) ?_
    rw [List.getElem?_drop, hci, List.getElem?_append_left hi, List.getElem?_eq_getElem hi]
  have hhead : young[0] ∈ (young ++ old).take c := by
    refine List.mem_of_getElem? (i := 0) ?_
    rw [List.getElem?_take, if_pos hpos, List.getElem?_append_left (by omega),
      List.getElem?_eq_getElem]
  -- the head is younger than the element kept, and is cut
  have hyounger := List.pairwise_iff_getElem.mp h.young 0 i (by omega) hi (by omega)
  have holder := hcut _ hhead _ hkept
  omega

/-- The elements younger than the head are all in the second run, and when there are as many as
stay, every one that stays is among them. -/
theorem TwoRuns.kept_lt_head {a k : α} {rest old : List α} (h : TwoRuns f (a :: rest) old)
    {c j : Nat} (hhead : (a :: rest ++ old).length - c ≤
      (a :: rest ++ old).countP fun b => f b < f a)
    (hj : (a :: rest ++ old)[c + j]? = some k) : f k < f a := by
  have hjlt : c + j < (a :: rest ++ old).length := (List.getElem?_eq_some_iff.mp hj).1
  have hyoung : ∀ b ∈ a :: rest, f a ≤ f b := by
    intro b hb
    rcases List.mem_cons.mp hb with rfl | hb
    · exact Nat.le_refl _
    · exact Nat.le_of_lt ((List.pairwise_cons.mp h.young).1 b hb)
  -- the head is the youngest of its run, so those younger are all in the other
  have hin : (a :: rest).length ≤ c := by
    by_contra hlen
    have hzero : (a :: rest ++ old).countP (fun b => f b < f a) ≤ old.length := by
      rw [List.countP_append, List.countP_eq_zero.mpr (fun b hb => by simpa using hyoung b hb),
        Nat.zero_add]
      exact List.countP_le_length
    rw [List.length_append] at hhead hjlt
    omega
  by_contra hge
  have hzero := countP_take_eq_zero h hyoung hj (by omega) (by omega)
  have hsplit : (a :: rest ++ old).countP (fun b => f b < f a) ≤
      ((a :: rest ++ old).drop (c + j + 1)).length := by
    rw [← List.take_append_drop (c + j + 1) (a :: rest ++ old), List.countP_append, hzero,
      Nat.zero_add, List.take_append_drop]
    exact List.countP_le_length
  rw [List.length_drop] at hsplit
  omega

/-- **When cutting the head removes the oldest.** The first `c` elements are all older than the
others exactly when each element of the first run is older than as many as stay. -/
theorem take_oldest_iff {young old : List α} (h : TwoRuns f young old) {c : Nat} (hpos : 0 < c) :
    (∀ r ∈ (young ++ old).take c, ∀ k ∈ (young ++ old).drop c, f k < f r) ↔
      ∀ a ∈ young, (young ++ old).length - c ≤ (young ++ old).countP fun b => f b < f a := by
  constructor
  · intro hcut a ha
    obtain ⟨i, hi, rfl⟩ := List.mem_iff_getElem.mp ha
    have hcutmem : young[i] ∈ (young ++ old).take c := by
      refine List.mem_of_getElem? (i := i) ?_
      rw [List.getElem?_take, if_pos (h.lt_of_cut hpos hi hcut), List.getElem?_append_left hi,
        List.getElem?_eq_getElem hi]
    have hall : ((young ++ old).drop c).countP (fun b => f b < f young[i]) =
        ((young ++ old).drop c).length :=
      List.countP_eq_length.mpr fun b hb => by simpa using hcut _ hcutmem b hb
    calc (young ++ old).length - c
        = ((young ++ old).drop c).countP (fun b => f b < f young[i]) := by
          rw [hall, List.length_drop]
      _ ≤ (young ++ old).countP (fun b => f b < f young[i]) :=
          (List.drop_sublist c _).countP_le
  · intro hcount r hr k hk
    obtain ⟨i, hi⟩ := List.mem_iff_getElem?.mp hr
    obtain ⟨j, hj⟩ := List.mem_iff_getElem?.mp hk
    rw [List.getElem?_drop] at hj
    rw [List.getElem?_take] at hi
    split at hi
    case isFalse => simp at hi
    case isTrue hic =>
      -- both positions in the second run: the earlier one is older
      have hold : young.length ≤ i → f k < f r := by
        intro hle
        rw [List.getElem?_append_right (by omega)] at hi hj
        obtain ⟨hilt, rfl⟩ := List.getElem?_eq_some_iff.mp hi
        obtain ⟨hjlt, rfl⟩ := List.getElem?_eq_some_iff.mp hj
        exact List.pairwise_iff_getElem.mp h.old _ _ hilt hjlt (by omega)
      cases young with
      | nil => exact hold (Nat.zero_le _)
      | cons a rest =>
        have hka := h.kept_lt_head (hcount a (by simp)) hj
        by_cases hiy : i < (a :: rest).length
        · rw [List.getElem?_append_left hiy] at hi
          rcases List.mem_cons.mp (List.mem_of_getElem? hi) with rfl | hmem
          · exact hka
          · exact Nat.lt_trans hka ((List.pairwise_cons.mp h.young).1 r hmem)
        · exact hold (by omega)

end TwoRuns

end Kxo.Recency
