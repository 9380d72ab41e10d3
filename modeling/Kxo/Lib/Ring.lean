import Mathlib.Logic.Function.Basic
import Mathlib.Data.List.Basic

/-!
# Kxo — ring buffers

A ring of `cap` slots with the index of its oldest element, that of its next free slot, and the
number of its elements.

* **`WellFormed`** — the indices are in range and the tail is `count` slots after the head, around
  the end.
* **`contents`** — the queue that a well-formed ring holds, from the head on.
* **`WellFormed.contents_push`**, **`WellFormed.contents_pop`** — writing at the tail appends to it,
  moving the head on drops its first element. The slot that is written is none of the elements'
  (`WellFormed.slot_ne_tail`), because there is room.
-/

namespace Kxo

/-- A ring buffer; slots from `cap` on are not part of it. -/
structure Ring (α : Type*) where
  slots : Nat → α
  cap : Nat
  head : Nat
  tail : Nat
  count : Nat

namespace Ring

variable {α : Type*}

/-- The indices are in range, and `count` apart. -/
structure WellFormed (r : Ring α) : Prop where
  count_le : r.count ≤ r.cap
  head_lt : r.head < r.cap
  tail_lt : r.tail < r.cap
  tail_eq : r.tail = (r.head + r.count) % r.cap

/-- The elements from the head on. -/
def contents (r : Ring α) : List α :=
  (List.range r.count).map fun k => r.slots ((r.head + k) % r.cap)

/-- Write an element at the tail. -/
def push (r : Ring α) (x : α) : Ring α :=
  { r with
    slots := Function.update r.slots r.tail x
    tail := (r.tail + 1) % r.cap
    count := r.count + 1 }

/-- The element at the head. -/
def front (r : Ring α) : α := r.slots r.head

/-- Move the head past its element. -/
def pop (r : Ring α) : Ring α :=
  { r with head := (r.head + 1) % r.cap, count := r.count - 1 }

variable {r : Ring α}

/-- Writing an element keeps a ring well formed, if there is room. -/
theorem WellFormed.push (h : r.WellFormed) (hroom : r.count < r.cap) (x : α) :
    (r.push x).WellFormed where
  count_le := hroom
  head_lt := h.head_lt
  tail_lt := Nat.mod_lt _ (by have := h.head_lt; omega)
  tail_eq := by
    show (r.tail + 1) % r.cap = (r.head + (r.count + 1)) % r.cap
    rw [h.tail_eq, Nat.mod_add_mod, Nat.add_assoc]

/-- Taking an element keeps a ring well formed, if there is one. -/
theorem WellFormed.pop (h : r.WellFormed) (hsome : 0 < r.count) : r.pop.WellFormed where
  count_le := Nat.le_trans (Nat.sub_le _ _) h.count_le
  head_lt := Nat.mod_lt _ (by have := h.head_lt; omega)
  tail_lt := h.tail_lt
  tail_eq := by
    show r.tail = ((r.head + 1) % r.cap + (r.count - 1)) % r.cap
    rw [h.tail_eq, Nat.mod_add_mod]
    congr 1
    omega

/-- No element of the ring lies in the free slot at its tail. -/
theorem WellFormed.slot_ne_tail (h : r.WellFormed) (hroom : r.count < r.cap) {k : Nat}
    (hk : k < r.count) : (r.head + k) % r.cap ≠ r.tail := by
  rw [h.tail_eq]
  intro heq
  -- the two positions are fewer than `cap` slots apart
  have hhead := h.head_lt
  rcases Nat.lt_or_ge (r.head + r.count) r.cap with hin | hover
  · rw [Nat.mod_eq_of_lt (by omega), Nat.mod_eq_of_lt hin] at heq
    omega
  · rw [Nat.mod_eq_sub_mod hover, Nat.mod_eq_of_lt (by omega : r.head + r.count - r.cap < r.cap)]
      at heq
    rcases Nat.lt_or_ge (r.head + k) r.cap with hin | hover'
    · rw [Nat.mod_eq_of_lt hin] at heq
      omega
    · rw [Nat.mod_eq_sub_mod hover', Nat.mod_eq_of_lt (by omega)] at heq
      omega

/-- **Writing at the tail appends.** -/
theorem WellFormed.contents_push (h : r.WellFormed) (hroom : r.count < r.cap) (x : α) :
    (r.push x).contents = r.contents ++ [x] := by
  simp only [contents, Ring.push, List.range_succ, List.map_append, List.map_cons, List.map_nil]
  congr 1
  · refine List.map_congr_left fun k hk => ?_
    rw [List.mem_range] at hk
    exact Function.update_of_ne (h.slot_ne_tail hroom hk) _ _
  · rw [← h.tail_eq, Function.update_self]

/-- **The head holds the first element, and moving it on drops it.** -/
theorem WellFormed.contents_pop (h : r.WellFormed) (hsome : 0 < r.count) :
    r.contents = r.front :: r.pop.contents := by
  obtain ⟨n, hn⟩ : ∃ n, r.count = n + 1 := ⟨r.count - 1, by omega⟩
  simp only [contents, Ring.pop, Ring.front, hn, Nat.add_sub_cancel, List.range_succ_eq_map,
    List.map_cons, List.map_map, Nat.add_zero, Nat.mod_eq_of_lt h.head_lt]
  congr 1
  refine List.map_congr_left fun k _ => ?_
  simp only [Function.comp_apply, Nat.mod_add_mod]
  congr 2
  omega

end Ring

end Kxo
