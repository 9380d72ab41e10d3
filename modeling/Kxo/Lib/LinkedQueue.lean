import Mathlib.Logic.Function.Basic
import Mathlib.Data.List.Basic

/-!
# Kxo — singly linked queues

A queue threaded through its nodes: a head, a tail and a link for each node, which outside the queue
may hold anything.

* **`Represents q l`** — the queue is the list `l`: the links lead from the head through the nodes
  of `l`, the tail is its last node, and no node occurs twice.
* **`Represents.enqueue`**, **`Represents.dequeue_cons`** — the two operations append to the list
  and take its first element.
* **`Represents.unique`** — a queue represents one list at most, so what is said of `l` is said of
  the queue.
-/

namespace Kxo

/-- The links of all nodes, and the ends of the queue. -/
structure LinkedQueue (α : Type*) where
  next : α → Option α
  head : Option α
  tail : Option α

namespace LinkedQueue

variable {α : Type*}

def empty : LinkedQueue α := ⟨fun _ => none, none, none⟩

/-- The links lead from `h` through the nodes of a list to the end. -/
def Links (next : α → Option α) : Option α → List α → Prop
  | h, [] => h = none
  | h, a :: l => h = some a ∧ Links next (next a) l

/-- The queue holds the nodes of `l`, each once, from its head to its tail. -/
structure Represents (q : LinkedQueue α) (l : List α) : Prop where
  links : Links q.next q.head l
  tail : q.tail = l.getLast?
  nodup : l.Nodup

/-- The queue without nodes. -/
theorem represents_empty : Represents (empty : LinkedQueue α) [] :=
  ⟨rfl, rfl, List.nodup_nil⟩

/-- Only the links of the nodes in the list matter. -/
theorem Links.congr {next next' : α → Option α} {h : Option α} {l : List α}
    (hl : Links next h l) (heq : ∀ a ∈ l, next' a = next a) : Links next' h l := by
  induction l generalizing h with
  | nil => exact hl
  | cons a l ih =>
    obtain ⟨hhead, hrest⟩ := hl
    refine ⟨hhead, ?_⟩
    rw [heq a (by simp)]
    exact ih hrest fun b hb => heq b (by simp [hb])

/-- The head is the first node of the list. -/
theorem Represents.head_eq {q : LinkedQueue α} {l : List α} (h : Represents q l) :
    q.head = l.head? := by
  cases l with
  | nil => exact h.links
  | cons a l => exact h.links.1

/-- **The tail is empty exactly when the queue is.** -/
theorem Represents.tail_eq_none {q : LinkedQueue α} {l : List α} (h : Represents q l) :
    q.tail = none ↔ l = [] := by
  rw [h.tail, List.getLast?_eq_none_iff]

/-- The links lead through one list only: each node determines the next one. -/
theorem Links.unique {next : α → Option α} {h : Option α} {l l' : List α} (hl : Links next h l)
    (hl' : Links next h l') : l = l' := by
  induction l generalizing h l' with
  | nil =>
    cases l' with
    | nil => rfl
    | cons b l' => exact absurd (hl.symm.trans hl'.1) (by simp)
  | cons a l ih =>
    cases l' with
    | nil => exact absurd (hl'.symm.trans hl.1) (by simp)
    | cons b l' =>
      obtain rfl : a = b := Option.some.inj (hl.1.symm.trans hl'.1)
      rw [ih hl.2 hl'.2]

/-- A queue is one list. -/
theorem Represents.unique {q : LinkedQueue α} {l l' : List α} (h : Represents q l)
    (h' : Represents q l') : l = l' := h.links.unique h'.links

variable [DecidableEq α]

/-- Append a node. -/
def enqueue (q : LinkedQueue α) (x : α) : LinkedQueue α :=
  let next := Function.update q.next x none
  match q.tail with
  | some t => ⟨Function.update next t (some x), q.head, some x⟩
  | none => ⟨next, some x, some x⟩

/-- Take the first node. -/
def dequeue (q : LinkedQueue α) : Option α × LinkedQueue α :=
  match q.head with
  | none => (none, q)
  | some x =>
      (some x, ⟨Function.update q.next x none, q.next x, if q.next x = none then none else q.tail⟩)

/-- Linking a new node behind the last one. -/
theorem Links.append {next : α → Option α} {h : Option α} {l : List α} {t x : α}
    (hl : Links next h l) (hlast : l.getLast? = some t) (hnodup : l.Nodup) (hx : x ∉ l) :
    Links (Function.update (Function.update next x none) t (some x)) h (l ++ [x]) := by
  induction l generalizing h with
  | nil => simp at hlast
  | cons a l ih =>
    obtain ⟨hhead, hrest⟩ := hl
    obtain ⟨hnotin, hnodup⟩ := List.nodup_cons.mp hnodup
    have hxa : x ≠ a := fun heq => hx (by simp [heq])
    have hxl : x ∉ l := fun hmem => hx (by simp [hmem])
    refine ⟨hhead, ?_⟩
    cases l with
    | nil =>
      -- the last node so far
      have ht : a = t := by simpa using hlast
      rw [← ht, Function.update_self]
      refine ⟨rfl, ?_⟩
      rw [Function.update_of_ne hxa, Function.update_self]
      rfl
    | cons b l =>
      have hlast' : (b :: l).getLast? = some t := by simpa using hlast
      have hta : a ≠ t := by
        rintro rfl
        exact hnotin (List.mem_of_getLast? hlast')
      rw [Function.update_of_ne hta, Function.update_of_ne hxa.symm]
      exact ih hrest hlast' hnodup hxl

/-- A node that is not in the queue goes to its end. Only the link of the old tail and that of the
new node are written, and neither is on the way from the head to the old tail. -/
theorem Represents.enqueue {q : LinkedQueue α} {l : List α} (h : Represents q l) {x : α}
    (hx : x ∉ l) : Represents (q.enqueue x) (l ++ [x]) := by
  have hnodup : (l ++ [x]).Nodup := by
    rw [List.nodup_append]
    refine ⟨h.nodup, by simp, fun a ha b hb heq => hx ?_⟩
    obtain rfl := List.mem_singleton.mp hb
    exact heq ▸ ha
  unfold LinkedQueue.enqueue
  cases htail : q.tail with
  | none =>
    obtain rfl := h.tail_eq_none.mp htail
    exact ⟨⟨rfl, Function.update_self _ _ _⟩, rfl, hnodup⟩
  | some t =>
    have hlast : l.getLast? = some t := h.tail.symm.trans htail
    exact ⟨h.links.append hlast h.nodup hx, by simp, hnodup⟩

/-- Nothing is taken from an empty queue, and it stays as it was. -/
theorem Represents.dequeue_nil {q : LinkedQueue α} (h : Represents q []) :
    q.dequeue = (none, q) := by
  have hhead : q.head = none := h.links
  rw [LinkedQueue.dequeue, hhead]

/-- The first node is taken and the rest of the list is left. When it was the only one the tail is
cleared too. -/
theorem Represents.dequeue_cons {q : LinkedQueue α} {x : α} {l : List α}
    (h : Represents q (x :: l)) :
    q.dequeue.1 = some x ∧ Represents q.dequeue.2 l := by
  obtain ⟨hhead, hrest⟩ := h.links
  obtain ⟨hnotin, hnodup⟩ := List.nodup_cons.mp h.nodup
  have hne : ∀ a ∈ l, a ≠ x := by
    rintro a ha rfl
    exact hnotin ha
  rw [LinkedQueue.dequeue, hhead]
  refine ⟨rfl, hrest.congr fun a ha => Function.update_of_ne (hne a ha) _ _, ?_, hnodup⟩
  -- the tail stays unless it was the node taken
  cases l with
  | nil =>
    have hnone : q.next x = none := hrest
    simp [hnone]
  | cons b l =>
    have hsome : q.next x = some b := hrest.1
    simp [hsome, h.tail]

end LinkedQueue

end Kxo
