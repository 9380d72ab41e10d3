import Mathlib.Data.Finmap

/-!
# Kxo — trees in memory

Memory is a finite map from addresses to cells. A tree lies in it node by node: the cell of a node
holds a pointer to its parent and one to each child. `Rooted` says that a part of memory is such a
tree and nothing else, so the rest of memory is a part disjoint from it, and what an operation does
to the tree it does beside any such rest.

The nodes are of any type with a list of children, the cells of any type built from a node and its
pointers.

## The architecture

* **`Rooted`**, **`RootedAll`** — ownership of a tree, and of the children of a node from a slot on.
  The memory of a node is its own cell and, disjoint from it and from each other, the memories of
  its children; so two nodes never share a cell.
* **`RootedAll.focus`**, **`RootedAll.child`** — one child apart: its memory, the rest, and the way
  back for any tree put in its place. This is how an operation that walks down a path is proved: the
  rest of the tree is part of what the child's subtree lies beside.
* **`RootedAll.append`**, **`RootedAll.insertChild`** — a new node in the next slot.
-/

namespace Kxo.TreeHeap

open Finmap

abbrev Heap (C : Type) := Finmap fun _ : Nat => C

section Union

variable {C : Type} {h h' f : Heap C} {a : Nat} {c : C}

/-- A write to an address outside the first part is a write to the second. -/
theorem insert_union_right (ha : a ∉ h) : insert a c (h ∪ f) = h ∪ insert a c f := by
  refine ext_lookup fun b => ?_
  by_cases hb : b = a
  · subst hb
    rw [lookup_insert, lookup_union_right ha, lookup_insert]
  · rw [lookup_insert_of_ne _ hb]
    by_cases hmem : b ∈ h
    · rw [lookup_union_left hmem, lookup_union_left hmem]
    · rw [lookup_union_right hmem, lookup_union_right hmem, lookup_insert_of_ne _ hb]

/-- A write is a cell of its own in front: what the memory held there is hidden. -/
theorem insert_eq_union (a : Nat) (c : C) (h : Heap C) : insert a c h = singleton a c ∪ h := by
  conv_lhs => rw [← (empty_union : ∅ ∪ h = h)]
  exact insert_union

/-- Writing back what is there changes nothing. -/
theorem insert_lookup (hc : h.lookup a = some c) : insert a c h = h := by
  refine ext_lookup fun b => ?_
  by_cases hb : b = a
  · subst hb
    rw [lookup_insert, hc]
  · rw [lookup_insert_of_ne _ hb]

/-- What the first part holds is not hidden by the second. -/
theorem lookup_union_some (hc : h.lookup a = some c) : (h ∪ f).lookup a = some c := by
  rw [lookup_union_left (mem_of_lookup_eq_some hc), hc]

/-- A cell that is not in the rest may be added to a part disjoint from it. -/
theorem disjoint_insert_left (hd : h.Disjoint f) (ha : a ∉ f) : (insert a c h).Disjoint f := by
  intro b hb hf
  rcases mem_insert.mp hb with rfl | hb
  · exact ha hf
  · exact hd b hb hf

end Union

/-! ## Ownership

`Rooted` and `RootedAll` follow the tree: one rule for a node, one for no children and one for a
child in front of others. The memory is an index of the relation and is split at every rule, so a
proof by induction gets the parts disjoint from each other. -/

section Tree

variable {N C : Type} (cell : N → Option Nat → (Nat → Option Nat) → C) (children : N → List N)

mutual

/-- `Rooted parent a n h`: the memory `h` is the tree of `n`, with its root at `a`. -/
inductive Rooted : Option Nat → Nat → N → Heap C → Prop where
  | node {parent : Option Nat} {a : Nat} {n : N} {slots : Nat → Option Nat} {h : Heap C} :
      RootedAll a slots 0 (children n) h → a ∉ h →
        Rooted parent a n (singleton a (cell n parent slots) ∪ h)

/-- The memory of the children of the node at `a`, from slot `i` on; the other slots are empty. -/
inductive RootedAll : Nat → (Nat → Option Nat) → Nat → List N → Heap C → Prop where
  | nil {a : Nat} {slots : Nat → Option Nat} {i : Nat} :
      (∀ j, i ≤ j → slots j = none) → RootedAll a slots i [] ∅
  | cons {a b : Nat} {slots : Nat → Option Nat} {i : Nat} {c : N} {rest : List N} {h h' : Heap C} :
      slots i = some b → Rooted (some a) b c h → RootedAll a slots (i + 1) rest h' → h.Disjoint h' →
        RootedAll a slots i (c :: rest) (h ∪ h')

end

variable {cell children} {parent : Option Nat} {a i : Nat} {n c : N} {slots : Nat → Option Nat}
  {ns : List N} {h hf : Heap C}

/-- The cell of the root is that of its node, with some pointers to children. -/
theorem Rooted.lookup (hown : Rooted cell children parent a n h) :
    ∃ slots, h.lookup a = some (cell n parent slots) := by
  cases hown with
  | node => exact ⟨_, lookup_union_some lookup_singleton_eq⟩

/-- A tree has a cell for its root. -/
theorem Rooted.mem (hown : Rooted cell children parent a n h) : a ∈ h := by
  obtain ⟨slots, hlookup⟩ := hown.lookup
  exact mem_of_lookup_eq_some hlookup

/-- From the first slot after the last child on, the pointers are null. -/
theorem RootedAll.slot_none (hown : RootedAll cell children a slots i ns h) {j : Nat}
    (hj : i + ns.length ≤ j) : slots j = none := by
  induction ns generalizing i h with
  | nil =>
    cases hown with
    | nil hnone => exact hnone j (by simpa using hj)
  | cons c rest ih =>
    cases hown with
    | cons _ _ hrest _ => exact ih hrest (by simp only [List.length_cons] at hj; omega)

/-- **The rule of the child**: the memory of a child can be taken out and put back, changed. -/
theorem RootedAll.focus (hown : RootedAll cell children a slots i ns h) {j : Nat}
    (hc : ns[j]? = some c) :
    ∃ b hb hr, slots (i + j) = some b ∧ Rooted cell children (some a) b c hb ∧ hb.Disjoint hr ∧
      h = hb ∪ hr ∧ ∀ c' hb', Rooted cell children (some a) b c' hb' → hb'.Disjoint hr →
        RootedAll cell children a slots i (ns.set j c') (hb' ∪ hr) := by
  induction ns generalizing i j h with
  | nil => simp at hc
  | cons d rest ih =>
    cases hown with
    | @cons _ b _ _ _ _ hb hr hslot hd hrest hdisj =>
      cases j with
      -- the first tree
      | zero =>
        obtain rfl : d = c := by simpa using hc
        exact ⟨b, hb, hr, hslot, hd, hdisj, rfl, fun c' hb' hc' hdisj' =>
          .cons hslot hc' hrest hdisj'⟩
      -- a later one: the first stays with the rest, and the parts are reordered
      | succ j =>
        obtain ⟨e, he, hr', hslot', hown', hdisj', rfl, hback⟩ :=
          ih hrest (j := j) (by simpa using hc)
        rw [disjoint_union_right] at hdisj
        have hbe : he.Disjoint hb := hdisj.1.symm
        refine ⟨e, he, hb ∪ hr', by rw [← hslot']; congr 1; omega, hown', ?_, ?_, ?_⟩
        · exact (disjoint_union_right _ _ _).mpr ⟨hbe, hdisj'⟩
        · rw [← union_assoc, ← union_assoc, union_comm_of_disjoint hbe]
        · intro c' he' hc' hdisj''
          rw [disjoint_union_right] at hdisj''
          rw [← union_assoc, union_comm_of_disjoint hdisj''.1, union_assoc]
          exact .cons hslot hd (hback c' he' hc' hdisj''.2)
            ((disjoint_union_right _ _ _).mpr ⟨hdisj''.1.symm, hdisj.2⟩)

/-- A tree taken apart: the root's cell, and the children's memory without it. -/
theorem Rooted.parts (hown : Rooted cell children parent a n h) :
    ∃ slots hk, h = singleton a (cell n parent slots) ∪ hk ∧
      RootedAll cell children a slots 0 (children n) hk ∧ a ∉ hk := by
  cases hown with
  | node hall ha => exact ⟨_, _, rfl, hall, ha⟩

/-- Overwriting a cell that stands in front. -/
theorem insert_singleton_union {v w : C} : insert a w (singleton a v ∪ h) = singleton a w ∪ h := by
  rw [insert_union, insert_singleton_eq]

/-- A cell that is not in a memory is disjoint from it. -/
theorem disjoint_singleton {v : C} (ha : a ∉ h) : h.Disjoint (singleton a v) := by
  intro b hb hs
  obtain rfl := (mem_singleton _ _ _).mp hs
  exact ha hb

/-- **The rule of a node's child**: the rest holds the node's own cell, and a node that differs in
this child and its own record is there once both are stored. -/
theorem RootedAll.child (hall : RootedAll cell children a slots 0 ns h) (ha : a ∉ h) {j : Nat}
    (hc : ns[j]? = some c) (parent : Option Nat) (v : C) :
    ∃ b hb hr, slots j = some b ∧ Rooted cell children (some a) b c hb ∧ hb.Disjoint hr ∧
      singleton a v ∪ h = hb ∪ hr ∧ hr.lookup a = some v ∧
      ∀ n' c' hb', children n' = ns.set j c' → Rooted cell children (some a) b c' hb' →
        hb'.Disjoint hr →
          Rooted cell children parent a n' (hb' ∪ hr.insert a (cell n' parent slots)) := by
  obtain ⟨b, hb, hr, hslot, hown, hdisj, rfl, hback⟩ := hall.focus hc
  rw [mem_union, not_or] at ha
  rw [Nat.zero_add] at hslot
  refine ⟨b, hb, singleton a v ∪ hr, hslot, hown, ?_, ?_, ?_, ?_⟩
  · exact (disjoint_union_right _ _ _).mpr ⟨disjoint_singleton ha.1, hdisj⟩
  · rw [← union_assoc, ← union_assoc, union_comm_of_disjoint (disjoint_singleton ha.1)]
  · exact lookup_union_some lookup_singleton_eq
  · intro n' c' hb' hn' hc' hdisj'
    rw [disjoint_union_right] at hdisj'
    have ha' : a ∉ hb' := fun hmem => hdisj'.1 a hmem ((mem_singleton _ _ _).mpr rfl)
    rw [insert_singleton_union, ← union_assoc, union_comm_of_disjoint (disjoint_singleton ha'),
      union_assoc]
    refine .node ?_ ?_
    · rw [hn']
      exact hback c' hb' hc' hdisj'.2
    · rw [mem_union, not_or]
      exact ⟨ha', ha.2⟩

/-- A child more, in the first empty slot. -/
theorem RootedAll.append (hall : RootedAll cell children a slots i ns h) {b : Nat} {hb : Heap C}
    (hown : Rooted cell children (some a) b c hb) (hdisj : h.Disjoint hb) :
    RootedAll cell children a (Function.update slots (i + ns.length) (some b)) i (ns ++ [c])
      (h ∪ hb) := by
  induction ns generalizing i h with
  | nil =>
    cases hall with
    | nil hnone =>
      rw [empty_union, ← (union_empty : hb ∪ ∅ = hb), List.length_nil, Nat.add_zero]
      refine .cons (Function.update_self _ _ _) hown (.nil fun j hj => ?_) ?_
      · rw [Function.update_of_ne (by omega)]
        exact hnone j (by omega)
      · exact (disjoint_empty hb).symm
  | cons d rest ih =>
    cases hall with
    | cons hslot hd hrest hdisj' =>
      rw [disjoint_union_left] at hdisj
      rw [union_assoc, List.cons_append]
      refine .cons ?_ hd ?_ ((disjoint_union_right _ _ _).mpr ⟨hdisj', hdisj.1⟩)
      · rw [Function.update_of_ne (by simp), hslot]
      · have hlen : i + (d :: rest).length = i + 1 + rest.length := by simp; omega
        rw [hlen]
        exact ih hrest hdisj.2

/-- **The rule of a new child**: a fresh cell, and its address in the node's first empty slot. -/
theorem RootedAll.insertChild (hall : RootedAll cell children a slots 0 ns h) (ha : a ∉ h) {b : Nat}
    {v : C} (hfresh : b ∉ singleton a v ∪ h) (c n' : N) (hleaf : children c = [])
    (hn' : children n' = ns ++ [c]) :
    Rooted cell children parent a n'
      (((singleton a v ∪ h).insert b (cell c (some a) fun _ => none)).insert a
        (cell n' parent (Function.update slots ns.length (some b)))) := by
  rw [mem_union, not_or] at hfresh
  have hb : Rooted cell children (some a) b c (singleton b (cell c (some a) fun _ => none) ∪ ∅) :=
    .node (hleaf ▸ .nil fun _ _ => rfl) notMem_empty
  rw [union_empty] at hb
  have hdisj : h.Disjoint (singleton b (cell c (some a) fun _ => none)) :=
    disjoint_singleton hfresh.2
  have happend := hall.append hb hdisj
  rw [Nat.zero_add, ← hn'] at happend
  have hinsert : h.insert b (cell c (some a) fun _ => none) =
      h ∪ singleton b (cell c (some a) fun _ => none) := by
    rw [insert_eq_union, union_comm_of_disjoint hdisj.symm]
  rw [insert_union_right hfresh.1, hinsert, insert_singleton_union]
  refine .node happend ?_
  rw [mem_union, not_or]
  refine ⟨ha, fun hab => hfresh.1 ?_⟩
  rw [mem_singleton] at hab ⊢
  exact hab.symm

end Tree

end Kxo.TreeHeap
