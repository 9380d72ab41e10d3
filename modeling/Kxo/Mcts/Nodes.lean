import Kxo.Lib.TreeHeap
import Kxo.Mcts.Allocations
import Kxo.Spec.MctsNodes

/-!
# Kxo — MCTS owns its nodes (`src/mcts.c`)

The nodes of a search are a tree in memory: `TreeAt` is `TreeHeap.Rooted` for `struct node`. Each
function is the one on trees, done in place beside whatever else is allocated; so nothing is
followed that is not there, and `free_node` on the root leaves what was there before.

## The architecture

Every function of the file is proved to refine its counterpart on trees (`Kxo.Mcts.Allocations`), in
one shape: from a memory `h ∪ hf`, in which `h` is the tree and `hf` anything disjoint from it, the
function on pointers returns what the function on trees returns and leaves `h' ∪ hf`, in which `h'`
is the tree that the function on trees returns. The rest `hf` is what makes the recursion work: seen
from a child, the parent's cell and the siblings are part of it.

* **`freeNode_tree`** — `free_node` takes the tree out of the memory and leaves `hf`.
* **`selectLoop_linked`**, **`bestLoop_linked`** — the two loops over the slots of `children` are
  the loops over the list of children.
* **`expandLeaf_tree`** — `expand`, which links what it can allocate into the node's slots.
* **`backpropagate_tree`** — up the `parent` pointers; on trees, down the path that was walked.
* **`descend_tree`**, **`mctsLoop_tree`** — the walk to a leaf and the iterations, by induction on
  their fuel, with `WalkAt` for the three ways in which a walk ends.
* **`mcts_root`** — the whole of `mcts`, from the allocation of the root to `free_node`.
* **`mcts_owns_nodes`**, **`mcts_in_memory`** — the results: whatever fails, nothing that is not
  there is read, written or freed, and all memory is handed back; and if no allocation fails, the
  move is that of the search on trees.
-/

namespace Kxo.InMemory

open TreeHeap Finmap

/-! ## A tree of nodes

`cellOf` says what a node's cell holds: its own record, the pointer to its parent, and a slot for
each child. The general ownership of `TreeHeap` is used at these cells. -/

/-- The `struct node` of a node of the tree. -/
def cellOf (n : Node) (parent : Option Ptr) (children : Nat → Option Ptr) : NodeCell :=
  ⟨n.move, n.player, n.nVisits, n.score, parent, children⟩

abbrev TreeAt (parent : Option Ptr) (a : Ptr) (n : Node) (h : Nodes) : Prop :=
  Rooted cellOf Node.children parent a n h

abbrev ChildrenAt (a : Ptr) (slots : Nat → Option Ptr) (i : Nat) (ns : List Node) (h : Nodes) :
    Prop := RootedAll cellOf Node.children a slots i ns h

variable {parent : Option Ptr} {a i k : Nat} {node : Node} {slots : Nat → Option Ptr}
  {ns : List Node} {h hf : Nodes} {c : NodeCell}

/-! ## `free_node`

The children are freed before the node, and each of them as this one. The depth is bounded by the
moves that are left on the board, because a node's child has one less. -/

/-- `kfree` of the root's cell leaves what stands beside it. -/
theorem kfree_root (ha : a ∉ h) : kfree a (singleton a c ∪ h) = some h := by
  have hmem : a ∈ singleton a c ∪ h := mem_union.mpr (.inl ((mem_singleton _ _ _).mpr rfl))
  rw [kfree, if_pos hmem]
  refine congrArg some (ext_lookup fun b => ?_)
  by_cases hb : b = a
  · subst hb
    rw [lookup_erase, lookup_eq_none.mpr ha]
  · rw [lookup_erase_ne hb, lookup_union_right fun hs => hb ((mem_singleton _ _ _).mp hs)]

/-- The children are freed one after the other, and nothing beside them. -/
theorem freeLoop_children (free : Ptr → Nodes → Option Nodes) (hall : ChildrenAt a slots i ns h)
    (hfree : ∀ n ∈ ns, ∀ b hb f, TreeAt (some a) b n hb → hb.Disjoint f →
      free b (hb ∪ f) = some f)
    (hk : ns.length ≤ k) (hc : hf.lookup a = some c) (hslots : c.children = slots)
    (hd : h.Disjoint hf) : freeLoop free a k i (h ∪ hf) = some hf := by
  induction k generalizing ns i h with
  | zero =>
    obtain rfl := List.length_eq_zero_iff.mp (Nat.le_zero.mp hk)
    cases hall with
    | nil => rw [empty_union]; rfl
  | succ k ih =>
    have ha : a ∉ h := fun hmem => hd a hmem (mem_of_lookup_eq_some hc)
    rw [freeLoop, lookup_union_right ha, hc]
    dsimp only [Option.bind_eq_bind, Option.bind_some]
    rw [hslots]
    cases hall with
    | nil hnone =>
      rw [hnone i (Nat.le_refl i)]
      exact ih (.nil fun j hj => hnone j (by omega)) hfree (Nat.zero_le _) hd
    | @cons _ b _ _ n rest hb hr hslot hown hrest hdisj =>
      rw [hslot]
      rw [disjoint_union_left] at hd
      dsimp only
      rw [union_assoc, hfree n (List.mem_cons_self ..) b hb _ hown
        ((disjoint_union_right _ _ _).mpr ⟨hdisj, hd.1⟩)]
      exact ih hrest (fun n hn => hfree n (List.mem_cons_of_mem _ hn))
        (Nat.le_of_succ_le_succ hk) hd.2

/-- **`free_node` frees the tree and nothing else.** -/
theorem freeNode_tree {table : U32} {depth : Nat} (hown : TreeAt parent a node h)
    (hlegal : LegalTree table node) (hdepth : (availableMoves table).length + 1 ≤ depth)
    (hd : h.Disjoint hf) : freeNode depth a (h ∪ hf) = some hf := by
  induction depth generalizing parent a node h hf table with
  | zero => omega
  | succ depth ih =>
    obtain ⟨slots, hk, rfl, hall, ha⟩ := hown.parts
    rw [disjoint_union_left] at hd
    have hdk : hk.Disjoint (singleton a (cellOf node parent slots) ∪ hf) :=
      (disjoint_union_right _ _ _).mpr ⟨disjoint_singleton ha, hd.2⟩
    have hloop := freeLoop_children (freeNode depth) hall
      (fun n hn b hb f hown' hd' =>
        ih hown' (hlegal.child hn).2.2 (hlegal.fuel hn hdepth) hd')
      hlegal.length_le (lookup_union_some lookup_singleton_eq) rfl hdk
    have haf : a ∉ hf := fun hmem => hd.1 a ((mem_singleton _ _ _).mpr rfl) hmem
    rw [freeNode, union_comm_of_disjoint (disjoint_singleton ha).symm, union_assoc, hloop]
    exact kfree_root haf

/-! ## `select_move` and the best child

Both loops go through all slots and pass over those that are `NULL`, which come after the children.
`Linked` is what they need to know of the memory: slot by slot a cell with the record of the child.
The children's own subtrees do not matter to them. -/

/-- The slots from `i` on point to the cells of these nodes, and to no others. -/
inductive Linked (h : Nodes) (slots : Nat → Option Ptr) : Nat → List Node → Prop where
  | nil {i : Nat} : (∀ j, i ≤ j → slots j = none) → Linked h slots i []
  | cons {i : Nat} {n : Node} {ns : List Node} {b : Ptr} {q : Option Ptr} {s : Nat → Option Ptr} :
      slots i = some b → h.lookup b = some (cellOf n q s) → Linked h slots (i + 1) ns →
        Linked h slots i (n :: ns)

/-- The slots of a node are linked to its children, whatever stands beside the tree. -/
theorem linked_children (hall : ChildrenAt a slots i ns h) (hf : Nodes) :
    Linked (h ∪ hf) slots i ns := by
  induction ns generalizing i h hf with
  | nil =>
    cases hall with
    | nil hnone => exact .nil hnone
  | cons n rest ih =>
    cases hall with
    | @cons _ b _ _ _ _ hb hr hslot hown hrest hdisj =>
      obtain ⟨s, hlookup⟩ := hown.lookup
      refine .cons hslot (lookup_union_some (lookup_union_some hlookup)) ?_
      rw [union_comm_of_disjoint hdisj, union_assoc]
      exact ih hrest (hb ∪ hf)

/-- The loop of `select_move` on pointers keeps the child that the loop on the list keeps. Induction
on the number of slots left. -/
theorem selectLoop_linked (hlink : Linked h slots i ns) (hc : h.lookup a = some c)
    (hslots : c.children = slots) (hk : ns.length ≤ k) (bestScore : Nat) (best : Option Nat) :
    selectLoop a h k i bestScore (best.bind slots) =
      some ((Kxo.selectLoop c.nVisits ns i bestScore best).bind slots) := by
  induction k generalizing i ns bestScore best with
  | zero =>
    obtain rfl := List.length_eq_zero_iff.mp (Nat.le_zero.mp hk)
    rfl
  | succ k ih =>
    rw [selectLoop, hc]
    dsimp only [Option.bind_eq_bind, Option.bind_some]
    rw [hslots]
    cases hlink with
    | nil hnone =>
      rw [hnone i (Nat.le_refl i)]
      exact ih (.nil fun j hj => hnone j (by omega)) (Nat.zero_le _) bestScore best
    | @cons _ n rest b q s hslot hlookup hrest =>
      have hrestk : rest.length ≤ k := Nat.le_of_succ_le_succ hk
      rw [hslot, Kxo.selectLoop]
      dsimp only
      rw [hlookup]
      dsimp only [Option.bind_some, Option.bind_eq_bind, cellOf]
      split
      · have hi := ih hrest hrestk (uctScore c.nVisits n.nVisits n.score) (some i)
        rw [Option.bind_some, hslot] at hi
        exact hi
      · exact ih hrest hrestk bestScore best

/-- The child selected is one of them. -/
theorem selectLoop_lt {nTotal bestScore j : Nat} {best : Option Nat}
    (h : Kxo.selectLoop nTotal ns i bestScore best = some j) :
    best = some j ∨ i ≤ j ∧ j < i + ns.length := by
  induction ns generalizing i bestScore best with
  | nil => exact .inl h
  | cons n rest ih =>
    rw [Kxo.selectLoop] at h
    rw [List.length_cons]
    split at h
    · rcases ih h with hbest | hlt
      · have := Option.some.inj hbest
        omega
      · omega
    · exact (ih h).imp_right fun hlt => by omega

/-- What `select_move` returns is one of the children. -/
theorem selectMove_child {j : Nat} (h : Kxo.selectMove node = some j) :
    ∃ child, node.children[j]? = some child := by
  have hlt := (selectLoop_lt h).resolve_left (by simp)
  exact ⟨_, List.getElem?_eq_getElem (by omega)⟩

/-- The last loop of `mcts` follows pointers to cells that are there, and ends at a cell with the
move that the loop on the list returns. -/
theorem bestLoop_linked (hlink : Linked h slots i ns) (hc : h.lookup a = some c)
    (hslots : c.children = slots) (hk : ns.length ≤ k) (mostVisits : Int) {best : Ptr}
    {d : NodeCell} (hbest : h.lookup best = some d) :
    ∃ b e, bestLoop a h k i mostVisits best = some b ∧ h.lookup b = some e ∧
      e.move = bestMove ns mostVisits d.move := by
  induction k generalizing i ns mostVisits best d with
  | zero =>
    obtain rfl := List.length_eq_zero_iff.mp (Nat.le_zero.mp hk)
    exact ⟨best, d, rfl, hbest, rfl⟩
  | succ k ih =>
    rw [bestLoop, hc]
    dsimp only [Option.bind_eq_bind, Option.bind_some]
    rw [hslots]
    cases hlink with
    | nil hnone =>
      rw [hnone i (Nat.le_refl i)]
      exact ih (.nil fun j hj => hnone j (by omega)) (Nat.zero_le _) mostVisits hbest
    | @cons _ n rest b q s hslot hlookup hrest =>
      have hrestk : rest.length ≤ k := Nat.le_of_succ_le_succ hk
      rw [hslot, bestMove]
      dsimp only
      rw [hlookup]
      dsimp only [Option.bind_some, Option.bind_eq_bind, cellOf]
      split
      · exact ih hrest hrestk _ hlookup
      · exact ih hrest hrestk _ hbest

/-! ## `expand`

Each round allocates a node and stores the pointer in the next slot; the first failure ends the
loop. The tree grows by one child a round, and the cell that is new was free before. -/

/-- The children that were set last are the children. -/
@[simp] theorem setChildren_setChildren (n : Node) (cs ds : List Node) :
    (n.setChildren cs).setChildren ds = n.setChildren ds := by cases n; rfl

/-- Setting the children there are changes nothing. -/
theorem setChildren_children (n : Node) : n.setChildren n.children = n := by cases n; rfl

/-- **`expand` adds the children it can allocate**, each linked to its parent, and writes nothing
else. -/
theorem expandLoop_tree (K : Kzalloc) (moves : List Nat) (n : Nat)
    (hown : TreeAt parent a node h) (hd : h.Disjoint hf) :
    ∃ h', expandLoop K a moves node.children.length ⟨h ∪ hf, n⟩ =
        some (node.children.length + granted K.ok n moves.length,
          ⟨h' ∪ hf, callsAfter K.ok n moves.length⟩) ∧
      TreeAt parent a (node.setChildren (node.children ++
        (moves.take (granted K.ok n moves.length)).map fun (m : Nat) =>
          Kxo.newNode m node.player.opp)) h' ∧ h'.Disjoint hf := by
  induction moves generalizing node h n with
  -- no move is left, so no call is made
  | nil =>
    refine ⟨h, rfl, ?_, hd⟩
    simp only [List.take_nil, List.map_nil, List.append_nil, setChildren_children]
    exact hown
  | cons move rest ih =>
    obtain ⟨slots, hk, rfl, hall, ha⟩ := hown.parts
    set v := cellOf node parent slots with hv
    have hlookup : (singleton a v ∪ hk).lookup a = some v := lookup_union_some lookup_singleton_eq
    have hlookupf : (singleton a v ∪ hk ∪ hf).lookup a = some v := lookup_union_some hlookup
    rw [expandLoop, hlookupf]
    dsimp only [Option.bind_some, Option.bind_eq_bind]
    by_cases hok : K.ok n
    · -- the new child, and its address in the next slot
      set b := K.address n (singleton a v ∪ hk ∪ hf) with hb
      have hfresh : b ∉ singleton a v ∪ hk ∪ hf := K.free n _
      rw [mem_union, not_or] at hfresh
      have hne : a ≠ b := by
        rintro heq
        exact hfresh.1 (heq ▸ mem_of_lookup_eq_some hlookup)
      have hgrant : granted K.ok n (move :: rest).length =
          granted K.ok (n + 1) rest.length + 1 := by
        rw [List.length_cons, granted, if_pos hok]
      have hcalls : callsAfter K.ok n (move :: rest).length =
          callsAfter K.ok (n + 1) rest.length := by
        rw [List.length_cons, callsAfter, if_pos hok]
      set child := Kxo.newNode move node.player.opp with hchild
      set node' := node.setChildren (node.children ++ [child]) with hnode'
      have hinsert : TreeAt parent a node' _ :=
        hall.insertChild ha hfresh.1 child node' rfl (by simp [hnode'])
      have hcell : cellOf node' parent (Function.update slots node.children.length (some b)) =
          { v with children := Function.update v.children node.children.length (some b) } := by
        simp [cellOf, hnode', hv]
      rw [hcell] at hinsert
      -- neither insertion meets the other memory
      have hdisj := disjoint_insert_left (c := { v with
        children := Function.update v.children node.children.length (some b) })
        (disjoint_insert_left (c := cellOf child (some a) fun _ => none) hd hfresh.2)
        (fun hmem => hd a (mem_of_lookup_eq_some hlookup) hmem)
      -- the rest of the loop runs from the tree with this child
      obtain ⟨h', hrun, htree, hd'⟩ := ih (n + 1) hinsert hdisj
      refine ⟨h', ?_, ?_, hd'⟩
      · have hlen : node'.children.length = node.children.length + 1 := by simp [hnode']
        have hstep : newNode K move v.player.opp (some a) ⟨singleton a v ∪ hk ∪ hf, n⟩ =
            (some b, ⟨(singleton a v ∪ hk).insert b (cellOf child (some a) fun _ => none) ∪ hf,
              n + 1⟩) := by
          rw [newNode, if_pos hok, ← insert_union]
          rfl
        rw [hlen] at hrun
        rw [hstep, hgrant, hcalls, setChild, ← insert_union, lookup_insert_of_ne _ hne, hlookupf]
        dsimp only [Option.bind_some, Option.bind_eq_bind]
        rw [insert_union, insert_union]
        refine hrun.trans ?_
        rw [Nat.add_assoc, Nat.add_comm 1]
      · rw [hgrant, List.take_succ_cons, List.map_cons]
        simpa [hnode', hchild] using htree
    -- the call fails: the loop ends, and the slot keeps its null pointer
    · have hgrant : granted K.ok n (move :: rest).length = 0 := by
        rw [List.length_cons, granted, if_neg hok]
      have hcalls : callsAfter K.ok n (move :: rest).length = n + 1 := by
        rw [List.length_cons, callsAfter, if_neg hok]
      refine ⟨singleton a v ∪ hk, ?_, ?_, hd⟩
      · have hnone : Function.update v.children node.children.length none = v.children := by
          have hslot : slots node.children.length = none :=
            hall.slot_none (Nat.le_of_eq (Nat.zero_add _))
          rw [← hslot]
          exact Function.update_eq_self _ _
        rw [newNode, if_neg hok, hgrant, hcalls, setChild]
        dsimp only
        rw [hlookupf]
        dsimp only [Option.bind_some, Option.bind_eq_bind]
        rw [hnone, insert_lookup hlookupf]
        rfl
      · rw [hgrant, List.take_zero, List.map_nil, List.append_nil, setChildren_children]
        exact hown

/-- The first slot is `NULL` exactly when there are no children: the test of the source for a leaf.
-/
theorem slot_zero (hall : ChildrenAt a slots 0 ns h) : slots 0 = none ↔ ns = [] := by
  cases hall with
  | nil hnone => exact ⟨fun _ => rfl, fun _ => hnone 0 (Nat.le_refl 0)⟩
  | cons hslot => rw [hslot]; exact ⟨(nomatch ·), (nomatch ·)⟩

/-- `expand` on a leaf, from its memory to the memory of the node with children. -/
theorem expand_tree (K : Kzalloc) (table : U32) (n : Nat) (hown : TreeAt parent a node h)
    (hd : h.Disjoint hf) (hleaf : node.children = []) :
    ∃ h', expand K a table ⟨h ∪ hf, n⟩ = some ((expandGranted K.ok node table n).2.1,
        ⟨h' ∪ hf, (expandGranted K.ok node table n).2.2⟩) ∧
      TreeAt parent a (expandGranted K.ok node table n).1 h' ∧ h'.Disjoint hf := by
  obtain ⟨h', hrun, htree, hd'⟩ := expandLoop_tree K (availableMoves table) n hown hd
  rw [hleaf, List.length_nil, Nat.zero_add] at hrun
  rw [hleaf, List.nil_append] at htree
  exact ⟨h', hrun, htree, hd'⟩

/-- The node selected from: with its children, if they could be made. -/
theorem expandLeaf_tree {table : U32} (K : Kzalloc) (n : Nat) (hown : TreeAt parent a node h)
    (hlegal : LegalTree table node) (hd : h.Disjoint hf) :
    let ready := readyGranted K.ok node table n
    ∃ h', expandLeaf K a table ⟨h ∪ hf, n⟩ = some (ready.2.1, ⟨h' ∪ hf, ready.2.2⟩) ∧
      TreeAt parent a ready.1 h' ∧ h'.Disjoint hf ∧ LegalTree table ready.1 := by
  obtain ⟨slots, hk, rfl, hall, ha⟩ := hown.parts
  have hiff : (cellOf node parent slots).children 0 = none ↔ node.children = [] := slot_zero hall
  rw [expandLeaf, lookup_union_some (lookup_union_some lookup_singleton_eq)]
  dsimp only [Option.bind_some, Option.bind_eq_bind]
  rw [readyGranted]
  by_cases hleaf : node.children = []
  · rw [if_pos hleaf, if_pos (hiff.mpr hleaf)]
    obtain ⟨h', hrun, htree, hd'⟩ := expand_tree K table n hown hd hleaf
    exact ⟨h', hrun, htree, hd', .expandGranted K.ok table node n⟩
  · rw [if_neg hleaf, if_neg fun h0 => hleaf (hiff.mp h0)]
    exact ⟨_, rfl, hown, hd, hlegal⟩

/-! ## `backpropagate`

In memory the way up is by `parent` pointers and the tree is never taken apart; on trees it is down
a path and back. `follow` connects the two: it is the pointer that a path leads to. -/

/-- The pointer at the end of a path of child positions. -/
def follow (h : Nodes) : Ptr → List Nat → Option Ptr
  | a, [] => some a
  | a, i :: path => do
      let n ← h.lookup a
      let b ← n.children i
      follow h b path

/-- A path leads to the same pointer whatever stands beside. -/
theorem follow_union {path : List Nat} {l : Ptr} (hl : follow h a path = some l) (hf : Nodes) :
    follow (h ∪ hf) a path = some l := by
  induction path generalizing a with
  | nil => exact hl
  | cons i path ih =>
    rw [follow] at hl ⊢
    cases hlookup : h.lookup a with
    | none =>
      rw [hlookup] at hl
      cases hl
    | some c =>
      rw [hlookup] at hl
      rw [lookup_union_some hlookup]
      dsimp only [Option.bind_some, Option.bind_eq_bind] at hl ⊢
      cases hslot : c.children i with
      | none =>
        rw [hslot] at hl
        cases hl
      | some b =>
        rw [hslot] at hl
        exact ih hl

/-- One step of a path, then the rest of it from the child. -/
theorem follow_cons {path : List Nat} (hc : h.lookup a = some c) {b : Ptr}
    (hslot : c.children i = some b) : follow h a (i :: path) = follow h b path := by
  rw [follow, hc]
  show (c.children i).bind _ = _
  rw [hslot]
  rfl

/-- A path that is there goes through a child. -/
theorem hasPath_cons {path : List Nat} (h : node.HasPath (i :: path)) :
    ∃ child, node.children[i]? = some child ∧ child.HasPath path := by
  rw [Node.HasPath, Node.at?] at h
  cases hc : node.children[i]? with
  | none =>
    rw [hc] at h
    cases h
  | some child =>
    rw [hc] at h
    exact ⟨child, rfl, h⟩

/-- A path that is there on the tree is there in memory. Induction on the path. -/
theorem exists_follow {path : List Nat} (hown : TreeAt parent a node h)
    (hpath : node.HasPath path) : ∃ l, follow h a path = some l := by
  induction path generalizing parent a node h with
  | nil => exact ⟨a, rfl⟩
  | cons i path ih =>
    obtain ⟨child, hc, hpath'⟩ := hasPath_cons hpath
    obtain ⟨slots, hk, rfl, hall, ha⟩ := hown.parts
    obtain ⟨b, hb, hr, hslot, hown', -, heq, -⟩ :=
      hall.child ha hc parent (cellOf node parent slots)
    obtain ⟨l, hl⟩ := ih hown' hpath'
    refine ⟨l, ?_⟩
    rw [follow_cons (lookup_union_some lookup_singleton_eq) hslot, heq]
    exact follow_union hl hr

/-- **`backpropagate` credits the nodes on the way up** and goes on above the root of the tree. -/
theorem backpropagate_tree {path : List Nat} {l : Ptr} (hown : TreeAt parent a node h)
    (hpath : node.HasPath path) (hl : follow h a path = some l) (hd : h.Disjoint hf)
    (score fuel : Nat) :
    ∃ h', TreeAt parent a (Kxo.backpropagate node path score).1 h' ∧ h'.Disjoint hf ∧
      backpropagate (fuel + path.length + 1) (some l) score (h ∪ hf) =
        backpropagate fuel parent (Kxo.backpropagate node path score).2 (h' ∪ hf) := by
  induction path generalizing parent a node h hf fuel with
  | nil =>
    obtain rfl := Option.some.inj hl
    obtain ⟨slots, hk, rfl, hall, ha⟩ := hown.parts
    have hlookup : (singleton a (cellOf node parent slots) ∪ hk ∪ hf).lookup a =
        some (cellOf node parent slots) :=
      lookup_union_some (lookup_union_some lookup_singleton_eq)
    have hchildren : (node.credit score).children = node.children := Node.children_credit _ _
    refine ⟨singleton a (cellOf (node.credit score) parent slots) ∪ hk,
      .node (hchildren ▸ hall) ha, ?_, ?_⟩
    · rw [← insert_singleton_union (v := cellOf node parent slots)]
      exact disjoint_insert_left hd fun hmem =>
        hd a (mem_union.mpr (.inl ((mem_singleton _ _ _).mpr rfl))) hmem
    · rw [backpropagate, hlookup]
      dsimp only [Option.bind_some, Option.bind_eq_bind]
      rw [insert_union, insert_singleton_union]
      cases node
      rfl
  | cons i path ih =>
    obtain ⟨child, hc, hpath'⟩ := hasPath_cons hpath
    obtain ⟨slots, hk, rfl, hall, ha⟩ := hown.parts
    set v := cellOf node parent slots with hv
    obtain ⟨b, hb, hr, hslot, hown', hdisj, heq, hra, hback⟩ :=
      hall.child ha hc parent v
    have hlookup : (singleton a v ∪ hk).lookup a = some v := lookup_union_some lookup_singleton_eq
    rw [follow_cons hlookup hslot, heq] at hl
    rw [heq] at hd ⊢
    rw [disjoint_union_left] at hd
    -- the leaf is in the child's part
    obtain ⟨l', hl'⟩ := exists_follow hown' hpath'
    obtain rfl : l' = l := Option.some.inj ((follow_union hl' hr).symm.trans hl)
    obtain ⟨hb', htree, hd', hrun⟩ := ih hown' hpath' hl'
      ((disjoint_union_right _ _ _).mpr ⟨hdisj, hd.1⟩) (fuel + 1)
    rw [disjoint_union_right] at hd'
    have hab : a ∉ hb' := fun hmem => hd'.1 a hmem (mem_of_lookup_eq_some hra)
    have haf : a ∉ hf := fun hmem => hd.2 a (mem_of_lookup_eq_some hra) hmem
    rw [Kxo.backpropagate]
    simp only [hc]
    generalize Kxo.backpropagate child path score = r at htree hrun ⊢
    obtain ⟨child', up⟩ := r
    dsimp only at htree hrun ⊢
    set node' := (node.setChildren (node.children.set i child')).credit up with hnode'
    have hcell : cellOf node' parent slots =
        { v with nVisits := v.nVisits + 1, score := (v.score + up) % 2 ^ 64 } := by
      simp [cellOf, hnode', hv]
    refine ⟨hb' ∪ hr.insert a (cellOf node' parent slots),
      hback node' child' hb' (by simp [hnode']) htree hd'.1, ?_, ?_⟩
    · exact (disjoint_union_left _ _ _).mpr ⟨hd'.2, disjoint_insert_left hd.2 haf⟩
    · have hfuel : fuel + (i :: path).length + 1 = fuel + 1 + path.length + 1 := by
        rw [List.length_cons]
        omega
      rw [hfuel, union_assoc, hrun, backpropagate, lookup_union_right hab, lookup_union_some hra]
      dsimp only [Option.bind_some, Option.bind_eq_bind]
      rw [insert_union_right hab, insert_union, hcell, union_assoc]
      rfl

/-! ## The inner loop

The walk in memory keeps a pointer into the tree, the one on trees returns the path to it. A step
into a child focuses its subtree: the rest of the tree joins `hf` for the recursive call and is put
back by `WalkAt.up`. -/

/-- A walk in memory ends like the walk on the tree: with the same tree at `a`, and at the pointer
of the leaf's path. -/
inductive WalkAt (parent : Option Ptr) (a : Ptr) (hf : Nodes) :
    GrantedWalk → Option (Walk × MctsInfo × Memory) → Prop where
  | outOfFuel : WalkAt parent a hf .outOfFuel none
  | null {tree : Node} {info : MctsInfo} {n : Nat} {h : Nodes} :
      TreeAt parent a tree h → h.Disjoint hf →
        WalkAt parent a hf (.null tree info n) (some (.null, info, ⟨h ∪ hf, n⟩))
  | leaf {p : Playout} {n : Nat} {h : Nodes} {l : Ptr} :
      TreeAt parent a p.tree h → h.Disjoint hf → follow h a p.path = some l →
        WalkAt parent a hf (.leaf p n) (some (.leaf l p.score, p.info, ⟨h ∪ hf, n⟩))

/-- From a child to its parent, whose own record the walk does not change. -/
theorem WalkAt.up {hr : Nodes} {b : Ptr} {walk : GrantedWalk}
    {result : Option (Walk × MctsInfo × Memory)} (hwalk : WalkAt (some a) b (hr ∪ hf) walk result)
    (hd : hr.Disjoint hf) (hslot : slots i = some b)
    (hra : hr.lookup a = some (cellOf node parent slots))
    (hback : ∀ n' c' hb', n'.children = node.children.set i c' → TreeAt (some a) b c' hb' →
      hb'.Disjoint hr → TreeAt parent a n' (hb' ∪ hr.insert a (cellOf n' parent slots))) :
    WalkAt parent a hf (walk.up node i) result := by
  -- the tree below is put back in its place
  have hset : ∀ c' hb', TreeAt (some a) b c' hb' → hb'.Disjoint hr →
      TreeAt parent a (node.setChildren (node.children.set i c')) (hb' ∪ hr) := by
    intro c' hb' hc' hd'
    have hown := hback (node.setChildren (node.children.set i c')) c' hb' (by simp) hc' hd'
    have hcell : cellOf (node.setChildren (node.children.set i c')) parent slots =
        cellOf node parent slots := by simp [cellOf]
    rwa [hcell, insert_lookup hra] at hown
  cases hwalk with
  | outOfFuel => exact .outOfFuel
  | null htree hd' =>
    rw [disjoint_union_right] at hd'
    rw [← union_assoc]
    exact .null (hset _ _ htree hd'.1) ((disjoint_union_left _ _ _).mpr ⟨hd'.2, hd⟩)
  | @leaf p n hb l htree hd' hl =>
    rw [disjoint_union_right] at hd'
    have hab : a ∉ hb := fun hmem => hd'.1 a hmem (mem_of_lookup_eq_some hra)
    have hra' : (hb ∪ hr).lookup a = some (cellOf node parent slots) := by
      rw [lookup_union_right hab, hra]
    rw [← union_assoc]
    refine .leaf (p := { p with
      tree := node.setChildren (node.children.set i p.tree), path := i :: p.path })
      (hset _ _ htree hd'.1) ((disjoint_union_left _ _ _).mpr ⟨hd'.2, hd⟩) ?_
    rw [follow_cons hra' hslot]
    exact follow_union hl hr

/-- **The inner loop in memory is the one on the tree.** -/
theorem descend_tree (K : Kzalloc) (fuel : Nat) {table : U32} (hown : TreeAt parent a node h)
    (hlegal : LegalTree table node) (hd : h.Disjoint hf) (info : MctsInfo) (n : Nat) :
    WalkAt parent a hf (descendGranted K.ok fuel node table info n)
      (descend K fuel a table info ⟨h ∪ hf, n⟩) := by
  induction fuel generalizing parent a node h hf table info n with
  | zero => exact .outOfFuel
  | succ fuel ih =>
    obtain ⟨slots, hk, rfl, hall, ha⟩ := hown.parts
    have hlookup : (singleton a (cellOf node parent slots) ∪ hk ∪ hf).lookup a =
        some (cellOf node parent slots) :=
      lookup_union_some (lookup_union_some lookup_singleton_eq)
    rw [descend, hlookup, descendGranted]
    dsimp only [Option.bind_some, Option.bind_eq_bind]
    -- a finished board is a leaf
    by_cases hwin : checkWin table ≠ cellEmpty
    · rw [if_pos hwin, if_pos hwin]
      exact .leaf hown hd rfl
    rw [if_neg hwin, if_neg hwin]
    -- so is a node never visited: it is simulated from
    by_cases hfresh : node.nVisits = 0
    · have hfresh' : (cellOf node parent slots).nVisits = 0 := hfresh
      rw [if_pos hfresh, if_pos hfresh']
      show WalkAt parent a hf _ ((simulate table node.player info.xoroObj).bind _)
      cases simulate table node.player info.xoroObj with
      | none => exact .outOfFuel
      | some r => exact .leaf hown hd rfl
    have hfresh' : ¬ (cellOf node parent slots).nVisits = 0 := hfresh
    rw [if_neg hfresh, if_neg hfresh']
    -- otherwise the node has children, or gets them now
    obtain ⟨h₁, hready, htree, hd₁, hlegal₁⟩ := expandLeaf_tree K n hown hlegal hd
    rw [hready]
    generalize readyGranted K.ok node table n = ready at htree hlegal₁ ⊢
    obtain ⟨ready, added, n₁⟩ := ready
    dsimp only [Option.bind_some, Option.bind_eq_bind] at htree hlegal₁ ⊢
    obtain ⟨slots₁, hk₁, rfl, hall₁, ha₁⟩ := htree.parts
    set v := cellOf ready parent slots₁ with hv
    -- the pointers choose the same child as the tree
    have hsel : selectMove a (singleton a v ∪ hk₁ ∪ hf) =
        some ((Kxo.selectMove ready).bind slots₁) := by
      have hlink : Linked (singleton a v ∪ hk₁ ∪ hf) slots₁ 0 ready.children := by
        rw [union_comm_of_disjoint (disjoint_singleton ha₁).symm, union_assoc]
        exact linked_children hall₁ _
      exact selectLoop_linked hlink (lookup_union_some (lookup_union_some lookup_singleton_eq))
        rfl hlegal₁.length_le 0 none
    rw [hsel]
    dsimp only [Option.bind_some]
    cases hi : Kxo.selectMove ready with
    | none => exact .null htree hd₁
    | some i =>
      obtain ⟨child, hc⟩ := selectMove_child hi
      -- the memory of the child, and of all the rest, which the walk below leaves alone
      obtain ⟨b, hb, hr, hslot, hown', hdisj, heq, hra, hback⟩ :=
        hall₁.child ha₁ hc parent v
      obtain ⟨s, hlookupb⟩ := hown'.lookup
      rw [heq] at hd₁ ⊢
      rw [disjoint_union_left] at hd₁
      have hlookupb' : (hb ∪ hr ∪ hf).lookup b = some (cellOf child (some a) s) :=
        lookup_union_some (lookup_union_some hlookupb)
      dsimp only [Option.bind_some]
      rw [hslot]
      dsimp only
      rw [hlookupb', hc]
      dsimp only [Option.bind_some, cellOf]
      obtain ⟨-, hcplayer, hclegal⟩ := hlegal₁.child (List.mem_of_getElem? hc)
      have hclegal' :
          LegalTree (valSetCell table child.move.toNat child.player.opp.cell) child := by
        rw [hcplayer, Player.opp_opp]
        exact hclegal
      have hwalk := ih hown'
        hclegal' ((disjoint_union_right _ _ _).mpr ⟨hdisj, hd₁.1⟩)
        { info with nrActiveNodes := info.nrActiveNodes + added } n₁
      rw [union_assoc]
      exact hwalk.up hd₁.2 hslot hra hback

/-! ## The iterations

One iteration is a walk and a `backpropagate` from its end. A `NULL` selection ends the search, with
the tree as it stands. -/

/-- **The iterations in memory are those on the tree.** -/
theorem mctsLoop_tree (K : Kzalloc) (stop : Nat → Bool) {table : U32} {root : Ptr} {tree : Node}
    {null : Bool} {info info' : MctsInfo} {n n' : Nat} (hown : TreeAt none root node h)
    (hlegal : LegalTree table node) (hd : h.Disjoint hf)
    (hrun : mctsLoopGranted K.ok stop table k i node info n = some (null, tree, info', n')) :
    ∃ h', mctsLoop K stop root table k i info ⟨h ∪ hf, n⟩ = some (null, info', ⟨h' ∪ hf, n'⟩) ∧
      TreeAt none root tree h' ∧ h'.Disjoint hf := by
  induction k generalizing i node h info n with
  | zero =>
    cases hrun
    exact ⟨h, rfl, hown, hd⟩
  | succ k ih =>
    rw [mctsLoopGranted] at hrun
    rw [mctsLoop]
    by_cases hstop : stop i
    · rw [if_pos hstop] at hrun ⊢
      cases hrun
      exact ⟨h, rfl, hown, hd⟩
    · rw [if_neg hstop] at hrun ⊢
      have hwalk := descend_tree K (nGrids + 1) hown hlegal hd info n
      have hwalkLegal := descendGranted_legal K.ok hlegal info n
        (Nat.succ_le_succ (length_availableMoves_le table))
      generalize descendGranted K.ok (nGrids + 1) node table info n = walk
        at hrun hwalk hwalkLegal
      generalize descend K (nGrids + 1) root table info ⟨h ∪ hf, n⟩ = result at hwalk ⊢
      cases hwalk with
      | outOfFuel => cases hrun
      | null htree hd' =>
        cases hrun
        exact ⟨_, rfl, htree, hd'⟩
      | @leaf p n₁ h₁ l htree hd' hl =>
        obtain ⟨hlegal₁, -, -, hpath, hlen⟩ := hwalkLegal
        -- the way up is no longer than the line
        obtain ⟨h₂, htree₂, hd₂, hback⟩ :=
          backpropagate_tree htree hpath hl hd' p.score (nGrids - p.path.length)
        have hfuel : nGrids - p.path.length + p.path.length + 1 = nGrids + 1 := by omega
        rw [hfuel, backpropagate] at hback
        obtain ⟨h₃, hloop, htree₃, hd₃⟩ :=
          ih htree₂ (hlegal₁.backpropagate p.path p.score).1 hd₂ hrun
        refine ⟨h₃, ?_, htree₃, hd₃⟩
        dsimp only [Option.bind_some, Option.bind_eq_bind]
        rw [hback]
        exact hloop

/-- A new node on its own. -/
theorem tree_newNode (b : Ptr) (move : Int) (player : Player) (parent : Option Ptr) :
    TreeAt parent b (Kxo.newNode move player)
      (singleton b ⟨move, player, 0, 0, parent, fun _ => none⟩) := by
  have hown : TreeAt parent b (Kxo.newNode move player)
      (singleton b (cellOf (Kxo.newNode move player) parent fun _ => none) ∪ ∅) :=
    .node (.nil fun _ _ => rfl) notMem_empty
  rwa [union_empty] at hown

/-- The root's allocation, where it succeeds: a new cell, without children. -/
theorem newNode_root (K : Kzalloc) (player : Player) (nodes : Nodes) {n : Nat}
    (hok : K.ok n = true) :
    ∃ root, newNode K (-1) player none ⟨nodes, n⟩ =
        (some root, ⟨singleton root ⟨-1, player, 0, 0, none, fun _ => none⟩ ∪ nodes, n + 1⟩) ∧
      root ∉ nodes := by
  refine ⟨K.address n nodes, ?_, K.free n nodes⟩
  rw [newNode, if_pos hok, ← insert_eq_union]

/-- `best_node` and its move. -/
theorem bestLoop_tree {root : Ptr} (hown : TreeAt none root node h)
    (hlen : node.children.length ≤ nGrids) (hf : Nodes) :
    ∃ b e, bestLoop root (h ∪ hf) nGrids 0 (-1) root = some b ∧ (h ∪ hf).lookup b = some e ∧
      e.move = bestMove node.children (-1) node.move := by
  obtain ⟨slots, hk, rfl, hall, ha⟩ := hown.parts
  have hlookup : (singleton root (cellOf node none slots) ∪ hk ∪ hf).lookup root =
      some (cellOf node none slots) :=
    lookup_union_some (lookup_union_some lookup_singleton_eq)
  have hlink : Linked (singleton root (cellOf node none slots) ∪ hk ∪ hf) slots 0
      node.children := by
    rw [union_comm_of_disjoint (disjoint_singleton ha).symm, union_assoc]
    exact linked_children hall _
  exact bestLoop_linked hlink hlookup rfl hlen (-1) hlookup

/-- `mcts` from its root on: the answer is `-1` or the best move of the tree, and of its nodes none
remains. -/
theorem mcts_root (K : Kzalloc) (stop : Nat → Bool) (table : U32) (player : Player)
    (info : MctsInfo) (nodes : Nodes) {n : Nat} (hok : K.ok n = true) :
    ∃ null tree info' n', mctsLoopGranted K.ok stop table iterations 0 (Kxo.newNode (-1) player)
        { info with nrActiveNodes := 1 } (n + 1) = some (null, tree, info', n') ∧
      LegalTree table tree ∧ tree.move = -1 ∧
      mcts K stop table player info ⟨nodes, n⟩ =
        some (if null then -1 else bestMove tree.children (-1) tree.move, info',
          ⟨nodes, n'⟩) := by
  obtain ⟨root, hnew, hfresh⟩ := newNode_root K player nodes hok
  obtain ⟨null, tree, info', n', hrun, hlegal, hmove⟩ := mctsLoopGranted_legal K.ok stop
    iterations 0 (LegalTree.newNode table (-1) player) { info with nrActiveNodes := 1 } (n + 1)
  obtain ⟨h, hloop, htree, hd⟩ := mctsLoop_tree K stop (tree_newNode root (-1) player none)
    (.newNode table (-1) player) (disjoint_singleton hfresh).symm hrun
  have hfree := freeNode_tree htree hlegal (Nat.succ_le_succ (length_availableMoves_le table)) hd
  refine ⟨null, tree, info', n', hrun, hlegal, hmove, ?_⟩
  rw [mcts, hnew]
  dsimp only
  rw [hloop]
  dsimp only [Option.bind_some, Option.bind_eq_bind]
  rw [hfree]
  cases null with
  | true => rfl
  | false =>
    obtain ⟨b, e, hbest, hb, hemove⟩ := bestLoop_tree htree hlegal.length_le nodes
    simp only [Bool.false_eq_true, if_false, hbest, hb, Option.bind_some, hemove]
    rfl

/-- A search none of whose allocations fails answers as the search on trees. -/
theorem mcts_granted (K : Kzalloc) {stop : Nat → Bool} {table : U32} {player : Player}
    {info info' : MctsInfo} {nodes nodes' : Nodes} {n n' : Nat} {move : Int}
    (hmcts : mcts K stop table player info ⟨nodes, n⟩ = some (move, info', ⟨nodes', n'⟩))
    (hok : ∀ i, n ≤ i → i < n' → K.ok i = true) :
    Kxo.mcts stop table player info = some (move, info') := by
  by_cases hroot : K.ok n = true
  · obtain ⟨null, tree, info₁, n₁, hrun, -, -, hmcts'⟩ :=
      mcts_root K stop table player info nodes hroot
    obtain ⟨k, root, info₂, hsearch, -⟩ :=
      mctsLoop_spec stop iterations 0 (@TreeAfter.zero table player info) (by decide)
    rw [hmcts] at hmcts'
    cases hmcts'
    obtain ⟨rfl, rfl, rfl⟩ :=
      mctsLoopGranted_all hsearch hrun fun i hi => hok i (Nat.le_of_succ_le hi)
    rw [Kxo.mcts, hsearch]
    rfl
  · -- the root's own allocation fails
    rw [mcts, newNode, if_neg hroot] at hmcts
    cases hmcts
    exact absurd (hok n (Nat.le_refl n) (Nat.lt_succ_self n)) hroot

/-- It always answers, and leaves what lay beside its nodes. -/
theorem mcts_answers (K : Kzalloc) (stop : Nat → Bool) (table : U32) (player : Player)
    (info : MctsInfo) (m : Memory) :
    ∃ move info' calls, mcts K stop table player info m = some (move, info', ⟨m.nodes, calls⟩) ∧
      LegalMove table move := by
  obtain ⟨nodes, n⟩ := m
  by_cases hroot : K.ok n = true
  · obtain ⟨null, tree, info', n', -, hlegal, hmove, hmcts⟩ :=
      mcts_root K stop table player info nodes hroot
    refine ⟨_, info', n', hmcts, ?_⟩
    cases null with
    | true => exact .inl rfl
    | false => exact hlegal.bestMove.imp_left (·.trans hmove)
  · refine ⟨-1, info, n + 1, ?_, .inl rfl⟩
    rw [mcts, newNode, if_neg hroot]

end Kxo.InMemory

namespace Kxo

/-- **`mcts` owns its nodes.** Whichever allocations fail and whenever it is told to stop: it
follows no pointer that is not to a node, it frees what it allocated, once, and nothing else, and it
answers with an empty cell or gives up; on an open board, not told to stop, only if one of its own
allocations fails. -/
theorem mcts_owns_nodes (K : InMemory.Kzalloc) (stop : Nat → Bool) (table : U32) (player : Player)
    (info : MctsInfo) (m : InMemory.Memory) :
    ∃ move info' calls,
      InMemory.mcts K stop table player info m = some (move, info', ⟨m.nodes, calls⟩) ∧
      LegalMove table move ∧
      (move = -1 → checkWin table = cellEmpty → (∀ i, i < iterations → stop i = false) →
        ∃ n, m.calls ≤ n ∧ n < calls ∧ K.ok n = false) := by
  obtain ⟨move, info', calls, hmcts, hlegal⟩ :=
    InMemory.mcts_answers K stop table player info m
  refine ⟨move, info', calls, hmcts, hlegal, fun hgiveUp hopen hstop => ?_⟩
  by_contra hnone
  have hok : ∀ n, m.calls ≤ n → n < calls → K.ok n = true := fun n hle hlt => by
    by_contra hfail
    exact hnone ⟨n, hle, hlt, by simpa using hfail⟩
  obtain ⟨_, _, hspec, -, hne⟩ := mcts_spec stop table player info
  rw [InMemory.mcts_granted K hmcts hok] at hspec
  cases hspec
  exact hne hopen hstop hgiveUp

/-- **The search in memory is the search on trees**, unless one of its own allocations fails: the
same move and the same generator after it, wherever the nodes lie and whatever lies beside them. -/
theorem mcts_in_memory (K : InMemory.Kzalloc) (stop : Nat → Bool) (table : U32) (player : Player)
    (info : MctsInfo) (m : InMemory.Memory) :
    ∃ move info' calls,
      InMemory.mcts K stop table player info m = some (move, info', ⟨m.nodes, calls⟩) ∧
      ((∀ n, m.calls ≤ n → n < calls → K.ok n = true) →
        mcts stop table player info = some (move, info')) := by
  obtain ⟨move, info', calls, hmcts, -⟩ := InMemory.mcts_answers K stop table player info m
  exact ⟨move, info', calls, hmcts, InMemory.mcts_granted K hmcts⟩

/-- A finite memory has a free address. -/
theorem exists_free (nodes : InMemory.Nodes) : ∃ a, a ∉ nodes := by
  obtain ⟨a, ha⟩ := nodes.keys.exists_nat_subset_range
  exact ⟨a, fun hmem => Nat.lt_irrefl a (Finset.mem_range.mp (ha (Finmap.mem_keys.mpr hmem)))⟩

/-- A `kzalloc` that never fails, and takes the first free address. -/
def kzallocFirst : InMemory.Kzalloc where
  ok _ := true
  address _ nodes := Nat.find (exists_free nodes)
  free _ nodes := Nat.find_spec (exists_free nodes)

/-- The search of the board with one O on it, in an empty memory. -/
theorem mcts_in_memory_first :
    ∃ move info' calls, InMemory.mcts kzallocFirst (fun _ => false) 1 .x mctsInit ⟨∅, 0⟩ =
        some (move, info', ⟨∅, calls⟩) ∧
      mcts (fun _ => false) 1 .x mctsInit = some (move, info') := by
  obtain ⟨move, info', calls, hmcts, hsame⟩ :=
    mcts_in_memory kzallocFirst (fun _ => false) 1 .x mctsInit ⟨∅, 0⟩
  exact ⟨move, info', calls, hmcts, hsame fun _ _ _ => rfl⟩

end Kxo
