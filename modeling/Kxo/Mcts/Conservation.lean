import Kxo.Mcts.Search

/-!
# Kxo — what the tree of MCTS adds up to (`src/mcts.c`)

Each iteration visits every node on one path once and credits it with a score, the complement of the
score credited to the child below. So the visits of a node are its first one and those of its
children, and its score is that of its first playout and what its children gave away. The walk that
finds the path only adds fresh nodes, which count for nothing; `backpropagate` then adds the same on
both sides of the two equations at every node of the path but the last, where it makes them start.
-/

namespace Kxo

/-! ## Nodes and their boards

Counting nodes, and following a path with the board that goes with it. What a child gives its parent
is the complement of its score, one for each visit less the score. -/

mutual

/-- The number of nodes of a tree. -/
def Node.size : Node → Nat
  | .mk _ _ _ _ children => 1 + sizeList children

def sizeList : List Node → Nat
  | [] => 0
  | c :: rest => c.size + sizeList rest

end

/-- The node at the end of a path, and the board the inner loop has when it reaches it. -/
def Node.reach : U32 → Node → List Nat → Option (U32 × Node)
  | table, n, [] => some (table, n)
  | table, n, i :: path =>
      n.children[i]?.bind fun c => c.reach (valSetCell table c.move.toNat c.player.opp.cell) path

/-- What the children of a node gave away: the complement of each score credited to them. -/
def givenAway (children : List Node) : Nat :=
  (children.map fun c => c.nVisits * fixedOne - c.score).sum

/-- The nodes of several trees, added up. -/
theorem sizeList_eq_sum (children : List Node) :
    sizeList children = (children.map Node.size).sum := by
  induction children with
  | nil => rfl
  | cons c rest ih => rw [sizeList, ih, List.map_cons, List.sum_cons]

/-- A tree is its root and the trees of the children. -/
theorem Node.size_eq (n : Node) : n.size = 1 + (n.children.map Node.size).sum := by
  cases n
  rw [Node.size, sizeList_eq_sum]
  rfl

/-- A new node is a tree of one node. -/
theorem size_newNode (move : Int) (player : Player) : (newNode move player).size = 1 := rfl

/-- Crediting makes no nodes. -/
@[simp] theorem Node.size_credit (n : Node) (s : Nat) : (n.credit s).size = n.size := by
  rw [Node.size_eq, Node.size_eq, Node.children_credit]

/-- Replacing a child changes the number of nodes by the difference of the two. -/
theorem Node.size_setChild {n c : Node} {i : Nat} (hc : n.children[i]? = some c) (c' : Node) :
    (n.setChildren (n.children.set i c')).size + c.size = n.size + c'.size := by
  rw [Node.size_eq, Node.size_eq n, Node.children_setChildren, List.map_set]
  have hsum := @sum_set (n.children.map Node.size) i c.size (by simp [hc]) c'.size
  omega

/-- Expansion adds one node a move. -/
theorem size_expand {node : Node} (hleaf : node.children = []) (table : U32) :
    (expand node table).1.size = node.size + (expand node table).2 := by
  rw [Node.size_eq, Node.size_eq node, children_expand, hleaf, List.map_map]
  have hone : (Node.size ∘ fun (m : Nat) => newNode m node.player.opp) = fun _ => 1 := by
    funext m
    exact size_newNode _ _
  simp [hone, expand]

/-- Replacing a child changes what was given away by what that child's share changes. -/
theorem givenAway_set {children : List Node} {i : Nat} {c : Node} (h : children[i]? = some c)
    (c' : Node) :
    givenAway (children.set i c') + (c.nVisits * fixedOne - c.score) =
      givenAway children + (c'.nVisits * fixedOne - c'.score) := by
  unfold givenAway
  rw [List.map_set]
  exact sum_set (by simp [h]) _

/-! ## The walk

`Grown` is the relation between the tree before a walk and the tree after: nodes without children
may have got fresh ones. `WalkSpec` adds where the walk ends and what it drew. -/

/-- The trees the inner loop makes of a tree: nodes without children are expanded. -/
inductive Grown : Node → Node → Prop where
  | refl (n : Node) : Grown n n
  | expand {n : Node} (table : U32) : n.children = [] → Grown n (Kxo.expand n table).1
  | child {n c c' : Node} {i : Nat} : n.children[i]? = some c → Grown c c' →
      Grown n (n.setChildren (n.children.set i c'))
  | trans {n n' n'' : Node} : Grown n n' → Grown n' n'' → Grown n n''

/-- The walk leaves the records of the nodes it passes. -/
theorem Grown.record {n n' : Node} (h : Grown n n') : SameRecord n n' := by
  induction h with
  | refl n => exact .refl n
  | expand table _ => simp [SameRecord, Kxo.expand]
  | child _ _ _ => simp [SameRecord]
  | trans _ _ ih ih' =>
    exact ⟨ih'.1.trans ih.1, ih'.2.1.trans ih.2.1, ih'.2.2.1.trans ih.2.2.1,
      ih'.2.2.2.trans ih.2.2.2⟩

/-- Where a walk from `node`, standing for `table`, ends: at a finished board, or with a playout
from a node not visited before. -/
def WalkEnd (table : U32) (rng : StateArray) (p : Playout) : Prop :=
  ∃ t leaf, p.tree.reach table p.path = some (t, leaf) ∧
    (checkWin t ≠ cellEmpty ∨ checkWin t = cellEmpty ∧ leaf.nVisits = 0 ∧
      simulate t leaf.player rng = some (p.score, p.win, p.info.xoroObj))

/-- What the inner loop makes of its tree, and how it counts the nodes it adds. -/
structure WalkSpec (table : U32) (node : Node) (info : MctsInfo) (p : Playout) : Prop where
  grown : Grown node p.tree
  count : p.info.nrActiveNodes + node.size = info.nrActiveNodes + p.tree.size
  ends : WalkEnd table info.xoroObj p

/-- The node the selection runs on: expanded if it had no children. -/
theorem grown_ready (node : Node) (table : U32) :
    Grown node (if node.children = [] then Kxo.expand node table else (node, 0)).1 ∧
      (if node.children = [] then Kxo.expand node table else (node, 0)).1.size =
        node.size + (if node.children = [] then Kxo.expand node table else (node, 0)).2 := by
  split
  case isTrue hnil => exact ⟨.expand table hnil, size_expand hnil table⟩
  case isFalse => exact ⟨.refl _, rfl⟩

/-- The walk, by induction on its fuel: it ends at a leaf, the nodes on the way are those of the
path, and the tree has only grown. -/
theorem descend_walk (fuel : Nat) {node : Node} {table : U32} {info : MctsInfo} {p : Playout}
    (h : descend fuel node table info = .leaf p) : WalkSpec table node info p := by
  induction fuel generalizing node table info p with
  | zero => cases h
  | succ fuel ih =>
    rw [descend] at h
    by_cases hwin : checkWin table = cellEmpty
    case neg =>
      simp only [ne_eq, hwin, not_false_eq_true, if_true, Walk.leaf.injEq] at h
      subst h
      exact ⟨.refl _, rfl, table, node, rfl, .inl hwin⟩
    case pos =>
      simp only [ne_eq, hwin, not_true_eq_false, if_false] at h
      -- a node never visited is where the walk ends
      by_cases hfresh : node.nVisits = 0
      · simp only [if_pos hfresh] at h
        split at h
        case h_1 => cases h
        case h_2 score win rng hsim =>
          simp only [Walk.leaf.injEq] at h
          subst h
          exact ⟨.refl _, rfl, table, node, rfl, .inr ⟨hwin, hfresh, hsim⟩⟩
      · simp only [if_neg hfresh] at h
        -- else the node has children now, as many as were added
        have hready := grown_ready node table
        generalize (if node.children = [] then Kxo.expand node table else (node, 0)) = ready at *
        obtain ⟨ready, added⟩ := ready
        dsimp only at hready h
        split at h
        case h_1 => cases h
        case h_2 i _ =>
          split at h
          case h_1 => cases h
          case h_2 c hc =>
            split at h
            case h_1 => cases h
            case h_2 => cases h
            case h_3 p' hp' =>
              simp only [Walk.leaf.injEq] at h
              subst h
              -- the walk went on into a child, which grew
              obtain ⟨hgrown, hcount, t, leaf, hreach, hend⟩ := ih hp'
              have hget : (ready.setChildren (ready.children.set i p'.tree)).children[i]? =
                  some p'.tree := by
                obtain ⟨hi, _⟩ := List.getElem?_eq_some_iff.mp hc
                simp [hi]
              obtain ⟨hmove, hplayer, _⟩ := hgrown.record
              refine ⟨hready.1.trans (.child hc hgrown), ?_, t, leaf, ?_, hend⟩
              · have hsize := Node.size_setChild hc p'.tree
                dsimp only at hcount ⊢
                omega
              · rw [Node.reach, hget, Option.bind_some, hmove, hplayer]
                exact hreach

/-! ## Conservation

At a visited node of an open board: score equals first playout plus what the children gave away.
`first` says which scores may have been the first playout of the node at a path; it is a parameter,
so that a subtree has the same invariant with the path shifted. -/

/-- What holds of a node that stands for the board `table`, and of all below it: a visited node on
an open board has the score of its first playout, which `first` tells for each path, and what its
children gave away. -/
inductive Conserved : (List Nat → Nat → Prop) → U32 → Node → Prop where
  | node {first : List Nat → Nat → Prop} {table : U32} {n : Node} :
      (checkWin table = cellEmpty → n.nVisits ≠ 0 →
        ∃ r, first [] r ∧ n.score = r + givenAway n.children) →
      (∀ i c, n.children[i]? = some c → Conserved (fun q => first (i :: q))
        (valSetCell table c.move.toNat c.player.opp.cell) c) →
      Conserved first table n

namespace Conserved

variable {first first' : List Nat → Nat → Prop} {table : U32} {n n' c c' : Node} {i : Nat}

/-- The equation at a visited node of an open board. -/
theorem sum (h : Conserved first table n) (hopen : checkWin table = cellEmpty)
    (hvisited : n.nVisits ≠ 0) : ∃ r, first [] r ∧ n.score = r + givenAway n.children := by
  cases h with
  | node hsum _ => exact hsum hopen hvisited

/-- The equations of a child, with its own first playouts. -/
theorem child (h : Conserved first table n) (hc : n.children[i]? = some c) :
    Conserved (fun q => first (i :: q)) (valSetCell table c.move.toNat c.player.opp.cell) c := by
  cases h with
  | node _ hchild => exact hchild i c hc

/-- A node that was not visited has none. -/
theorem newNode (first : List Nat → Nat → Prop) (table : U32) (move : Int) (player : Player) :
    Conserved first table (Kxo.newNode move player) :=
  .node (fun _ hvisited => absurd rfl hvisited) fun _ _ hc => by simp [Kxo.newNode] at hc

/-- More first playouts may be known later. -/
theorem mono (h : Conserved first table n) (hfirst : ∀ q r, first q r → first' q r) :
    Conserved first' table n := by
  induction h generalizing first' with
  | node hsum _ ih =>
    refine .node (fun hopen hvisited => ?_) fun i c hc => ih i c hc fun q => hfirst (i :: q)
    obtain ⟨r, hr, hscore⟩ := hsum hopen hvisited
    exact ⟨r, hfirst [] r hr, hscore⟩

/-- A node with the children and the record of another. -/
theorem of_children (h : Conserved first table n)
    (hsum : checkWin table = cellEmpty → n'.nVisits ≠ 0 →
      ∃ r, first [] r ∧ n'.score = r + givenAway n'.children)
    (hchildren : n'.children = n.children) : Conserved first table n' :=
  .node hsum fun i c hc => by
    rw [hchildren] at hc
    exact h.child hc

/-- Replacing a child by one with the same move and player. -/
theorem setChild (h : Conserved first table n) (hc : n.children[i]? = some c)
    (hmove : c'.move = c.move) (hplayer : c'.player = c.player)
    (hc' : Conserved (fun q => first (i :: q))
      (valSetCell table c.move.toNat c.player.opp.cell) c')
    (hchildren : n'.children = n.children.set i c')
    (hsum : checkWin table = cellEmpty → n'.nVisits ≠ 0 →
      ∃ r, first [] r ∧ n'.score = r + givenAway n'.children) : Conserved first table n' := by
  refine .node hsum fun j d hd => ?_
  rw [hchildren, List.getElem?_set] at hd
  by_cases hij : i = j
  · subst hij
    obtain ⟨hi, _⟩ := List.getElem?_eq_some_iff.mp hc
    simp only [if_true, hi, Option.some.injEq] at hd
    subst hd
    rw [hmove, hplayer]
    exact hc'
  · rw [if_neg hij] at hd
    exact h.child hd

/-- **The walk conserves**: fresh nodes count for nothing. -/
theorem grown (hgrown : Grown n n') (h : Conserved first table n) : Conserved first table n' := by
  induction hgrown generalizing first table with
  | refl => exact h
  | trans _ _ ih ih' => exact ih' (ih h)
  | @expand n board hleaf =>
    refine .node (fun hopen hvisited => ?_) fun i c hc => ?_
    · obtain ⟨r, hr, hscore⟩ := h.sum hopen (by simpa [Kxo.expand] using hvisited)
      refine ⟨r, hr, ?_⟩
      have hzero : givenAway (Kxo.expand n board).1.children = 0 := by
        simp [givenAway, children_expand, Kxo.newNode, Function.comp_def]
      have hnil : givenAway n.children = 0 := by
        rw [hleaf]
        rfl
      rw [hzero, ← hnil, ← hscore]
      simp [Kxo.expand]
    · rw [children_expand, List.getElem?_map] at hc
      obtain ⟨m, _, rfl⟩ := Option.map_eq_some_iff.mp hc
      exact newNode _ _ _ _
  | @child n c c' i hc hgrown ih =>
    obtain ⟨hmove, hplayer, hvisits, hscore⟩ := hgrown.record
    refine h.setChild hc hmove hplayer (ih (h.child hc)) (Node.children_setChildren _ _) ?_
    intro hopen hvisited
    rw [Node.nVisits_setChildren] at hvisited
    obtain ⟨r, hr, hsum⟩ := h.sum hopen hvisited
    have haway := givenAway_set hc c'
    rw [hvisits, hscore] at haway
    exact ⟨r, hr, by rw [Node.score_setChildren, Node.children_setChildren]; omega⟩

end Conserved

/-! ## `backpropagate`

Along the path each node is credited with the complement of what the next one is credited with, so
both sides of its equation grow by the same. At the end of the path the equation begins to hold. -/

/-- `backpropagate` makes no nodes. -/
theorem size_backpropagate (path : List Nat) (n : Node) (score : Nat) :
    (backpropagate n path score).1.size = n.size := by
  induction path generalizing n with
  | nil => exact Node.size_credit n score
  | cons i path ih =>
    rw [backpropagate]
    cases hc : n.children[i]? with
    | none => rfl
    | some c =>
      have hsize := Node.size_setChild hc (backpropagate c path score).1
      rw [ih c] at hsize
      simp only [Node.size_credit]
      omega

/-- The board of a child, from either side of the move. -/
theorem NodeInv.childBoard {table : U32} {n c : Node} {i : Nat} (h : NodeInv table n)
    (hc : n.children[i]? = some c) :
    NodeInv (valSetCell table c.move.toNat c.player.opp.cell) c := by
  obtain ⟨_, hplayer, hinv, _⟩ := h.child hc
  rw [hplayer, Player.opp_opp]
  exact hinv

/-- What a path ending at a node of the tree credits to its start, and hands on. -/
theorem backpropagate_credit {table t : U32} {n leaf : Node} {path : List Nat} {score : Nat}
    (hreach : n.reach table path = some (t, leaf)) (h : NodeInv table n)
    (hmax : n.nVisits ≤ iterations) (hs : score ≤ fixedOne) :
    (backpropagate n path score).1.move = n.move ∧
      (backpropagate n path score).1.player = n.player ∧
      (backpropagate n path score).1.nVisits = n.nVisits + 1 ∧
      (backpropagate n path score).1.score + (backpropagate n path score).2 =
        n.score + fixedOne ∧
      (backpropagate n path score).2 ≤ fixedOne := by
  -- a score credited never wraps, and its complement is handed on
  have hstep : ∀ (v u : Nat), v ≤ iterations * fixedOne → u ≤ fixedOne →
      (v + u) % 2 ^ 64 + fixedSub fixedOne u = v + fixedOne ∧ fixedSub fixedOne u ≤ fixedOne := by
    intro v u hv hu
    have hbound : iterations * fixedOne + fixedOne < 2 ^ 64 := by decide
    rw [Nat.mod_eq_of_lt (by omega), fixedSub_fixedOne_le hu]
    omega
  have hroom : ∀ {table : U32} {n : Node}, NodeInv table n → n.nVisits ≤ iterations →
      n.score ≤ iterations * fixedOne := fun h hmax =>
    h.score_le.trans (Nat.mul_le_mul_right _ hmax)
  induction path generalizing n table with
  | nil =>
    obtain ⟨hsum, hup⟩ := hstep n.score score (hroom h hmax) hs
    exact ⟨by simp [backpropagate], by simp [backpropagate], by simp [backpropagate],
      by simpa [backpropagate] using hsum, hup⟩
  | cons i path ih =>
    rw [Node.reach] at hreach
    cases hc : n.children[i]? with
    | none => simp [hc] at hreach
    | some c =>
      rw [hc, Option.bind_some] at hreach
      obtain ⟨_, _, _, hlt⟩ := h.child hc
      obtain ⟨_, _, _, _, hup⟩ := ih hreach (h.childBoard hc) (by omega)
      obtain ⟨hsum, hup'⟩ := hstep n.score _ (hroom h hmax) hup
      rw [backpropagate]
      simp only [hc]
      exact ⟨by simp, by simp, by simp, by simpa using hsum, hup'⟩

/-- A node never visited has no score, and no children. -/
theorem NodeInv.fresh {table : U32} {n : Node} (hinv : NodeInv table n) (hfresh : n.nVisits = 0) :
    n.score = 0 ∧ n.children = [] := by
  constructor
  · have hscore := hinv.score_le
    rw [hfresh] at hscore
    omega
  · cases hinv with
    | bare => rfl
    | expanded _ _ hvisits => simp [hvisits] at hfresh

/-- What is added to a node is what its child passes up. -/
theorem score_backpropagate_cons {table t : U32} {n c leaf : Node} {i : Nat} {path : List Nat}
    {score : Nat} (hc : n.children[i]? = some c)
    (hreach : n.reach table (i :: path) = some (t, leaf)) (hinv : NodeInv table n)
    (hmax : n.nVisits ≤ iterations) (hs : score ≤ fixedOne)
    (hup : (Kxo.backpropagate c path score).2 ≤ fixedOne) :
    (Kxo.backpropagate n (i :: path) score).1.score =
      n.score + (Kxo.backpropagate c path score).2 := by
  obtain ⟨_, _, _, hnsum, _⟩ := backpropagate_credit hreach hinv hmax hs
  have hpass : (Kxo.backpropagate n (i :: path) score).2 =
      fixedSub fixedOne (Kxo.backpropagate c path score).2 := by
    simp only [Kxo.backpropagate, hc]
  rw [hpass, fixedSub_fixedOne_le hup] at hnsum
  omega

/-- **`backpropagate` conserves.** At the leaf, unless its board is finished, the score is that of
the node's first playout; above it, what is added to a node is the complement of what is added to
its child. -/
theorem Conserved.backpropagate {first : List Nat → Nat → Prop} {table t : U32} {n leaf : Node}
    {path : List Nat} {score : Nat} (h : Conserved first table n)
    (hreach : n.reach table path = some (t, leaf)) (hinv : NodeInv table n)
    (hmax : n.nVisits ≤ iterations) (hs : score ≤ fixedOne)
    (hleaf : checkWin t = cellEmpty → leaf.nVisits = 0) :
    Conserved (fun q r => first q r ∨ checkWin t = cellEmpty ∧ q = path ∧ r = score) table
      (Kxo.backpropagate n path score).1 := by
  induction path generalizing n table first with
  | nil =>
    simp only [Node.reach, Option.some.injEq, Prod.mk.injEq] at hreach
    obtain ⟨rfl, rfl⟩ := hreach
    refine (h.mono fun q r => .inl).of_children ?_ (by simp [Kxo.backpropagate])
    intro hopen _
    obtain ⟨hzero, hnil⟩ := hinv.fresh (hleaf hopen)
    refine ⟨score, .inr ⟨hopen, rfl, rfl⟩, ?_⟩
    have hbound : fixedOne < 2 ^ 64 := by decide
    simp only [Kxo.backpropagate, Node.score_credit, Node.children_credit, hnil, hzero,
      Nat.zero_add]
    rw [Nat.mod_eq_of_lt (by omega)]
    rfl
  | cons i path ih =>
    have hreachn := hreach
    rw [Node.reach] at hreach
    cases hc : n.children[i]? with
    | none => simp [hc] at hreach
    | some c =>
      rw [hc, Option.bind_some] at hreach
      obtain ⟨_, _, _, hlt⟩ := hinv.child hc
      have hcinv := hinv.childBoard hc
      have hchild := ih (h.child hc) hreach hcinv (by omega)
      obtain ⟨hmove, hplayer, hvisits, hsum, hup⟩ :=
        backpropagate_credit hreach hcinv (by omega) hs
      have hscore := score_backpropagate_cons hc hreachn hinv hmax hs hup
      have hchildren : (Kxo.backpropagate n (i :: path) score).1.children =
          n.children.set i (Kxo.backpropagate c path score).1 := by
        simp [Kxo.backpropagate, hc]
      refine (h.mono fun q r => .inl).setChild hc hmove hplayer
        (hchild.mono fun q r hr => ?_) hchildren fun hopen _ => ?_
      · rcases hr with hr | ⟨hopen, rfl, rfl⟩
        · exact .inl hr
        · exact .inr ⟨hopen, rfl, rfl⟩
      · obtain ⟨r, hr, hold⟩ := h.sum hopen (by omega)
        refine ⟨r, .inl hr, ?_⟩
        rw [hscore, hchildren, hold]
        -- the child's score and its complement grow together
        have haway := givenAway_set hc (Kxo.backpropagate c path score).1
        have hcle := hcinv.score_le
        have hmul : (Kxo.backpropagate c path score).1.nVisits * fixedOne =
            c.nVisits * fixedOne + fixedOne := by
          rw [hvisits, Nat.succ_mul]
        omega

/-! ## The iterations

`FirstPlayout` reads the first playout of a path off the run itself: the iteration in which the walk
ended there for the first time. -/

/-- In one of the first `k` iterations the node at the end of path `q` was visited for the first
time, on an open board, and its playout scored `r`. -/
def FirstPlayout (table : U32) (player : Player) (info : MctsInfo) (k : Nat) (q : List Nat)
    (r : Nat) : Prop :=
  ∃ j root info' p t leaf, j < k ∧ TreeAfter table player info j root info' ∧
    selectLeaf root table info' = .leaf p ∧ p.path = q ∧
    p.tree.reach table q = some (t, leaf) ∧ checkWin t = cellEmpty ∧ leaf.nVisits = 0 ∧
    p.score = r ∧ simulate t leaf.player info'.xoroObj = some (r, p.win, p.info.xoroObj)

section Iterations

variable {table : U32} {player : Player} {info info' : MctsInfo} {k : Nat} {root : Node}

/-- What was a first playout after `k` iterations is one after the next. -/
theorem FirstPlayout.succ {q : List Nat} {r : Nat} (h : FirstPlayout table player info k q r) :
    FirstPlayout table player info (k + 1) q r := by
  obtain ⟨j, root, info', p, t, leaf, hj, hrest⟩ := h
  exact ⟨j, root, info', p, t, leaf, by omega, hrest⟩

/-- A playout is worth at most one. -/
theorem FirstPlayout.le_fixedOne {q : List Nat} {r : Nat}
    (h : FirstPlayout table player info k q r) (hk : k ≤ iterations) : r ≤ fixedOne := by
  obtain ⟨j, root, info', p, t, leaf, hj, htree, hwalk, _, _, _, _, rfl, _⟩ := h
  have hiter : iterations ≤ 2 ^ 31 := by decide
  exact (htree.descendSpec (by omega) hwalk).score_le

/-- **Every iteration conserves**, and counts the nodes it adds. -/
theorem TreeAfter.conserved (h : TreeAfter table player info k root info') (hk : k ≤ iterations) :
    Conserved (FirstPlayout table player info k) table root ∧
      info'.nrActiveNodes = root.size := by
  induction h with
  | zero => exact ⟨.newNode _ _ _ _, rfl⟩
  | @succ k root info' p htree hwalk ih =>
    obtain ⟨hcons, hsize⟩ := ih (by omega)
    have hiter : iterations ≤ 2 ^ 31 := by decide
    obtain ⟨_, hvisits, _⟩ := htree.spec (by omega)
    have hspec := htree.descendSpec (by omega) hwalk
    obtain ⟨hgrown, hcount, t, leaf, hreach, hend⟩ := descend_walk _ hwalk
    refine ⟨?_, ?_⟩
    · have hback := (hcons.grown hgrown).backpropagate hreach hspec.inv
        (by rw [hspec.record.2.2.1]; omega) hspec.score_le
        fun hopen => (hend.resolve_left (not_not.mpr hopen)).2.1
      refine hback.mono fun q r hr => ?_
      rcases hr with hr | ⟨hopen, rfl, rfl⟩
      · exact hr.succ
      · obtain ⟨_, hfresh, hsim⟩ := hend.resolve_left (not_not.mpr hopen)
        exact ⟨k, root, info', p, t, leaf, by omega, htree, hwalk, rfl, hreach, hopen, hfresh, rfl,
          hsim⟩
    · rw [Playout.backpropagated, size_backpropagate]
      omega

end Iterations

/-! ## Every node of the tree

The result at every node that a path leads to, with its board. -/

/-- The statistics of a node that stands for the board `table`; `first` tells the score of its first
playout. -/
structure Statistics (first : Nat → Prop) (table : U32) (n : Node) : Prop where
  children : n.children ≠ [] →
    n.children.map Node.move = (availableMoves table).map (fun (m : Nat) => (m : Int)) ∧
      ∀ c ∈ n.children, c.player = n.player.opp
  terminal : checkWin table ≠ cellEmpty → n.children = []
  score_le : n.score ≤ n.nVisits * fixedOne
  visits : checkWin table = cellEmpty → 1 ≤ n.nVisits → n.nVisits = 1 + totalVisits n.children
  score : checkWin table = cellEmpty → 1 ≤ n.nVisits →
    ∃ r, first r ∧ r ≤ fixedOne ∧ n.score = r + givenAway n.children

/-- The two invariants together give the statistics of a node. -/
theorem NodeInv.statistics {first : List Nat → Nat → Prop} {table : U32} {n : Node}
    (h : NodeInv table n) (hcons : Conserved first table n)
    (hfirst : ∀ q r, first q r → r ≤ fixedOne) : Statistics (first []) table n where
  children hne := by
    cases h with
    | bare => exact absurd rfl hne
    | expanded _ _ _ hmoves hplayers _ => exact ⟨hmoves, hplayers⟩
  terminal := h.children_eq_nil
  score_le := h.score_le
  visits hopen hvisited := by
    cases h with
    | bare _ hone =>
      have hone := hone hopen
      simp only [Node.nVisits_mk, Node.children_mk] at hvisited ⊢
      simp only [totalVisits, List.map_nil, List.sum_nil]
      omega
    | expanded _ _ hvisits _ _ _ =>
      simp only [Node.nVisits_mk, Node.children_mk]
      omega
  score hopen hvisited := by
    obtain ⟨r, hr, hscore⟩ := hcons.sum hopen (by omega)
    exact ⟨r, hr, hfirst [] r hr, hscore⟩

/-- The statistics of a tree are those of the nodes on every path. -/
theorem NodeInv.statistics_reach {first : List Nat → Nat → Prop} {table : U32} {n : Node}
    (h : NodeInv table n) (hcons : Conserved first table n)
    (hfirst : ∀ q r, first q r → r ≤ fixedOne) {q : List Nat} {t : U32} {m : Node}
    (hreach : n.reach table q = some (t, m)) : Statistics (first q) t m := by
  induction q generalizing n table first with
  | nil =>
    simp only [Node.reach, Option.some.injEq, Prod.mk.injEq] at hreach
    obtain ⟨rfl, rfl⟩ := hreach
    exact h.statistics hcons hfirst
  | cons i q ih =>
    rw [Node.reach] at hreach
    cases hc : n.children[i]? with
    | none => simp [hc] at hreach
    | some c =>
      rw [hc, Option.bind_some] at hreach
      exact ih (h.childBoard hc) (hcons.child hc) (fun q => hfirst (i :: q)) hreach

/-- Every iteration completes. -/
theorem treeAfter_exists (table : U32) (player : Player) (info : MctsInfo) {k : Nat}
    (hk : k ≤ iterations) : ∃ root info', TreeAfter table player info k root info' := by
  induction k with
  | zero => exact ⟨_, _, .zero⟩
  | succ k ih =>
    obtain ⟨root, info', h⟩ := ih (by omega)
    have hiter : iterations ≤ 2 ^ 31 := by decide
    obtain ⟨p, hp, _⟩ := h.exists_leaf (by omega)
    exact ⟨_, _, h.succ hp⟩

/-- **Conservation.** After each number `k` of iterations of `mcts` the root has `k` visits,
`nr_active_nodes` is the number of nodes of the tree, and every node of it has the statistics of the
board the inner loop reaches it with: one child for each empty cell or none, a score of at most one
a visit, and on an open board the visits and the score that its first playout and its children
account for. -/
theorem mcts_conservation (table : U32) (player : Player) (info : MctsInfo) {k : Nat}
    (hk : k ≤ iterations) :
    (∃ root info', TreeAfter table player info k root info') ∧
      ∀ root info', TreeAfter table player info k root info' →
        root.nVisits = k ∧ info'.nrActiveNodes = root.size ∧
          ∀ q t n, root.reach table q = some (t, n) →
            Statistics (FirstPlayout table player info k q) t n := by
  refine ⟨treeAfter_exists table player info hk, fun root info' h => ?_⟩
  have hiter : iterations ≤ 2 ^ 31 := by decide
  obtain ⟨hinv, hvisits, _⟩ := h.spec (by omega)
  obtain ⟨hcons, hsize⟩ := h.conserved hk
  exact ⟨hvisits, hsize, fun q t n hreach =>
    hinv.statistics_reach hcons (fun _ _ hr => hr.le_fixedOne hk) hreach⟩

/-- A whole search of the empty board. -/
theorem mcts_conservation_start :
    (∃ root info', TreeAfter 0 .o mctsInit iterations root info') ∧
      ∀ root info', TreeAfter 0 .o mctsInit iterations root info' →
        root.nVisits = iterations ∧ info'.nrActiveNodes = root.size ∧
          ∀ q t n, root.reach 0 q = some (t, n) →
            Statistics (FirstPlayout 0 .o mctsInit iterations q) t n :=
  mcts_conservation 0 .o mctsInit (Nat.le_refl _)

end Kxo
