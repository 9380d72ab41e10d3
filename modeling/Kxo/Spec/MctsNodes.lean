import Kxo.Spec.Mcts
import Mathlib.Data.Finmap

/-!
# Kxo — the nodes of MCTS in memory (`src/mcts.c`)

`struct node` with its pointers, as `mcts` allocates, links, follows and frees it; any `kzalloc` of
a node may fail. `none` stands for what has no behaviour: following `NULL` or a pointer to memory
that is not a node, freeing such memory, or a loop that does not come to its end.

The array that `available_moves` returns is a list here: it is freed where it is used, and the code
relies on getting it.
-/

namespace Kxo.InMemory

/-! ## Memory -/

/-- An address; `NULL` is the `none` of `Option Ptr`. -/
abbrev Ptr := Nat

/-- `struct node`; `children` is used below `N_GRIDS`. -/
structure NodeCell where
  move : Int
  player : Player
  nVisits : Nat
  score : Nat
  parent : Option Ptr
  children : Nat → Option Ptr

/-- The nodes allocated, at their addresses. -/
abbrev Nodes := Finmap fun _ : Ptr => NodeCell

/-- The nodes, and how often `kzalloc` has been called. -/
structure Memory where
  nodes : Nodes
  calls : Nat

/-- `kzalloc`: whether its `n`-th call succeeds, and the free address it then returns. -/
structure Kzalloc where
  ok : Nat → Bool
  address : Nat → Nodes → Ptr
  free : ∀ n nodes, address n nodes ∉ nodes

def kfree (node : Ptr) (h : Nodes) : Option Nodes := if node ∈ h then some (h.erase node) else none

/-! ## The functions of `mcts.c` -/

/-- `new_node`. -/
def newNode (K : Kzalloc) (move : Int) (player : Player) (parent : Option Ptr) (m : Memory) :
    Option Ptr × Memory :=
  if K.ok m.calls then
    let node := K.address m.calls m.nodes
    (some node, ⟨m.nodes.insert node ⟨move, player, 0, 0, parent, fun _ => none⟩, m.calls + 1⟩)
  else (none, { m with calls := m.calls + 1 })

/-- The loop of `free_node`, `k` children to go from child `i` on. -/
def freeLoop (freeNode : Ptr → Nodes → Option Nodes) (node : Ptr) :
    Nat → Nat → Nodes → Option Nodes
  | 0, _, h => some h
  | k + 1, i, h => do
      let n ← h.lookup node
      match n.children i with
      | some child => freeLoop freeNode node k (i + 1) (← freeNode child h)
      | none => freeLoop freeNode node k (i + 1) h

/-- `free_node`, by recursion on the depth. -/
def freeNode : Nat → Ptr → Nodes → Option Nodes
  | 0, _, _ => none
  | depth + 1, node, h => do kfree node (← freeLoop (freeNode depth) node nGrids 0 h)

/-- The loop of `select_move`. -/
def selectLoop (node : Ptr) (h : Nodes) : Nat → Nat → Nat → Option Ptr → Option (Option Ptr)
  | 0, _, _, bestNode => some bestNode
  | k + 1, i, bestScore, bestNode => do
      let n ← h.lookup node
      match n.children i with
      | none => selectLoop node h k (i + 1) bestScore bestNode
      | some child =>
          let c ← h.lookup child
          let score := uctScore n.nVisits c.nVisits c.score
          if bestScore < score then selectLoop node h k (i + 1) score (some child)
          else selectLoop node h k (i + 1) bestScore bestNode

def selectMove (node : Ptr) (h : Nodes) : Option (Option Ptr) := selectLoop node h nGrids 0 0 none

/-- `backpropagate`, by recursion on the nodes to go. -/
def backpropagate : Nat → Option Ptr → Nat → Nodes → Option Nodes
  | _, none, _, h => some h
  | 0, some _, _, _ => none
  | fuel + 1, some node, score, h => do
      let n ← h.lookup node
      let h := h.insert node
        { n with nVisits := n.nVisits + 1, score := (n.score + score) % 2 ^ 64 }
      backpropagate fuel n.parent (fixedSub fixedOne score) h

/-- `node->children[i] = child`. -/
def setChild (node : Ptr) (i : Nat) (child : Option Ptr) (h : Nodes) : Option Nodes := do
  let n ← h.lookup node
  return h.insert node { n with children := Function.update n.children i child }

/-- The loop of `expand`: the number of children it leaves. -/
def expandLoop (K : Kzalloc) (node : Ptr) : List Nat → Nat → Memory → Option (Nat × Memory)
  | [], i, m => some (i, m)
  | move :: rest, i, m => do
      let n ← m.nodes.lookup node
      let (child, m) := newNode K move n.player.opp (some node) m
      let nodes ← setChild node i child m.nodes
      match child with
      | none => return (i, { m with nodes })
      | some _ => expandLoop K node rest (i + 1) { m with nodes }

def expand (K : Kzalloc) (node : Ptr) (table : U32) (m : Memory) : Option (Nat × Memory) :=
  expandLoop K node (availableMoves table) 0 m

/-- The call of `expand` in `mcts`, on a node without a first child. -/
def expandLeaf (K : Kzalloc) (node : Ptr) (table : U32) (m : Memory) : Option (Nat × Memory) := do
  let n ← m.nodes.lookup node
  if n.children 0 = none then expand K node table m else return (0, m)

/-- What the inner loop of `mcts` ends with: a `NULL` selection, or a leaf and the score it starts
`backpropagate` with. -/
inductive Walk where
  | null
  | leaf (node : Ptr) (score : Nat)

/-- The inner loop of `mcts`, up to its call of `backpropagate`. -/
def descend (K : Kzalloc) : Nat → Ptr → U32 → MctsInfo → Memory →
    Option (Walk × MctsInfo × Memory)
  | 0, _, _, _, _ => none
  | fuel + 1, node, table, info, m => do
      let n ← m.nodes.lookup node
      if checkWin table ≠ cellEmpty then
        return (.leaf node (calculateWinValue (checkWin table) n.player.opp), info, m)
      else if n.nVisits = 0 then
        let (score, _, rng) ← simulate table n.player info.xoroObj
        return (.leaf node score, { info with xoroObj := rng }, m)
      else
        let (added, m) ← expandLeaf K node table m
        let info := { info with nrActiveNodes := info.nrActiveNodes + added }
        match ← selectMove node m.nodes with
        | none => return (.null, info, m)
        | some child =>
            let c ← m.nodes.lookup child
            descend K fuel child (valSetCell table c.move.toNat c.player.opp.cell) info m

/-- The loop of `mcts` over its iterations: whether a selection was `NULL`. -/
def mctsLoop (K : Kzalloc) (stop : Nat → Bool) (root : Ptr) (table : U32) :
    Nat → Nat → MctsInfo → Memory → Option (Bool × MctsInfo × Memory)
  | 0, _, info, m => some (false, info, m)
  | n + 1, i, info, m =>
      if stop i then some (false, info, m)
      else do
        let (walk, info, m) ← descend K (nGrids + 1) root table info m
        match walk with
        | .null => return (true, info, m)
        | .leaf node score =>
            let nodes ← backpropagate (nGrids + 1) (some node) score m.nodes
            mctsLoop K stop root table n (i + 1) info { m with nodes }

/-- The last loop of `mcts`: `best_node`. -/
def bestLoop (root : Ptr) (h : Nodes) : Nat → Nat → Int → Ptr → Option Ptr
  | 0, _, _, bestNode => some bestNode
  | k + 1, i, mostVisits, bestNode => do
      let n ← h.lookup root
      match n.children i with
      | none => bestLoop root h k (i + 1) mostVisits bestNode
      | some child =>
          let c ← h.lookup child
          if mostVisits < c.nVisits then bestLoop root h k (i + 1) c.nVisits child
          else bestLoop root h k (i + 1) mostVisits bestNode

/-- `mcts`. -/
def mcts (K : Kzalloc) (stop : Nat → Bool) (table : U32) (player : Player) (info : MctsInfo)
    (m : Memory) : Option (Int × MctsInfo × Memory) :=
  match newNode K (-1) player none m with
  | (none, m) => some (-1, info, m)
  | (some root, m) => do
      let (null, info, m) ←
        mctsLoop K stop root table iterations 0 { info with nrActiveNodes := 1 } m
      if null then
        let nodes ← freeNode (nGrids + 1) root m.nodes
        return (-1, info, { m with nodes })
      else
        let bestNode ← bestLoop root m.nodes nGrids 0 (-1) root
        let best ← m.nodes.lookup bestNode
        let nodes ← freeNode (nGrids + 1) root m.nodes
        return (best.move, info, { m with nodes })

end Kxo.InMemory
