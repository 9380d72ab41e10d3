import Kxo.Lib.Argmax
import Kxo.Game.Board
import Kxo.Mcts.Fixed

/-!
# Kxo — the search tree of MCTS (`src/mcts.c`)

What holds of every tree the iterations build. A node with children stands on an open board, its
children are the available moves with the other player to move, and it was visited once more than
they were together; a node without children was visited at most once, unless its board is finished.
A node's score is at most one for each of its visits.

From this the inner loop always ends at a leaf: every selection finds a child, and a line has no
more moves than the board has empty cells.

* **`NodeInv`** — the invariant, with the board that the node stands for as an index: the code does
  not keep boards in nodes, but rebuilds them on the way down.
* **`NodeInv.expand`**, **`NodeInv.setChild`** — the two ways in which a tree changes on the way
  down and back.
* **`NodeInv.rating_pos`**, **`NodeInv.selectMove`** — a node with children has one that is
  selected, because no rating is zero (`Kxo.Mcts.Fixed`).
* **`simulate_spec`** — a playout ends with the board and is worth at most one.
* **`LeafPath`** — the paths that walks take, to a finished board or to a node not visited yet.
-/

namespace Kxo

/-! ## Projections

`Node` is a nested inductive type, so its fields are functions; the simp lemmas here are what a
structure would have for free. -/

namespace Node

@[simp] theorem move_mk (m : Int) (p : Player) (v s : Nat) (cs : List Node) :
    (mk m p v s cs).move = m := rfl
@[simp] theorem player_mk (m : Int) (p : Player) (v s : Nat) (cs : List Node) :
    (mk m p v s cs).player = p := rfl
@[simp] theorem nVisits_mk (m : Int) (p : Player) (v s : Nat) (cs : List Node) :
    (mk m p v s cs).nVisits = v := rfl
@[simp] theorem score_mk (m : Int) (p : Player) (v s : Nat) (cs : List Node) :
    (mk m p v s cs).score = s := rfl
@[simp] theorem children_mk (m : Int) (p : Player) (v s : Nat) (cs : List Node) :
    (mk m p v s cs).children = cs := rfl

@[simp] theorem move_setChildren (n : Node) (cs : List Node) :
    (n.setChildren cs).move = n.move := by cases n; rfl
@[simp] theorem player_setChildren (n : Node) (cs : List Node) :
    (n.setChildren cs).player = n.player := by cases n; rfl
@[simp] theorem nVisits_setChildren (n : Node) (cs : List Node) :
    (n.setChildren cs).nVisits = n.nVisits := by cases n; rfl
@[simp] theorem score_setChildren (n : Node) (cs : List Node) :
    (n.setChildren cs).score = n.score := by cases n; rfl
@[simp] theorem children_setChildren (n : Node) (cs : List Node) :
    (n.setChildren cs).children = cs := by cases n; rfl

@[simp] theorem move_credit (n : Node) (s : Nat) : (n.credit s).move = n.move := by cases n; rfl
@[simp] theorem player_credit (n : Node) (s : Nat) : (n.credit s).player = n.player := by
  cases n; rfl
@[simp] theorem nVisits_credit (n : Node) (s : Nat) : (n.credit s).nVisits = n.nVisits + 1 := by
  cases n; rfl
@[simp] theorem score_credit (n : Node) (s : Nat) :
    (n.credit s).score = (n.score + s) % 2 ^ 64 := by cases n; rfl
@[simp] theorem children_credit (n : Node) (s : Nat) : (n.credit s).children = n.children := by
  cases n; rfl

/-- The node at the end of a path of child positions. -/
def at? : Node → List Nat → Option Node
  | n, [] => some n
  | n, i :: path => n.children[i]?.bind fun c => c.at? path

/-- The score at the end of a path: zero where there is no node yet, as in a new node. -/
def scoreAt (n : Node) (path : List Nat) : Nat := ((n.at? path).map score).getD 0

/-- The score at the end of the empty path is the node's own. -/
theorem scoreAt_nil (n : Node) : n.scoreAt [] = n.score := rfl

/-- The score along a path, from the child on. -/
theorem scoreAt_cons (n : Node) (i : Nat) (path : List Nat) :
    n.scoreAt (i :: path) = (n.children[i]?.map fun c => c.scoreAt path).getD 0 := by
  simp only [scoreAt, at?]
  cases n.children[i]? <;> rfl

end Node

/-! ## The tree invariant

The board is an index. At the root it is the table that `mcts` was called with. -/

/-- The visits of a list of children together. -/
def totalVisits (children : List Node) : Nat := (children.map Node.nVisits).sum

/-- What holds of a node that stands for the board `table`, and of all below it. -/
inductive NodeInv : U32 → Node → Prop where
  /-- A node without children. -/
  | bare {table : U32} {move : Int} {player : Player} {nVisits score : Nat} :
      score ≤ nVisits * fixedOne → (checkWin table = cellEmpty → nVisits ≤ 1) →
      NodeInv table (.mk move player nVisits score [])
  /-- A node with one child for each move. -/
  | expanded {table : U32} {move : Int} {player : Player} {nVisits score : Nat}
      {children : List Node} :
      score ≤ nVisits * fixedOne → checkWin table = cellEmpty →
      nVisits = totalVisits children + 1 →
      children.map Node.move = (availableMoves table).map (fun (m : Nat) => (m : Int)) →
      (∀ c ∈ children, c.player = player.opp) →
      (∀ c ∈ children, NodeInv (valSetCell table c.move.toNat player.cell) c) →
      NodeInv table (.mk move player nVisits score children)

namespace NodeInv

/-- At most one a visit. -/
theorem score_le {table : U32} {n : Node} (h : NodeInv table n) :
    n.score ≤ n.nVisits * fixedOne := by
  cases h <;> assumption

/-- A fresh node fits any board. -/
theorem newNode (table : U32) (move : Int) (player : Player) :
    NodeInv table (Kxo.newNode move player) :=
  .bare (Nat.zero_le _) (fun _ => Nat.zero_le _)

/-- The position of a child is one of the available moves, and its player the other one. -/
theorem child {table : U32} {n c : Node} {i : Nat} (h : NodeInv table n)
    (hc : n.children[i]? = some c) :
    (∃ m, m ∈ availableMoves table ∧ c.move = (m : Int)) ∧ c.player = n.player.opp ∧
      NodeInv (valSetCell table c.move.toNat n.player.cell) c ∧ c.nVisits < n.nVisits := by
  cases h with
  | bare => simp at hc
  | expanded _ _ hvisits hmoves hplayer hinv =>
    have hmem : c ∈ _ := List.mem_of_getElem? hc
    have hmove := List.mem_map_of_mem (f := Node.move) hmem
    simp only [Node.children_mk] at hmem hmove
    rw [hmoves, List.mem_map] at hmove
    obtain ⟨m, hm, hcm⟩ := hmove
    -- the parent counts its own first visit besides its children's
    have hle : c.nVisits ≤ totalVisits _ :=
      List.single_le_sum (fun _ _ => Nat.zero_le _) _ (List.mem_map_of_mem (f := Node.nVisits) hmem)
    refine ⟨⟨m, hm, hcm.symm⟩, hplayer c hmem, hinv c hmem, ?_⟩
    simp only [Node.nVisits_mk]
    omega

end NodeInv

/-! ## Expansion

`expand` makes a child for each available move, in order. -/

/-- The children after an expansion: one for each available move, with the opponent to move. -/
theorem children_expand (node : Node) (table : U32) :
    (expand node table).1.children =
      (availableMoves table).map fun (m : Nat) => newNode m node.player.opp := by
  simp [expand]

/-- A node visited once on an open board may be expanded. -/
theorem NodeInv.expand {table : U32} {n : Node} (h : NodeInv table n) (hleaf : n.children = [])
    (hopen : checkWin table = cellEmpty) (hvisited : n.nVisits ≠ 0) :
    NodeInv table (Kxo.expand n table).1 := by
  cases h with
  | expanded _ _ hvisits hmoves _ _ =>
    -- a node with children has as many as there are moves, so it has some
    simp only [Node.children_mk] at hleaf
    subst hleaf
    have hnil := availableMoves_ne_nil hopen
    simp at hmoves
    exact absurd hmoves.symm (by simpa using hnil)
  | @bare _ move player nVisits score hscore hone =>
    have hone := hone hopen
    simp only [Node.nVisits_mk] at hvisited
    simp only [Kxo.expand, Node.player_mk, Node.setChildren]
    refine .expanded hscore hopen ?_ ?_ ?_ ?_
    · have hzero : totalVisits ((availableMoves table).map
          fun (m : Nat) => Kxo.newNode m player.opp) = 0 := by
        simp [totalVisits, List.map_map, Function.comp_def, Kxo.newNode]
      omega
    · simp [List.map_map, Function.comp_def, Kxo.newNode]
    · intro c hc
      obtain ⟨m, _, rfl⟩ := List.mem_map.mp hc
      rfl
    · intro c hc
      obtain ⟨m, _, rfl⟩ := List.mem_map.mp hc
      exact .newNode _ _ _

/-- A new node has no score anywhere. -/
theorem scoreAt_newNode (move : Int) (player : Player) (path : List Nat) :
    (newNode move player).scoreAt path = 0 := by
  cases path with
  | nil => rfl
  | cons i path => rw [Node.scoreAt_cons]; simp [newNode]

/-- Expansion adds nodes with no score. -/
theorem scoreAt_expand {node : Node} (hleaf : node.children = []) (table : U32) (path : List Nat) :
    (expand node table).1.scoreAt path = node.scoreAt path := by
  cases path with
  | nil => simp [Node.scoreAt_nil, expand]
  | cons i path =>
    rw [Node.scoreAt_cons, Node.scoreAt_cons, children_expand, hleaf, List.getElem?_map]
    cases (availableMoves table)[i]? with
    | none => rfl
    | some m => simp [scoreAt_newNode]

/-! ## Selection

`select_move` is an `Argmax.scan` with a strict comparison from zero on, so it finds something as
soon as one rating is positive. -/

/-- The rating `select_move` compares. -/
def Node.rating (n c : Node) : Nat := uctScore n.nVisits c.nVisits c.score

/-- The loop of `select_move` is a scan for the largest rating. -/
theorem selectLoop_eq_scan (n : Node) (children : List Node) (i bestScore : Nat)
    (best : Option Nat) :
    selectLoop n.nVisits children i bestScore best =
      Argmax.scan n.rating children i bestScore best := by
  induction children generalizing i bestScore best with
  | nil => rfl
  | cons c rest ih =>
    simp only [selectLoop, Argmax.scan, ih]
    rfl

/-- Every child has a positive rating. -/
theorem NodeInv.rating_pos {table : U32} {n : Node} (h : NodeInv table n)
    (hmax : n.nVisits ≤ 2 ^ 31) {c : Node} (hc : c ∈ n.children) : 0 < n.rating c := by
  obtain ⟨i, hi⟩ := List.getElem?_of_mem hc
  obtain ⟨_, _, hinv, hlt⟩ := h.child hi
  exact uctScore_pos hlt hmax hinv.score_le

/-- **A selection at a node with children finds the first one with the greatest rating.** -/
theorem NodeInv.selectMove_firstMax {table : U32} {n : Node} (h : NodeInv table n)
    (hne : n.children ≠ []) (hmax : n.nVisits ≤ 2 ^ 31) :
    ∃ i c, Kxo.selectMove n = some i ∧ Argmax.IsFirstMax n.rating n.children i c := by
  obtain ⟨c, hc⟩ := List.exists_mem_of_ne_nil _ hne
  obtain ⟨i, d, hscan, hfirst⟩ := Argmax.exists_scan ⟨c, hc, h.rating_pos hmax hc⟩ 0 none
  rw [Nat.zero_add] at hscan
  exact ⟨i, d, (selectLoop_eq_scan n n.children 0 0 none).trans hscan, hfirst⟩

/-- It never returns `NULL`. -/
theorem NodeInv.selectMove {table : U32} {n : Node} (h : NodeInv table n) (hne : n.children ≠ [])
    (hmax : n.nVisits ≤ 2 ^ 31) :
    ∃ i c, Kxo.selectMove n = some i ∧ n.children[i]? = some c := by
  obtain ⟨i, c, hsel, hfirst⟩ := h.selectMove_firstMax hne hmax
  exact ⟨i, c, hsel, hfirst.get⟩

/-! ## The random playout

Moves are drawn until the board is finished. The number of empty cells goes down, so the loop ends;
a full board is finished. -/

/-- What a line of play can end with. -/
def IsOutcome (win : U32) : Prop := win = cellO ∨ win = cellX ∨ win = cellD

/-- A board that is not open has an outcome. -/
theorem isOutcome_of_ne {table : U32} (h : checkWin table ≠ cellEmpty) :
    IsOutcome (checkWin table) :=
  (checkWin_cases table).resolve_left h

/-- From an open board the playout reaches an outcome within as many moves as there are empty
cells. -/
theorem simulateLoop_spec (fuel : Nat) (table : U32) (player : Player) (rng : StateArray)
    (hopen : checkWin table = cellEmpty) (hfuel : (availableMoves table).length ≤ fuel) :
    ∃ win rng', simulateLoop fuel table player rng = some (some win, rng') ∧ IsOutcome win := by
  induction fuel generalizing table player rng with
  | zero => exact absurd (List.length_eq_zero_iff.mp (by omega)) (availableMoves_ne_nil hopen)
  | succ fuel ih =>
    have hne := availableMoves_ne_nil hopen
    have hlen : 0 < (availableMoves table).length := List.length_pos_of_ne_nil hne
    rw [simulateLoop]
    simp only [if_neg hne]
    set j := (xoroNext rng).1.toNat % (availableMoves table).length with hj
    have hjlt : j < (availableMoves table).length := Nat.mod_lt _ hlen
    have hmem : (availableMoves table).getD j 0 ∈ availableMoves table := by
      rw [List.getD_eq_getElem _ _ hjlt]
      exact List.getElem_mem hjlt
    -- each move uses up one empty cell, and one unit of fuel
    have hless := length_availableMoves_valSetCell hmem player.fits_cell player.cell_ne_empty
    split
    case isTrue hwin => exact ⟨_, _, rfl, isOutcome_of_ne hwin⟩
    case isFalse hwin => exact ih _ _ _ (not_not.mp hwin) (by omega)

/-- `simulate` scores the outcome of its playout for the player it is called with. -/
theorem simulate_spec {table : U32} (player : Player) (rng : StateArray)
    (hopen : checkWin table = cellEmpty) :
    ∃ win rng', simulate table player rng = some (calculateWinValue win player, some win, rng') ∧
      IsOutcome win := by
  obtain ⟨win, rng', h, hout⟩ := simulateLoop_spec (nGrids + 1) table player (xoroJump rng) hopen
    (Nat.le_succ_of_le (length_availableMoves_le table))
  exact ⟨win, rng', by simp only [simulate, h], hout⟩

/-! ## Paths to a leaf

What `backpropagate` has to know of the path that a walk has taken: it goes through open boards
only, and ends at a board that is finished or at a node that was not visited. -/

/-- A path of selections from `node`, standing for `table`, down to a leaf: a finished board, or a
node not visited yet. -/
inductive LeafPath : U32 → Node → List Nat → Prop where
  | finished {table : U32} {node : Node} :
      checkWin table ≠ cellEmpty → LeafPath table node []
  | fresh {table : U32} {node : Node} :
      checkWin table = cellEmpty → node.nVisits = 0 → LeafPath table node []
  | child {table : U32} {node c : Node} {i : Nat} {path : List Nat} :
      checkWin table = cellEmpty → node.children[i]? = some c →
      LeafPath (valSetCell table c.move.toNat node.player.cell) c path →
      LeafPath table node (i :: path)

/-- Two nodes with the same record and possibly different children. -/
def SameRecord (n n' : Node) : Prop :=
  n'.move = n.move ∧ n'.player = n.player ∧ n'.nVisits = n.nVisits ∧ n'.score = n.score

/-- A node has its own record. -/
theorem SameRecord.refl (n : Node) : SameRecord n n := ⟨rfl, rfl, rfl, rfl⟩

/-- The sum of a list in which one entry was replaced. -/
theorem sum_set {l : List Nat} {i v : Nat} (h : l[i]? = some v) (w : Nat) :
    (l.set i w).sum + v = l.sum + w := by
  induction l generalizing i with
  | nil => simp at h
  | cons x rest ih =>
    cases i with
    | zero =>
      simp only [List.getElem?_cons_zero, Option.some.injEq] at h
      simp only [List.set_cons_zero, List.sum_cons, h]
      omega
    | succ i =>
      have := ih (i := i) (by simpa using h)
      simp only [List.set_cons_succ, List.sum_cons]
      omega

/-- The visits of the children when one was replaced. -/
theorem totalVisits_set {children : List Node} {i : Nat} {c : Node} (h : children[i]? = some c)
    (c' : Node) :
    totalVisits (children.set i c') + c.nVisits = totalVisits children + c'.nVisits := by
  unfold totalVisits
  rw [List.map_set]
  exact sum_set (by simp [h]) _

/-- Replacing an element by one with the same image leaves the image of the list. -/
theorem map_set_eq {α β : Type} {l : List α} {i : Nat} {a a' : α} (f : α → β)
    (h : l[i]? = some a) (hf : f a' = f a) : (l.set i a').map f = l.map f := by
  obtain ⟨hi, rfl⟩ := List.getElem?_eq_some_iff.mp h
  rw [List.map_set, hf, ← List.map_set, List.set_getElem_self]

/-- **Replacing a child keeps the invariant**: same move and player, its own invariant, and as many
new visits below as at the node itself. -/
theorem NodeInv.setChild {table : U32} {n c c' : Node} {i s : Nat} (h : NodeInv table n)
    (hc : n.children[i]? = some c) (hmove : c'.move = c.move) (hplayer : c'.player = c.player)
    (hinv : NodeInv (valSetCell table c.move.toNat n.player.cell) c') {k : Nat}
    (hvisits : c'.nVisits = c.nVisits + k) (hs : s ≤ (n.nVisits + k) * fixedOne) :
    NodeInv table (.mk n.move n.player (n.nVisits + k) s (n.children.set i c')) := by
  cases h with
  | bare => simp at hc
  | @expanded _ move player nVisits score children _ hopen htotal hmoves hplayers hinvs =>
    simp only [Node.move_mk, Node.player_mk, Node.nVisits_mk, Node.children_mk] at *
    -- the visits below grow by the child's, as the node's own do
    have hset := totalVisits_set hc c'
    refine .expanded hs hopen (by omega) ?_ ?_ ?_
    · rw [map_set_eq Node.move hc hmove, hmoves]
    · intro d hd
      rcases List.mem_or_eq_of_mem_set hd with hd | rfl
      · exact hplayers d hd
      · rw [hplayer]
        exact hplayers c (List.mem_of_getElem? hc)
    · intro d hd
      rcases List.mem_or_eq_of_mem_set hd with hd | rfl
      · exact hinvs d hd
      · rw [hmove]
        exact hinv

end Kxo
