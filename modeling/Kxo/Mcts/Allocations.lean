import Kxo.Mcts.Search

/-!
# Kxo — MCTS without enough memory (`src/mcts.c`)

`expand` stops at the first node it cannot allocate, and a node left without children ends the
search at the next selection. Here that search runs on trees as values: `ok n` says whether the
`n`-th `kzalloc` succeeds.

* **`expandGranted`**, **`descendGranted`**, **`mctsLoopGranted`** — the search with failures. Each
  returns the number of the next call of `kzalloc`, so the calls of a search are an interval.
* **`descendGranted_all`**, **`mctsLoopGranted_all`** — where all calls of the search succeed, it is
  the search of `mcts`.
* **`LegalTree`** — what holds whatever fails: every child stands for a move that its parent's board
  allows, with the other player to move, so a line ends with the board.
* **`mctsLoopGranted_legal`**, **`LegalTree.bestMove`** — the search never runs out of fuel, keeps
  the tree legal, and the move it picks is legal.
-/

namespace Kxo

/-! ## The search

A `NULL` selection frees the tree and ends the search at once: the `null` of a walk. Fuel is counted
down with the depth; that it suffices is proved below. -/

section Search

variable (ok : Nat → Bool)

/-- How many of `k` allocations succeed before one fails, from the `n`-th call on. -/
def granted : Nat → Nat → Nat
  | _, 0 => 0
  | n, k + 1 => if ok n then granted (n + 1) k + 1 else 0

/-- The number of the call after them. -/
def callsAfter : Nat → Nat → Nat
  | n, 0 => n
  | n, k + 1 => if ok n then callsAfter (n + 1) k else n + 1

/-- `expand`: the node with the children it could make, their number, and the next call. -/
def expandGranted (node : Node) (table : U32) (n : Nat) : Node × Nat × Nat :=
  let moves := availableMoves table
  let added := granted ok n moves.length
  (node.setChildren ((moves.take added).map fun (m : Nat) => newNode m node.player.opp), added,
    callsAfter ok n moves.length)

/-- The node selected from, with the children it could be given if it had none. -/
def readyGranted (node : Node) (table : U32) (n : Nat) : Node × Nat × Nat :=
  if node.children = [] then expandGranted ok node table n else (node, 0, n)

/-- The inner loop of `mcts`: out of fuel, or a `NULL` selection or a leaf with the tree there is
then and the next call. -/
inductive GrantedWalk where
  | outOfFuel
  | null (tree : Node) (info : MctsInfo) (n : Nat)
  | leaf (playout : Playout) (n : Nat)

/-- A walk from a child on, seen from its parent. -/
def GrantedWalk.up (node : Node) (i : Nat) : GrantedWalk → GrantedWalk
  | .outOfFuel => .outOfFuel
  | .null tree info n => .null (node.setChildren (node.children.set i tree)) info n
  | .leaf playout n =>
      .leaf { playout with
        tree := node.setChildren (node.children.set i playout.tree)
        path := i :: playout.path } n

def descendGranted : Nat → Node → U32 → MctsInfo → Nat → GrantedWalk
  | 0, _, _, _, _ => .outOfFuel
  | fuel + 1, node, table, info, n =>
      let win := checkWin table
      if win ≠ cellEmpty then
        .leaf ⟨node, [], calculateWinValue win node.player.opp, some win, true, info⟩ n
      else if node.nVisits = 0 then
        match simulate table node.player info.xoroObj with
        | none => .outOfFuel
        | some (score, win, rng) =>
          .leaf ⟨node, [], score, win, false, { info with xoroObj := rng }⟩ n
      else
        let (node, added, n) := readyGranted ok node table n
        let info := { info with nrActiveNodes := info.nrActiveNodes + added }
        match selectMove node with
        | none => .null node info n
        | some i =>
            match node.children[i]? with
            | none => .null node info n
            | some child =>
                let table := valSetCell table child.move.toNat child.player.opp.cell
                (descendGranted fuel child table info n).up node i

/-- The iterations of `mcts`: whether a selection was `NULL`, and the tree. -/
def mctsLoopGranted (stop : Nat → Bool) (table : U32) :
    Nat → Nat → Node → MctsInfo → Nat → Option (Bool × Node × MctsInfo × Nat)
  | 0, _, root, info, n => some (false, root, info, n)
  | k + 1, i, root, info, n =>
      if stop i then some (false, root, info, n)
      else
        match descendGranted ok (nGrids + 1) root table info n with
        | .outOfFuel => none
        | .null tree info n => some (true, tree, info, n)
        | .leaf playout n =>
            mctsLoopGranted stop table k (i + 1) playout.backpropagated playout.info n

end Search

/-! ## The calls of a search

The number of the next call only grows, so a call made on the way lies below the number at the
end. -/

section Calls

variable {ok : Nat → Bool}

/-- The number of the next call after a walk. -/
def GrantedWalk.next : GrantedWalk → Option Nat
  | .outOfFuel => none
  | .null _ _ n => some n
  | .leaf _ n => some n

/-- Going up to the parent makes no call. -/
@[simp] theorem GrantedWalk.next_up (node : Node) (i : Nat) (walk : GrantedWalk) :
    (walk.up node i).next = walk.next := by cases walk <;> rfl

/-- An expansion makes calls in order. -/
theorem le_callsAfter (ok : Nat → Bool) (n k : Nat) : n ≤ callsAfter ok n k := by
  induction k generalizing n with
  | zero => exact Nat.le_refl n
  | succ k ih =>
    rw [callsAfter]
    split
    · exact (Nat.le_succ n).trans (ih (n + 1))
    · exact Nat.le_succ n

/-- So does what comes before a selection, which may be an expansion. -/
theorem le_readyGranted (ok : Nat → Bool) (node : Node) (table : U32) (n : Nat) :
    n ≤ (readyGranted ok node table n).2.2 := by
  rw [readyGranted]
  split
  · exact le_callsAfter ok n _
  · exact Nat.le_refl n

/-- And a walk. Induction on its fuel. -/
theorem le_descendGranted {fuel : Nat} {node : Node} {table : U32} {info : MctsInfo} {n n' : Nat}
    (h : (descendGranted ok fuel node table info n).next = some n') : n ≤ n' := by
  induction fuel generalizing node table info n with
  | zero => cases h
  | succ fuel ih =>
    rw [descendGranted] at h
    by_cases hwin : checkWin table ≠ cellEmpty
    · rw [if_pos hwin] at h
      exact (Option.some.inj h).le
    rw [if_neg hwin] at h
    by_cases hfresh : node.nVisits = 0
    · rw [if_pos hfresh] at h
      split at h
      · cases h
      · exact (Option.some.inj h).le
    rw [if_neg hfresh] at h
    have hready := le_readyGranted ok node table n
    generalize readyGranted ok node table n = ready at hready h
    obtain ⟨ready, added, n₁⟩ := ready
    refine hready.trans ?_
    dsimp only at h ⊢
    split at h
    · exact (Option.some.inj h).le
    · split at h
      · exact (Option.some.inj h).le
      · rw [GrantedWalk.next_up] at h
        exact ih h

/-- And all iterations. Induction on their number. -/
theorem le_mctsLoopGranted {stop : Nat → Bool} {table : U32} {k i n n' : Nat} {root root' : Node}
    {info info' : MctsInfo} {null : Bool}
    (h : mctsLoopGranted ok stop table k i root info n = some (null, root', info', n')) :
    n ≤ n' := by
  induction k generalizing i root info n with
  | zero =>
    cases h
    exact Nat.le_refl _
  | succ k ih =>
    rw [mctsLoopGranted] at h
    split at h
    · cases h
      exact Nat.le_refl _
    · cases hwalk : descendGranted ok (nGrids + 1) root table info n with
      | outOfFuel =>
        rw [hwalk] at h
        cases h
      | null tree info₁ n₁ =>
        rw [hwalk] at h
        cases h
        exact le_descendGranted (by rw [hwalk]; rfl)
      | leaf p n₁ =>
        rw [hwalk] at h
        exact (le_descendGranted (by rw [hwalk]; rfl)).trans (ih h)

end Calls

/-! ## Enough memory

The condition speaks of the calls of the run at hand only: from the number it starts with up to the
number it ends with. -/

section Enough

variable {ok : Nat → Bool}

/-- An expansion in which every call succeeds makes every child. -/
theorem granted_all {n k : Nat} (hok : ∀ i, n ≤ i → i < callsAfter ok n k → ok i = true) :
    granted ok n k = k := by
  induction k generalizing n with
  | zero => rfl
  | succ k ih =>
    have hn : ok n = true := by
      refine hok n (Nat.le_refl n) ?_
      rw [callsAfter]
      split
      · exact Nat.lt_of_lt_of_le (Nat.lt_succ_self n) (le_callsAfter ok (n + 1) k)
      · exact Nat.lt_succ_self n
    rw [callsAfter, if_pos hn] at hok
    rw [granted, if_pos hn, ih fun i hi => hok i (Nat.le_of_succ_le hi)]

/-- Before a selection, with enough memory: as in the search without failures. -/
theorem readyGranted_all {node : Node} {table : U32} {n : Nat}
    (hok : ∀ i, n ≤ i → i < (readyGranted ok node table n).2.2 → ok i = true) :
    readyGranted ok node table n =
      ((if node.children = [] then expand node table else (node, 0)).1,
        (if node.children = [] then expand node table else (node, 0)).2,
        (readyGranted ok node table n).2.2) := by
  by_cases hnil : node.children = []
  · simp only [readyGranted, if_pos hnil] at hok ⊢
    have hall : granted ok n (availableMoves table).length = (availableMoves table).length :=
      granted_all hok
    simp only [expandGranted, hall, List.take_length, expand]
  · simp only [readyGranted, if_neg hnil]

/-- Where its allocations are granted, a walk to a leaf is the one of `mcts`. -/
theorem descendGranted_all {fuel : Nat} {node : Node} {table : U32} {info : MctsInfo}
    {p : Playout} (h : descend fuel node table info = .leaf p) {n n' : Nat}
    (hnext : (descendGranted ok fuel node table info n).next = some n')
    (hok : ∀ i, n ≤ i → i < n' → ok i = true) :
    descendGranted ok fuel node table info n = .leaf p n' := by
  induction fuel generalizing node table info p n with
  | zero => cases h
  | succ fuel ih =>
    rw [descend] at h
    rw [descendGranted] at hnext ⊢
    by_cases hwin : checkWin table ≠ cellEmpty
    · simp only [if_pos hwin] at h hnext ⊢
      rw [Walk.leaf.inj h, Option.some.inj hnext]
    simp only [if_neg hwin] at h hnext ⊢
    by_cases hfresh : node.nVisits = 0
    · simp only [if_pos hfresh] at h hnext ⊢
      cases hsim : simulate table node.player info.xoroObj with
      | none =>
        rw [hsim] at h
        cases h
      | some r =>
        obtain ⟨score, win, rng⟩ := r
        rw [hsim] at h hnext
        rw [← Walk.leaf.inj h, ← Option.some.inj hnext]
    simp only [if_neg hfresh] at h hnext ⊢
    -- the node selected from is the same one, and its allocations are among those of the walk
    have hstart := le_readyGranted ok node table n
    have hready := @readyGranted_all ok node table n
    generalize readyGranted ok node table n = granted at hstart hready hnext ⊢
    generalize (if node.children = [] then expand node table else (node, 0)) = expanded at hready h
    obtain ⟨ready, added, n₁⟩ := granted
    obtain ⟨ready', added'⟩ := expanded
    dsimp only at hstart hready hnext h ⊢
    have hsame : n₁ ≤ n' → ready = ready' ∧ added = added' := fun hle => by
      have heq := hready fun i hi hlt => hok i hi (Nat.lt_of_lt_of_le hlt hle)
      cases heq
      exact ⟨rfl, rfl⟩
    cases hsel : selectMove ready with
    | none =>
      rw [hsel] at hnext
      obtain ⟨rfl, rfl⟩ := hsame (Option.some.inj hnext).le
      rw [hsel] at h
      cases h
    | some i =>
      rw [hsel] at hnext
      dsimp only at hnext ⊢
      cases hchild : ready.children[i]? with
      | none =>
        rw [hchild] at hnext
        obtain ⟨rfl, rfl⟩ := hsame (Option.some.inj hnext).le
        simp only [hsel, hchild] at h
        cases h
      | some child =>
        rw [hchild] at hnext
        dsimp only at hnext ⊢
        rw [GrantedWalk.next_up] at hnext
        obtain ⟨rfl, rfl⟩ := hsame (le_descendGranted hnext)
        simp only [hsel, hchild] at h
        split at h
        · cases h
        · cases h
        case h_3 playout hwalk =>
          rw [ih hwalk hnext fun j hj => hok j (hstart.trans hj), ← Walk.leaf.inj h]
          rfl

/-- The iterations, with enough memory: no selection is `NULL`, and the tree and the generator are
those of the search without failures. -/
theorem mctsLoopGranted_all {stop : Nat → Bool} {table : U32} {k i n n' : Nat}
    {root root₁ root' : Node} {info info₁ info' : MctsInfo} {null : Bool}
    (h : mctsLoop stop table k i root info = .done root' info')
    (hrun : mctsLoopGranted ok stop table k i root info n = some (null, root₁, info₁, n'))
    (hok : ∀ j, n ≤ j → j < n' → ok j = true) :
    null = false ∧ root₁ = root' ∧ info₁ = info' := by
  induction k generalizing i root info n with
  | zero =>
    cases h
    cases hrun
    exact ⟨rfl, rfl, rfl⟩
  | succ k ih =>
    rw [mctsLoop] at h
    rw [mctsLoopGranted] at hrun
    by_cases hstop : stop i
    · rw [if_pos hstop] at h hrun
      cases h
      cases hrun
      exact ⟨rfl, rfl, rfl⟩
    rw [if_neg hstop] at h hrun
    cases hwalk : selectLeaf root table info with
    | outOfFuel =>
      rw [hwalk] at h
      cases h
    | null =>
      rw [hwalk] at h
      cases h
    | leaf p =>
      rw [hwalk] at h
      -- the calls of this iteration come before those of the others
      have hleaf : ∀ n₁, n₁ ≤ n' →
          (descendGranted ok (nGrids + 1) root table info n).next = some n₁ →
          descendGranted ok (nGrids + 1) root table info n = .leaf p n₁ := fun n₁ hle hnext =>
        descendGranted_all hwalk hnext fun j hj hlt => hok j hj (Nat.lt_of_lt_of_le hlt hle)
      cases hgranted : descendGranted ok (nGrids + 1) root table info n with
      | outOfFuel =>
        rw [hgranted] at hrun
        cases hrun
      | null tree info₂ n₁ =>
        rw [hgranted] at hrun hleaf
        cases hrun
        cases hleaf _ (Nat.le_refl _) rfl
      | leaf p' n₁ =>
        rw [hgranted] at hrun hleaf
        have hle : n ≤ n₁ := le_descendGranted (by rw [hgranted]; rfl)
        cases hleaf n₁ (le_mctsLoopGranted hrun) rfl
        exact ih h hrun fun j hj => hok j (hle.trans hj)

end Enough

/-! ## Any memory

`LegalTree` is weaker than the invariant of the search without failures: children may be missing,
and the counts are not related. What is left is what termination and legality need. -/

/-- What holds of a node that stands for the board `table`, and of all below it, whatever could be
allocated: its children stand for moves on the board, the other player to move. -/
inductive LegalTree : U32 → Node → Prop where
  | mk {table : U32} {move : Int} {player : Player} {nVisits score : Nat} {children : List Node} :
      children.length ≤ nGrids →
      (∀ c ∈ children, ∃ m, m ∈ availableMoves table ∧ c.move = (m : Int)) →
      (∀ c ∈ children, c.player = player.opp) →
      (∀ c ∈ children, LegalTree (valSetCell table c.move.toNat player.cell) c) →
      LegalTree table (.mk move player nVisits score children)

namespace LegalTree

variable {table : U32} {node : Node}

/-- A new node has no children to ask about. -/
theorem newNode (table : U32) (move : Int) (player : Player) :
    LegalTree table (Kxo.newNode move player) :=
  .mk (Nat.zero_le _) (fun _ hc => nomatch hc) (fun _ hc => nomatch hc) fun _ hc => nomatch hc

/-- There are no more children than cells, so the slots of a node suffice. -/
theorem length_le (h : LegalTree table node) : node.children.length ≤ nGrids := by
  cases h with
  | mk hlen => exact hlen

/-- What is known of a child: its move, its player and its own board. -/
theorem child (h : LegalTree table node) {c : Node} (hc : c ∈ node.children) :
    (∃ m, m ∈ availableMoves table ∧ c.move = (m : Int)) ∧ c.player = node.player.opp ∧
      LegalTree (valSetCell table c.move.toNat node.player.cell) c := by
  cases h with
  | mk _ hmoves hplayers hchildren => exact ⟨hmoves c hc, hplayers c hc, hchildren c hc⟩

/-- A line has no more moves than the board has empty cells. -/
theorem fuel (h : LegalTree table node) {c : Node} (hc : c ∈ node.children) {fuel : Nat}
    (hfuel : (availableMoves table).length + 1 ≤ fuel + 1) :
    (availableMoves (valSetCell table c.move.toNat node.player.cell)).length + 1 ≤ fuel := by
  obtain ⟨⟨m, hm, hmove⟩, _⟩ := h.child hc
  rw [hmove, Int.toNat_natCast]
  have hless := length_availableMoves_valSetCell hm node.player.fits_cell
    node.player.cell_ne_empty
  omega

/-- Another record and a changed child. -/
theorem setChild (h : LegalTree table node) {i : Nat} {c c' : Node}
    (hc : node.children[i]? = some c) (hmove : c'.move = c.move) (hplayer : c'.player = c.player)
    (hlegal : LegalTree (valSetCell table c.move.toNat node.player.cell) c') (nVisits score : Nat) :
    LegalTree table (.mk node.move node.player nVisits score (node.children.set i c')) := by
  have hmem := List.mem_of_getElem? hc
  refine .mk (by rw [List.length_set]; exact h.length_le) ?_ ?_ ?_
  all_goals
    intro d hd
    rcases List.mem_or_eq_of_mem_set hd with hd | rfl
  · exact (h.child hd).1
  · rw [hmove]
    exact (h.child hmem).1
  · exact (h.child hd).2.1
  · rw [hplayer]
    exact (h.child hmem).2.1
  · exact (h.child hd).2.2
  · rw [hmove]
    exact hlegal

/-- A credit touches the record only. -/
theorem credit (h : LegalTree table node) (score : Nat) : LegalTree table (node.credit score) := by
  cases h with
  | mk hlen hmoves hplayers hchildren => exact .mk hlen hmoves hplayers hchildren

/-- Expansion, as far as memory reaches: the children made are the first moves available. -/
theorem expandGranted (ok : Nat → Bool) (table : U32) (node : Node) (n : Nat) :
    LegalTree table (Kxo.expandGranted ok node table n).1 := by
  obtain ⟨move, player, nVisits, score, children⟩ := node
  have hnew : ∀ c ∈ ((availableMoves table).take
      (granted ok n (availableMoves table).length)).map fun (m : Nat) => Kxo.newNode m player.opp,
      ∃ m, m ∈ availableMoves table ∧ c = Kxo.newNode m player.opp := by
    intro c hc
    obtain ⟨m, hm, rfl⟩ := List.mem_map.mp hc
    exact ⟨m, List.mem_of_mem_take hm, rfl⟩
  refine .mk ?_ ?_ ?_ ?_
  · rw [List.length_map, List.length_take]
    exact (Nat.min_le_right _ _).trans (length_availableMoves_le table)
  · intro c hc
    obtain ⟨m, hm, rfl⟩ := hnew c hc
    exact ⟨m, hm, rfl⟩
  · intro c hc
    obtain ⟨m, hm, rfl⟩ := hnew c hc
    rfl
  · intro c hc
    obtain ⟨m, hm, rfl⟩ := hnew c hc
    exact .newNode _ _ _

/-- What is selected from is legal, and the same node as before. -/
theorem readyGranted (h : LegalTree table node) (ok : Nat → Bool) (n : Nat) :
    LegalTree table (Kxo.readyGranted ok node table n).1 ∧
      (Kxo.readyGranted ok node table n).1.move = node.move ∧
      (Kxo.readyGranted ok node table n).1.player = node.player := by
  rw [Kxo.readyGranted]
  split
  · exact ⟨.expandGranted ok table node n, by simp [Kxo.expandGranted], by simp [Kxo.expandGranted]⟩
  · exact ⟨h, rfl, rfl⟩

end LegalTree

/-- A path of child positions that is there in the tree. -/
def Node.HasPath (node : Node) (path : List Nat) : Prop := (node.at? path).isSome

/-- What the inner loop leaves, whatever could be allocated: a legal tree with the same root, and a
path in it no longer than the line. -/
def GrantedWalk.Legal (table : U32) (node : Node) (fuel : Nat) : GrantedWalk → Prop
  | .outOfFuel => False
  | .null tree _ _ => LegalTree table tree ∧ tree.move = node.move ∧ tree.player = node.player
  | .leaf p _ => LegalTree table p.tree ∧ p.tree.move = node.move ∧ p.tree.player = node.player ∧
      p.tree.HasPath p.path ∧ p.path.length < fuel

/-- A legal walk from a child is one from its parent. -/
theorem GrantedWalk.Legal.up {table : U32} {node child : Node} {i fuel : Nat} {walk : GrantedWalk}
    (h : LegalTree table node) (hc : node.children[i]? = some child)
    (hwalk : walk.Legal (valSetCell table child.move.toNat node.player.cell) child fuel) :
    (walk.up node i).Legal table node (fuel + 1) := by
  obtain ⟨hi, -⟩ := List.getElem?_eq_some_iff.mp hc
  cases walk with
  | outOfFuel => exact hwalk
  | null tree info n =>
    obtain ⟨hlegal, hmove, hplayer⟩ := hwalk
    have hset := h.setChild hc hmove hplayer hlegal node.nVisits node.score
    cases node
    exact ⟨hset, rfl, rfl⟩
  | leaf p n =>
    obtain ⟨hlegal, hmove, hplayer, hpath, hlen⟩ := hwalk
    have hset := h.setChild hc hmove hplayer hlegal node.nVisits node.score
    refine ⟨by cases node; exact hset, by simp, by simp, ?_,
      Nat.succ_lt_succ hlen⟩
    have hget : (node.setChildren (node.children.set i p.tree)).children[i]? = some p.tree := by
      simp [hi]
    show ((node.setChildren (node.children.set i p.tree)).at? (i :: p.path)).isSome
    rw [Node.at?, hget]
    exact hpath

/-- **A walk ends, and leaves a legal tree.** -/
theorem descendGranted_legal (ok : Nat → Bool) {fuel : Nat} {node : Node} {table : U32}
    (h : LegalTree table node) (info : MctsInfo) (n : Nat)
    (hfuel : (availableMoves table).length + 1 ≤ fuel) :
    (descendGranted ok fuel node table info n).Legal table node fuel := by
  induction fuel generalizing node table info n with
  | zero => omega
  | succ fuel ih =>
    rw [descendGranted]
    by_cases hwin : checkWin table ≠ cellEmpty
    · simp only [if_pos hwin]
      exact ⟨h, rfl, rfl, rfl, Nat.succ_pos _⟩
    · simp only [if_neg hwin]
      -- an open node never visited is simulated from, which takes at most as many moves as there
      -- are cells
      by_cases hfresh : node.nVisits = 0
      · obtain ⟨win, rng, hsim, -⟩ := simulate_spec node.player info.xoroObj (not_not.mp hwin)
        simp only [if_pos hfresh, hsim]
        exact ⟨h, rfl, rfl, rfl, Nat.succ_pos _⟩
      · simp only [if_neg hfresh]
        obtain ⟨hlegal, hmove, hplayer⟩ := h.readyGranted ok n
        generalize readyGranted ok node table n = ready at *
        obtain ⟨ready, added, n'⟩ := ready
        dsimp only at *
        -- every failed allocation leaves fewer children; without any the walk is given up
        cases hsel : selectMove ready with
        | none => exact ⟨hlegal, hmove, hplayer⟩
        | some i =>
          dsimp only
          cases hchild : ready.children[i]? with
          | none => exact ⟨hlegal, hmove, hplayer⟩
          | some child =>
            dsimp only
            have hmem := List.mem_of_getElem? hchild
            obtain ⟨-, hcplayer, hclegal⟩ := hlegal.child hmem
            rw [hcplayer, Player.opp_opp]
            -- one cell is filled, so the fuel is enough below
            have hwalk := (ih hclegal { info with nrActiveNodes := info.nrActiveNodes + added } n'
              (hlegal.fuel hmem hfuel)).up hlegal hchild
            revert hwalk
            generalize GrantedWalk.up ready i _ = walk
            intro hwalk
            cases walk with
            | outOfFuel => exact hwalk
            | null => exact ⟨hwalk.1, hwalk.2.1.trans hmove, hwalk.2.2.trans hplayer⟩
            | leaf =>
              exact ⟨hwalk.1, hwalk.2.1.trans hmove, hwalk.2.2.1.trans hplayer, hwalk.2.2.2⟩

/-- `backpropagate` keeps a legal tree. -/
theorem LegalTree.backpropagate {table : U32} {node : Node} (h : LegalTree table node)
    (path : List Nat) (score : Nat) :
    LegalTree table (Kxo.backpropagate node path score).1 ∧
      (Kxo.backpropagate node path score).1.move = node.move ∧
      (Kxo.backpropagate node path score).1.player = node.player := by
  induction path generalizing table node score with
  | nil => exact ⟨h.credit score, by simp [Kxo.backpropagate], by simp [Kxo.backpropagate]⟩
  | cons i path ih =>
    rw [Kxo.backpropagate]
    cases hc : node.children[i]? with
    | none => exact ⟨h, rfl, rfl⟩
    | some child =>
      dsimp only
      obtain ⟨-, -, hclegal⟩ := h.child (List.mem_of_getElem? hc)
      obtain ⟨hlegal, hmove, hplayer⟩ := ih hclegal score
      generalize Kxo.backpropagate child path score = r at *
      obtain ⟨child', up⟩ := r
      dsimp only at *
      have hset := h.setChild hc hmove hplayer hlegal node.nVisits node.score
      refine ⟨?_, by simp, by simp⟩
      cases node
      exact hset.credit up

/-- Any number of iterations. Induction on the number: a walk keeps the tree legal, and so does
crediting its path. -/
theorem mctsLoopGranted_legal (ok : Nat → Bool) (stop : Nat → Bool) {table : U32} (k i : Nat)
    {root : Node} (h : LegalTree table root) (info : MctsInfo) (n : Nat) :
    ∃ null root' info' n',
      mctsLoopGranted ok stop table k i root info n = some (null, root', info', n') ∧
        LegalTree table root' ∧ root'.move = root.move := by
  induction k generalizing i root info n with
  | zero => exact ⟨false, root, info, n, rfl, h, rfl⟩
  | succ k ih =>
    rw [mctsLoopGranted]
    split
    · exact ⟨false, root, info, n, rfl, h, rfl⟩
    · have hwalk := descendGranted_legal ok h info n
        (Nat.succ_le_succ (length_availableMoves_le table))
      generalize descendGranted ok (nGrids + 1) root table info n = walk at hwalk
      cases walk with
      | outOfFuel => exact hwalk.elim
      | null tree info' n' => exact ⟨true, tree, info', n', rfl, hwalk.1, hwalk.2.1⟩
      | leaf p n' =>
        obtain ⟨hlegal, hmove, -⟩ := hwalk
        obtain ⟨hlegal', hmove', -⟩ := hlegal.backpropagate p.path p.score
        obtain ⟨null, root', info', n'', hloop, hroot, hroot'⟩ :=
          ih (i + 1) hlegal' p.info n'
        exact ⟨null, root', info', n'', hloop, hroot, hroot'.trans (hmove'.trans hmove)⟩

/-- The move of a legal root is an empty cell, or its own. -/
theorem LegalTree.bestMove {table : U32} {root : Node} (h : LegalTree table root) :
    bestMove root.children (-1) root.move = root.move ∨
      ∃ m, m ∈ availableMoves table ∧ bestMove root.children (-1) root.move = (m : Int) := by
  rcases bestMove_cases root.children (-1) root.move with hbest | ⟨c, hc, hbest⟩
  · exact .inl hbest
  · rw [hbest]
    exact .inr (h.child hc).1

end Kxo
