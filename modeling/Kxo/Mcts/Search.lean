import Kxo.Mcts.Tree

/-!
# Kxo — one iteration of MCTS, and all of them (`src/mcts.c`)

The inner loop keeps the tree invariant and ends at a leaf; `backpropagate` along the path it
returns keeps the invariant too. By induction every tree of the outer loop satisfies it, and the
move `mcts` returns is an empty cell, or `-1` when the root was never expanded.

* **`DescendSpec`**, **`descend_spec`** — the walk: it never runs out of fuel and never selects
  `NULL`.
* **`backpropagate_spec`** — the credit of a path.
* **`TreeAfter`** — the trees after so many iterations, as a relation, so that later modules can
  speak of any of them without running the loop again; `TreeAfter.spec` is its invariant.
* **`mcts_spec`** — what `mcts` returns, on every table and for every schedule of stops.
-/

namespace Kxo

/-! ## The inner loop

A selection goes to a child, whose board has one empty cell less; so the fuel, one more than the
cells, lasts. -/

/-- What the inner loop, started at `node` for `table`, leaves. -/
structure DescendSpec (table : U32) (node : Node) (p : Playout) : Prop where
  inv : NodeInv table p.tree
  record : SameRecord node p.tree
  path : LeafPath table p.tree p.path
  /-- A finished leaf is scored for the player who moved into it, a playout for the player to move
  at its first board. -/
  leaf : ∃ leaf win, p.tree.at? p.path = some leaf ∧ p.win = some win ∧ IsOutcome win ∧
    p.score = calculateWinValue win (if p.terminal then leaf.player.opp else leaf.player)
  scoreAt : ∀ q, p.tree.scoreAt q = node.scoreAt q

/-- The score of a leaf is at most one. -/
theorem DescendSpec.score_le {table : U32} {node : Node} {p : Playout}
    (h : DescendSpec table node p) : p.score ≤ fixedOne := by
  obtain ⟨_, _, _, _, _, hscore⟩ := h.leaf
  rw [hscore]
  exact calculateWinValue_le _ _

/-- `VAL_SET_CELL` in the inner loop: the player who moves into a child is the one to move at its
parent. -/
theorem descend_fuel {table : U32} {node c : Node} {i fuel : Nat} (h : NodeInv table node)
    (hc : node.children[i]? = some c) (hfuel : (availableMoves table).length ≤ fuel) :
    (availableMoves (valSetCell table c.move.toNat node.player.cell)).length + 1 ≤ fuel := by
  obtain ⟨⟨m, hm, hmove⟩, _, _, _⟩ := h.child hc
  rw [hmove, Int.toNat_natCast]
  have hless := length_availableMoves_valSetCell hm node.player.fits_cell
    node.player.cell_ne_empty
  omega

/-- The node the selection runs on: the one reached, expanded when it has no children. -/
theorem NodeInv.ready {table : U32} {node : Node} (h : NodeInv table node)
    (hopen : checkWin table = cellEmpty) (hvisited : node.nVisits ≠ 0) :
    let ready := if node.children = [] then Kxo.expand node table else (node, 0)
    NodeInv table ready.1 ∧ SameRecord node ready.1 ∧ ready.1.children ≠ [] ∧
      ∀ q, ready.1.scoreAt q = node.scoreAt q := by
  by_cases hnil : node.children = []
  · simp only [if_pos hnil]
    refine ⟨h.expand hnil hopen hvisited, by simp [SameRecord, Kxo.expand], ?_,
      scoreAt_expand hnil table⟩
    rw [children_expand]
    simpa using availableMoves_ne_nil hopen
  · simp only [if_neg hnil]
    exact ⟨h, .refl _, hnil, fun _ => trivial⟩

/-- Replacing a child by one with the same scores changes no score. -/
theorem scoreAt_setChild {n c c' : Node} {i : Nat} (hc : n.children[i]? = some c)
    (h : ∀ q, c'.scoreAt q = c.scoreAt q) (q : List Nat) :
    (n.setChildren (n.children.set i c')).scoreAt q = n.scoreAt q := by
  cases q with
  | nil => simp [Node.scoreAt_nil]
  | cons j q =>
    obtain ⟨hi, hci⟩ := List.getElem?_eq_some_iff.mp hc
    rw [Node.scoreAt_cons, Node.scoreAt_cons, Node.children_setChildren, List.getElem?_set]
    by_cases hij : i = j
    · subst hij
      simp [hi, hci, h q]
    · simp [hij]

/-- **The inner loop ends at a leaf.** A line has no more moves than the board has empty cells, and
no selection on it is `NULL`. -/
theorem descend_spec (fuel : Nat) (node : Node) (table : U32) (info : MctsInfo)
    (h : NodeInv table node) (hmax : node.nVisits ≤ 2 ^ 31)
    (hfuel : (availableMoves table).length + 1 ≤ fuel) :
    ∃ p, descend fuel node table info = .leaf p ∧ DescendSpec table node p := by
  induction fuel generalizing node table info with
  | zero => omega
  | succ fuel ih =>
    rw [descend]
    by_cases hwin : checkWin table = cellEmpty
    case neg =>
      simp only [ne_eq, hwin, not_false_eq_true, if_true]
      exact ⟨_, rfl, h, .refl _, .finished hwin,
        ⟨node, _, rfl, rfl, isOutcome_of_ne hwin, rfl⟩, fun _ => rfl⟩
    case pos =>
      simp only [ne_eq, hwin, not_true_eq_false, if_false]
      by_cases hfresh : node.nVisits = 0
      · obtain ⟨win, rng, hsim, hout⟩ := simulate_spec node.player info.xoroObj hwin
        simp only [if_pos hfresh, hsim]
        exact ⟨_, rfl, h, .refl _, .fresh hwin hfresh, ⟨node, _, rfl, rfl, hout, rfl⟩,
          fun _ => rfl⟩
      · simp only [if_neg hfresh]
        -- the node is expanded if need be, and a child selected
        obtain ⟨hinv, hrec, hne, hscores⟩ := h.ready hwin hfresh
        generalize (if node.children = [] then expand node table else (node, 0)) = ready at *
        obtain ⟨ready, added⟩ := ready
        dsimp only at hinv hrec hne hscores ⊢
        obtain ⟨i, c, hsel, hc⟩ := hinv.selectMove hne (by rw [hrec.2.2.1]; exact hmax)
        obtain ⟨_, hplayer, hcinv, hlt⟩ := hinv.child hc
        simp only [hsel, hc]
        rw [hplayer, Player.opp_opp]
        have hnode : node.player = ready.player := hrec.2.1.symm
        obtain ⟨p, hp, hspec⟩ := ih c _ { info with nrActiveNodes := info.nrActiveNodes + added }
          hcinv (by have := hrec.2.2.1; omega) (descend_fuel hinv hc (by omega))
        simp only [hp]
        obtain ⟨hcmove, hcplayer, hcvisits, _⟩ := hspec.record
        have hget : (ready.setChildren (ready.children.set i p.tree)).children[i]? =
            some p.tree := by
          obtain ⟨hi, _⟩ := List.getElem?_eq_some_iff.mp hc
          simp [hi]
        refine ⟨_, rfl, ?_, ?_, ?_, ?_, ?_⟩
        · -- the walk replaces the child by the subtree it came back with, and adds no visit
          have hset := hinv.setChild hc hcmove hcplayer hspec.inv (k := 0) hcvisits hinv.score_le
          cases ready
          exact hset
        · simpa [SameRecord] using hrec
        · refine .child hwin hget ?_
          rw [Node.player_setChildren, hcmove]
          exact hspec.path
        · obtain ⟨leaf, win, hleaf, hrest⟩ := hspec.leaf
          exact ⟨leaf, win, by rw [Node.at?, hget]; exact hleaf, hrest⟩
        · intro q
          rw [← hscores q]
          exact scoreAt_setChild hc hspec.scoreAt q

/-! ## `backpropagate`

Every node of the path is visited once more, from the leaf up, so the visits of a node and those of
its children stay one apart. -/

/-- The complement of a score does not wrap. -/
theorem fixedSub_fixedOne_le {score : Nat} (h : score ≤ fixedOne) :
    fixedSub fixedOne score = fixedOne - score :=
  fixedSub_of_le h (by decide)

/-- One more visit to the end of a path. -/
theorem NodeInv.creditLeaf {table : U32} {node : Node} {score : Nat} (h : NodeInv table node)
    (hleaf : checkWin table = cellEmpty → node.nVisits = 0) (hs : score ≤ fixedOne) :
    NodeInv table (node.credit score) := by
  have hbound : ∀ v s : Nat, s ≤ v * fixedOne → (s + score) % 2 ^ 64 ≤ (v + 1) * fixedOne := by
    intro v s hv
    calc (s + score) % 2 ^ 64 ≤ s + score := Nat.mod_le _ _
      _ ≤ (v + 1) * fixedOne := by rw [Nat.succ_mul]; omega
  cases h with
  | bare hscore hone =>
    exact .bare (hbound _ _ hscore) fun hopen => Nat.succ_le_of_lt (by simp_all)
  | expanded _ hopen htotal => simp [htotal] at hleaf; exact absurd hopen hleaf

/-- **`backpropagate` keeps the invariant**, and counts one visit at its start. -/
theorem backpropagate_spec {table : U32} {node : Node} {path : List Nat} {score : Nat}
    (hpath : LeafPath table node path) (h : NodeInv table node) (hs : score ≤ fixedOne) :
    NodeInv table (backpropagate node path score).1 ∧
      (backpropagate node path score).1.move = node.move ∧
      (backpropagate node path score).1.player = node.player ∧
      (backpropagate node path score).1.nVisits = node.nVisits + 1 ∧
      (backpropagate node path score).2 ≤ fixedOne := by
  induction hpath with
  | finished hwin =>
    exact ⟨h.creditLeaf (fun hopen => absurd hopen hwin) hs, by simp [backpropagate],
      by simp [backpropagate], by simp [backpropagate],
      by rw [backpropagate, fixedSub_fixedOne_le hs]; omega⟩
  | fresh _ hfresh =>
    exact ⟨h.creditLeaf (fun _ => hfresh) hs, by simp [backpropagate], by simp [backpropagate],
      by simp [backpropagate], by rw [backpropagate, fixedSub_fixedOne_le hs]; omega⟩
  | @child table node c i path hopen hc _ ih =>
    obtain ⟨_, _, hcinv, _⟩ := h.child hc
    obtain ⟨hinv, hmove, hplayer, hvisits, hup⟩ := ih hcinv
    rw [backpropagate]
    simp only [hc]
    generalize backpropagate c path score = r at hinv hmove hplayer hvisits hup
    obtain ⟨c', up⟩ := r
    dsimp only at hinv hmove hplayer hvisits hup ⊢
    have hbound : (node.score + up) % 2 ^ 64 ≤ (node.nVisits + 1) * fixedOne :=
      calc (node.score + up) % 2 ^ 64 ≤ node.score + up := Nat.mod_le _ _
        _ ≤ (node.nVisits + 1) * fixedOne := by
          have := h.score_le
          rw [Nat.succ_mul]
          omega
    -- one visit more, here and at the child
    have hset := h.setChild hc hmove hplayer hinv (k := 1) hvisits hbound
    refine ⟨?_, by simp, by simp, by simp, by rw [fixedSub_fixedOne_le hup]; omega⟩
    cases node
    exact hset

/-! ## The iterations

Stops are a parameter: the loop asks before each iteration whether the system shuts down. -/

/-- `TreeAfter table player info k root info'`: `root` and `info'` are the tree and the globals
after `k` iterations of `mcts`. -/
inductive TreeAfter (table : U32) (player : Player) (info : MctsInfo) :
    Nat → Node → MctsInfo → Prop where
  | zero : TreeAfter table player info 0 (newNode (-1) player) { info with nrActiveNodes := 1 }
  | succ {k : Nat} {root : Node} {info' : MctsInfo} {p : Playout} :
      TreeAfter table player info k root info' → selectLeaf root table info' = .leaf p →
      TreeAfter table player info (k + 1) p.backpropagated p.info

/-- **Every iteration's walk ends at a leaf**, and keeps what its tree satisfies. -/
theorem selectLeaf_spec {table : U32} {root : Node} (info : MctsInfo) (h : NodeInv table root)
    (hmax : root.nVisits ≤ 2 ^ 31) :
    ∃ p, selectLeaf root table info = .leaf p ∧ DescendSpec table root p :=
  descend_spec _ root table info h hmax (Nat.succ_le_succ (length_availableMoves_le table))

/-- The tree after `k` iterations: the invariant, and `k` visits at the root. -/
theorem TreeAfter.spec {table : U32} {player : Player} {info : MctsInfo} {k : Nat} {root : Node}
    {info' : MctsInfo} (h : TreeAfter table player info k root info') (hk : k ≤ 2 ^ 31) :
    NodeInv table root ∧ root.nVisits = k ∧ root.move = -1 ∧ root.player = player := by
  induction h with
  | zero => exact ⟨.newNode _ _ _, rfl, rfl, rfl⟩
  | @succ k root info' p _ hleaf ih =>
    obtain ⟨hinv, hvisits, hmove, hplayer⟩ := ih (by omega)
    obtain ⟨p', hp', hspec⟩ := selectLeaf_spec info' hinv (by omega)
    obtain rfl : p = p' := by simpa [hleaf] using hp'
    obtain ⟨hinv', hmove', hplayer', hvisits', _⟩ :=
      backpropagate_spec hspec.path hspec.inv hspec.score_le
    obtain ⟨hrmove, hrplayer, hrvisits, _⟩ := hspec.record
    exact ⟨hinv', by rw [Playout.backpropagated, hvisits', hrvisits, hvisits],
      by rw [Playout.backpropagated, hmove', hrmove, hmove],
      by rw [Playout.backpropagated, hplayer', hrplayer, hplayer]⟩

/-- The next iteration finds a leaf. -/
theorem TreeAfter.exists_leaf {table : U32} {player : Player} {info : MctsInfo} {k : Nat}
    {root : Node} {info' : MctsInfo} (h : TreeAfter table player info k root info')
    (hk : k ≤ 2 ^ 31) : ∃ p, selectLeaf root table info' = .leaf p ∧ DescendSpec table root p := by
  obtain ⟨hinv, hvisits, _⟩ := h.spec hk
  exact selectLeaf_spec info' hinv (by omega)

/-- What the leaf of the next iteration is. -/
theorem TreeAfter.descendSpec {table : U32} {player : Player} {info : MctsInfo} {k : Nat}
    {root : Node} {info' : MctsInfo} {p : Playout} (h : TreeAfter table player info k root info')
    (hk : k ≤ 2 ^ 31) (hwalk : selectLeaf root table info' = .leaf p) :
    DescendSpec table root p := by
  obtain ⟨p', hp', hspec⟩ := h.exists_leaf hk
  rw [hwalk] at hp'
  obtain rfl := Walk.leaf.inj hp'
  exact hspec

/-- The outer loop runs to its end, or to the iteration that reads a stop request. -/
theorem mctsLoop_spec (stop : Nat → Bool) {table : U32} {player : Player} {info : MctsInfo}
    (n i : Nat) {root : Node} {info' : MctsInfo} (h : TreeAfter table player info i root info')
    (hmax : i + n ≤ 2 ^ 31) :
    ∃ k root' info'', mctsLoop stop table n i root info' = .done root' info'' ∧
      TreeAfter table player info k root' info'' ∧ k ≤ i + n ∧
      ((∀ j, j < i + n → stop j = false) → k = i + n) := by
  induction n generalizing i root info' with
  | zero => exact ⟨i, root, info', rfl, h, Nat.le_refl _, fun _ => rfl⟩
  | succ n ih =>
    rw [mctsLoop]
    by_cases hstop : stop i
    · refine ⟨i, root, info', by simp [hstop], h, by omega, fun hall => ?_⟩
      have := hall i (by omega)
      simp [hstop] at this
    · obtain ⟨p, hp, _⟩ := h.exists_leaf (by omega)
      obtain ⟨k, root', info'', hloop, htree, hle, hall⟩ := ih (i + 1) (h.succ hp) (by omega)
      refine ⟨k, root', info'', by simp [hstop, hp, hloop], htree, by omega, fun hj => ?_⟩
      rw [hall fun j hlt => hj j (by omega)]
      omega

/-! ## The move returned

The child with most visits. If there was no iteration there is none, and the root's own move, `-1`,
is returned. -/

/-- The last loop returns a child's move, or the move it started with. -/
theorem bestMove_cases (children : List Node) (mostVisits best : Int) :
    bestMove children mostVisits best = best ∨
      ∃ c ∈ children, bestMove children mostVisits best = c.move := by
  induction children generalizing mostVisits best with
  | nil => exact .inl rfl
  | cons c rest ih =>
    rw [bestMove]
    split
    · rcases ih c.nVisits c.move with h | ⟨d, hd, h⟩
      · exact .inr ⟨c, by simp, h⟩
      · exact .inr ⟨d, by simp [hd], h⟩
    · rcases ih mostVisits best with h | ⟨d, hd, h⟩
      · exact .inl h
      · exact .inr ⟨d, by simp [hd], h⟩

/-- Starting from `-1` visits, the first child already replaces the root. -/
theorem bestMove_mem {children : List Node} (hne : children ≠ []) (best : Int) :
    ∃ c ∈ children, bestMove children (-1) best = c.move := by
  cases children with
  | nil => exact absurd rfl hne
  | cons c rest =>
    rw [bestMove, if_pos (by omega)]
    rcases bestMove_cases rest c.nVisits c.move with h | ⟨d, hd, h⟩
    · exact ⟨c, by simp, h⟩
    · exact ⟨d, by simp [hd], h⟩

/-- A child's move is available on its parent's board. -/
theorem NodeInv.move_mem {table : U32} {n c : Node} (h : NodeInv table n) (hc : c ∈ n.children) :
    ∃ m, m ∈ availableMoves table ∧ c.move = (m : Int) := by
  obtain ⟨i, hi⟩ := List.getElem?_of_mem hc
  exact (h.child hi).1

/-- A root visited twice on an open board has its children. -/
theorem NodeInv.children_ne_nil {table : U32} {n : Node} (h : NodeInv table n)
    (hopen : checkWin table = cellEmpty) (hvisits : 2 ≤ n.nVisits) : n.children ≠ [] := by
  cases h with
  | bare _ hone => have := hone hopen; simp only [Node.nVisits_mk] at hvisits; omega
  | expanded _ _ _ hmoves =>
    rintro hnil
    simp only [Node.children_mk] at hnil
    subst hnil
    exact availableMoves_ne_nil hopen (by simpa using hmoves.symm)

/-- The children of a finished board are never made. -/
theorem NodeInv.children_eq_nil {table : U32} {n : Node} (h : NodeInv table n)
    (hfin : checkWin table ≠ cellEmpty) : n.children = [] := by
  cases h with
  | bare => rfl
  | expanded _ hopen => exact absurd hopen hfin

/-- The call returns the best move of a root that the iterations have kept in order. -/
theorem mcts_run (stop : Nat → Bool) (table : U32) (player : Player) (info : MctsInfo) :
    ∃ root info', mcts stop table player info =
        some (bestMove root.children (-1) root.move, info') ∧
      NodeInv table root ∧ root.move = -1 ∧
      ((∀ i, i < iterations → stop i = false) → root.nVisits = iterations) := by
  obtain ⟨k, root, info', hloop, htree, hle, hall⟩ :=
    mctsLoop_spec stop iterations 0 (@TreeAfter.zero table player info) (by decide)
  have hmax : 0 + iterations ≤ 2 ^ 31 := by decide
  obtain ⟨hinv, hvisits, hmove, _⟩ := htree.spec (by omega)
  refine ⟨root, info', by rw [mcts, hloop], hinv, hmove, fun hstop => ?_⟩
  rw [hvisits, hall fun j hj => hstop j (by omega), Nat.zero_add]

/-- **MCTS plays legally.** It returns `-1` or an empty cell; on an open board, unless a stop is
requested, an empty cell. -/
theorem mcts_spec (stop : Nat → Bool) (table : U32) (player : Player) (info : MctsInfo) :
    ∃ move info', mcts stop table player info = some (move, info') ∧
      (move = -1 ∨ ∃ m, m ∈ availableMoves table ∧ move = (m : Int)) ∧
      (checkWin table = cellEmpty → (∀ i, i < iterations → stop i = false) → move ≠ -1) := by
  obtain ⟨root, info', hrun, hinv, hmove, hvisits⟩ := mcts_run stop table player info
  refine ⟨_, info', hrun, ?_, ?_⟩
  · -- the root's own move is the `-1` it was made with
    rcases bestMove_cases root.children (-1) root.move with h | ⟨c, hc, h⟩
    · exact .inl (h.trans hmove)
    · rw [h]
      exact .inr (hinv.move_mem hc)
  · intro hopen hstop
    have hne := hinv.children_ne_nil hopen (by rw [hvisits hstop]; decide)
    obtain ⟨c, hc, h⟩ := bestMove_mem hne root.move
    obtain ⟨m, _, hm⟩ := hinv.move_mem hc
    rw [h, hm]
    omega

/-- On a finished board the root is never expanded, and `mcts` returns `-1`. -/
theorem mcts_finished (stop : Nat → Bool) {table : U32} (player : Player) (info : MctsInfo)
    (hfin : checkWin table ≠ cellEmpty) :
    ∃ info', mcts stop table player info = some (-1, info') := by
  obtain ⟨root, info', hrun, hinv, hmove, _⟩ := mcts_run stop table player info
  refine ⟨info', ?_⟩
  rw [hrun, hinv.children_eq_nil hfin, bestMove, hmove]

end Kxo
