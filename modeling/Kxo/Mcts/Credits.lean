import Kxo.Mcts.Search

/-!
# Kxo — who a playout is credited to (`src/mcts.c`)

`select_move` maximises the children's scores for the player to move at their parent, the one who
moved into them. A finished leaf is scored for that player, and the alternation of `backpropagate`
then credits every node of the path the same way. `simulate` scores for the player to move at the
leaf instead, so a won or lost playout reaches the leaf, and with it the whole path, with the other
player's value.
-/

namespace Kxo

/-- Every node on the path, leaf and root included, gained the outcome's value for the player who
moved into it. -/
def CreditsMover (root : Node) (p : Playout) (win : U32) : Prop :=
  ∀ q, q <+: p.path → ∃ n, p.backpropagated.at? q = some n ∧
    n.score = root.scoreAt q + calculateWinValue win n.player.opp

/-! ## What `backpropagate` adds along the path

Credits alternate along the path: what a node is credited with is the complement of what its child
is. A score for the mover into the leaf is then, at every node of the path, the score for the mover
into that node. -/

/-- Crediting a node does not move its children. -/
theorem Node.at?_credit_cons (n : Node) (s i : Nat) (q : List Nat) :
    (n.credit s).at? (i :: q) = n.at? (i :: q) := by
  simp [Node.at?]

/-- The child on the path, after the node's own record is updated. -/
theorem at?_backpropagate_cons {node c : Node} {i : Nat} {path q : List Nat} {score : Nat}
    (hc : node.children[i]? = some c) :
    (backpropagate node (i :: path) score).1.at? (i :: q) =
      (backpropagate c path score).1.at? q := by
  obtain ⟨hi, _⟩ := List.getElem?_eq_some_iff.mp hc
  rw [backpropagate]
  simp only [hc, Node.at?_credit_cons]
  rw [Node.at?]
  simp [hi]

/-- The leaf receives the score `backpropagate` starts with. -/
theorem backpropagate_leaf {table : U32} {node leaf : Node} {path : List Nat} (score : Nat)
    (hpath : LeafPath table node path) (hleaf : node.at? path = some leaf) :
    ∃ n, (backpropagate node path score).1.at? path = some n ∧ n.player = leaf.player ∧
      n.score = (node.scoreAt path + score) % 2 ^ 64 := by
  induction hpath with
  | finished =>
    obtain rfl : _ = leaf := by simpa [Node.at?] using hleaf
    exact ⟨_, rfl, by simp [backpropagate], by simp [backpropagate, Node.scoreAt_nil]⟩
  | fresh =>
    obtain rfl : _ = leaf := by simpa [Node.at?] using hleaf
    exact ⟨_, rfl, by simp [backpropagate], by simp [backpropagate, Node.scoreAt_nil]⟩
  | @child table node c i path _ hc _ ih =>
    rw [Node.at?, hc] at hleaf
    obtain ⟨n, hn, hplayer, hscore⟩ := ih hleaf
    refine ⟨n, by rw [at?_backpropagate_cons hc]; exact hn, hplayer, ?_⟩
    rw [hscore, Node.scoreAt_cons, hc]
    rfl

/-- **The alternation.** A score that starts as the outcome's value for the player who moved into
the leaf arrives at every node as the value for the player who moved into that node, since the two
players' values add up to one and players alternate along the path. -/
theorem backpropagate_credits {table : U32} {node leaf : Node} {path : List Nat} (win : U32)
    (hpath : LeafPath table node path) (h : NodeInv table node)
    (hleaf : node.at? path = some leaf) :
    (backpropagate node path (calculateWinValue win leaf.player.opp)).2 =
        calculateWinValue win node.player ∧
      ∀ q, q <+: path → ∃ n,
        (backpropagate node path (calculateWinValue win leaf.player.opp)).1.at? q = some n ∧
          n.score = (node.scoreAt q + calculateWinValue win n.player.opp) % 2 ^ 64 := by
  -- the score handed up is the other player's value
  have hup : ∀ p : Player, fixedSub fixedOne (calculateWinValue win p.opp) =
      calculateWinValue win p := by
    intro p
    rw [fixedSub_fixedOne_le (calculateWinValue_le _ _)]
    have := calculateWinValue_add_opp win p
    omega
  -- both kinds of leaf end the path
  have hnil : ∀ n : Node, n.at? [] = some leaf →
      (backpropagate n [] (calculateWinValue win leaf.player.opp)).2 =
        calculateWinValue win n.player ∧
      ∀ q, q <+: [] → ∃ m,
        (backpropagate n [] (calculateWinValue win leaf.player.opp)).1.at? q = some m ∧
          m.score = (n.scoreAt q + calculateWinValue win m.player.opp) % 2 ^ 64 := by
    intro n hn
    obtain rfl : n = leaf := by simpa [Node.at?] using hn
    refine ⟨hup _, fun q hq => ?_⟩
    obtain rfl := List.prefix_nil.mp hq
    exact ⟨_, rfl, by simp [backpropagate, Node.scoreAt_nil]⟩
  induction hpath with
  | finished => exact hnil _ hleaf
  | fresh => exact hnil _ hleaf
  | @child table node c i path _ hc _ ih =>
    obtain ⟨_, hplayer, hcinv, _⟩ := h.child hc
    rw [Node.at?, hc] at hleaf
    obtain ⟨hcup, hcq⟩ := ih hcinv hleaf
    refine ⟨?_, fun q hq => ?_⟩
    · rw [backpropagate]
      simp only [hc, hcup, hplayer]
      exact hup _
    · cases q with
      | nil =>
        refine ⟨_, rfl, ?_⟩
        rw [backpropagate]
        simp [hc, hcup, hplayer, Node.scoreAt_nil]
      | cons j q =>
        obtain ⟨rfl, hprefix⟩ := List.cons_prefix_cons.mp hq
        obtain ⟨n, hn, hscore⟩ := hcq q hprefix
        refine ⟨n, by rw [at?_backpropagate_cons hc]; exact hn, ?_⟩
        rw [hscore, Node.scoreAt_cons, hc]
        rfl

/-! ## No score wraps

Scores are added modulo `2 ^ 64`. Within the iterations of one search none reaches it. -/

/-- No node's score exceeds one for each of the root's visits. -/
theorem NodeInv.scoreAt_le {table : U32} {n : Node} (h : NodeInv table n) {v : Nat}
    (hv : n.nVisits ≤ v) (q : List Nat) : n.scoreAt q ≤ v * fixedOne := by
  induction q generalizing table n with
  | nil => exact h.score_le.trans (Nat.mul_le_mul_right _ hv)
  | cons i q ih =>
    rw [Node.scoreAt_cons]
    cases hc : n.children[i]? with
    | none => simp
    | some c =>
      obtain ⟨_, _, hcinv, hlt⟩ := h.child hc
      exact ih hcinv (by omega)

/-- A score and one more credit stay below `2 ^ 64`: as many visits as there are iterations cannot
fill a word. -/
theorem scoreAt_add_lt {table : U32} {n : Node} (h : NodeInv table n)
    (hv : n.nVisits ≤ iterations) (q : List Nat) {s : Nat} (hs : s ≤ fixedOne) :
    (n.scoreAt q + s) % 2 ^ 64 = n.scoreAt q + s := by
  apply Nat.mod_eq_of_lt
  have := h.scoreAt_le hv q
  have hbound : iterations * fixedOne + fixedOne < 2 ^ 64 := by decide
  omega

/-! ## The result

Of an outcome, the two players' values differ unless it is a draw. So crediting the wrong player is
visible exactly when the playout was won or lost. -/

/-- A decided outcome is worth something else to the other player. -/
theorem calculateWinValue_ne_opp {win : U32} (h : IsOutcome win) (p : Player) :
    calculateWinValue win p = calculateWinValue win p.opp ↔ win = cellD := by
  rcases h with rfl | rfl | rfl <;> cases p <;> decide

/-- **Whom an iteration credits.** Each of the iterations of `mcts` ends with an outcome, and every
node on its path is credited with the outcome's value for the player who moved into it exactly when
the leaf is a finished board or the playout is drawn. -/
theorem mcts_creditsMover_iff {table : U32} {player : Player} {info : MctsInfo} {k : Nat}
    {root : Node} {info' : MctsInfo} (hk : k < iterations)
    (htree : TreeAfter table player info k root info') :
    ∃ p win, selectLeaf root table info' = .leaf p ∧ p.win = some win ∧ IsOutcome win ∧
      (CreditsMover root p win ↔ p.terminal = true ∨ win = cellD) := by
  have hiter : iterations ≤ 2 ^ 31 := by decide
  obtain ⟨_, hvisits, _, _⟩ := htree.spec (by omega)
  obtain ⟨p, hp, hspec⟩ := htree.exists_leaf (by omega)
  obtain ⟨leaf, win, hleaf, hwin, hout, hscore⟩ := hspec.leaf
  have htreevisits : p.tree.nVisits ≤ iterations := by
    rw [hspec.record.2.2.1]
    omega
  refine ⟨p, win, hp, hwin, hout, ?_⟩
  by_cases hgood : p.terminal = true ∨ win = cellD
  · -- the leaf's own value is the one for the player who moved into it
    have hstart : p.score = calculateWinValue win leaf.player.opp := by
      rw [hscore]
      rcases hgood with h | h
      · rw [if_pos h]
      · split
        · rfl
        · exact (calculateWinValue_ne_opp hout _).mpr h
    refine iff_of_true (fun q hq => ?_) hgood
    obtain ⟨n, hn, hns⟩ := (backpropagate_credits win hspec.path hspec.inv hleaf).2 q hq
    refine ⟨n, by rw [Playout.backpropagated, hstart]; exact hn, ?_⟩
    rw [hns, scoreAt_add_lt hspec.inv htreevisits q (calculateWinValue_le _ _), hspec.scoreAt q]
  · refine iff_of_false (fun hcredits => ?_) hgood
    obtain ⟨hterm, hdraw⟩ := not_or.mp hgood
    -- already the leaf itself received the other player's value
    obtain ⟨n, hn, hnscore⟩ := hcredits p.path (List.prefix_refl _)
    obtain ⟨n', hn', hplayer, hns⟩ := backpropagate_leaf p.score hspec.path hleaf
    rw [Playout.backpropagated] at hn
    obtain rfl : n = n' := by simpa [hn] using hn'
    rw [scoreAt_add_lt hspec.inv htreevisits _ hspec.score_le, hspec.scoreAt p.path, hnscore,
      hplayer, hscore, if_neg hterm] at hns
    exact hdraw ((calculateWinValue_ne_opp hout leaf.player).mp (by omega))

/-- A test of the leaf a walk ends at. -/
def Walk.leafTest (test : Playout → Bool) : Walk → Bool
  | .leaf p => test p
  | _ => false

/-- A walk that passes a test of its leaf ended at one. -/
theorem Walk.exists_of_leafTest {test : Playout → Bool} {w : Walk} (h : w.leafTest test = true) :
    ∃ p, w = .leaf p ∧ test p = true := by
  cases w with
  | leaf p => exact ⟨p, rfl, h⟩
  | outOfFuel => simp [leafTest] at h
  | null => simp [leafTest] at h

/-- O to move, X on cell 1 and O on cell 2. The second iteration expands the root and walks into its
first child, O's move at cell 0; its playout is won by O, and the child gains nothing. -/
theorem second_iteration :
    ∃ root info' p, TreeAfter 0x18 .o mctsInit 1 root info' ∧
      selectLeaf root 0x18 info' = .leaf p ∧ p.path = [0] ∧ p.win = some cellO ∧
      p.terminal = false ∧
      (p.backpropagated.at? [0]).map (fun (n : Node) => (n.player, n.score)) =
        some (Player.x, 0) := by
  have hwalks : ((selectLeaf (newNode (-1) .o) 0x18 { mctsInit with nrActiveNodes := 1 }).leafTest
      fun first => (selectLeaf first.backpropagated 0x18 first.info).leafTest fun p =>
        p.path = [0] ∧ p.win = some cellO ∧ p.terminal = false ∧
          (p.backpropagated.at? [0]).map (fun (n : Node) => (n.player, n.score)) =
            some (Player.x, 0)) = true := by
    decide +kernel
  obtain ⟨first, hfirst, hwalks⟩ := Walk.exists_of_leafTest hwalks
  obtain ⟨p, hp, htest⟩ := Walk.exists_of_leafTest hwalks
  exact ⟨first.backpropagated, first.info, p, .succ .zero hfirst, hp, of_decide_eq_true htest⟩

/-- At the second iteration, whose path has a child of the root. -/
theorem mcts_creditsMover_iff_second : ∃ root info' p win,
    TreeAfter 0x18 .o mctsInit 1 root info' ∧ selectLeaf root 0x18 info' = .leaf p ∧
      p.path = [0] ∧ p.win = some win ∧ IsOutcome win ∧
      (CreditsMover root p win ↔ p.terminal = true ∨ win = cellD) := by
  obtain ⟨root, info', p, htree, hp, hpath, -⟩ := second_iteration
  obtain ⟨p', win, hp', hwin, hout, hcredits⟩ := mcts_creditsMover_iff (by decide) htree
  obtain rfl : p = p' := Walk.leaf.inj (hp.symm.trans hp')
  exact ⟨root, info', p, win, htree, hp, hpath, hwin, hout, hcredits⟩

/-- The child gains nothing, and one is what the mover's value would be. -/
theorem mcts_not_creditsMover :
    ∃ root info' p, TreeAfter 0x18 .o mctsInit 1 root info' ∧
      selectLeaf root 0x18 info' = .leaf p ∧ p.path = [0] ∧ p.win = some cellO ∧
      p.terminal = false ∧ ¬ CreditsMover root p cellO := by
  obtain ⟨root, info', p, htree, hp, hpath, hwin, hterm, hat⟩ := second_iteration
  refine ⟨root, info', p, htree, hp, hpath, hwin, hterm, fun hcredits => ?_⟩
  obtain ⟨n, hn, hscore⟩ := hcredits [0] (by rw [hpath])
  rw [hn] at hat
  simp only [Option.map_some, Option.some.injEq, Prod.mk.injEq] at hat
  rw [hat.1, hat.2] at hscore
  have hone : calculateWinValue cellO Player.x.opp = 65536 := by decide
  omega

end Kxo
