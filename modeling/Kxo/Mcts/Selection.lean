import Kxo.Mcts.Logarithm
import Kxo.Mcts.Conservation

/-!
# Kxo — what `select_move` returns (`src/mcts.c`)

The first child with the greatest rating. A child not visited yet rates `FIXED_MAX`, which no
visited child reaches: its share of wins is at most one and the exploration term has at most 25
bits. So the unvisited children come first, in their order.
-/

namespace Kxo

/-- The child `select_move` is to return: the first one not visited yet, if there is one, and
otherwise one with the greatest rating. -/
structure Selects (n : Node) (i : Nat) (c : Node) : Prop where
  get : n.children[i]? = some c
  unvisited : ∀ j d, n.children[j]? = some d → d.nVisits = 0 → c.nVisits = 0 ∧ i ≤ j
  greatest : (∀ d ∈ n.children, d.nVisits ≠ 0) → ∀ d ∈ n.children, n.rating d ≤ n.rating c

/-- **The ratings of visited children**: positive, below `FIXED_MAX`, and the sum of their two terms
without a wrap. -/
theorem uctScore_bounds {nTotal n score : Nat} (h1 : 1 ≤ n) (hn : n < nTotal)
    (hmax : nTotal ≤ iterations) (hscore : score ≤ n * fixedOne) :
    0 < uctScore nTotal n score ∧ uctScore nTotal n score < fixedMax ∧
      uctScore nTotal n score = score / n + exploration nTotal n := by
  have hiter : iterations ≤ 2 ^ 31 := by decide
  have heq := uctScore_eq_add (Nat.ne_of_gt h1) nTotal hscore
  refine ⟨uctScore_pos hn (hmax.trans hiter) hscore, ?_, heq⟩
  have hres := div_le_fixedOne hscore
  have hlt := exploration_lt nTotal n
  have hone : fixedOne = 2 ^ 16 := rfl
  rw [heq, fixedMax]
  omega

/-- A child without visits rates `FIXED_MAX`. -/
theorem Node.rating_unvisited {n c : Node} (h : c.nVisits = 0) : n.rating c = fixedMax := by
  rw [rating, uctScore, if_pos h]

/-- A visited child rates less. -/
theorem NodeInv.rating_visited {table : U32} {n c : Node} (h : NodeInv table n)
    (hmax : n.nVisits ≤ iterations) (hc : c ∈ n.children) (hvisited : c.nVisits ≠ 0) :
    n.rating c < fixedMax := by
  obtain ⟨i, hi⟩ := List.getElem?_of_mem hc
  obtain ⟨_, _, hinv, hlt⟩ := h.child hi
  exact (uctScore_bounds (Nat.one_le_iff_ne_zero.mpr hvisited) hlt hmax hinv.score_le).2.1

/-- The first child with the greatest rating is the first one not visited, or, if all are, the first
of the best. -/
theorem NodeInv.selects {table : U32} {n : Node} (h : NodeInv table n) (hne : n.children ≠ [])
    (hmax : n.nVisits ≤ iterations) : ∃ i c, Kxo.selectMove n = some i ∧ Selects n i c := by
  have hiter : iterations ≤ 2 ^ 31 := by decide
  obtain ⟨i, c, hsel, hfirst⟩ := h.selectMove_firstMax hne (hmax.trans hiter)
  refine ⟨i, c, hsel, hfirst.get, fun j d hd hzero => ?_, fun _ => hfirst.max⟩
  have hdmax := Node.rating_unvisited (n := n) hzero
  have hle := hfirst.max d (List.mem_of_getElem? hd)
  have hczero : c.nVisits = 0 := by
    by_contra hvisited
    have hlt := h.rating_visited hmax (List.mem_of_getElem? hfirst.get) hvisited
    omega
  refine ⟨hczero, ?_⟩
  by_contra hlt
  have hbefore := hfirst.first j d (Nat.not_le.mp hlt) hd
  rw [hdmax, Node.rating_unvisited hczero] at hbefore
  exact Nat.lt_irrefl _ hbefore

/-- A node the inner loop reaches has its invariant, and no more visits than the root. -/
theorem NodeInv.reached {table : U32} {n : Node} (h : NodeInv table n) {q : List Nat} {t : U32}
    {m : Node} (hreach : n.reach table q = some (t, m)) : NodeInv t m ∧ m.nVisits ≤ n.nVisits := by
  induction q generalizing n table with
  | nil =>
    simp only [Node.reach, Option.some.injEq, Prod.mk.injEq] at hreach
    obtain ⟨rfl, rfl⟩ := hreach
    exact ⟨h, Nat.le_refl _⟩
  | cons i q ih =>
    rw [Node.reach] at hreach
    cases hc : n.children[i]? with
    | none => simp [hc] at hreach
    | some c =>
      rw [hc, Option.bind_some] at hreach
      obtain ⟨_, _, _, hlt⟩ := h.child hc
      obtain ⟨hinv, hle⟩ := ih (h.childBoard hc) hreach
      exact ⟨hinv, by omega⟩

/-- **Selection never fails and tries unvisited moves first.** At every node of the tree after any
number of iterations, already expanded or expanded now, `select_move` returns the first child not
visited, or else a child with the greatest rating; and the ratings of visited children are positive,
below `FIXED_MAX`, and do not wrap. -/
theorem select_never_null (table : U32) (player : Player) (info : MctsInfo) :
    (∀ k root info', k ≤ iterations → TreeAfter table player info k root info' →
      ∀ q t n, root.reach table q = some (t, n) →
        (n.children ≠ [] → ∃ i c, selectMove n = some i ∧ Selects n i c) ∧
        (checkWin t = cellEmpty → n.nVisits ≠ 0 → n.children = [] →
          ∃ i c, selectMove (expand n t).1 = some i ∧ Selects (expand n t).1 i c)) ∧
    (∀ nTotal n score, 1 ≤ n → n < nTotal → nTotal ≤ iterations → score ≤ n * fixedOne →
      0 < uctScore nTotal n score ∧ uctScore nTotal n score < fixedMax ∧
        uctScore nTotal n score = score / n + exploration nTotal n) := by
  refine ⟨fun k root info' hk htree q t n hreach => ?_, fun _ _ _ => uctScore_bounds⟩
  have hiter : iterations ≤ 2 ^ 31 := by decide
  obtain ⟨hroot, hvisits, _⟩ := htree.spec (by omega)
  obtain ⟨hinv, hle⟩ := hroot.reached hreach
  refine ⟨fun hne => hinv.selects hne (by omega), fun hopen hvisited hleaf => ?_⟩
  have hready := hinv.expand hleaf hopen hvisited
  refine hready.selects ?_ ?_
  · rw [children_expand]
    simpa using availableMoves_ne_nil hopen
  · have hsame : (expand n t).1.nVisits = n.nVisits := by simp [expand]
    omega

end Kxo
