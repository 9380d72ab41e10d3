import Kxo.Lib.TransitionSystem
import Kxo.Mcts.Search
import Kxo.Negamax.Root
import Kxo.Rl.Values

/-!
# Kxo — the contract of the three agents (`src/mcts.c`, `src/negamax.c`, `src/rl.c`)

The driver calls `agents[who].play(table, player)` and writes the cell it returns without a check.
Here the three agents' globals form one state, their calls its steps, and the contract holds in
every state that earlier calls can reach.

* **`negamaxPredict_spec`** — negamax returns the move of its last deepening round, which is legal
  whatever the rounds before it have left in the history and the transposition table.
* **`agentSystem`** — the calls of the three agents and of `update_state_value`, in any order and
  with any arguments that the driver can pass.
* **`valuesBounded_invariant`** — every learnt value stays in range, and so above the bound that the
  scan for the best move starts from. Of the other two agents' globals nothing has to be known.
* **`agents_legal`** — every agent returns `-1` or an empty cell, and on an open board an empty
  cell, if nothing asks MCTS to stop.
-/

namespace Kxo

/-! ## `negamax_predict`

Three searches, at depths 2, 4 and 6. Each overwrites the move of the one before it, and the history
and the transposition table go from one to the next. -/

section Predict

variable (sort : KernelSort) (zobristTable : ZobristWords)

/-- The depths of the deepening rounds. -/
theorem searchDepths_eq : searchDepths = [2, 4, 6] := by decide

/-- One round, from a cleared table: a move on an open board, `-1` on a finished one. -/
theorem deepen_legal (table : U32) (player : Player) (depth : Nat) {st : SearchState}
    (hclear : st.hashTable = zobristClear) :
    LegalMove table (deepen sort zobristTable table player (depth + 1) st).1.move ∧
      (checkWin table = cellEmpty →
        (deepen sort zobristTable table player (depth + 1) st).1.move ≠ -1) := by
  -- a finished board is answered before any move is tried
  by_cases hopen : checkWin table = cellEmpty
  · obtain ⟨m, hm, hmove⟩ := @negamax_legal sort zobristTable depth table player (-100000) 100000
      st hopen hclear
    refine ⟨.inr ⟨m, hm, hmove⟩, fun _ => ?_⟩
    rw [deepen]
    dsimp only
    omega
  · refine ⟨.inl ?_, fun h => absurd h hopen⟩
    rw [deepen, negamax_finished zobristTable hopen]

/-- The answer is the last round's, and the round before it left the table empty. -/
theorem negamaxPredict_last (table : U32) (player : Player) (st : SearchState) :
    ∃ st', st'.hashTable = zobristClear ∧
      (negamaxPredict sort zobristTable table player st).1 =
        (deepen sort zobristTable table player 6 st').1.move := by
  set start : SearchState :=
    { st with historyScoreSum := fun _ => 0, historyCount := fun _ => 0 }
  refine ⟨(deepen sort zobristTable table player 4
    (deepen sort zobristTable table player 2 start).2).2, rfl, ?_⟩
  rw [negamaxPredict, searchDepths_eq]
  rfl

/-- **`negamax_predict` plays legally**, whatever it finds. -/
theorem negamaxPredict_spec (table : U32) (player : Player) (st : SearchState) :
    LegalMove table (negamaxPredict sort zobristTable table player st).1 ∧
      (checkWin table = cellEmpty →
        (negamaxPredict sort zobristTable table player st).1 ≠ -1) := by
  obtain ⟨st', hclear, hlast⟩ := negamaxPredict_last sort zobristTable table player st
  rw [hlast]
  exact deepen_legal sort zobristTable table player 5 hclear

/-- On a finished board negamax has no move. -/
theorem negamaxPredict_finished {table : U32} (player : Player) (st : SearchState)
    (hfin : checkWin table ≠ cellEmpty) :
    (negamaxPredict sort zobristTable table player st).1 = -1 := by
  obtain ⟨st', _, hlast⟩ := negamaxPredict_last sort zobristTable table player st
  rw [hlast, deepen, negamax_finished zobristTable hfin]

end Predict

/-! ## The agents as a system

The reward of an update is zero or a `calculate_win_value`, in the C type of the values; which of
these a call passes is up to the driver. -/

/-- `mcts_obj`, the globals of `negamax.c` and `zobrist.c`, and those of `rl-state.c`. -/
structure AgentState where
  mctsObj : MctsInfo
  search : SearchState
  rl : RlStore

/-- The calls the driver makes. -/
inductive AgentCall where
  | mcts (stop : Nat → Bool) (table : U32) (player : Player)
  | negamaxPredict (table : U32) (player : Player)
  | playRl (rnd : Nat → Nat) (table : U32) (player : Player)
  | updateStateValue (afterStateHash : Nat → U32) (reward : Nat → Int) (steps : Nat)
      (player : Player)

/-- The globals after `mcts_init`, `negamax_init` and `init_rl_agent`. -/
def agentInit : AgentState where
  mctsObj := mctsInit
  search := ⟨fun _ => 0, fun _ => 0, 0, zobristClear, []⟩
  rl := initRlAgent

/-- The agents. The driver's rewards are zero or a `calculate_win_value`. -/
def agentSystem (sort : KernelSort) (zobristTable : ZobristWords) (bucket : U32 → Nat) :
    System AgentState AgentCall where
  init s := s = agentInit
  step s call s' :=
    match call with
    | .mcts stop table player =>
        ∃ move info', mcts stop table player s.mctsObj = some (move, info') ∧
          s' = { s with mctsObj := info' }
    | .negamaxPredict table player =>
        s' = { s with search := (negamaxPredict sort zobristTable table player s.search).2 }
    | .playRl rnd table player => s' = { s with rl := (playRl bucket rnd table player s.rl).2 }
    | .updateStateValue afterStateHash reward steps player =>
        (∀ j, 0 ≤ reward j ∧ reward j ≤ rlFixedOne) ∧
          s' = { s with rl := updateStateValue bucket afterStateHash reward steps player s.rl }

/-- Every learnt value stays in range; nothing is asked of the other two agents' globals. -/
theorem valuesBounded_invariant (sort : KernelSort) (zobristTable : ZobristWords)
    (bucket : U32 → Nat) :
    (agentSystem sort zobristTable bucket).Invariant fun s => ValuesBounded s.rl where
  init s hs := by
    subst hs
    exact initRlAgent_valuesBounded
  step s call s' h hstep := by
    cases call with
    | mcts stop table player =>
      obtain ⟨_, _, _, rfl⟩ := hstep
      exact h
    | negamaxPredict table player =>
      obtain rfl := hstep
      exact h
    | playRl rnd table player =>
      obtain rfl := hstep
      exact h.playRl bucket rnd table player
    | updateStateValue afterStateHash reward steps player =>
      obtain ⟨hreward, rfl⟩ := hstep
      exact h.updateStateValue bucket afterStateHash hreward steps player

/-- **Every agent plays legally and does not give up.** In every state that earlier calls reach, on
every table: each agent returns `-1` or an empty cell, and on an open board, with no stop requested
of MCTS, an empty cell. -/
theorem agents_legal (sort : KernelSort) (zobristTable : ZobristWords) (bucket : U32 → Nat)
    {s : AgentState} (hs : (agentSystem sort zobristTable bucket).Reachable s) (table : U32)
    (player : Player) :
    (∀ stop, ∃ move info', mcts stop table player s.mctsObj = some (move, info') ∧
        LegalMove table move ∧
        (checkWin table = cellEmpty → (∀ i, i < iterations → stop i = false) → move ≠ -1)) ∧
      (LegalMove table (negamaxPredict sort zobristTable table player s.search).1 ∧
        (checkWin table = cellEmpty →
          (negamaxPredict sort zobristTable table player s.search).1 ≠ -1)) ∧
      ∀ rnd, LegalMove table (playRl bucket rnd table player s.rl).1 ∧
        (checkWin table = cellEmpty → (playRl bucket rnd table player s.rl).1 ≠ -1) := by
  have hvalues := (valuesBounded_invariant sort zobristTable bucket).holds hs
  refine ⟨fun stop => mcts_spec stop table player s.mctsObj,
    negamaxPredict_spec sort zobristTable table player s.search, fun rnd => ?_⟩
  exact ⟨playRl_legal bucket rnd table player s.rl,
    fun hopen => playRl_ne_neg_one bucket rnd player hvalues (availableMoves_ne_nil hopen)⟩

/-- The board after O's first move at cell 0, X to move, before any agent was called. -/
theorem agents_legal_start :
    (∀ stop, ∃ move info', mcts stop 1 .x mctsInit = some (move, info') ∧ LegalMove 1 move ∧
        (checkWin 1 = cellEmpty → (∀ i, i < iterations → stop i = false) → move ≠ -1)) ∧
      (LegalMove 1 (negamaxPredict stableSort bitWords 1 .x agentInit.search).1 ∧
        (checkWin 1 = cellEmpty →
          (negamaxPredict stableSort bitWords 1 .x agentInit.search).1 ≠ -1)) ∧
      ∀ rnd, LegalMove 1 (playRl BitVec.toNat rnd 1 .x initRlAgent).1 ∧
        (checkWin 1 = cellEmpty → (playRl BitVec.toNat rnd 1 .x initRlAgent).1 ≠ -1) :=
  agents_legal stableSort bitWords BitVec.toNat (.init rfl) 1 .x

end Kxo
