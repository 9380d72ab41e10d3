import Kxo.Agents
import Kxo.Rl.Eviction
import Kxo.Spec.Driver

/-!
# Kxo — the driver's agents (`src/main.c`)

`agents[]` with the three algorithms of the repository, over the globals they keep.
-/

namespace Kxo

/-- `agents[]`. What `kxo_stop_work` reads as during an `mcts` call, and the random numbers of a
`play_rl` call, are open. -/
def kxoAgents (sort : KernelSort) (zobristTable : ZobristWords) (bucket : U32 → Nat) :
    Agents AgentState where
  init := agentInit
  Plays who s table player move s' :=
    match who with
    | .mcts => ∃ stop info', mcts stop table player s.mctsObj = some (move, info') ∧
        s' = { s with mctsObj := info' }
    | .negamax => move = (negamaxPredict sort zobristTable table player s.search).1 ∧
        s' = { s with search := (negamaxPredict sort zobristTable table player s.search).2 }
    | .rl => ∃ rnd, move = (playRl bucket rnd table player s.rl).1 ∧
        s' = { s with rl := (playRl bucket rnd table player s.rl).2 }
  updateStateValue s afterStateHash reward steps player :=
    { s with rl := updateStateValue bucket afterStateHash reward steps player s.rl }
  legal := by
    intro who s table player move s' h
    cases who with
    | mcts =>
      obtain ⟨stop, info', hmcts, _⟩ := h
      obtain ⟨move', info'', hmcts', hlegal, _⟩ := mcts_spec stop table player s.mctsObj
      rw [hmcts] at hmcts'
      obtain ⟨rfl, _⟩ := Prod.mk.inj (Option.some.inj hmcts')
      exact hlegal
    | negamax =>
      obtain ⟨rfl, _⟩ := h
      exact (negamaxPredict_spec sort zobristTable table player s.search).1
    | rl =>
      obtain ⟨rnd, rfl, _⟩ := h
      exact playRl_legal bucket rnd table player s.rl

/-- The agents with concrete parameters: a stable sort, one bit a cell and player, and the kernel's
hash. -/
def concreteAgents : Agents AgentState := kxoAgents stableSort bitWords hashBucket

end Kxo
