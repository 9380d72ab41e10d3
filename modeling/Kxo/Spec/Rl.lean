import Kxo.Spec.Game

/-!
# Kxo — the learning agent (`src/rl.c`, `src/rl-state.c`, `include/ai-game.h`, `include/rl.h`)

`rl_fxp` is a 32-bit two's complement number, modelled by an `Int` wrapped after each operation.
A pointer to a `struct xo_state` is its position in `st_buff`. The kernel's `hash_32`, applied once
for the key and once more inside the hash table, is one parameter, the bucket of a table.
`get_random_u32` is drawn at most once for each cell; its values are a parameter too.
-/

namespace Kxo

/-! ## `rl_fxp` -/

/-- The value stored in an `int`. -/
def toS32 (x : Int) : Int := x.bmod (2 ^ 32)

def rlFixedScaleBits : Nat := 16

def rlFixedOne : Int := 2 ^ rlFixedScaleBits

/-- `RL_FIXED_MIN`: `SET_SIGN(0)` in an `int`. -/
def rlFixedMin : Int := toS32 (2 ^ 31)

def fixedMul (a b : Int) : Int := toS32 (a * b / 2 ^ rlFixedScaleBits)

def fixedMulS32 (a b : Int) : Int := fixedMul a (toS32 (b * rlFixedOne))

def initialMutiplier : Int := 0x6

def learningRate : Int := 0x51e

def gamma : Int := 0xfd70

def rewardTradeoff : Int := rlFixedOne

/-! ## The state store -/

def htBits : Nat := 14

def maxStates : Nat := 2 ^ htBits

def cleanNStates : Nat := maxStates * 3 / 5

/-- `struct xo_state`; the links are the lists of the store. -/
structure XoState where
  table : U32
  scores : Player → Int

/-- The globals of `rl-state.c`: the buffer, its bitmap, the hash chains and the order list, both
from their heads on. -/
structure RlStore where
  stBuff : Nat → XoState
  stMap : Nat → Bool
  states : Nat → List Nat
  orders : List Nat

/-- The store at module load and after `init_rl_agent`. -/
def initRlAgent : RlStore := ⟨fun _ => ⟨0, fun _ => 0⟩, fun _ => false, fun _ => [], []⟩

def bitmapWeight (stMap : Nat → Bool) : Nat := (List.range maxStates).countP stMap

/-- `find_first_zero_bit(st_map, MAX_STATES)`. -/
def findFirstZeroBit (stMap : Nat → Bool) : Nat :=
  ((List.range maxStates).find? fun pos => !stMap pos).getD maxStates

/-- The body of the loop of `clean_state`. -/
def cleanOne (s : RlStore) (pos : Nat) : RlStore where
  stBuff := Function.update s.stBuff pos ⟨0, fun _ => 0⟩
  stMap := Function.update s.stMap pos false
  states h := (s.states h).filter (· ≠ pos)
  orders := s.orders.filter (· ≠ pos)

/-- `clean_state`: the first `CLEAN_N_STATES` entries of `orders`. -/
def cleanState (s : RlStore) : RlStore := (s.orders.take cleanNStates).foldl cleanOne s

/-- `list_move_tail(&st->list, &orders)`. -/
def RlStore.moveTail (s : RlStore) (pos : Nat) : RlStore :=
  { s with orders := s.orders.filter (· ≠ pos) ++ [pos] }

/-- The insertion of `find_rl_state`, at the first free position. -/
def RlStore.insert (bucket : U32 → Nat) (s : RlStore) (table : U32) : Nat × RlStore :=
  let pos := findFirstZeroBit s.stMap
  let scores := fun player => fixedMulS32 initialMutiplier (getScore table player)
  (pos,
    { stBuff := Function.update s.stBuff pos ⟨table, scores⟩
      stMap := Function.update s.stMap pos true
      states := Function.update s.states (bucket table) (pos :: s.states (bucket table))
      orders := pos :: s.orders })

/-- The search of `find_rl_state` in the chain of a table. -/
def RlStore.lookup (bucket : U32 → Nat) (s : RlStore) (table : U32) : Option Nat :=
  (s.states (bucket table)).find? fun pos => (s.stBuff pos).table = table

/-- `find_rl_state`: the position of the table's state, and the store. -/
def findRlState (bucket : U32 → Nat) (table : U32) (s : RlStore) : Nat × RlStore :=
  match s.lookup bucket table with
  | some pos => (pos, s.moveTail pos)
  | none =>
      let s := if maxStates - 1 ≤ bitmapWeight s.stMap then cleanState s else s
      s.insert bucket table

/-! ## `play_rl` -/

/-- The variables of the loop of `play_rl`. -/
structure RlChoice where
  maxAct : Int
  maxQ : Int
  candidateCount : Nat
  store : RlStore

/-- The body of the loop of `play_rl`; `rnd i` is the random number drawn at cell `i`. -/
def tryRlCell (bucket : U32 → Nat) (rnd : Nat → Nat) (table : U32) (player : Player)
    (c : RlChoice) (i : Nat) : RlChoice :=
  let next := valSetCell table i player.cell
  let (pos, store) := findRlState bucket next c.store
  let newQ := (store.stBuff pos).scores player
  if newQ = c.maxQ then
    let candidateCount := c.candidateCount + 1
    { c with
      candidateCount
      maxAct := if rnd i % candidateCount = 0 then i else c.maxAct
      store }
  else if c.maxQ < newQ then ⟨i, newQ, 1, store⟩
  else { c with store }

def playRl (bucket : U32 → Nat) (rnd : Nat → Nat) (table : U32) (player : Player)
    (s : RlStore) : Int × RlStore :=
  let c := (availableMoves table).foldl (tryRlCell bucket rnd table player) ⟨-1, rlFixedMin, 1, s⟩
  (c.maxAct, c.store)

/-! ## `update_state_value` -/

/-- Overwrite one score of the state at `pos`. -/
def RlStore.setScore (s : RlStore) (pos : Nat) (player : Player) (score : Int) : RlStore :=
  { s with
    stBuff := Function.update s.stBuff pos
      ⟨(s.stBuff pos).table, Function.update (s.stBuff pos).scores player score⟩ }

def stepUpdateStateValue (bucket : U32 → Nat) (afterStateHash : U32) (reward next : Int)
    (player : Player) (s : RlStore) : Int × RlStore :=
  let curr := toS32 (reward - fixedMul gamma next)
  let (pos, s) := findRlState bucket afterStateHash s
  let score := toS32 (fixedMul (rlFixedOne - learningRate) ((s.stBuff pos).scores player) +
    fixedMul learningRate curr)
  (score, s.setScore pos player score)

/-- The loop of `update_state_value`, from step `j - 1` down to `0`. -/
def updateLoop (bucket : U32 → Nat) (afterStateHash : Nat → U32) (reward : Nat → Int)
    (player : Player) : Nat → Int → RlStore → RlStore
  | 0, _, s => s
  | j + 1, next, s =>
      if afterStateHash j ≠ 0 then
        let (next, s) := stepUpdateStateValue bucket (afterStateHash j) (reward j) next player s
        updateLoop bucket afterStateHash reward player j next s
      else updateLoop bucket afterStateHash reward player j next s

def updateStateValue (bucket : U32 → Nat) (afterStateHash : Nat → U32) (reward : Nat → Int)
    (steps : Nat) (player : Player) (s : RlStore) : RlStore :=
  updateLoop bucket afterStateHash reward player steps 0 s

end Kxo
