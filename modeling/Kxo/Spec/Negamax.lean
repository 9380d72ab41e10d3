import Kxo.Spec.Game
import Mathlib.Data.List.Perm.Basic

/-!
# Kxo — the negamax agent (`src/negamax.c`, `src/zobrist.c`)

The search is a function of an explicit state: the two history tables, the running `hash_value` and
the transposition table. Scores are `Int`; no score leaves `[-2400, 2400]`, so the C `int` never
wraps on them.

Three things come from outside: the `zobrist_table` words (drawn from the clock by `zobrist_init`),
the kernel's `sort`, of which only the permutation property is assumed, and memory allocation,
which succeeds.
-/

namespace Kxo

/-! ## `zobrist.c` -/

/-- `zobrist_entry_t`, without its list link. -/
structure ZobristEntry where
  key : U64
  score : Int
  move : Int
  deriving DecidableEq, Repr

/-- `hash_table`: one chain, most recent entry first, for each value of `HASH`. -/
structure ZobristTable where
  chains : Nat → List ZobristEntry

def hashTableSize : Nat := 100003

def hash (key : U64) : Nat := key.toNat % hashTableSize

/-- `zobrist_get`: the score and move of the first entry of the chain with this key. -/
def zobristGet (t : ZobristTable) (key : U64) : Option (Int × Int) :=
  ((t.chains (hash key)).find? fun e => e.key = key).map fun e => (e.score, e.move)

/-- `zobrist_put`; `alloc` says whether its `kmalloc` succeeds. -/
def zobristPut (alloc : Bool) (t : ZobristTable) (key : U64) (score move : Int) : ZobristTable :=
  if alloc then
    ⟨fun h => if h = hash key then ⟨key, score, move⟩ :: t.chains h else t.chains h⟩
  else t

/-- `zobrist_clear`, and the table as `zobrist_init` leaves it. -/
def zobristClear : ZobristTable := ⟨fun _ => []⟩

/-- `zobrist_table[i][player == CELL_X]`. -/
abbrev ZobristWords := Nat → Player → U64

/-! ## `negamax.c` -/

/-- The kernel's `sort`: it rearranges the moves, in an order the comparison influences. -/
structure KernelSort where
  sort : (Nat → Nat → Int) → List Nat → List Nat
  perm : ∀ cmp l, (sort cmp l).Perm l

def maxSearchDepth : Nat := 6

structure MoveT where
  score : Int
  move : Int
  deriving DecidableEq, Repr

/-- History variable of the search, read by no step of it: a table lookup that was answered, with
the answer, or a position whose moves were tried; each with the window of its call. -/
inductive SearchEvent where
  | hit (table : U32) (depth : Nat) (player : Player) (alpha beta score : Int)
  | expand (table : U32) (depth : Nat) (player : Player) (alpha beta : Int)

/-- The globals `negamax` works on, and the events so far, most recent first. -/
structure SearchState where
  historyScoreSum : Nat → Int
  historyCount : Nat → Int
  hashValue : U64
  hashTable : ZobristTable
  trace : List SearchEvent

namespace SearchState

/-- `hash_value ^= word`. -/
def xorHash (st : SearchState) (word : U64) : SearchState :=
  { st with hashValue := st.hashValue ^^^ word }

/-- `history_count[move]++; history_score_sum[move] += score`. -/
def addHistory (st : SearchState) (move : Nat) (score : Int) : SearchState :=
  { st with
    historyCount := fun i => if i = move then st.historyCount i + 1 else st.historyCount i
    historyScoreSum := fun i =>
      if i = move then st.historyScoreSum i + score else st.historyScoreSum i }

def record (st : SearchState) (event : SearchEvent) : SearchState :=
  { st with trace := event :: st.trace }

def put (st : SearchState) (best : MoveT) : SearchState :=
  { st with hashTable := zobristPut true st.hashTable st.hashValue best.score best.move }

end SearchState

def cmpMoves (st : SearchState) (a b : Nat) : Int :=
  let scoreOf := fun i =>
    if st.historyCount i ≠ 0 then (st.historyScoreSum i).tdiv (st.historyCount i) else 0
  scoreOf b - scoreOf a

/-- The recursive calls of `negamax`, at the depth below. -/
abbrev ChildSearch := U32 → Player → Int → Int → SearchState → MoveT × SearchState

/-- The score of one move: the full window for the first move, else a null window and, when the
result falls strictly inside the window, a second search from that result up. -/
def searchMove (child : ChildSearch) (table : U32) (player : Player) (first : Bool)
    (alpha beta : Int) (st : SearchState) : Int × SearchState :=
  if first then
    let (result, st) := child table player.opp (-beta) (-alpha) st
    (-result.score, st)
  else
    let (result, st) := child table player.opp (-alpha - 1) (-alpha) st
    let score := -result.score
    if alpha < score ∧ score < beta then
      let (result, st) := child table player.opp (-beta) (-score) st
      (-result.score, st)
    else (score, st)

/-- The `for` loop of `negamax` over the sorted moves. -/
def tryMoves (zobristTable : ZobristWords) (child : ChildSearch) (player : Player) (beta : Int) :
    List Nat → Bool → U32 → Int → MoveT → SearchState → MoveT × SearchState
  | [], _, _, _, best, st => (best, st)
  | m :: rest, first, table, alpha, best, st =>
      let table := valSetCell table m player.cell
      let st := st.xorHash (zobristTable m player)
      let (score, st) := searchMove child table player first alpha beta st
      let st := st.addHistory m score
      let best := if best.score < score then ⟨score, m⟩ else best
      let table := valSetCell table m cellEmpty
      let st := st.xorHash (zobristTable m player)
      let alpha := if alpha < score then score else alpha
      if beta ≤ alpha then (best, st)
      else tryMoves zobristTable child player beta rest false table alpha best st

/-- `negamax`, by recursion on `depth`. -/
def negamax (sort : KernelSort) (zobristTable : ZobristWords) :
    Nat → U32 → Player → Int → Int → SearchState → MoveT × SearchState
  | 0, table, player, _, _, st => (⟨getScore table player, -1⟩, st)
  | depth + 1, table, player, alpha, beta, st =>
      if checkWin table ≠ cellEmpty then (⟨getScore table player, -1⟩, st)
      else
        match zobristGet st.hashTable st.hashValue with
        | some (score, move) =>
            (⟨score, move⟩, st.record (.hit table (depth + 1) player alpha beta score))
        | none =>
            let st := st.record (.expand table (depth + 1) player alpha beta)
            let moves := sort.sort (cmpMoves st) (availableMoves table)
            let (best, st) := tryMoves zobristTable (negamax sort zobristTable depth) player beta
              moves true table alpha ⟨-10000, -1⟩ st
            (best, st.put best)

/-- The depths of the deepening loop: `2, 4, .., MAX_SEARCH_DEPTH`. -/
def searchDepths : List Nat := (List.range (maxSearchDepth / 2)).map fun k => 2 * (k + 1)

/-- One round of the loop: search, then `zobrist_clear`. -/
def deepen (sort : KernelSort) (zobristTable : ZobristWords) (table : U32) (player : Player)
    (depth : Nat) (st : SearchState) : MoveT × SearchState :=
  let (result, st) := negamax sort zobristTable depth table player (-100000) 100000 st
  (result, { st with hashTable := zobristClear })

/-- `negamax_predict`: reset the history, search at each depth, return the last round's move. -/
def negamaxPredict (sort : KernelSort) (zobristTable : ZobristWords) (table : U32)
    (player : Player) (st : SearchState) : Int × SearchState :=
  let st := { st with historyScoreSum := fun _ => 0, historyCount := fun _ => 0 }
  let (result, st) := searchDepths.foldl
    (fun (_, st) depth => deepen sort zobristTable table player depth st) (⟨0, -1⟩, st)
  (result.move, st)

end Kxo
