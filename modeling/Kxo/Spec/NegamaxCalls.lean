import Kxo.Spec.Negamax

/-!
# Kxo — the calls of a search (`src/negamax.c`, `src/zobrist.c`)

`negamax` once more, with its calls written down and with the allocations of `zobrist_put` free to
fail: `alloc n` says whether the `n`-th one succeeds. A `hash_table` that `zobrist_init` could not
allocate behaves as one to which every allocation fails.
-/

namespace Kxo

/-- A call of `negamax` without its window, and the `hash_value` it is made with. -/
structure Call where
  table : U32
  depth : Nat
  player : Player
  hashValue : U64
  deriving DecidableEq, Repr

/-- What a call does: it begins, is answered by `zobrist_get`, tries its moves, adds an entry to the
table, and returns, leaving `hash_value`. -/
inductive CallEvent where
  | enter (c : Call)
  | hit (c : Call) (score move : Int)
  | expand (c : Call)
  | store (c : Call) (score move : Int)
  | leave (c : Call) (hashValue : U64)
  deriving DecidableEq, Repr

/-- The globals of the search, the number of calls of `zobrist_put` so far, and the events of the
current round of the deepening loop, most recent first. -/
structure LoggedSearch where
  search : SearchState
  puts : Nat
  log : List CallEvent

namespace LoggedSearch

def call (s : LoggedSearch) (table : U32) (depth : Nat) (player : Player) : Call :=
  ⟨table, depth, player, s.search.hashValue⟩

def add (s : LoggedSearch) (e : CallEvent) : LoggedSearch := { s with log := e :: s.log }

def leave (s : LoggedSearch) (c : Call) : LoggedSearch := s.add (.leave c s.search.hashValue)

def xorHash (s : LoggedSearch) (word : U64) : LoggedSearch :=
  { s with search := s.search.xorHash word }

def addHistory (s : LoggedSearch) (move : Nat) (score : Int) : LoggedSearch :=
  { s with search := s.search.addHistory move score }

def record (s : LoggedSearch) (event : SearchEvent) : LoggedSearch :=
  { s with search := s.search.record event }

/-- `zobrist_put`, for the call with the given arguments. -/
def put (alloc : Nat → Bool) (table : U32) (depth : Nat) (player : Player) (best : MoveT)
    (s : LoggedSearch) : LoggedSearch where
  search :=
    { s.search with
      hashTable := zobristPut (alloc s.puts) s.search.hashTable s.search.hashValue best.score
        best.move }
  puts := s.puts + 1
  log :=
    if alloc s.puts then .store (s.call table depth player) best.score best.move :: s.log
    else s.log

end LoggedSearch

abbrev LoggedChild := U32 → Player → Int → Int → LoggedSearch → MoveT × LoggedSearch

/-- `searchMove`, with the calls written down. -/
def searchMoveLogged (child : LoggedChild) (table : U32) (player : Player) (first : Bool)
    (alpha beta : Int) (s : LoggedSearch) : Int × LoggedSearch :=
  if first then
    let (result, s) := child table player.opp (-beta) (-alpha) s
    (-result.score, s)
  else
    let (result, s) := child table player.opp (-alpha - 1) (-alpha) s
    let score := -result.score
    if alpha < score ∧ score < beta then
      let (result, s) := child table player.opp (-beta) (-score) s
      (-result.score, s)
    else (score, s)

/-- `tryMoves`, with the calls written down. -/
def tryMovesLogged (zobristTable : ZobristWords) (child : LoggedChild) (player : Player)
    (beta : Int) :
    List Nat → Bool → U32 → Int → MoveT → LoggedSearch → MoveT × LoggedSearch
  | [], _, _, _, best, s => (best, s)
  | m :: rest, first, table, alpha, best, s =>
      let table := valSetCell table m player.cell
      let s := s.xorHash (zobristTable m player)
      let (score, s) := searchMoveLogged child table player first alpha beta s
      let s := s.addHistory m score
      let best := if best.score < score then ⟨score, m⟩ else best
      let table := valSetCell table m cellEmpty
      let s := s.xorHash (zobristTable m player)
      let alpha := if alpha < score then score else alpha
      if beta ≤ alpha then (best, s)
      else tryMovesLogged zobristTable child player beta rest false table alpha best s

/-- `negamax`, with the calls written down. -/
def negamaxLogged (sort : KernelSort) (zobristTable : ZobristWords) (alloc : Nat → Bool) :
    Nat → U32 → Player → Int → Int → LoggedSearch → MoveT × LoggedSearch
  | 0, table, player, _, _, s =>
      let call := s.call table 0 player
      (⟨getScore table player, -1⟩, (s.add (.enter call)).leave call)
  | depth + 1, table, player, alpha, beta, s =>
      let call := s.call table (depth + 1) player
      let s := s.add (.enter call)
      if checkWin table ≠ cellEmpty then (⟨getScore table player, -1⟩, s.leave call)
      else
        match zobristGet s.search.hashTable s.search.hashValue with
        | some (score, move) =>
            let s := s.record (.hit table (depth + 1) player alpha beta score)
            (⟨score, move⟩, (s.add (.hit call score move)).leave call)
        | none =>
            let s := (s.record (.expand table (depth + 1) player alpha beta)).add (.expand call)
            let moves := sort.sort (cmpMoves s.search) (availableMoves table)
            let (best, s) := tryMovesLogged zobristTable
              (negamaxLogged sort zobristTable alloc depth) player beta moves true table alpha
              ⟨-10000, -1⟩ s
            (best, (s.put alloc table (depth + 1) player best).leave call)

/-- One round of the deepening loop: its result, its events, and the globals after
`zobrist_clear`. -/
def deepenLogged (sort : KernelSort) (zobristTable : ZobristWords) (alloc : Nat → Bool)
    (table : U32) (player : Player) (depth : Nat) (s : LoggedSearch) :
    MoveT × List CallEvent × LoggedSearch :=
  let (result, s) := negamaxLogged sort zobristTable alloc depth table player (-100000) 100000
    { s with log := [] }
  (result, s.log, { s with search := { s.search with hashTable := zobristClear } })

/-- `deepenLogged` after some rounds: their last result, their logs and the globals. -/
def deepenRound (sort : KernelSort) (zobristTable : ZobristWords) (alloc : Nat → Bool)
    (table : U32) (player : Player) (r : MoveT × List (List CallEvent) × LoggedSearch)
    (depth : Nat) : MoveT × List (List CallEvent) × LoggedSearch :=
  let round := deepenLogged sort zobristTable alloc table player depth r.2.2
  (round.1, r.2.1 ++ [round.2.1], round.2.2)

/-- `negamax_predict`: the move, the events of each round, and the globals. -/
def negamaxPredictLogged (sort : KernelSort) (zobristTable : ZobristWords) (alloc : Nat → Bool)
    (table : U32) (player : Player) (s : LoggedSearch) :
    Int × List (List CallEvent) × LoggedSearch :=
  let s := { s with
    search := { s.search with historyScoreSum := fun _ => 0, historyCount := fun _ => 0 } }
  let r := searchDepths.foldl (deepenRound sort zobristTable alloc table player) (⟨0, -1⟩, [], s)
  (r.1.move, r.2.1, r.2.2)

/-- The globals after `negamax_init`. -/
def negamaxInit : LoggedSearch := ⟨⟨fun _ => 0, fun _ => 0, 0, zobristClear, []⟩, 0, []⟩

/-- The globals that calls of `negamax_predict` can leave, whatever their allocations did. -/
inductive PredictReachable (sort : KernelSort) (zobristTable : ZobristWords) :
    LoggedSearch → Prop where
  | init : PredictReachable sort zobristTable negamaxInit
  | predict {s : LoggedSearch} (alloc : Nat → Bool) (table : U32) (player : Player) :
      PredictReachable sort zobristTable s →
      PredictReachable sort zobristTable
        (negamaxPredictLogged sort zobristTable alloc table player s).2.2

end Kxo
