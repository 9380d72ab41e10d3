import Kxo.Spec.Negamax

/-!
# Kxo — the `int`s of a search (`src/negamax.c`)

`negamax` once more, with its `int`s checked: the search goes on only while every score that is
returned, cached or backed up is within the bound of the evaluation, every entry of the two history
tables is strictly inside the range of an `int`, and so is the difference that `cmp_moves` returns
for any two of the moves `sort` is given.
-/

namespace Kxo

/-- Strictly inside the range of an `int`. -/
def InInt (x : Int) : Prop := -2 ^ 31 < x ∧ x < 2 ^ 31

instance (x : Int) : Decidable (InInt x) := inferInstanceAs (Decidable (_ ∧ _))

/-- Within the bound of the evaluation. -/
def InScore (x : Int) : Prop := -2400 ≤ x ∧ x ≤ 2400

instance (x : Int) : Decidable (InScore x) := inferInstanceAs (Decidable (_ ∧ _))

/-- `a`, if the condition holds. -/
def checked {α : Type} (ok : Prop) [Decidable ok] (a : α) : Option α := if ok then some a else none

def SearchState.addHistoryInts (st : SearchState) (move : Nat) (score : Int) :
    Option SearchState :=
  checked (InInt (st.historyCount move + 1) ∧ InInt (st.historyScoreSum move + score))
    (st.addHistory move score)

/-- `sort`, which may compare any two of the moves. -/
def sortInts (sort : KernelSort) (st : SearchState) (moves : List Nat) : Option (List Nat) :=
  checked (∀ a ∈ moves, ∀ b ∈ moves, InInt (cmpMoves st a b)) (sort.sort (cmpMoves st) moves)

abbrev ChildInts := U32 → Player → Int → Int → SearchState → Option (MoveT × SearchState)

/-- `searchMove`, over checked calls. -/
def searchMoveInts (child : ChildInts) (table : U32) (player : Player) (first : Bool)
    (alpha beta : Int) (st : SearchState) : Option (Int × SearchState) :=
  if first then do
    let (result, st) ← child table player.opp (-beta) (-alpha) st
    some (-result.score, st)
  else do
    let (result, st) ← child table player.opp (-alpha - 1) (-alpha) st
    let score := -result.score
    if alpha < score ∧ score < beta then do
      let (result, st) ← child table player.opp (-beta) (-score) st
      some (-result.score, st)
    else some (score, st)

/-- `tryMoves`, with the score of each move, the history and the best score checked. -/
def tryMovesInts (zobristTable : ZobristWords) (child : ChildInts) (player : Player) (beta : Int) :
    List Nat → Bool → U32 → Int → MoveT → SearchState → Option (MoveT × SearchState)
  | [], _, _, _, best, st => some (best, st)
  | m :: rest, first, table, alpha, best, st => do
      let table := valSetCell table m player.cell
      let st := st.xorHash (zobristTable m player)
      let (score, st) ← searchMoveInts child table player first alpha beta st
      let score ← checked (InScore score) score
      let st ← st.addHistoryInts m score
      let best := if best.score < score then ⟨score, m⟩ else best
      let best ← checked (InScore best.score) best
      let table := valSetCell table m cellEmpty
      let st := st.xorHash (zobristTable m player)
      let alpha := if alpha < score then score else alpha
      if beta ≤ alpha then some (best, st)
      else tryMovesInts zobristTable child player beta rest false table alpha best st

/-- `negamax`, with what it returns and what it caches checked. -/
def negamaxInts (sort : KernelSort) (zobristTable : ZobristWords) :
    Nat → U32 → Player → Int → Int → SearchState → Option (MoveT × SearchState)
  | 0, table, player, _, _, st =>
      checked (InScore (getScore table player)) (⟨getScore table player, -1⟩, st)
  | depth + 1, table, player, alpha, beta, st =>
      if checkWin table ≠ cellEmpty then
        checked (InScore (getScore table player)) (⟨getScore table player, -1⟩, st)
      else
        match zobristGet st.hashTable st.hashValue with
        | some (score, move) =>
            checked (InScore score)
              (⟨score, move⟩, st.record (.hit table (depth + 1) player alpha beta score))
        | none => do
            let st := st.record (.expand table (depth + 1) player alpha beta)
            let moves ← sortInts sort st (availableMoves table)
            let (best, st) ← tryMovesInts zobristTable (negamaxInts sort zobristTable depth) player
              beta moves true table alpha ⟨-10000, -1⟩ st
            checked (InScore best.score) (best, st.put best)

def deepenInts (sort : KernelSort) (zobristTable : ZobristWords) (table : U32) (player : Player)
    (depth : Nat) (st : SearchState) : Option (MoveT × SearchState) := do
  let (result, st) ← negamaxInts sort zobristTable depth table player (-100000) 100000 st
  some (result, { st with hashTable := zobristClear })

def negamaxPredictInts (sort : KernelSort) (zobristTable : ZobristWords) (table : U32)
    (player : Player) (st : SearchState) : Option (Int × SearchState) := do
  let st := { st with historyScoreSum := fun _ => 0, historyCount := fun _ => 0 }
  let (result, st) ← searchDepths.foldlM
    (fun (_, st) depth => deepenInts sort zobristTable table player depth st) (⟨0, -1⟩, st)
  some (result.move, st)

end Kxo
