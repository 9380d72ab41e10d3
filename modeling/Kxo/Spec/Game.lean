import Kxo.Lib.BitField
import Mathlib.Algebra.Ring.Int.Defs

/-!
# Kxo — the packed board (`include/game.h`, `src/game.c`, `include/util.h`)

A board is one 32-bit word, two bits a cell: `00` empty, `01` O, `10` X. This module holds the
definitions only: the bit macros, the three packed words of `struct xo_table`, the table of line
segments filled by `fill_win_patterns`, win detection, move generation and the line evaluation.
-/

namespace Kxo

abbrev U32 := BitVec 32
abbrev U64 := BitVec 64

/-! ## Constants -/

def boardSize : Nat := 4
def goal : Nat := 3
def nGrids : Nat := 16
def nGames : Nat := 9
def winPattLen (n goal : Nat) : Nat := 2 * (n - goal + 1) * (n + (n - goal + 1))

def cellEmpty : U32 := 0
def cellO : U32 := 1
def cellX : U32 := 2
/-- The value `check_win` returns for a draw. -/
def cellD : U32 := 3

/-- A `char player` argument. Every caller passes `CELL_O` or `CELL_X`. -/
inductive Player where
  | o
  | x
  deriving DecidableEq, Repr

namespace Player

/-- The cell value a player writes. -/
def cell : Player → U32
  | o => cellO
  | x => cellX

/-- `player ^ CELL_O ^ CELL_X`. -/
def opp : Player → Player
  | o => x
  | x => o

end Player

/-! ## Bit macros -/

/-- `(x & ~(mask << n)) | (value << n)` on `unsigned int`. -/
def setBits (x value mask : U32) (n : Nat) : U32 := BitField.set x value mask n

/-- `(x & (mask << n)) >> n` on `unsigned int`. -/
def getBits (x mask : U32) (n : Nat) : U32 := BitField.get x mask n

def setBits64 (x value mask : U64) (n : Nat) : U64 := BitField.set x value mask n

def getBits64 (x mask : U64) (n : Nat) : U64 := BitField.get x mask n

def valSetCell (table : U32) (pos : Nat) (cell : U32) : U32 := setBits table cell 3 (pos * 2)

def tableGetCell (table : U32) (pos : Nat) : U32 := getBits table 3 (pos * 2)

/-- `SET_RECORD_CELL(moves, step, n)`: nibble `n` receives `step`. The driver passes the move
played as `step` and the step count as `n`. -/
def setRecordCell (moves : U64) (step : U64) (n : Nat) : U64 := setBits64 moves step 0xf (n * 4)

def getRecordCell (moves : U64) (id : Nat) : U64 := getBits64 moves 0xf (id * 4)

/-! ## `struct xo_table` and its attribute word -/

structure XoTable where
  attr : U32
  table : U32
  moves : U64
  deriving DecidableEq, Repr

def xoAttrId (attr : U32) : U32 := attr &&& 0xf
def xoAttrSteps (attr : U32) : U32 := getBits attr 0x1f 4
def xoAttrAiAlg (attr : U32) : U32 := getBits attr 0xf 9
def xoSetAttrSteps (attr steps : U32) : U32 := setBits attr steps 0x1f 0x4
def xoSetAttrAiAlg (attr ai1 ai2 : U32) : U32 := setBits attr (ai1 ||| (ai2 <<< 2)) 0xf 0x9

/-- The `XO_AI_*` enumeration. -/
inductive XoAi where
  | mcts
  | negamax
  | rl
  deriving DecidableEq, Repr

def xoAiTot : Nat := 3

/-- The agent with a given number, below `XO_AI_TOT`. -/
def xoAi : Nat → XoAi
  | 0 => .mcts
  | 1 => .negamax
  | _ => .rl

/-! ## Line segments -/

/-- `line_t`. -/
structure Line where
  iShift : Int
  jShift : Int
  iLowerBound : Int
  jLowerBound : Int
  iUpperBound : Int
  jUpperBound : Int

/-- The four directions: row, column, primary and secondary diagonal. -/
def lines : List Line :=
  [⟨0, 1, 0, 0, 4, 2⟩, ⟨1, 0, 0, 0, 2, 4⟩, ⟨1, 1, 0, 0, 2, 2⟩, ⟨1, -1, 0, 2, 2, 4⟩]

def getIndex (i j : Int) : Int := i * boardSize + j

/-- The values of `for (int i = lo; i < hi; ++i)`. -/
def intRange (lo hi : Int) : List Int := (List.range (hi - lo).toNat).map fun (k : Nat) => lo + k

/-- One row of `xo_segment_lines`: the cells `(i + k * i_shift, j + k * j_shift)`, `k < GOAL`. -/
def segmentAt (line : Line) (i j : Int) : List Nat :=
  (List.range goal).map fun (k : Nat) =>
    (getIndex (i + k * line.iShift) (j + k * line.jShift)).toNat

/-- `xo_segment_lines` as `fill_win_patterns` fills it. -/
def xoSegmentLines : List (List Nat) :=
  lines.flatMap fun line =>
    (intRange line.iLowerBound line.iUpperBound).flatMap fun i =>
      (intRange line.jLowerBound line.jUpperBound).map fun j => segmentAt line i j

/-- `GEN_O_WINMASK`, on a segment's cells. -/
def genOWinmask (segment : List Nat) : U32 :=
  segment.foldl (fun mask pos => mask ||| (cellO <<< (pos * 2))) 0

/-- `win_patterns` as `fill_win_patterns` fills it. -/
def winPatterns : List U32 := xoSegmentLines.map genOWinmask

/-! ## `game.c` -/

def detectEmptyCell (board : U32) : Bool :=
  let lo := board &&& 0x55555555
  let hi := board &&& 0xAAAAAAAA
  (lo ||| (hi >>> 1)) != 0x55555555

/-- The pattern loop of `check_win`; `none` when it runs to its end. -/
def checkWinLoop (table : U32) : List U32 → Option U32
  | [] => none
  | patt :: rest =>
      if table &&& patt = patt then some cellO
      else if table &&& (patt <<< 1) = patt <<< 1 then some cellX
      else checkWinLoop table rest

def checkWin (table : U32) : U32 :=
  if table = 0 then cellEmpty
  else
    match checkWinLoop table winPatterns with
    | some win => win
    | none => if detectEmptyCell table then cellEmpty else cellD

def fixedScaleBits : Nat := 16

/-- One in the 16.16 fixed point of `fixed_point_t`. -/
def fixedOne : Nat := 2 ^ fixedScaleBits

def calculateWinValue (win : U32) (player : Player) : Nat :=
  if win = player.cell then fixedOne
  else if win = player.opp.cell then 0
  else 2 ^ (fixedScaleBits - 1)

/-- The cells `available_moves` writes before its `-1` terminator, in increasing order. -/
def availableMoves (table : U32) : List Nat :=
  (List.range nGrids).filter fun i => tableGetCell table i = cellEmpty

/-! ## `util.h` -/

/-- The loop of `eval_line_segment_score` over a segment's cells, from the score so far. -/
def evalLineSegmentLoop (table : U32) (player : Player) : List Nat → Int → Int
  | [], score => score
  | pos :: rest, score =>
      let curr := tableGetCell table pos
      if curr = player.cell then
        if score < 0 then 0
        else evalLineSegmentLoop table player rest (if score ≠ 0 then score * 10 else 1)
      else if curr ≠ cellEmpty then
        if 0 < score then 0
        else evalLineSegmentLoop table player rest (if score ≠ 0 then score * 10 else -1)
      else evalLineSegmentLoop table player rest score

def evalLineSegmentScore (table : U32) (player : Player) (segment : List Nat) : Int :=
  evalLineSegmentLoop table player segment 0

def getScore (table : U32) (player : Player) : Int :=
  (xoSegmentLines.map (evalLineSegmentScore table player)).sum

end Kxo
