import Kxo.Spec.Game
import Mathlib.Tactic.IntervalCases
import Mathlib.Data.List.Nodup
import Mathlib.Algebra.Order.Group.Unbundled.Int
import Mathlib.Tactic.Linarith
import Mathlib.Tactic.Positivity
import Mathlib.Tactic.Ring

/-!
# Kxo — laws of the packed board (`src/game.h`, `src/game.c`)

The board word seen as sixteen two-bit cells: what `VAL_SET_CELL` does to each of them, which cells
`available_moves` lists, and that `check_win` never calls a board with no empty cell unfinished. The
field laws come from `BitField`; nothing above this module unfolds the bit macros again.

* **`tableGetCell_valSetCell`** — one cell after a move, whichever it is; `eq_of_tableGetCell_eq`
  says that the sixteen cells are the whole word.
* **`availableMoves_valSetCell`** — a move takes its own cell off the list and no other.
* **`exists_move_of_checkWin`** — an unfinished board has a move. All three agents rest on this:
  they are asked only for boards that `check_win` calls unfinished.
* **`not_bothLines_valSetCell`** — on a board without a winner one move cannot complete a line for
  each player, so `check_win` finds the winner whichever colour it looks for first.
* **`abs_getScore_le`** — the evaluation is at most `maxScore` in magnitude, so no score of a search
  leaves the range of its C type.
-/

namespace Kxo

open BitField

/-! ## Players

`CELL_O` and `CELL_X` are 1 and 2, so exclusive or with 3 swaps them. The source writes the opponent
so. -/

/-- `opp` is `player ^ CELL_O ^ CELL_X`. -/
theorem Player.cell_opp (p : Player) : p.opp.cell = p.cell ^^^ cellO ^^^ cellX := by
  cases p <;> rfl

/-- The opponent's opponent. -/
@[simp] theorem Player.opp_opp (p : Player) : p.opp.opp = p := by cases p <;> rfl

/-- No player is its own opponent. -/
theorem Player.opp_ne (p : Player) : p.opp ≠ p := by cases p <;> decide

/-- A piece is not the empty cell. -/
theorem Player.cell_ne_empty (p : Player) : p.cell ≠ cellEmpty := by cases p <;> decide

/-- The two pieces differ. -/
theorem Player.cell_opp_ne (p : Player) : p.opp.cell ≠ p.cell := by cases p <;> decide

/-- A piece fits the two bits of a cell. -/
theorem Player.fits_cell (p : Player) : Fits p.cell 2 := by cases p <;> decide

/-- There are only two players. -/
theorem Player.eq_of_ne_opp {p q : Player} (h : q ≠ p.opp) : q = p := by
  cases p <;> cases q <;> simp_all [Player.opp]

/-! ## Cells

The macros mask and shift; `BitField` has the laws. A cell holds two bits, so also the value 3,
`CELL_D`, that no board of a game has: `ValidBoard` excludes it. -/

/-- The mask of the macros is that of a field of two bits. -/
theorem mask_cell : (3 : U32) = ones 32 2 := by decide

/-- The cell that was set holds what it was set to. -/
theorem tableGetCell_valSetCell_same (table : U32) {pos : Nat} {c : U32} (hpos : pos < nGrids)
    (hc : Fits c 2) : tableGetCell (valSetCell table pos c) pos = c := by
  simp only [tableGetCell, valSetCell, getBits, setBits, mask_cell]
  exact get_set_same table (by unfold nGrids at hpos; omega) hc

/-- Every other cell is as it was: the fields are disjoint. -/
theorem tableGetCell_valSetCell_other (table : U32) {pos pos' : Nat} {c : U32}
    (hpos' : pos' < nGrids) (hc : Fits c 2) (hne : pos' ≠ pos) :
    tableGetCell (valSetCell table pos c) pos' = tableGetCell table pos' := by
  simp only [tableGetCell, valSetCell, getBits, setBits, mask_cell]
  exact get_set_other table (by unfold nGrids at hpos'; omega) hc (by omega)

/-- The cells of a board after `VAL_SET_CELL`, read anywhere. -/
theorem tableGetCell_valSetCell (table : U32) {pos pos' : Nat} {c : U32} (hpos' : pos' < nGrids)
    (hc : Fits c 2) :
    tableGetCell (valSetCell table pos c) pos' =
      if pos' = pos then c else tableGetCell table pos' := by
  by_cases h : pos' = pos
  · subst h
    rw [if_pos rfl, tableGetCell_valSetCell_same table hpos' hc]
  · rw [if_neg h, tableGetCell_valSetCell_other table hpos' hc h]

/-- Taking a move back: `negamax` writes `CELL_EMPTY` over the cell it tried. -/
theorem valSetCell_undo {table : U32} {pos : Nat} {c : U32} (hpos : pos < nGrids) (hc : Fits c 2)
    (hempty : tableGetCell table pos = cellEmpty) :
    valSetCell (valSetCell table pos c) pos cellEmpty = table := by
  have h := set_set_get table (n := pos * 2) (by unfold nGrids at hpos; omega) hc
  simp only [tableGetCell, getBits, mask_cell] at hempty
  simpa only [valSetCell, setBits, mask_cell, hempty] using h

/-- Every cell is empty, O or X: none holds the value reserved for a draw. -/
def ValidBoard (table : U32) : Prop := ∀ i, i < nGrids → tableGetCell table i ≠ cellD

instance (table : U32) : Decidable (ValidBoard table) := Nat.decidableBallLT _ _

/-- A move keeps a board valid, wherever it goes. -/
theorem ValidBoard.valSetCell {table : U32} (hvalid : ValidBoard table) (pos : Nat) (p : Player) :
    ValidBoard (valSetCell table pos p.cell) := by
  intro i hi
  rw [tableGetCell_valSetCell table hi p.fits_cell]
  split
  · cases p <;> decide
  · exact hvalid i hi

/-- A board is its sixteen cells. -/
theorem eq_of_tableGetCell_eq {t t' : U32}
    (h : ∀ i, i < nGrids → tableGetCell t i = tableGetCell t' i) : t = t' := by
  apply eq_of_get_eq (k := 2) (m := 16) (by omega) rfl
  intro j hj
  simpa only [tableGetCell, getBits, mask_cell] using h j hj

/-- The board at the start of a game is empty. -/
@[simp] theorem tableGetCell_zero (i : Nat) : tableGetCell 0 i = cellEmpty := by
  simp [tableGetCell, getBits, BitField.get, cellEmpty]

/-! ## Available moves

The list in the order of the cells, as the loop of `available_moves` builds it. -/

/-- `available_moves` lists the empty cells. -/
theorem mem_availableMoves {table : U32} {i : Nat} :
    i ∈ availableMoves table ↔ i < nGrids ∧ tableGetCell table i = cellEmpty := by
  simp [availableMoves]

/-- A listed move is a cell of the board. -/
theorem lt_of_mem_availableMoves {table : U32} {i : Nat} (h : i ∈ availableMoves table) :
    i < nGrids :=
  (mem_availableMoves.mp h).1

/-- No move is listed twice. -/
theorem nodup_availableMoves (table : U32) : (availableMoves table).Nodup :=
  List.nodup_range.filter _

/-- There are at most `N_GRIDS` moves, so they fit the array that `available_moves` allocates, with
its terminating `-1`. -/
theorem length_availableMoves_le (table : U32) : (availableMoves table).length ≤ nGrids := by
  simpa [availableMoves] using List.length_filter_le (fun i => tableGetCell table i = cellEmpty)
    (List.range nGrids)

/-- `-1`, or the index of an empty cell of the table. -/
def LegalMove (table : U32) (move : Int) : Prop :=
  move = -1 ∨ ∃ m, m ∈ availableMoves table ∧ move = (m : Int)

/-- Playing a cell removes exactly that cell from the list of moves. -/
theorem availableMoves_valSetCell {table : U32} {m : Nat} {c : U32} (hc : Fits c 2)
    (hne : c ≠ cellEmpty) :
    availableMoves (valSetCell table m c) = (availableMoves table).filter (· ≠ m) := by
  simp only [availableMoves, List.filter_filter]
  apply List.filter_congr
  intro i hi
  rw [tableGetCell_valSetCell table (List.mem_range.mp hi) hc]
  by_cases h : i = m <;> simp [h, hne]

/-- Each move played leaves one empty cell less. -/
theorem length_availableMoves_valSetCell {table : U32} {m : Nat} {c : U32}
    (hm : m ∈ availableMoves table) (hc : Fits c 2) (hne : c ≠ cellEmpty) :
    (availableMoves (valSetCell table m c)).length + 1 = (availableMoves table).length := by
  rw [availableMoves_valSetCell hc hne]
  have hfilter : (availableMoves table).filter (· ≠ m) = (availableMoves table).erase m := by
    rw [(nodup_availableMoves table).erase_eq_filter]
    congr 1
    funext x
    simp [Bool.beq_eq_decide_eq, bne]
  rw [hfilter, List.length_erase_of_mem hm]
  have hpos := List.length_pos_of_mem hm
  omega

/-! ## A finished board

`check_win` looks for a line first and for an empty cell after it. A board that it calls unfinished
has an empty cell, and a board that is full has an outcome. -/

/-- The packed fullness test reads one bit of every cell: it fails when some cell is empty. -/
theorem detectEmptyCell_eq_true {board : U32} {i : Nat} (hi : i < nGrids)
    (h : tableGetCell board i = cellEmpty) : detectEmptyCell board = true := by
  have hlo : board.getLsbD (i * 2 + 0) = false := by
    have hb := congrArg (BitVec.getLsbD · 0) h
    simp only [tableGetCell, getBits, mask_cell, cellEmpty] at hb
    rw [getLsbD_get _ (by unfold nGrids at hi; omega)] at hb
    simpa using hb
  have hhi : board.getLsbD (i * 2 + 1) = false := by
    have hb := congrArg (BitVec.getLsbD · 1) h
    simp only [tableGetCell, getBits, mask_cell, cellEmpty] at hb
    rw [getLsbD_get _ (by unfold nGrids at hi; omega)] at hb
    simpa using hb
  rw [detectEmptyCell, bne_iff_ne]
  intro hall
  have hbit := congrArg (BitVec.getLsbD · (i * 2)) hall
  simp only [BitVec.getLsbD_or, BitVec.getLsbD_and, BitVec.getLsbD_ushiftRight] at hbit
  rw [show i * 2 = i * 2 + 0 from rfl, hlo, show 1 + (i * 2 + 0) = i * 2 + 1 from by omega,
    hhi] at hbit
  unfold nGrids at hi
  interval_cases i <;> simp at hbit

/-- With no empty cell the fullness test holds at all sixteen positions. -/
theorem exists_empty_of_detectEmptyCell {board : U32} (h : detectEmptyCell board = true) :
    ∃ i, i < nGrids ∧ tableGetCell board i = cellEmpty := by
  by_contra hnone
  have hfull : ∀ i, i < 16 → board.getLsbD (i * 2) = true ∨ board.getLsbD (i * 2 + 1) = true := by
    intro i hi
    by_contra hbits
    simp only [not_or, Bool.not_eq_true] at hbits
    refine hnone ⟨i, hi, ?_⟩
    simp only [tableGetCell, getBits, mask_cell, cellEmpty]
    apply BitVec.eq_of_getLsbD_eq
    intro j _
    rw [getLsbD_get _ (by omega)]
    by_cases hj : j < 2
    · interval_cases j <;> simp [hbits]
    · simp [hj]
  rw [detectEmptyCell, bne_iff_ne] at h
  apply h
  apply BitVec.eq_of_getLsbD_eq
  intro i hi
  simp only [BitVec.getLsbD_or, BitVec.getLsbD_and, BitVec.getLsbD_ushiftRight]
  have hcell := hfull (i / 2) (by omega)
  -- even bits carry the test; odd bits are masked away on both sides
  interval_cases i <;> simp at hcell ⊢ <;> simp [hcell]

/-- The bit trick of the macro, in both directions: some cell has neither bit. -/
theorem detectEmptyCell_iff {board : U32} :
    detectEmptyCell board = true ↔ ∃ i, i < nGrids ∧ tableGetCell board i = cellEmpty :=
  ⟨exists_empty_of_detectEmptyCell, fun ⟨_, hi, h⟩ => detectEmptyCell_eq_true hi h⟩

/-- The loop over the patterns returns one of the players, or falls through. -/
theorem checkWinLoop_cases (table : U32) (patterns : List U32) :
    checkWinLoop table patterns = none ∨ checkWinLoop table patterns = some cellO ∨
      checkWinLoop table patterns = some cellX := by
  induction patterns with
  | nil => exact .inl rfl
  | cons patt rest ih =>
    rw [checkWinLoop]
    split
    · exact .inr (.inl rfl)
    · split
      · exact .inr (.inr rfl)
      · exact ih

/-- `check_win` returns one of the four cell values. -/
theorem checkWin_cases (table : U32) :
    checkWin table = cellEmpty ∨ checkWin table = cellO ∨ checkWin table = cellX ∨
      checkWin table = cellD := by
  unfold checkWin
  split
  · exact .inl rfl
  · rcases checkWinLoop_cases table winPatterns with h | h | h
    · simp only [h]
      split
      · exact .inl rfl
      · exact .inr (.inr (.inr rfl))
    · exact .inr (.inl (by simp [h]))
    · exact .inr (.inr (.inl (by simp [h])))

/-- **An unfinished board has a move.** -/
theorem exists_move_of_checkWin {table : U32} (h : checkWin table = cellEmpty) :
    ∃ m, m ∈ availableMoves table := by
  rw [checkWin] at h
  split at h
  case isTrue hzero =>
    exact ⟨0, mem_availableMoves.mpr ⟨by decide, by rw [hzero, tableGetCell_zero]⟩⟩
  case isFalse hne =>
    split at h
    case h_1 win hloop =>
      subst h
      rcases checkWinLoop_cases table winPatterns with hcase | hcase | hcase <;>
        rw [hloop] at hcase <;> exact absurd hcase (by decide)
    case h_2 hloop =>
      split at h
      case isTrue hdetect =>
        obtain ⟨i, hi, hempty⟩ := detectEmptyCell_iff.mp hdetect
        exact ⟨i, mem_availableMoves.mpr ⟨hi, hempty⟩⟩
      case isFalse => exact absurd h (by decide)

/-- An unfinished board has a move listed. -/
theorem availableMoves_ne_nil {table : U32} (h : checkWin table = cellEmpty) :
    availableMoves table ≠ [] := by
  obtain ⟨m, hm⟩ := exists_move_of_checkWin h
  exact List.ne_nil_of_mem hm

/-! ## Completed lines

A pattern of `win_patterns` selects O's bits of three cells; shifted by one it selects X's.
`Completes` is what the loop of `check_win` tests, for one player. -/

/-- A segment's pattern in a player's bits: `patt` for O, `patt << 1` for X. -/
def linePattern : Player → U32 → U32
  | .o, patt => patt
  | .x, patt => patt <<< 1

/-- The board has a completed line of the player. -/
def Completes (table : U32) (p : Player) : Prop :=
  ∃ patt ∈ winPatterns, table &&& linePattern p patt = linePattern p patt

def BothLines (table : U32) : Prop := Completes table .o ∧ Completes table .x

/-- No pattern is empty, so an empty board completes no line. -/
theorem linePattern_ne_zero (p : Player) : ∀ patt ∈ winPatterns, linePattern p patt ≠ 0 := by
  have hall : (winPatterns.all fun patt => linePattern p patt ≠ 0) = true := by cases p <;> decide
  simpa using hall

/-- `check_win` does not overlook a completed line. -/
theorem checkWin_of_completes {table : U32} {p : Player} (h : Completes table p) :
    checkWin table ≠ cellEmpty := by
  obtain ⟨patt, hmem, hline⟩ := h
  have hne : table ≠ 0 := by
    rintro rfl
    exact linePattern_ne_zero p patt hmem (BitVec.zero_and.symm.trans hline).symm
  -- whatever pattern the loop stops at, its result is O or X
  have hloop : ∀ patts, patt ∈ patts → ∃ win, checkWinLoop table patts = some win ∧
      win ≠ cellEmpty := by
    intro patts
    induction patts with
    | nil => simp
    | cons q rest ih =>
      intro hin
      rw [checkWinLoop]
      split
      case isTrue => exact ⟨cellO, rfl, by decide⟩
      case isFalse ho =>
        split
        case isTrue => exact ⟨cellX, rfl, by decide⟩
        case isFalse hx =>
          rcases List.mem_cons.mp hin with rfl | hin
          · -- the loop stops at the pattern itself
            cases p
            · exact absurd hline ho
            · exact absurd hline hx
          · exact ih hin
  obtain ⟨win, hwin, hne'⟩ := hloop winPatterns hmem
  rw [checkWin, if_neg hne, hwin]
  exact hne'

/-- A player's cell is outside the opponent's patterns. -/
theorem linePattern_and_cell (p : Player) : ∀ patt ∈ winPatterns, ∀ m, m < nGrids →
    (p.cell <<< (m * 2)) &&& linePattern p.opp patt = 0 := by
  have hall : (winPatterns.all fun patt => (List.range nGrids).all fun m =>
      (p.cell <<< (m * 2)) &&& linePattern p.opp patt = 0) = true := by cases p <;> decide +kernel
  intro patt hpatt m hm
  have hcell := List.all_eq_true.mp (List.all_eq_true.mp hall patt hpatt) m (List.mem_range.mpr hm)
  exact of_decide_eq_true hcell

/-- A move completes no line of the opponent. -/
theorem completes_valSetCell {table : U32} {m : Nat} {p : Player} (hm : m < nGrids)
    (h : Completes (valSetCell table m p.cell) p.opp) : Completes table p.opp := by
  obtain ⟨patt, hmem, hline⟩ := h
  refine ⟨patt, hmem, ?_⟩
  have hother : (p.cell <<< (m * 2)) &&& linePattern p.opp patt = 0#32 :=
    linePattern_and_cell p patt hmem m hm
  -- the bits of the pattern come from the old board
  have hold : table &&& (~~~((3 : U32) <<< (m * 2)) &&& linePattern p.opp patt) =
      linePattern p.opp patt := by
    rw [valSetCell, setBits, BitField.set, BitVec.and_or_distrib_right, hother, BitVec.or_zero,
      BitVec.and_assoc] at hline
    exact hline
  rw [← hold, ← BitVec.and_assoc, BitVec.and_self]

/-- A move on an unfinished board does not leave lines of both players. -/
theorem not_bothLines_valSetCell {table : U32} {m : Nat} (p : Player) (hm : m < nGrids)
    (hopen : checkWin table = cellEmpty) : ¬ BothLines (valSetCell table m p.cell) := by
  rintro ⟨ho, hx⟩
  cases p with
  | o => exact checkWin_of_completes (completes_valSetCell hm hx) hopen
  | x => exact checkWin_of_completes (completes_valSetCell hm ho) hopen

/-! ## Win values

What an outcome is worth to a player, in the fixed point of `mcts.c`. -/

/-- A win is worth at most one in fixed point, and a draw half of that. -/
theorem calculateWinValue_le (win : U32) (p : Player) : calculateWinValue win p ≤ fixedOne := by
  unfold calculateWinValue
  split
  · exact Nat.le_refl _
  · split <;> decide

/-- The two players' values of an outcome add up to one. -/
theorem calculateWinValue_add_opp (win : U32) (p : Player) :
    calculateWinValue win p + calculateWinValue win p.opp = fixedOne := by
  unfold calculateWinValue
  rw [Player.opp_opp]
  by_cases h1 : win = p.cell
  · rw [if_pos h1, if_neg (by rw [h1]; exact p.cell_opp_ne.symm), if_pos h1, Nat.add_zero]
  · by_cases h2 : win = p.opp.cell
    · rw [if_neg h1, if_pos h2, if_pos h2]
      rfl
    · rw [if_neg h1, if_neg h2, if_neg h2, if_neg h1]
      decide

/-! ## The evaluation is bounded

`eval_line_segment_score` multiplies by ten for each further piece of one colour, so a segment of
three is worth 100 at most and the board 2400. -/

/-- A line already scored `±1` or more grows at most tenfold a cell. -/
theorem abs_evalLineSegmentLoop_le (table : U32) (p : Player) (cells : List Nat) (score : Int)
    (hs : 1 ≤ |score|) :
    |evalLineSegmentLoop table p cells score| ≤ |score| * 10 ^ cells.length := by
  induction cells generalizing score with
  | nil => simp [evalLineSegmentLoop]
  | cons pos rest ih =>
    have hne : score ≠ 0 := by rintro rfl; simp at hs
    have hpow : (1 : Int) ≤ 10 ^ rest.length := one_le_pow₀ (by norm_num)
    -- a cell of the player makes the score ten times as large, an empty one keeps it
    have htenfold : |evalLineSegmentLoop table p rest (score * 10)|
        ≤ |score| * 10 ^ (pos :: rest).length := by
      have h := ih (score * 10) (by rw [abs_mul]; norm_num; omega)
      rw [abs_mul, show |(10 : Int)| = 10 from rfl] at h
      rw [List.length_cons, pow_succ]
      calc _ ≤ _ := h
        _ = _ := by ring
    have hstay : |evalLineSegmentLoop table p rest score|
        ≤ |score| * 10 ^ (pos :: rest).length := by
      refine (ih score hs).trans ?_
      rw [List.length_cons, pow_succ]
      nlinarith
    have hzero : |(0 : Int)| ≤ |score| * 10 ^ (pos :: rest).length := by
      rw [abs_zero]
      positivity
    simp only [evalLineSegmentLoop, if_pos hne]
    split_ifs
    · exact hzero
    · exact htenfold
    · exact hzero
    · exact htenfold
    · exact hstay

/-- A fresh line of `n + 1` cells scores at most `10 ^ n`. -/
theorem abs_evalLineSegmentLoop_zero_le (table : U32) (p : Player) (cells : List Nat) :
    |evalLineSegmentLoop table p cells 0| ≤ 10 ^ (cells.length - 1) := by
  induction cells with
  | nil => simp [evalLineSegmentLoop]
  | cons pos rest ih =>
    have hone : ∀ s : Int, |s| = 1 →
        |evalLineSegmentLoop table p rest s| ≤ 10 ^ ((pos :: rest).length - 1) := by
      intro s hs
      have h := abs_evalLineSegmentLoop_le table p rest s (by omega)
      rwa [hs, one_mul] at h
    have hstay : |evalLineSegmentLoop table p rest 0| ≤ 10 ^ ((pos :: rest).length - 1) :=
      ih.trans (pow_le_pow_right₀ (by norm_num) (by simp))
    simp only [evalLineSegmentLoop, lt_irrefl, if_false, ne_eq, not_true_eq_false]
    split_ifs
    · exact hone 1 rfl
    · exact hstay
    · exact hone (-1) rfl

/-- Every segment has `GOAL` cells. -/
theorem length_of_mem_xoSegmentLines {segment : List Nat} (h : segment ∈ xoSegmentLines) :
    segment.length = goal := by
  simp only [xoSegmentLines, List.mem_flatMap, List.mem_map] at h
  obtain ⟨line, _, i, _, j, _, rfl⟩ := h
  simp [segmentAt]

/-- There are as many segments as the pattern table has room for. -/
theorem length_xoSegmentLines : xoSegmentLines.length = winPattLen boardSize goal := by decide

/-- One line is worth at most `100` in either direction. -/
theorem abs_evalLineSegmentScore_le (table : U32) (p : Player) {segment : List Nat}
    (h : segment ∈ xoSegmentLines) : |evalLineSegmentScore table p segment| ≤ 100 := by
  have hloop := abs_evalLineSegmentLoop_zero_le table p segment
  rw [length_of_mem_xoSegmentLines h] at hloop
  exact hloop

/-- A sum is at most its number of terms times their largest magnitude. -/
theorem abs_sum_le {l : List Int} {b : Int} (h : ∀ x ∈ l, |x| ≤ b) : |l.sum| ≤ l.length * b := by
  induction l with
  | nil => simp
  | cons x rest ih =>
    have hx := h x (by simp)
    have hrest := ih fun y hy => h y (by simp [hy])
    rw [List.sum_cons, List.length_cons]
    calc |x + rest.sum| ≤ |x| + |rest.sum| := abs_add_le x rest.sum
      _ ≤ b + rest.length * b := by omega
      _ = _ := by push_cast; ring

/-- The largest magnitude of an evaluation: 24 lines of at most 100. -/
def maxScore : Int := 2400

/-- **The evaluation of any board, for either player, lies in `[-2400, 2400]`.** -/
theorem abs_getScore_le (table : U32) (p : Player) : |getScore table p| ≤ maxScore := by
  have h : |getScore table p| ≤
      (xoSegmentLines.map (evalLineSegmentScore table p)).length * 100 := by
    apply abs_sum_le
    intro x hx
    obtain ⟨segment, hmem, rfl⟩ := List.mem_map.mp hx
    exact abs_evalLineSegmentScore_le table p hmem
  rw [List.length_map, length_xoSegmentLines] at h
  exact h

end Kxo
