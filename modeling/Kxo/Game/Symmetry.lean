import Kxo.Game.Lines
import Mathlib.Data.List.Sort

/-!
# Kxo — what the evaluation counts (`include/util.h`)

`eval_line_segment_score` walks a line cell by cell and stops at the second colour it meets. What it
returns depends only on how many stones each player has there (`evalLineSegmentScore_eq`), so the
order of a line's cells does not matter; and the table of lines is closed under the rotations and
reflections of the board (`segmentImages_perm`). Hence `get_score` is zero-sum, changes sign when
the colours are swapped, and is the same on a board seen from any side.
-/

namespace Kxo

open BitField

/-! ## Boards, cell by cell

`boardOf` builds a word from its cells. Swapping the colours and turning the board are given by
their cells, and `tableGetCell_boardOf` reads them back. -/

/-- The board with the given cells. -/
def boardOf (f : Nat → U32) : U32 :=
  (List.range nGrids).foldl (fun table pos => valSetCell table pos (f pos)) 0

/-- The other player's stone; an empty cell stays empty. -/
def swapCell (cell : U32) : U32 :=
  if cell = cellO then cellX else if cell = cellX then cellO else cell

/-- O and X swapped on the whole board. -/
def swapped (table : U32) : U32 := boardOf fun pos => swapCell (tableGetCell table pos)

/-- The rotations and reflections of the square: rows and columns turned around or not, and then
exchanged or not. -/
structure Symmetry where
  flipRows : Bool
  flipCols : Bool
  transpose : Bool
  deriving DecidableEq, Repr

/-- `GET_ROW` or `GET_COL` of a cell, counted from the other side. -/
def flip (turned : Bool) (k : Nat) : Nat := if turned then boardSize - 1 - k else k

/-- The cell that a symmetry takes to `pos`. -/
def Symmetry.cell (s : Symmetry) (pos : Nat) : Nat :=
  let row := flip s.flipRows (pos / boardSize)
  let col := flip s.flipCols (pos % boardSize)
  if s.transpose then col * boardSize + row else row * boardSize + col

/-- The board seen through a symmetry. -/
def Symmetry.board (s : Symmetry) (table : U32) : U32 :=
  boardOf fun pos => tableGetCell table (s.cell pos)

section Boards

variable {table : U32} {pos : Nat}

/-- What is read from a cell fits it. -/
theorem fits_tableGetCell (table : U32) (hpos : pos < nGrids) :
    Fits (tableGetCell table pos) 2 := by
  rw [tableGetCell, getBits, mask_cell]
  exact fits_get table (by unfold nGrids at hpos; omega)

/-- The cells of a board that was put together cell by cell. -/
theorem tableGetCell_boardOf {f : Nat → U32} (hf : ∀ i, i < nGrids → Fits (f i) 2)
    (hpos : pos < nGrids) : tableGetCell (boardOf f) pos = f pos := by
  have hloop : ∀ n, n ≤ nGrids →
      tableGetCell ((List.range n).foldl (fun table i => valSetCell table i (f i)) 0) pos =
        if pos < n then f pos else cellEmpty := by
    intro n hn
    induction n with
    | zero => exact tableGetCell_zero pos
    | succ n ih =>
      rw [List.range_succ, List.foldl_append, List.foldl_cons, List.foldl_nil,
        tableGetCell_valSetCell _ hpos (hf n hn), ih (by omega)]
      by_cases heq : pos = n
      · subst heq
        rw [if_pos rfl, if_pos (by omega)]
      · rw [if_neg heq]
        congr 1
        exact propext (by omega)
  rw [boardOf, hloop nGrids le_rfl, if_pos hpos]

/-- A symmetry takes cells to cells. -/
theorem Symmetry.cell_lt (s : Symmetry) (hpos : pos < nGrids) : s.cell pos < nGrids := by
  have hflip : ∀ turned k, k < boardSize → flip turned k < boardSize := by
    intro turned k hk
    unfold flip
    split <;> omega
  have hrow := hflip s.flipRows (pos / boardSize) (by simp only [boardSize, nGrids] at *; omega)
  have hcol := hflip s.flipCols (pos % boardSize) (by simp only [boardSize]; omega)
  simp only [Symmetry.cell, boardSize, nGrids] at *
  split <;> omega

/-- The board seen through a symmetry, cell by cell. -/
theorem Symmetry.tableGetCell_board (s : Symmetry) (table : U32) (hpos : pos < nGrids) :
    tableGetCell (s.board table) pos = tableGetCell table (s.cell pos) :=
  tableGetCell_boardOf (fun _ hi => fits_tableGetCell table (s.cell_lt hi)) hpos

/-- A symmetry keeps a board valid: it only moves cells. -/
theorem ValidBoard.board (hvalid : ValidBoard table) (s : Symmetry) :
    ValidBoard (s.board table) := by
  intro i hi
  rw [s.tableGetCell_board table hi]
  exact hvalid _ (s.cell_lt hi)

/-- The board with O and X swapped, cell by cell. -/
theorem tableGetCell_swapped (table : U32) (hpos : pos < nGrids) :
    tableGetCell (swapped table) pos = swapCell (tableGetCell table pos) := by
  refine tableGetCell_boardOf (fun i hi => ?_) hpos
  unfold swapCell
  split
  · decide
  · split
    · decide
    · exact fits_tableGetCell table hi

/-- On a valid board a cell is a player's after the swap if it was the opponent's before. -/
theorem swapCell_eq_iff (hvalid : ValidBoard table) (hpos : pos < nGrids) (p : Player) :
    swapCell (tableGetCell table pos) = p.cell ↔ tableGetCell table pos = p.opp.cell := by
  rcases cell_cases hpos (hvalid pos hpos) p with h | h | h <;> rw [h] <;> cases p <;> decide

/-- Swapping the colours keeps a board valid. -/
theorem ValidBoard.swapped (hvalid : ValidBoard table) : ValidBoard (swapped table) := by
  intro i hi
  rw [tableGetCell_swapped table hi]
  rcases cell_cases hi (hvalid i hi) .o with h | h | h <;> rw [h] <;> decide

end Boards

/-! ## One line

The loop of `eval_line_segment_score` keeps one number whose sign says which colour it has met.
`lineValue` is that number as a function of the two counts; the loop is followed from any point on,
where the pieces so far are of one colour. -/

/-- The player's stones on a line. -/
def stones (table : U32) (p : Player) (segment : List Nat) : Nat :=
  segment.countP fun pos => tableGetCell table pos = p.cell

/-- What a line is worth with `own` stones of the player and `other` of the opponent. -/
def lineValue (own other : Nat) : Int :=
  match own, other with
  | 0, 0 => 0
  | own + 1, 0 => 10 ^ own
  | 0, other + 1 => -10 ^ other
  | _ + 1, _ + 1 => 0

/-- What a line is worth changes sign with the colours. -/
theorem lineValue_swap (own other : Nat) : lineValue other own = -lineValue own other := by
  cases own <;> cases other <;> simp [lineValue]

/-- A stone more of the only colour so far. -/
theorem lineValue_succ_left (own : Nat) :
    ¬ lineValue own 0 < 0 ∧
      (if lineValue own 0 ≠ 0 then lineValue own 0 * 10 else 1) = lineValue (own + 1) 0 := by
  cases own with
  | zero => exact ⟨by decide, rfl⟩
  | succ own =>
    have hpos : (0 : Int) < 10 ^ own := by positivity
    refine ⟨not_lt.mpr hpos.le, ?_⟩
    rw [if_pos (show lineValue (own + 1) 0 ≠ 0 from hpos.ne')]
    exact (pow_succ (10 : Int) own).symm

/-- The other player's next piece: the mirror image of `lineValue_succ_left`. -/
theorem lineValue_succ_right (other : Nat) :
    ¬ 0 < lineValue 0 other ∧
      (if lineValue 0 other ≠ 0 then lineValue 0 other * 10 else -1) =
        lineValue 0 (other + 1) := by
  obtain ⟨hsign, hnext⟩ := lineValue_succ_left other
  rw [lineValue_swap other 0, lineValue_swap (other + 1) 0, ← hnext]
  refine ⟨by omega, ?_⟩
  split_ifs <;> omega

/-- A line with pieces of both colours is worth nothing. -/
theorem lineValue_eq_zero {own other : Nat} (hown : 0 < own) (hother : 0 < other) :
    lineValue own other = 0 := by
  obtain ⟨own, rfl⟩ := Nat.exists_eq_succ_of_ne_zero hown.ne'
  obtain ⟨other, rfl⟩ := Nat.exists_eq_succ_of_ne_zero hother.ne'
  rfl

/-- One line of a board, and its two counts. -/
def lineScore (table : U32) (p : Player) (segment : List Nat) : Int :=
  lineValue (stones table p segment) (stones table p.opp segment)

section OneLine

variable {table : U32} {p : Player} {pos : Nat}

/-- An empty cell is passed over. -/
theorem evalLineSegmentLoop_empty (h : tableGetCell table pos = cellEmpty) (rest : List Nat)
    (score : Int) :
    evalLineSegmentLoop table p (pos :: rest) score = evalLineSegmentLoop table p rest score := by
  simp only [evalLineSegmentLoop, h, p.cell_ne_empty.symm, if_false, ne_eq, not_true_eq_false]

/-- A piece of the player's: the score grows tenfold, unless the opponent has been met, which ends
the loop. -/
theorem evalLineSegmentLoop_own (h : tableGetCell table pos = p.cell) (rest : List Nat)
    (score : Int) :
    evalLineSegmentLoop table p (pos :: rest) score =
      if score < 0 then 0
      else evalLineSegmentLoop table p rest (if score ≠ 0 then score * 10 else 1) := by
  simp only [evalLineSegmentLoop, h, if_true]

/-- A piece of the opponent's, with the sign turned. -/
theorem evalLineSegmentLoop_other (h : tableGetCell table pos = p.opp.cell) (rest : List Nat)
    (score : Int) :
    evalLineSegmentLoop table p (pos :: rest) score =
      if 0 < score then 0
      else evalLineSegmentLoop table p rest (if score ≠ 0 then score * 10 else -1) := by
  simp only [evalLineSegmentLoop, h, p.cell_opp_ne, p.opp.cell_ne_empty, if_false, if_true, ne_eq,
    not_false_eq_true]

/-- The pieces on a line, from its first cell on. -/
theorem stones_cons (table : U32) (p : Player) (pos : Nat) (rest : List Nat) :
    stones table p (pos :: rest) =
      stones table p rest + if tableGetCell table pos = p.cell then 1 else 0 := by
  simp [stones, List.countP_cons]

/-- The loop's score is the value of the stones it has met, of one colour so far. -/
theorem evalLineSegmentLoop_lineValue (hvalid : ValidBoard table) {segment : List Nat}
    (hlt : ∀ pos ∈ segment, pos < nGrids) {own other : Nat} (hone : own = 0 ∨ other = 0) :
    evalLineSegmentLoop table p segment (lineValue own other) =
      lineValue (own + stones table p segment) (other + stones table p.opp segment) := by
  induction segment generalizing own other with
  | nil => rfl
  | cons pos rest ih =>
    have ih' := @ih fun q hq => hlt q (by simp [hq])
    have hpos := hlt pos (by simp)
    rcases cell_cases hpos (hvalid pos hpos) p with hempty | hown | hother
    · rw [evalLineSegmentLoop_empty hempty, ih' hone, stones_cons, stones_cons, hempty,
        if_neg p.cell_ne_empty.symm, if_neg p.opp.cell_ne_empty.symm, Nat.add_zero, Nat.add_zero]
    · rw [evalLineSegmentLoop_own hown, stones_cons, stones_cons, hown, if_pos rfl,
        if_neg p.cell_opp_ne.symm, Nat.add_zero (stones table p.opp rest)]
      cases other with
      | zero =>
        obtain ⟨hsign, hnext⟩ := lineValue_succ_left own
        rw [if_neg hsign, hnext, ih' (.inr rfl), Nat.add_right_comm, Nat.add_assoc]
      | succ other =>
        -- the second colour: the loop returns
        obtain rfl : own = 0 := by omega
        have hneg : lineValue 0 (other + 1) < 0 := by simp [lineValue]
        rw [if_pos hneg, lineValue_eq_zero (by omega) (by omega)]
    · rw [evalLineSegmentLoop_other hother, stones_cons, stones_cons, hother, if_pos rfl,
        if_neg p.cell_opp_ne, Nat.add_zero]
      cases own with
      | zero =>
        obtain ⟨hsign, hnext⟩ := lineValue_succ_right other
        rw [if_neg hsign, hnext, ih' (.inl rfl), Nat.add_right_comm other, Nat.add_assoc other]
      | succ own =>
        obtain rfl : other = 0 := by omega
        have hpos : 0 < lineValue (own + 1) 0 := by simp [lineValue]
        rw [if_pos hpos, lineValue_eq_zero (by omega) (by omega)]

/-- **A line is worth what its stones are, in whatever order they lie.** -/
theorem evalLineSegmentScore_eq (hvalid : ValidBoard table) (p : Player) {segment : List Nat}
    (hsegment : segment ∈ xoSegmentLines) :
    evalLineSegmentScore table p segment = lineScore table p segment := by
  obtain ⟨l, rfl⟩ := mem_xoSegmentLines_iff.mp hsegment
  have h := evalLineSegmentLoop_lineValue (p := p) hvalid (fun _ => l.lt_of_mem_cells)
    (.inl rfl : (0 : Nat) = 0 ∨ (0 : Nat) = 0)
  rw [Nat.zero_add, Nat.zero_add] at h
  exact h

/-- The evaluation is a sum over the lines, of what each is worth by its two counts. -/
theorem getScore_eq (hvalid : ValidBoard table) (p : Player) :
    getScore table p = (xoSegmentLines.map (lineScore table p)).sum := by
  rw [getScore, List.map_congr_left fun segment => evalLineSegmentScore_eq hvalid p]

/-- A line is worth the opposite to the opponent. -/
theorem lineScore_opp (table : U32) (p : Player) (segment : List Nat) :
    lineScore table p.opp segment = -lineScore table p segment := by
  rw [lineScore, lineScore, Player.opp_opp, lineValue_swap]

/-- **A board is worth to one player what it costs the other.** -/
theorem getScore_opp (hvalid : ValidBoard table) (p : Player) :
    getScore table p.opp = -getScore table p := by
  rw [getScore_eq hvalid, getScore_eq hvalid,
    List.map_congr_left fun segment _ => lineScore_opp table p segment, List.sum_neg, List.map_map]
  rfl

end OneLine

/-! ## Symmetries

Rows and columns may be counted from the other end, and exchanged: eight symmetries. That the table
of lines is closed under them is checked by evaluation, over the table; everything else follows from
its being a permutation. -/

/-- **The symmetries permute the lines**, whose cells they may list in another order. -/
theorem segmentImages_perm (s : Symmetry) :
    (xoSegmentLines.map fun segment => (segment.map s.cell).insertionSort (· ≤ ·)).Perm
      (xoSegmentLines.map fun segment => segment.insertionSort (· ≤ ·)) := by
  obtain ⟨flipRows, flipCols, transpose⟩ := s
  revert flipRows flipCols transpose
  decide +kernel

/-- A symmetry permutes the cells of the board. -/
theorem cells_perm (s : Symmetry) :
    ((List.range nGrids).map s.cell).Perm (List.range nGrids) := by
  obtain ⟨flipRows, flipCols, transpose⟩ := s
  revert flipRows flipCols transpose
  decide +kernel

section Symmetries

variable {table : U32} {p : Player}

/-- What is read off the lines of the board seen through a symmetry is read off the lines, in
another order. -/
theorem map_segments_perm {β : Type} (s : Symmetry) {f g : List Nat → β}
    (hperm : ∀ segment segment', segment.Perm segment' → g segment = g segment')
    (himage : ∀ l : BoardLine, f l.cells = g (l.cells.map s.cell)) :
    (xoSegmentLines.map f).Perm (xoSegmentLines.map g) := by
  have hsort : ∀ segment : List Nat, g segment = g (segment.insertionSort (· ≤ ·)) :=
    fun segment => hperm _ _ (segment.perm_insertionSort _).symm
  have hf : ∀ segment ∈ xoSegmentLines,
      f segment = g ((segment.map s.cell).insertionSort (· ≤ ·)) := by
    intro segment hsegment
    obtain ⟨l, rfl⟩ := mem_xoSegmentLines_iff.mp hsegment
    rw [himage, hsort]
  have h := (segmentImages_perm s).map g
  rw [List.map_map, List.map_map] at h
  rw [List.map_congr_left hf, List.map_congr_left fun segment _ => hsort segment]
  exact h

/-- The order of a line's cells does not matter to its counts. -/
theorem stones_perm {segment segment' : List Nat} (h : segment.Perm segment') :
    stones table p segment = stones table p segment' := h.countP_eq _

/-- The pieces on a line of the turned board are those on its image. -/
theorem stones_board (s : Symmetry) (l : BoardLine) :
    stones (s.board table) p l.cells = stones table p (l.cells.map s.cell) := by
  rw [stones, stones, List.countP_map]
  refine List.countP_congr fun pos hpos => ?_
  rw [s.tableGetCell_board table (l.lt_of_mem_cells hpos)]
  rfl

/-- The evaluation does not change under a symmetry: the lines are permuted. -/
theorem getScore_board (hvalid : ValidBoard table) (s : Symmetry) (p : Player) :
    getScore (s.board table) p = getScore table p := by
  rw [getScore_eq (hvalid.board s), getScore_eq hvalid]
  refine (map_segments_perm s (fun _ _ h => ?_) fun l => ?_).sum_eq
  · rw [lineScore, lineScore, stones_perm h, stones_perm h]
  · rw [lineScore, lineScore, stones_board, stones_board]

/-- The evaluation changes sign when the colours are swapped. -/
theorem getScore_swapped (hvalid : ValidBoard table) (p : Player) :
    getScore (swapped table) p = -getScore table p := by
  have hstones : ∀ q : Player, ∀ l : BoardLine,
      stones (swapped table) q l.cells = stones table q.opp l.cells := by
    intro q l
    refine List.countP_congr fun pos hpos => ?_
    rw [decide_eq_true_eq, decide_eq_true_eq, tableGetCell_swapped table (l.lt_of_mem_cells hpos),
      swapCell_eq_iff hvalid (l.lt_of_mem_cells hpos)]
  have hline : ∀ segment ∈ xoSegmentLines,
      lineScore (swapped table) p segment = lineScore table p.opp segment := by
    intro segment hsegment
    obtain ⟨l, rfl⟩ := mem_xoSegmentLines_iff.mp hsegment
    rw [lineScore, lineScore, hstones, hstones]
  rw [getScore_eq hvalid.swapped, List.map_congr_left hline, ← getScore_eq hvalid,
    getScore_opp hvalid]

/-- A player owns a line if one has three of the player's pieces. -/
theorem ownsLine_iff_stones : OwnsLine table p ↔ goal ∈ xoSegmentLines.map (stones table p) := by
  have hline : ∀ l : BoardLine, Owns table p l ↔ stones table p l.cells = goal := by
    intro l
    rw [← length_of_mem_xoSegmentLines (mem_xoSegmentLines_iff.mpr ⟨l, rfl⟩), stones,
      List.countP_eq_length]
    simp only [Owns, decide_eq_true_eq]
  rw [List.mem_map]
  constructor
  · rintro ⟨l, hl⟩
    exact ⟨l.cells, mem_xoSegmentLines_iff.mpr ⟨l, rfl⟩, (hline l).mp hl⟩
  · rintro ⟨segment, hsegment, hall⟩
    obtain ⟨l, rfl⟩ := mem_xoSegmentLines_iff.mp hsegment
    exact ⟨l, (hline l).mpr hall⟩

/-- Owning a line does not depend on the side the board is seen from. -/
theorem ownsLine_board (s : Symmetry) : OwnsLine (s.board table) p ↔ OwnsLine table p := by
  rw [ownsLine_iff_stones, ownsLine_iff_stones]
  exact (map_segments_perm s (fun _ _ => stones_perm) (stones_board s)).mem_iff

/-- A symmetry moves an empty cell to an empty cell. -/
theorem exists_empty_board (s : Symmetry) :
    (∃ i, i < nGrids ∧ tableGetCell (s.board table) i = cellEmpty) ↔
      ∃ i, i < nGrids ∧ tableGetCell table i = cellEmpty := by
  constructor
  · rintro ⟨i, hi, hempty⟩
    exact ⟨s.cell i, s.cell_lt hi, by rw [← s.tableGetCell_board table hi, hempty]⟩
  · rintro ⟨i, hi, hempty⟩
    obtain ⟨j, hj, rfl⟩ := List.mem_map.mp ((cells_perm s).mem_iff.mpr (List.mem_range.mpr hi))
    have hj := List.mem_range.mp hj
    exact ⟨j, hj, by rw [s.tableGetCell_board table hj, hempty]⟩

/-- The outcome of a board is that of the board seen from any side. When both players own a line the
one found first decides, and which that is depends on the side. -/
theorem checkWin_board (hvalid : ValidBoard table) (s : Symmetry)
    (hone : ¬ (OwnsLine table .o ∧ OwnsLine table .x)) :
    checkWin (s.board table) = checkWin table := by
  have hcompletes : ∀ q, Completes (s.board table) q ↔ Completes table q := by
    intro q
    rw [completes_iff (hvalid.board s), completes_iff hvalid, ownsLine_board]
  rw [← completes_iff hvalid, ← completes_iff hvalid] at hone
  by_cases hsome : ∃ q, Completes table q
  · obtain ⟨q, hq⟩ := hsome
    have hopp : ¬ Completes table q.opp := by
      intro hq'
      cases q with
      | o => exact hone ⟨hq, hq'⟩
      | x => exact hone ⟨hq', hq⟩
    rw [checkWin_of_owner hq hopp,
      checkWin_of_owner ((hcompletes q).mpr hq) fun h => hopp ((hcompletes _).mp h)]
  · have hnone : ∀ q, ¬ Completes table q := fun q hq => hsome ⟨q, hq⟩
    rw [checkWin_of_not_completes hnone,
      checkWin_of_not_completes fun q hq => hnone q ((hcompletes q).mp hq)]
    simp only [exists_empty_board]

/-- **The evaluation is zero-sum and symmetric.** On every board of empty, O and X cells,
`get_score` for one player is the negative of that for the other; swapping the colours negates it;
it is the same on the board turned or reflected in any of the eight ways, and so is `check_win`
unless both players own a line; and it is the sum over the 24 lines of 0 where there are no stones
or stones of both, and of `±10 ^ (k - 1)` where there are `k` of one. -/
theorem getScore_symmetric {table : U32} (hvalid : ValidBoard table) :
    getScore table .o = -getScore table .x ∧
    (∀ p, getScore (swapped table) p = -getScore table p) ∧
    (∀ s : Symmetry, (∀ p, getScore (s.board table) p = getScore table p) ∧
      (¬ (OwnsLine table .o ∧ OwnsLine table .x) → checkWin (s.board table) = checkWin table)) ∧
    xoSegmentLines.length = 24 ∧
    ∀ p, getScore table p =
      (xoSegmentLines.map fun segment =>
        lineValue (stones table p segment) (stones table p.opp segment)).sum :=
  ⟨getScore_opp hvalid .x, getScore_swapped hvalid,
    fun s => ⟨getScore_board hvalid s, checkWin_board hvalid s⟩, length_xoSegmentLines,
    getScore_eq hvalid⟩

/-- O owns the first row, X a stone of the second. -/
theorem getScore_symmetric_row :
    ValidBoard 0x00000215 ∧ getScore 0x00000215 .o = -getScore 0x00000215 .x :=
  ⟨by decide, (getScore_symmetric (by decide)).1⟩

end Symmetries

end Kxo
