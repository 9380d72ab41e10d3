import Kxo.Game.Board

/-!
# Kxo — lines by the rules (`src/game.c`)

A line is three cells in one of four directions, all of them on the board. `fill_win_patterns` lists
exactly these, each once, and `check_win` reads off the packed word who owns one.

The rules are stated with coordinates (`BoardLine`, `Owns`), in integers, so that a line that leaves
the board is one that has a coordinate out of range. The code has neither: it enumerates start cells
between bounds, and compares masks of a packed word.

* **`mem_xoSegmentLines_iff`** — the enumeration lists the lines of the rules, and nothing else. The
  bounds of the loops are the condition that the far end is on the board (`bounds_iff_inside`).
* **`and_linePattern_iff`** — a pattern of a segment is contained in the board word exactly when the
  player has the segment's three cells.
* **`completes_iff`** — so the code's test is the rules' one.
* **`check_win_rules`** — what `check_win` returns on every valid board, in the words of the rules.
-/

namespace Kxo

/-! ## The rules

Three in a row, in coordinates. Directions are taken right and down, so a line is counted from one
of its ends only. -/

/-- Right, down, and the two diagonals. -/
def directions : List (Int × Int) := [(0, 1), (1, 0), (1, 1), (1, -1)]

def OnBoard (r c : Int) : Prop := 0 ≤ r ∧ r < boardSize ∧ 0 ≤ c ∧ c < boardSize

/-- The number of a cell. -/
def cellAt (r c : Int) : Nat := (boardSize * r + c).toNat

/-- Three cells on the board, from one of them on in a direction. -/
structure BoardLine where
  row : Int
  col : Int
  dRow : Int
  dCol : Int
  direction : (dRow, dCol) ∈ directions
  inside : ∀ k : Nat, k < goal → OnBoard (row + k * dRow) (col + k * dCol)

def BoardLine.cells (l : BoardLine) : List Nat :=
  (List.range goal).map fun (k : Nat) => cellAt (l.row + k * l.dRow) (l.col + k * l.dCol)

/-- A player has all three cells of a line. -/
def Owns (table : U32) (p : Player) (l : BoardLine) : Prop :=
  ∀ pos ∈ l.cells, tableGetCell table pos = p.cell

def OwnsLine (table : U32) (p : Player) : Prop := ∃ l, Owns table p l

/-! ## The enumeration

`xo_segment_lines` as it is filled: for each entry of `lines` two nested loops over the start cells,
and an inner one over the cells of the segment. -/

/-- The values of a C `for` loop with an upper bound that is not reached. -/
theorem mem_intRange {lo hi x : Int} : x ∈ intRange lo hi ↔ lo ≤ x ∧ x < hi := by
  simp only [intRange, List.mem_map, List.mem_range]
  constructor
  · rintro ⟨k, hk, rfl⟩
    omega
  · rintro ⟨hlo, hhi⟩
    exact ⟨(x - lo).toNat, by omega, by omega⟩

/-- A segment of the table comes from one of the four entries and two loop counters. -/
theorem mem_xoSegmentLines {segment : List Nat} :
    segment ∈ xoSegmentLines ↔ ∃ line ∈ lines, ∃ i j : Int,
      (line.iLowerBound ≤ i ∧ i < line.iUpperBound) ∧
        (line.jLowerBound ≤ j ∧ j < line.jUpperBound) ∧ segmentAt line i j = segment := by
  simp only [xoSegmentLines, List.mem_flatMap, List.mem_map, mem_intRange]
  constructor
  · rintro ⟨line, hline, i, hi, j, hj, rfl⟩
    exact ⟨line, hline, i, j, hi, hj, rfl⟩
  · rintro ⟨line, hline, i, j, hi, hj, rfl⟩
    exact ⟨line, hline, i, hi, j, hj, rfl⟩

/-- The bounds of a direction are those of the lines that fit on the board. -/
theorem bounds_iff_inside {line : Line} (hline : line ∈ lines) (i j : Int) :
    (line.iLowerBound ≤ i ∧ i < line.iUpperBound) ∧
        (line.jLowerBound ≤ j ∧ j < line.jUpperBound) ↔
      ∀ k : Nat, k < goal → OnBoard (i + k * line.iShift) (j + k * line.jShift) := by
  simp only [lines, List.mem_cons, List.not_mem_nil, or_false] at hline
  rcases hline with rfl | rfl | rfl | rfl <;> simp only [OnBoard, goal, boardSize] <;>
    refine ⟨fun h k hk => by omega, fun h => ?_⟩ <;>
    have hfirst := h 0 (by omega) <;> have hlast := h 2 (by omega) <;> omega

/-- The directions of the two tables. -/
theorem mem_directions {d : Int × Int} :
    d ∈ directions ↔ ∃ line ∈ lines, (line.iShift, line.jShift) = d := by
  have hmap : directions = lines.map fun line => (line.iShift, line.jShift) := rfl
  rw [hmap, List.mem_map]

/-- The cells from a start cell in a direction are what the loop stores. -/
theorem cells_eq_segmentAt (line : Line) (i j : Int) :
    ((List.range goal).map fun (k : Nat) => cellAt (i + k * line.iShift) (j + k * line.jShift)) =
      segmentAt line i j := by
  refine List.map_congr_left fun k _ => congrArg Int.toNat ?_
  rw [getIndex, Int.mul_comm]

/-- **`fill_win_patterns` lists the lines.** -/
theorem mem_xoSegmentLines_iff {segment : List Nat} :
    segment ∈ xoSegmentLines ↔ ∃ l : BoardLine, l.cells = segment := by
  rw [mem_xoSegmentLines]
  constructor
  · rintro ⟨line, hline, i, j, hi, hj, rfl⟩
    have hinside := (bounds_iff_inside hline i j).mp ⟨hi, hj⟩
    exact ⟨⟨i, j, line.iShift, line.jShift, mem_directions.mpr ⟨line, hline, rfl⟩, hinside⟩,
      cells_eq_segmentAt line i j⟩
  · rintro ⟨⟨row, col, dRow, dCol, hdir, hinside⟩, rfl⟩
    obtain ⟨line, hline, hd⟩ := mem_directions.mp hdir
    obtain ⟨rfl, rfl⟩ := Prod.mk.inj hd
    obtain ⟨hi, hj⟩ := (bounds_iff_inside hline row col).mpr hinside
    exact ⟨line, hline, row, col, hi, hj, (cells_eq_segmentAt line row col).symm⟩

/-- The cells of a line are cells of the board. -/
theorem BoardLine.lt_of_mem_cells (l : BoardLine) {pos : Nat} (h : pos ∈ l.cells) :
    pos < nGrids := by
  obtain ⟨k, hk, rfl⟩ := List.mem_map.mp h
  have hinside := l.inside k (List.mem_range.mp hk)
  simp only [OnBoard, boardSize, cellAt, nGrids] at *
  omega

/-! ## Masks

A board is valid when each cell has at most one of its two bits. Then a mask of one player's bits is
contained in the board exactly when the cells are all that player's. -/

/-- The bit of a cell that the player's pieces have. -/
def Player.bit : Player → Nat
  | .o => 0
  | .x => 1

/-- A cell of a valid board is empty or one of the players'. -/
theorem cell_cases {table : U32} {pos : Nat} (hpos : pos < nGrids)
    (hvalid : tableGetCell table pos ≠ cellD) (p : Player) :
    tableGetCell table pos = cellEmpty ∨ tableGetCell table pos = p.cell ∨
      tableGetCell table pos = p.opp.cell := by
  have hfits : (tableGetCell table pos).toNat < 4 := by
    rw [tableGetCell, getBits, mask_cell]
    exact BitField.fits_get table (by unfold nGrids at hpos; omega)
  generalize tableGetCell table pos = cell at hvalid hfits
  have hcases : cell = cellEmpty ∨ cell = cellO ∨ cell = cellX ∨ cell = cellD := by
    have hnat : cell.toNat = 0 ∨ cell.toNat = 1 ∨ cell.toNat = 2 ∨ cell.toNat = 3 := by omega
    simpa [← BitVec.toNat_inj, cellEmpty, cellO, cellX, cellD] using hnat
  rcases hcases with rfl | rfl | rfl | rfl
  · exact .inl rfl
  · cases p <;> decide
  · cases p <;> decide
  · exact absurd rfl hvalid

/-- On a valid board one bit of a cell tells whether it is the player's. -/
theorem getLsbD_cell {table : U32} {pos : Nat} (hpos : pos < nGrids)
    (hvalid : tableGetCell table pos ≠ cellD) (p : Player) :
    table.getLsbD (pos * 2 + p.bit) = true ↔ tableGetCell table pos = p.cell := by
  have hcell : ∀ j, j < 2 → (tableGetCell table pos).getLsbD j = table.getLsbD (pos * 2 + j) := by
    intro j hj
    rw [tableGetCell, getBits, mask_cell,
      BitField.getLsbD_get _ (by unfold nGrids at hpos; omega)]
    simp [hj]
  have hbit : p.bit < 2 := by cases p <;> decide
  rw [← hcell _ hbit]
  rcases cell_cases hpos hvalid p with hempty | hown | hother
  · rw [hempty]
    cases p <;> decide
  · rw [hown]
    cases p <;> decide
  · rw [hother]
    cases p <;> decide

/-- The mask of a segment has the lower bit of each of its cells, and no other. -/
theorem getLsbD_genOWinmask {segment : List Nat} (hlt : ∀ pos ∈ segment, pos < nGrids) (i : Nat) :
    (genOWinmask segment).getLsbD i = true ↔ ∃ pos ∈ segment, i = pos * 2 := by
  have hloop : ∀ mask : U32,
      (segment.foldl (fun mask pos => mask ||| (cellO <<< (pos * 2))) mask).getLsbD i = true ↔
        mask.getLsbD i = true ∨ ∃ pos ∈ segment, i = pos * 2 := by
    induction segment with
    | nil => simp
    | cons pos rest ih =>
      intro mask
      have hpos := hlt pos (by simp)
      have hone : (cellO <<< (pos * 2)).getLsbD i = true ↔ i = pos * 2 := by
        simp only [nGrids] at hpos
        simp [cellO]
        omega
      rw [List.foldl_cons, ih fun q hq => hlt q (by simp [hq]), BitVec.getLsbD_or, Bool.or_eq_true,
        hone]
      simp only [List.mem_cons, exists_eq_or_imp, or_assoc]
  rw [genOWinmask, hloop]
  simp

/-- A player's mask of a segment has the player's bit of each of its cells. -/
theorem getLsbD_linePattern {segment : List Nat} (hlt : ∀ pos ∈ segment, pos < nGrids) (p : Player)
    (i : Nat) : (linePattern p (genOWinmask segment)).getLsbD i = true ↔
      ∃ pos ∈ segment, i = pos * 2 + p.bit := by
  cases p with
  | o => exact getLsbD_genOWinmask hlt i
  | x =>
    rw [linePattern, BitVec.getLsbD_shiftLeft]
    simp only [Bool.and_eq_true, decide_eq_true_eq, Bool.not_eq_true', decide_eq_false_iff_not,
      getLsbD_genOWinmask hlt, Player.bit]
    constructor
    · rintro ⟨⟨_, hi⟩, pos, hpos, heq⟩
      exact ⟨pos, hpos, by omega⟩
    · rintro ⟨pos, hpos, rfl⟩
      have hpos' := hlt pos hpos
      simp only [nGrids] at hpos'
      exact ⟨⟨by omega, by omega⟩, pos, hpos, by omega⟩

/-- **A pattern matches where its cells are the player's.** -/
theorem and_linePattern_iff {table : U32} (hvalid : ValidBoard table) (p : Player)
    {segment : List Nat} (hlt : ∀ pos ∈ segment, pos < nGrids) :
    table &&& linePattern p (genOWinmask segment) = linePattern p (genOWinmask segment) ↔
      ∀ pos ∈ segment, tableGetCell table pos = p.cell := by
  have hbit := getLsbD_linePattern hlt p
  constructor
  · intro h pos hpos
    have hmask := (hbit (pos * 2 + p.bit)).mpr ⟨pos, hpos, rfl⟩
    rw [← h, BitVec.getLsbD_and, Bool.and_eq_true] at hmask
    exact (getLsbD_cell (hlt pos hpos) (hvalid pos (hlt pos hpos)) p).mp hmask.1
  · intro h
    apply BitVec.eq_of_getLsbD_eq
    intro i _
    rw [BitVec.getLsbD_and, Bool.and_eq_right_iff_imp]
    intro hmask
    obtain ⟨pos, hpos, rfl⟩ := (hbit i).mp hmask
    exact (getLsbD_cell (hlt pos hpos) (hvalid pos (hlt pos hpos)) p).mpr (h pos hpos)

/-- **The patterns are the rules.** -/
theorem completes_iff {table : U32} (hvalid : ValidBoard table) (p : Player) :
    Completes table p ↔ OwnsLine table p := by
  constructor
  · rintro ⟨patt, hmem, hline⟩
    obtain ⟨segment, hsegment, rfl⟩ := List.mem_map.mp hmem
    obtain ⟨l, rfl⟩ := mem_xoSegmentLines_iff.mp hsegment
    exact ⟨l, (and_linePattern_iff hvalid p fun _ => l.lt_of_mem_cells).mp hline⟩
  · rintro ⟨l, hl⟩
    exact ⟨genOWinmask l.cells, List.mem_map_of_mem (mem_xoSegmentLines_iff.mpr ⟨l, rfl⟩),
      (and_linePattern_iff hvalid p fun _ => l.lt_of_mem_cells).mpr hl⟩

/-! ## `check_win` -/

/-- The loop falls through when neither player's mask of any pattern is in the board. -/
theorem checkWinLoop_none {table : U32} {patts : List U32} :
    checkWinLoop table patts = none ↔
      ∀ patt ∈ patts, ∀ p, table &&& linePattern p patt ≠ linePattern p patt := by
  induction patts with
  | nil => simp [checkWinLoop]
  | cons patt rest ih =>
    rw [checkWinLoop, List.forall_mem_cons]
    split
    case isTrue ho => simpa using fun hall => absurd ho (hall .o)
    case isFalse ho =>
      split
      case isTrue hx => simpa using fun hall => absurd hx (hall .x)
      case isFalse hx =>
        rw [ih]
        refine (and_iff_right fun p => ?_).symm
        cases p
        · exact ho
        · exact hx

/-- When the loop returns a player, it has found a pattern of that player. -/
theorem exists_pattern_of_checkWinLoop {table : U32} {patts : List U32} {p : Player}
    (h : checkWinLoop table patts = some p.cell) :
    ∃ patt ∈ patts, table &&& linePattern p patt = linePattern p patt := by
  induction patts with
  | nil => simp [checkWinLoop] at h
  | cons patt rest ih =>
    rw [checkWinLoop] at h
    split at h
    case isTrue ho =>
      obtain rfl : p = .o := by cases p <;> simp_all [Player.cell, cellO, cellX]
      exact ⟨patt, by simp, ho⟩
    case isFalse =>
      split at h
      case isTrue hx =>
        obtain rfl : p = .x := by cases p <;> simp_all [Player.cell, cellO, cellX]
        exact ⟨patt, by simp, hx⟩
      case isFalse =>
        obtain ⟨q, hq, hline⟩ := ih h
        exact ⟨q, by simp [hq], hline⟩

/-- Without a completed line only fullness counts. -/
theorem checkWin_of_not_completes {table : U32} (h : ∀ p, ¬ Completes table p) :
    checkWin table = if ∃ i, i < nGrids ∧ tableGetCell table i = cellEmpty then cellEmpty
      else cellD := by
  have hloop : checkWinLoop table winPatterns = none :=
    checkWinLoop_none.mpr fun patt hpatt p hline => h p ⟨patt, hpatt, hline⟩
  rw [checkWin]
  split
  case isTrue hzero =>
    rw [if_pos ⟨0, by decide, by rw [hzero, tableGetCell_zero]⟩]
  case isFalse =>
    rw [hloop]
    dsimp only
    simp only [detectEmptyCell_iff]

/-- A winner has a completed line. -/
theorem completes_of_checkWin {table : U32} {p : Player} (h : checkWin table = p.cell) :
    Completes table p := by
  rw [checkWin] at h
  split at h
  case isTrue => exact absurd h.symm p.cell_ne_empty
  case isFalse =>
    rcases checkWinLoop_cases table winPatterns with hcase | hcase | hcase <;> rw [hcase] at h
    · have hne : p.cell ≠ cellEmpty ∧ p.cell ≠ cellD := by cases p <;> decide
      dsimp only at h
      split at h
      · exact absurd h.symm hne.1
      · exact absurd h.symm hne.2
    · exact exists_pattern_of_checkWinLoop (h ▸ hcase)
    · exact exists_pattern_of_checkWinLoop (h ▸ hcase)

/-- A completed line makes a winner. -/
theorem exists_winner {table : U32} {p : Player} (h : Completes table p) :
    checkWin table = cellO ∨ checkWin table = cellX := by
  obtain ⟨patt, hpatt, hline⟩ := h
  have hsome : checkWinLoop table winPatterns ≠ none := fun hnone =>
    checkWinLoop_none.mp hnone patt hpatt p hline
  have hne : table ≠ 0 := by
    rintro rfl
    exact linePattern_ne_zero p patt hpatt (BitVec.zero_and.symm.trans hline).symm
  rw [checkWin, if_neg hne]
  rcases checkWinLoop_cases table winPatterns with hcase | hcase | hcase
  · exact absurd hcase hsome
  · exact .inl (by rw [hcase])
  · exact .inr (by rw [hcase])

/-- The one owner of a completed line is the winner. -/
theorem checkWin_of_owner {table : U32} {p : Player} (hp : Completes table p)
    (hopp : ¬ Completes table p.opp) : checkWin table = p.cell := by
  rcases exists_winner hp with hw | hw
  · cases p with
    | o => exact hw
    | x => exact absurd (completes_of_checkWin hw) hopp
  · cases p with
    | o => exact absurd (completes_of_checkWin hw) hopp
    | x => exact hw

/-- **Win detection is the rules.** On every board of empty, O and X cells: `check_win` calls it
unfinished exactly when nobody owns a line and a cell is empty, and a draw exactly when nobody does
and it is full; the one owner of a line wins, and of two one does. And `xo_segment_lines` holds
every line once and nothing else, in all its entries. -/
theorem check_win_rules :
    (∀ table, ValidBoard table →
      (checkWin table = cellEmpty ↔ (∀ p, ¬ OwnsLine table p) ∧
        ∃ i, i < nGrids ∧ tableGetCell table i = cellEmpty) ∧
      (checkWin table = cellD ↔ (∀ p, ¬ OwnsLine table p) ∧
        ∀ i, i < nGrids → tableGetCell table i ≠ cellEmpty) ∧
      (∀ p : Player, OwnsLine table p → ¬ OwnsLine table p.opp → checkWin table = p.cell) ∧
      (OwnsLine table .o → OwnsLine table .x →
        checkWin table = cellO ∨ checkWin table = cellX)) ∧
    (∀ l : BoardLine, xoSegmentLines.count l.cells = 1) ∧
    (∀ segment ∈ xoSegmentLines, ∃ l : BoardLine, l.cells = segment) ∧
    xoSegmentLines.length = winPattLen boardSize goal ∧
    winPatterns.length = winPattLen boardSize goal := by
  refine ⟨fun table hvalid => ?_, fun l => ?_, fun _ => mem_xoSegmentLines_iff.mp,
    length_xoSegmentLines, (List.length_map _).trans length_xoSegmentLines⟩
  · simp only [← completes_iff hvalid]
    have hwinner : (∃ p, Completes table p) → checkWin table = cellO ∨ checkWin table = cellX :=
      fun ⟨_, h⟩ => exists_winner h
    refine ⟨⟨fun h => ?_, fun ⟨hnone, hempty⟩ => ?_⟩, ⟨fun h => ?_, fun ⟨hnone, hfull⟩ => ?_⟩,
      fun p => checkWin_of_owner, fun ho _ => hwinner ⟨_, ho⟩⟩
    -- an open game: no line, and an empty cell
    · have hnone : ∀ p, ¬ Completes table p := fun p hp => checkWin_of_completes hp h
      rw [checkWin_of_not_completes hnone] at h
      refine ⟨hnone, ?_⟩
      by_contra hfull
      rw [if_neg hfull] at h
      exact absurd h (by decide)
    · rw [checkWin_of_not_completes hnone, if_pos hempty]
    -- a drawn game: no line, and no empty cell
    · have hnone : ∀ p, ¬ Completes table p := fun p hp => by
        rcases hwinner ⟨p, hp⟩ with hw | hw <;> rw [h] at hw <;> exact absurd hw (by decide)
      rw [checkWin_of_not_completes hnone] at h
      refine ⟨hnone, fun i hi hcell => ?_⟩
      rw [if_pos ⟨i, hi, hcell⟩] at h
      exact absurd h (by decide)
    · rw [checkWin_of_not_completes hnone, if_neg fun ⟨i, hi, hcell⟩ => hfull i hi hcell]
  · have hnodup : xoSegmentLines.Nodup := by decide
    exact List.count_eq_one_of_mem hnodup (mem_xoSegmentLines_iff.mpr ⟨l, rfl⟩)

end Kxo
