import Kxo.Lib.Terminal
import Kxo.Spec.LoadAvg
import Kxo.Spec.Tui

/-!
# Kxo — what the TUI draws (`user/tui.c`)

A drawing function is the list of the calls it makes on `outbuf`. Coordinates are numbers, the
column first as in `gotoxy`. The banner and the switch to and from the alternate screen, once at
the start and once at the end, are left out.
-/

namespace Kxo

/-! ## Text -/

/-- `%*s`: blanks on the left up to a width. -/
def padStart (width : Nat) (cs : List Char) : List Char :=
  List.replicate (width - cs.length) ' ' ++ cs

/-- `%-*s`. -/
def padEnd (width : Nat) (cs : List Char) : List Char :=
  cs ++ List.replicate (width - cs.length) ' '

/-- `%02d`. -/
def decimal2 (n : Nat) : List Char :=
  let cs := Nat.toDigits 10 n
  List.replicate (2 - cs.length) '0' ++ cs

/-- A box-drawing character, by its last two bytes. -/
def boxCh (a b : Byte) : List Byte := [0xe2, a, b]

def horizontal : List Byte := boxCh 0x94 0x80

def vertical : List Byte := boxCh 0x94 0x82

/-- `COLOR_GREEN "O" COLOR_RESET`. -/
def oCh : List Byte := [0x1b, 0x5b, 0x33, 0x32, 0x6d, 0x4f, 0x1b, 0x5b, 0x30, 0x6d]

/-- `COLOR_RED "X" COLOR_RESET`. -/
def xCh : List Byte := [0x1b, 0x5b, 0x33, 0x31, 0x6d, 0x58, 0x1b, 0x5b, 0x30, 0x6d]

/-- `"\xf0\x9f\xa0\xae"`. -/
def arrow : List Byte := [0xf0, 0x9f, 0xa0, 0xae]

/-- `"\033[%d;%dH"`. -/
def gotoxy (x y : Nat) : OutbufCall := .outbufPrintf (cursorTo x y)

/-- `"\033[2K"`. -/
def cleanLine : OutbufCall := .outbufPrintf [0x1b, 0x5b, 0x32, 0x4b]

def saveXy : OutbufCall := .outbufWrite [0x1b, 0x5b, 0x73]

def restoreXy : OutbufCall := .outbufWrite [0x1b, 0x5b, 0x75]

def newline : List Byte := [0x0a]

/-! ## A board -/

def uiCols : Nat := 3

def boardW : Nat := 35

def boardH : Nat := 13

def boardBasey : Nat := 10

def aiName : XoAi → List Char
  | .mcts => ['M', 'C', 'T', 'S']
  | .negamax => ['N', 'E', 'G', 'A']
  | .rl => ['R', 'L']

/-- `cell_tlb`: past its end for what is no cell of a board. -/
def cellTlb (cell : U32) : Option (List Byte) :=
  if cell = cellEmpty then some [0x20]
  else if cell = cellO then some oCh
  else if cell = cellX then some xCh
  else none

/-- `x` and `y` of the game with a number. -/
def boardX (id : Nat) : Nat := (id % uiCols) * boardW + 1

def boardY (id : Nat) : Nat := boardBasey + (id / uiCols) * (boardH - 1)

/-- The character in row `i` and column `j` of the grid of a board, 9 by 17. -/
def gridCh (i j : Nat) : List Byte :=
  let lastH := i + 1 = 9
  let lastW := j + 1 = 17
  if i % 2 = 1 then if j % 4 = 0 then vertical else [0x20]
  else if j = 0 then
    if i = 0 then boxCh 0x94 0x8c else if lastH then boxCh 0x94 0x94 else boxCh 0x94 0x9c
  else if i = 0 ∧ lastW then boxCh 0x94 0x90
  else if j % 4 = 0 then
    if i = 0 then boxCh 0x94 0xac
    else if i ≠ 8 ∧ ¬ lastW then boxCh 0x94 0xbc
    else if lastH ∧ ¬ lastW then boxCh 0x94 0xb4
    else if lastH ∧ lastW then boxCh 0x94 0x98
    else boxCh 0x94 0xa4
  else horizontal

def gridRow (x y i : Nat) : List OutbufCall :=
  gotoxy x (y + i) :: (List.range 17).map fun j => .outbufWrite (gridCh i j)

/-- `pos_x` and `pos_y` of cell `i` of the game with a number. -/
def cellCol (id i : Nat) : Nat := boardX id + 9 + 2 + (i % boardSize) * 4

def cellRow (id i : Nat) : Nat := boardY id + 3 + 1 + (i / boardSize) * 2

/-- The agent of a player, by the attribute word. -/
def algName (attr : U32) : Player → List Char
  | .o => aiName (xoAi ((xoAttrAiAlg attr).toNat % xoAiTot))
  | .x => aiName (xoAi ((xoAttrAiAlg attr >>> 2).toNat % xoAiTot))

/-- `update_table`; nothing where a cell of the board is none. -/
def updateTable (tlb : XoTable) : Option (List OutbufCall) := do
  let id := (xoAttrId tlb.attr).toNat
  let x := boardX id
  let y := boardY id
  let cells ← (List.range nGrids).mapM fun i => do
    let ch ← cellTlb (tableGetCell tlb.table i)
    return [gotoxy (cellCol id i) (cellRow id i), .outbufPrintf ch]
  return [gotoxy (x + 15) (y + 2),
      .outbufPrintf (ascii ['G', 'a', 'm', 'e', '-'] ++ decimal id ++ newline)] ++
    (List.range 9).flatMap (gridRow (x + 9) (y + 3)) ++ cells.flatten ++
    [gotoxy (x + 12) (y + 12),
      .outbufPrintf (ascii (padStart 4 (algName tlb.attr .o) ++ [' ', 'v', 's', ' '] ++
        padEnd 4 (algName tlb.attr .x)) ++ newline), .outbufFlush]

/-! ## The frame -/

/-- The vertical lines of box `i` of `n` in `render_boards_temp`, at its row `j`. -/
def frameCh (n i j x y : Nat) : List OutbufCall :=
  let bodH := 11
  let lastCol := (i + 1) % uiCols = 0
  let firstCol := i % uiCols = 0
  let lastRow := i / uiCols = (n - 1) / uiCols
  let remBods := n % uiCols
  gotoxy x (y + j + 1) ::
    if firstCol ∧ j = bodH + 1 ∧ i + 1 = n then
      [.outbufWrite (boxCh 0x94 0x94), gotoxy (x + boardW) (y + j + 1),
        .outbufWrite (boxCh 0x94 0x98)]
    else if firstCol ∧ i = 0 ∧ j = 0 then [.outbufWrite (boxCh 0x94 0x8c)]
    else if firstCol ∧ j = bodH + 1 ∧ lastRow then [.outbufWrite (boxCh 0x94 0x94)]
    else
      .outbufWrite
          (if i < uiCols ∧ j = 0 then boxCh 0x94 0xac
          else if j = bodH + 1 ∧ n < i + uiCols then boxCh 0x94 0xb4
          else if j = 0 ∧ ¬ firstCol then boxCh 0x94 0xbc
          else if j = 0 ∧ firstCol then boxCh 0x94 0x9c
          else vertical) ::
        if lastCol ∨ i + 1 = n then
          [gotoxy (x + boardW) (y + j + 1), .outbufWrite
            (if j = bodH + 1 ∧ i + 1 = n - remBods ∨ j = bodH + 1 ∧ i + 1 = n then
              boxCh 0x94 0x98
            else if j = 0 ∧ (i + 1 = uiCols ∨ i < uiCols) then boxCh 0x94 0x90
            else if j = 0 ∧ lastCol then boxCh 0x94 0xa4
            else if j = 0 ∧ uiCols < i ∧ n < i + uiCols then boxCh 0x94 0xbc
            else vertical)]
        else []

/-- Box `i` of `n`. -/
def frameBox (n i : Nat) : List OutbufCall :=
  let baseY := 10
  let x := (i % uiCols) * boardW
  let y := baseY + (i / uiCols) * (11 + 1)
  gotoxy x (y + 1) ::
    (if i < uiCols then List.replicate boardW (.outbufWrite horizontal) else []) ++
    (if n = 1 ∧ i < uiCols then [.outbufWrite (0x08 :: boxCh 0x94 0x90)]
    else if i + 1 = uiCols ∨ i + 1 = n then [.outbufWrite (boxCh 0x94 0x90)]
    else []) ++
    (List.range boardW).flatMap (fun j =>
      [gotoxy (x + j) (baseY + y + 3), .outbufWrite horizontal]) ++
    (List.range (11 + 2)).flatMap fun j => frameCh n i j x y

/-- `render_boards_temp`. -/
def renderBoardsTemp (n : Nat) : List OutbufCall :=
  if n = 0 then []
  else (List.range n).flatMap (frameBox n) ++ [.outbufPrintf newline, .outbufFlush]

/-! ## The tabs -/

/-- `enum tui_tab` without `TAB_TOTLEN`. -/
inductive TuiTab where
  | record
  | loadavg
  deriving DecidableEq, Repr

def TuiTab.title : TuiTab → List Char
  | .record => ['R', 'e', 'c', 'o', 'r', 'd', 's']
  | .loadavg => ['L', 'o', 'a', 'd', ' ', 'a', 'v', 'g']

def TuiTab.high : TuiTab → Nat
  | .record => 11
  | .loadavg => 10

/-- The tabs in the order of their numbers. -/
def tuiTabs : List TuiTab := [.record, .loadavg]

/-- `tab_maxh` after `tui_init`. -/
def tabMaxh : Nat := (tuiTabs.map TuiTab.high).foldl max 0

def tabCtxBasey : Nat := 52

def tabLabelBasey : Nat := 49

def drawTabBorder (tab : TuiTab) : List OutbufCall :=
  let x := 1
  let w := 106
  let high := tab.high
  (List.range (tabMaxh + 1)).flatMap (fun i => [gotoxy x (tabCtxBasey + i), cleanLine]) ++
    [gotoxy x (tabCtxBasey + high), .outbufWrite (boxCh 0x95 0xb0),
      gotoxy (x + w - 2) (tabCtxBasey + high), .outbufWrite (boxCh 0x95 0xaf)] ++
    (List.range high).flatMap (fun i =>
      [gotoxy x (tabCtxBasey + i), .outbufWrite vertical,
        gotoxy (x + w - 2) (tabCtxBasey + i), .outbufWrite vertical]) ++
    gotoxy (x + 1) (tabCtxBasey + high) ::
      List.replicate (w - 3) (.outbufWrite horizontal)

/-- One character of the last row of a label. -/
def labelFootCh (tab : TuiTab) (i : Nat) (own : TuiTab) (firstCol lastCol : Bool) : List Byte :=
  if firstCol then
    if i = 0 then if own = tab then vertical else boxCh 0x94 0x9c
    else if own = tab then boxCh 0x94 0x98 else boxCh 0x94 0xb4
  else if lastCol then if own = tab then boxCh 0x94 0x94 else boxCh 0x94 0xb4
  else if own = tab then [0x20] else horizontal

/-- The label of the tab `own`, the `i`-th, at a column. -/
def drawLabel (tab : TuiTab) (i : Nat) (own : TuiTab) (col y : Nat) : List OutbufCall :=
  let len := own.title.length + 4
  (gotoxy col y :: (List.range len).map fun j => .outbufWrite
    (if j = 0 then boxCh 0x95 0xad else if j = len - 1 then boxCh 0x95 0xae else horizontal)) ++
    [gotoxy col (y + 1),
      .outbufPrintf (vertical ++ ascii (' ' :: own.title ++ [' ']) ++ vertical)] ++
    gotoxy col (y + 2) :: (List.range len).map fun j => .outbufWrite
      (labelFootCh tab i own (j = 0) (j = len - 1))

def drawTabLabel (tab : TuiTab) : List OutbufCall :=
  let y := tabLabelBasey
  let labels := tuiTabs.zipIdx.foldl (fun (acc : List OutbufCall × Nat) own =>
    (acc.1 ++ drawLabel tab own.2 own.1 acc.2 y, acc.2 + (own.1.title.length + 4))) ([], 1)
  let n := 106 - labels.2
  gotoxy 0 y :: labels.1 ++
    gotoxy labels.2 (y + 2) :: (List.range n).map fun i => .outbufWrite
      (if i = n - 1 then boxCh 0x95 0xae else horizontal)

/-- `struct timespec`. -/
structure Timespec where
  tvSec : Int
  tvNsec : Int

/-- `prev_tab`, `none` for `TAB_TOTLEN`, and the static variables of `xo_loadavg`. -/
structure TuiState where
  prevTab : Option TuiTab
  focus : Bool
  start : Timespec

def tuiStart : TuiState := ⟨none, false, ⟨0, 0⟩⟩

/-- `" %s %s"` with `xy` for the first text in `xo_record`. -/
def moveText (mv : Byte) (last : Bool) : List Byte :=
  [0x20, 0x41 + (mv &&& 3), 0x31 + BitVec.ofNat 8 (mv.toNat / boardSize), 0x20] ++
    if last then [0x20] else arrow

/-- `xo_record` after the border: the name of each game, and the moves of one. -/
def recordRows (tlb : XoTable) : List OutbufCall :=
  let steps := (xoAttrSteps tlb.attr).toNat
  let id := (xoAttrId tlb.attr).toNat
  let y := 53
  let x := 11
  gotoxy 4 y :: (List.range nGames).flatMap (fun i =>
      [.outbufPrintf (ascii ['G', 'A', 'M', 'E', '-'] ++ decimal i ++ ascii [':', ' ']),
        gotoxy 4 (y + i + 1)]) ++
    [gotoxy x (y + id), .outbufPrintf (ascii (padStart 77 [' '])), gotoxy x (y + id)] ++
    (List.range steps).map fun i =>
      .outbufPrintf (moveText ((getRecordCell tlb.moves i).setWidth 8) (i + 1 = steps))

/-- `xo_record`; nothing where it shifts `moves` by 64 bits or more. -/
def xoRecord (tab : TuiTab) (tlb : XoTable) (s : TuiState) : Option (TuiState × List OutbufCall) :=
  if 16 < (xoAttrSteps tlb.attr).toNat then none
  else some ({ s with prevTab := some tab },
    (if some tab ≠ s.prevTab then drawTabBorder tab else []) ++ recordRows tlb)

/-- `"%d.%02d"` of a packed load average. -/
def loadText (avg : U16) : List Byte :=
  decimal (shownInt avg).toNat ++ ascii ('.' :: decimal2 (shownFrac avg).toNat)

def renderLoadavg (tab : TuiTab) (xoAvgs : Nat → XoAvg) : List OutbufCall :=
  let y := 52
  drawTabBorder tab ++
    [gotoxy 17 y, .outbufPrintf (ascii (['L', 'o', 'a', 'd', ' ', 'a', 'v', 'g', ' ', '1', 'm', 'i',
      'n'] ++ List.replicate 13 ' ') ++ oCh ++ ascii (List.replicate 25 ' ') ++ xCh)] ++
    (List.range nGames).flatMap fun i =>
      [gotoxy 20 (y + i + 1), .outbufPrintf (ascii ['G', 'a', 'm', 'e', '-'] ++ decimal i ++
        ascii (List.replicate 15 ' ') ++ loadText (xoAvgs i).avgO ++
        ascii (List.replicate 22 ' ') ++ loadText (xoAvgs i).avgX)]

/-- `xo_loadavg`; `first` and `last` are its readings of the clock, `xoAvgs` what the `ioctl` leaves
in `xo_avgs`. The division of the nanoseconds is C's, towards zero. -/
def xoLoadavg (tab : TuiTab) (first last : Timespec) (xoAvgs : Nat → XoAvg) (s : TuiState) :
    TuiState × List OutbufCall :=
  let change := some tab ≠ s.prevTab
  let start := if change then first else s.start
  let focus := if change then s.focus else true
  let delta := (last.tvSec - start.tvSec) + (last.tvNsec - start.tvNsec).tdiv 1000000000
  -- `delta` is an `uint64_t`
  let refresh := focus ∧ 1 ≤ delta % 2 ^ 64
  (⟨some tab, false, if refresh then last else start⟩,
    (if change then renderLoadavg tab xoAvgs else []) ++
      if refresh then renderLoadavg tab xoAvgs else [])

/-- `tui_tabs[tab].render`. -/
def TuiTab.render (tab : TuiTab) (tlb : XoTable) (first last : Timespec) (xoAvgs : Nat → XoAvg)
    (s : TuiState) : Option (TuiState × List OutbufCall) :=
  match tab with
  | .record => xoRecord tab tlb s
  | .loadavg => some (xoLoadavg tab first last xoAvgs s)

def tuiUpdateTab (tab : TuiTab) (tlb : XoTable) (first last : Timespec) (xoAvgs : Nat → XoAvg)
    (s : TuiState) : Option (TuiState × List OutbufCall) := do
  let (s, calls) ← tab.render tlb first last xoAvgs s
  return (s, drawTabLabel tab ++ calls)

/-! ## The rest -/

/-- `stop_message`. -/
def stopMessage (stop : Bool) : List OutbufCall :=
  let width := 13
  let x := 1
  let y := 8
  gotoxy x y :: (List.range 3).flatMap fun i =>
    if stop then
      gotoxy x (y + i) ::
        if i = 1 then
          [.outbufPrintf (vertical ++ ascii [' ', ' '] ++
            ([0x1b, 0x5b, 0x33, 0x32, 0x6d] ++ ascii ['S', 'T', 'O', 'P', 'P', 'I', 'N', 'G'] ++
              [0x1b, 0x5b, 0x30, 0x6d]) ++ ascii [' ', ' '] ++ vertical)]
        else (List.range width).map fun j => .outbufWrite
          (if i = 0 ∧ j = 0 then boxCh 0x94 0x8c
          else if i = 0 ∧ j = width - 1 then boxCh 0x94 0x90
          else if i = 2 ∧ j = 0 then boxCh 0x94 0x94
          else if i = 2 ∧ j = width - 1 then boxCh 0x94 0x98
          else horizontal)
    else [gotoxy x (y + i), .outbufPrintf (ascii (padStart 13 [' ']))]

/-- The time of the day in a `struct tm`, as `localtime` fills it. -/
structure Tm where
  tmHour : Nat
  tmMin : Nat
  tmSec : Nat
  hour_lt : tmHour < 24
  min_lt : tmMin < 60
  sec_le : tmSec ≤ 60

def printNow (tm : Tm) : List OutbufCall :=
  [gotoxy 50 48, .outbufPrintf (ascii (decimal2 tm.tmHour ++ ':' :: decimal2 tm.tmMin ++
    ':' :: decimal2 tm.tmSec) ++ newline)]

/-! ## Calls -/

/-- The calls of `main` and its tasks between `render_boards_temp` and `tui_quit`. `update_table`
stands between `save_xy` and `restore_xy`. -/
inductive TuiCall where
  | updateTable (tlb : XoTable)
  | tuiUpdateTab (tab : TuiTab) (tlb : XoTable) (first last : Timespec) (xoAvgs : Nat → XoAvg)
  | stopMessage (stop : Bool)
  | printNow (tm : Tm)
  | outbufFlush

def tuiCall (s : TuiState) : TuiCall → Option (TuiState × List OutbufCall)
  | .updateTable tlb => do
      let calls ← updateTable tlb
      return (s, saveXy :: calls ++ [restoreXy])
  | .tuiUpdateTab tab tlb first last xoAvgs => tuiUpdateTab tab tlb first last xoAvgs s
  | .stopMessage stop => some (s, stopMessage stop)
  | .printNow tm => some (s, printNow tm)
  | .outbufFlush => some (s, [.outbufFlush])

/-- The calls of the drawing functions one after another. -/
def outbufCalls (b : Outbuf) : List OutbufCall → Option Outbuf
  | [] => some b
  | call :: rest => do outbufCalls (← outbufCall b call) rest

def tuiCalls (s : TuiState) : List TuiCall → Option (TuiState × List OutbufCall)
  | [] => some (s, [])
  | call :: rest => do
      let (s, calls) ← tuiCall s call
      let (s, more) ← tuiCalls s rest
      return (s, calls ++ more)

end Kxo
