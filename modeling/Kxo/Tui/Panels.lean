import Kxo.Tui.Drawing
import Kxo.Tui.Outbuf

/-!
# Kxo — the panels of the TUI (`user/tui.c`)

The boards, the frame around them, the tabs, the stop message and the clock share one screen and are
drawn in any order. Each keeps to its own part of it.

* **`Panel`** — a list of calls that changes only some rows, wherever the cursor stands, and has no
  text that disables buffering. A panel starts with a `gotoxy` into its rows; the calls behind it
  (**`PanelCall`**) move within them or print in the row they are in.
* **`StopRows`**, **`ClockRow`**, **`LabelRows`**, **`TabRows`** — the rows of the four functions
  other than `update_table`. None of them meets the frame (**`OffFrame`**).
* **`confined_renderBoardsTemp`** — the frame goes by lines instead: its characters stand between
  the boxes of the boards.
-/

namespace Kxo

/-! ## Panels

The rules: what a single call may be, and that panels are closed under appending, loops and
branches. -/

/-- A call that stays in some rows. -/
structure PanelCall (rows : Nat → Prop) (call : OutbufCall) : Prop where
  short : call.Short
  keepsRows : KeepsRows rows call.data

/-- What a function that stays in some rows draws. -/
structure Panel (rows : Nat → Prop) (calls : List OutbufCall) : Prop where
  short : ∀ call ∈ calls, call.Short
  confined : Confined (fun r _ => rows r) (callBytes calls)

section Panels

variable {rows : Nat → Prop}

/-- Printing stays in the row, -/
theorem IsText.panelWrite {text : List Byte} (h : IsText text) :
    PanelCall rows (.outbufWrite text) := by
  obtain ⟨gs, hgs⟩ := h
  exact ⟨trivial, hgs.keepsRows⟩

/-- by either function. -/
theorem IsText.panelPrintf {text : List Byte} (h : IsText text) (hlen : text.length < outbufSize) :
    PanelCall rows (.outbufPrintf text) := by
  obtain ⟨gs, hgs⟩ := h
  refine ⟨hlen, ?_⟩
  rw [data_printf hlen]
  exact hgs.keepsRows

/-- So does a box character. -/
theorem panelCall_boxCh (a b : Byte) : PanelCall rows (.outbufWrite (boxCh a b)) :=
  IsText.panelWrite ⟨_, prints_boxCh a b⟩

/-- A cursor move to one of the rows. -/
theorem panelCall_gotoxy {x y : Nat} (hx : x < 1000) (hy : y < 1000) (hrow : rows (max 1 y)) :
    PanelCall rows (gotoxy x y) := by
  refine ⟨short_gotoxy hx hy, ?_⟩
  rw [data_gotoxy hx hy]
  exact keepsRows_cursorTo x hrow

/-- Erasing the row one is in. -/
theorem panelCall_cleanLine : PanelCall rows cleanLine :=
  ⟨(by decide : 4 < outbufSize), keepsRows_eraseRow⟩

/-- From a place in the rows on, calls that stay in them. -/
theorem panel_gotoxy {x y : Nat} (hx : x < 1000) (hy : y < 1000) (hrow : rows (max 1 y))
    {calls : List OutbufCall} (h : ∀ call ∈ calls, PanelCall rows call) :
    Panel rows (gotoxy x y :: calls) := by
  have hkeeps : KeepsRows rows (callBytes calls) :=
    KeepsRows.flatMap fun call hcall => (h call hcall).keepsRows
  refine ⟨List.forall_mem_cons.mpr ⟨short_gotoxy hx hy, fun call hcall => (h call hcall).short⟩, ?_⟩
  rw [callBytes_cons, data_gotoxy hx hy]
  exact hkeeps.confined x hrow

/-- The same where the first call is not in sight but known. -/
theorem panel_of_head {calls : List OutbufCall} {x y : Nat} (hx : x < 1000) (hy : y < 1000)
    (hrow : rows (max 1 y)) (hhead : calls.head? = some (gotoxy x y))
    (h : ∀ call ∈ calls, PanelCall rows call) : Panel rows calls := by
  obtain ⟨rest, rfl⟩ : ∃ rest, calls = gotoxy x y :: rest := List.head?_eq_some_iff.mp hhead
  exact panel_gotoxy hx hy hrow fun call hcall => h call (List.mem_cons_of_mem _ hcall)

/-- One panel after another in the same rows. -/
theorem Panel.append {calls more : List OutbufCall} (h : Panel rows calls) (h' : Panel rows more) :
    Panel rows (calls ++ more) := by
  refine ⟨List.forall_mem_append.mpr ⟨h.short, h'.short⟩, ?_⟩
  rw [callBytes_append]
  exact h.confined.append h'.confined

/-- A panel of few rows is one of more rows. -/
theorem Panel.mono {rows' : Nat → Prop} {calls : List OutbufCall} (h : Panel rows calls)
    (hrows : ∀ r, rows r → rows' r) : Panel rows' calls :=
  ⟨h.short, h.confined.mono fun r _ => hrows r⟩

/-- A loop of calls. -/
theorem panelCalls_map {ι : Type} {xs : List ι} {f : ι → OutbufCall}
    (h : ∀ x ∈ xs, PanelCall rows (f x)) : ∀ call ∈ xs.map f, PanelCall rows call := by
  intro call hcall
  obtain ⟨x, hx, rfl⟩ := List.mem_map.mp hcall
  exact h x hx

/-- A loop of lists of calls. -/
theorem panelCalls_flatMap {ι : Type} {xs : List ι} {f : ι → List OutbufCall}
    (h : ∀ x ∈ xs, ∀ call ∈ f x, PanelCall rows call) :
    ∀ call ∈ xs.flatMap f, PanelCall rows call := by
  intro call hcall
  obtain ⟨x, hx, hcall⟩ := List.mem_flatMap.mp hcall
  exact h x hx call hcall

/-- A panel that is drawn under a condition. -/
theorem Panel.ite {c : Prop} [Decidable c] {calls : List OutbufCall}
    (h : Panel rows calls) : Panel rows (if c then calls else []) := by
  split
  · exact h
  · exact ⟨by simp, .nil⟩

end Panels

/-! ## The parts of the screen

Rows are counted from 1. The frame goes from row 11 to row 47; the stop message is above it, and the
clock, the labels of the tabs and the tab itself below. -/

/-- The rows above the frame and below it. -/
def OffFrame (r : Nat) : Prop := r ≤ 10 ∨ 48 ≤ r

def StopRows (r : Nat) : Prop := 8 ≤ r ∧ r ≤ 10

def ClockRow (r : Nat) : Prop := r = 48

def LabelRows (r : Nat) : Prop := 49 ≤ r ∧ r ≤ 51

def TabRows (r : Nat) : Prop := 52 ≤ r

/-! ## The stop message

Three rows of a box with one word, or blanks over it. -/

/-- A box character is text. -/
theorem isText_boxCh (a b : Byte) : IsText (boxCh a b) := ⟨_, prints_boxCh a b⟩

/-- So is a blank padded to a width. -/
theorem isText_blanks (n : Nat) : IsText (ascii (padStart n [' '])) := by
  refine isText_ascii (List.forall_mem_append.mpr ⟨fun c hc => ?_, printable_of_all rfl⟩)
  rw [(List.mem_replicate.mp hc).2]
  decide

/-- `STOPPING` in green. -/
theorem isText_stopping : IsText ([0x1b, 0x5b, 0x33, 0x32, 0x6d] ++
    ascii ['S', 'T', 'O', 'P', 'P', 'I', 'N', 'G'] ++ [0x1b, 0x5b, 0x30, 0x6d]) := by
  have hletters : ∀ b ∈ ascii ['S', 'T', 'O', 'P', 'P', 'I', 'N', 'G'], 0x20 ≤ b ∧ b < 0x80 := by
    decide
  have hprints : Prints 32 ((ascii ['S', 'T', 'O', 'P', 'P', 'I', 'N', 'G']).flatMap fun b => [b])
      ((ascii ['S', 'T', 'O', 'P', 'P', 'I', 'N', 'G']).flatMap fun b => [⟨[b], 32⟩]) :=
    Prints.flatMap fun b hb => prints_ascii (hletters b hb).1 (hletters b hb).2
  exact ⟨_, hprints.coloured⟩

/-- **The stop message stays in its rows**, shown or taken away. -/
theorem panel_stopMessage (stop : Bool) : Panel StopRows (stopMessage stop) := by
  refine panel_gotoxy (by decide) (by decide) ⟨by decide, by decide⟩
    (panelCalls_flatMap fun i hi => ?_)
  rw [List.mem_range] at hi
  have hgoto : PanelCall StopRows (gotoxy 1 (8 + i)) :=
    panelCall_gotoxy (by decide) (by omega) ⟨by omega, by omega⟩
  split
  case isTrue =>
    refine List.forall_mem_cons.mpr ⟨hgoto, ?_⟩
    split
    case isTrue =>
      refine List.forall_mem_singleton.mpr (IsText.panelPrintf ?_ (by decide))
      have hgap := @isText_ascii [' ', ' '] (printable_of_all rfl)
      exact ((((isText_boxCh _ _).append hgap).append isText_stopping).append hgap).append
        (isText_boxCh _ _)
    case isFalse =>
      refine panelCalls_map fun j _ => ?_
      split_ifs <;> exact panelCall_boxCh _ _
  case isFalse =>
    exact List.forall_mem_cons.mpr ⟨hgoto, List.forall_mem_singleton.mpr
      ((isText_blanks 13).panelPrintf (by decide))⟩

/-! ## The tabs

Two labels of three rows each, a line to the right of them, and the border around the tab, whose
height is the tab's own. -/

/-- A label stays in the rows of the labels, open or not. -/
theorem panelCalls_drawLabel (tab : TuiTab) (i : Nat) (own : TuiTab) {col : Nat}
    (hcol : col < 1000) :
    ∀ call ∈ drawLabel tab i own col tabLabelBasey, PanelCall LabelRows call := by
  have hgoto : ∀ k, k < 3 → PanelCall LabelRows (gotoxy col (tabLabelBasey + k)) := fun k hk =>
    panelCall_gotoxy hcol (by rw [tabLabelBasey]; omega)
      (by rw [LabelRows, tabLabelBasey]; omega)
  have htitle : ∀ c ∈ ' ' :: own.title ++ [' '], 0x20 ≤ c.toNat ∧ c.toNat < 0x80 := by
    cases own <;> exact printable_of_all rfl
  refine List.forall_mem_append.mpr ⟨List.forall_mem_append.mpr ⟨?_, ?_⟩, ?_⟩
  · refine List.forall_mem_cons.mpr ⟨hgoto 0 (by decide), panelCalls_map fun j _ => ?_⟩
    split_ifs <;> exact panelCall_boxCh _ _
  · refine List.forall_mem_cons.mpr ⟨hgoto 1 (by decide), List.forall_mem_singleton.mpr ?_⟩
    refine IsText.panelPrintf ?_ (by cases own <;> decide)
    exact ((isText_boxCh _ _).append (isText_ascii htitle)).append (isText_boxCh _ _)
  · refine List.forall_mem_cons.mpr ⟨hgoto 2 (by decide), panelCalls_map fun j _ => ?_⟩
    simp only [labelFootCh]
    split_ifs <;> first | exact panelCall_boxCh _ _ | exact IsText.panelWrite ⟨_, prints_blank⟩

/-- The labels stand side by side. -/
theorem drawTabLabel_eq (tab : TuiTab) :
    drawTabLabel tab = gotoxy 0 tabLabelBasey ::
      ((([] ++ drawLabel tab 0 .record 1 tabLabelBasey) ++
        drawLabel tab 1 .loadavg 12 tabLabelBasey) ++
      gotoxy 24 (tabLabelBasey + 2) :: (List.range 82).map fun i => .outbufWrite
        (if i = 81 then boxCh 0x95 0xae else horizontal)) := rfl

/-- Both labels and the line stay in these rows. -/
theorem panelCalls_drawTabLabel (tab : TuiTab) :
    ∀ call ∈ (([] ++ drawLabel tab 0 .record 1 tabLabelBasey) ++
        drawLabel tab 1 .loadavg 12 tabLabelBasey) ++
      gotoxy 24 (tabLabelBasey + 2) :: (List.range 82).map fun i => .outbufWrite
        (if i = 81 then boxCh 0x95 0xae else horizontal), PanelCall LabelRows call := by
  refine List.forall_mem_append.mpr ⟨List.forall_mem_append.mpr ⟨?_,
    panelCalls_drawLabel tab 1 .loadavg (by decide)⟩, ?_⟩
  · exact panelCalls_drawLabel tab 0 .record (by decide)
  · refine List.forall_mem_cons.mpr ⟨panelCall_gotoxy (by decide) (by decide)
      ⟨by decide, by decide⟩, ?_⟩
    refine panelCalls_map fun i _ => ?_
    split_ifs <;> exact panelCall_boxCh _ _

/-- **The labels are a panel.** -/
theorem panel_drawTabLabel (tab : TuiTab) : Panel LabelRows (drawTabLabel tab) := by
  rw [drawTabLabel_eq]
  exact panel_gotoxy (by decide) (by decide) ⟨by decide, by decide⟩ (panelCalls_drawTabLabel tab)

/-- The border stays below them. -/
theorem panelCalls_drawTabBorder (tab : TuiTab) :
    ∀ call ∈ drawTabBorder tab, PanelCall TabRows call := by
  have hhigh : tab.high ≤ 11 := by cases tab <;> decide
  have hgoto : ∀ x, x < 1000 → ∀ i, i ≤ 11 → PanelCall TabRows (gotoxy x (tabCtxBasey + i)) :=
    fun x hx i hi => panelCall_gotoxy hx (by rw [tabCtxBasey]; omega)
      (by rw [TabRows, tabCtxBasey]; omega)
  simp only [drawTabBorder, show tabMaxh = 11 from rfl]
  refine List.forall_mem_append.mpr ⟨List.forall_mem_append.mpr ⟨List.forall_mem_append.mpr
    ⟨?_, ?_⟩, ?_⟩, ?_⟩
  · refine panelCalls_flatMap fun i hi => ?_
    rw [List.mem_range] at hi
    simp only [List.forall_mem_cons, List.not_mem_nil, false_implies, implies_true, and_true]
    exact ⟨hgoto 1 (by decide) i (by omega), panelCall_cleanLine⟩
  · simp only [List.forall_mem_cons, List.not_mem_nil, false_implies, implies_true, and_true]
    exact ⟨hgoto 1 (by decide) _ hhigh, panelCall_boxCh _ _, hgoto _ (by decide) _ hhigh,
      panelCall_boxCh _ _⟩
  · refine panelCalls_flatMap fun i hi => ?_
    rw [List.mem_range] at hi
    simp only [List.forall_mem_cons, List.not_mem_nil, false_implies, implies_true, and_true]
    exact ⟨hgoto 1 (by decide) i (by omega), panelCall_boxCh _ _, hgoto _ (by decide) i (by omega),
      panelCall_boxCh _ _⟩
  · refine List.forall_mem_cons.mpr ⟨hgoto _ (by decide) _ hhigh, fun call hcall => ?_⟩
    rw [(List.mem_replicate.mp hcall).2]
    exact panelCall_boxCh _ _

/-- **The border is a panel.** -/
theorem panel_drawTabBorder (tab : TuiTab) : Panel TabRows (drawTabBorder tab) :=
  panel_of_head (by decide) (by decide) (show 52 ≤ max 1 52 by decide) rfl
    (panelCalls_drawTabBorder tab)

/-! ## The tabs' contents

The moves of a record and the table of the load averages. Both are texts with numbers, in rows below
the top of the tab. -/

/-- The arrow between two moves is one glyph of four bytes. -/
theorem prints_arrow : Prints 0 arrow [⟨arrow, 0⟩] := prints_utf8_four (by decide)

/-- Two characters for the square, and one to the next move or none. -/
def moveGlyphs (mv : Byte) (last : Bool) : List Glyph :=
  [.blank, ⟨[0x41 + (mv &&& 3)], 0⟩, ⟨[0x31 + BitVec.ofNat 8 (mv.toNat / boardSize)], 0⟩, .blank] ++
    [if last then .blank else ⟨arrow, 0⟩]

/-- A move prints its column letter and its row digit, and the arrow if another move follows. -/
theorem prints_moveText {mv : Byte} (h : mv.toNat < 16) (last : Bool) :
    Prints 0 (moveText mv last) (moveGlyphs mv last) := by
  have hcol : mv &&& 3 ≤ 3 := by
    rw [BitVec.le_def, BitVec.toNat_and]
    exact Nat.and_le_right
  have hrow : BitVec.ofNat 8 (mv.toNat / boardSize) ≤ 3 := by
    rw [BitVec.le_def, BitVec.toNat_ofNat, boardSize]
    show _ ≤ 3
    omega
  have hletter : Prints 0 [0x41 + (mv &&& 3)] [⟨[0x41 + (mv &&& 3)], 0⟩] :=
    prints_ascii (by bv_omega) (by bv_omega)
  have hdigit : Prints 0 [0x31 + BitVec.ofNat 8 (mv.toNat / boardSize)]
      [⟨[0x31 + BitVec.ofNat 8 (mv.toNat / boardSize)], 0⟩] :=
    prints_ascii (by bv_omega) (by bv_omega)
  have hend : Prints 0 (if last then [0x20] else arrow) [if last then .blank else ⟨arrow, 0⟩] := by
    cases last
    · exact prints_arrow
    · exact prints_blank
  exact (((prints_blank.append hletter).append hdigit).append prints_blank).append hend

/-- The text of a move is short. -/
theorem length_moveText (mv : Byte) (last : Bool) : (moveText mv last).length ≤ 8 := by
  cases last <;> simp [moveText, arrow]

/-- So every move of a record prints, as a nibble is a square. -/
theorem prints_moveTexts {moves : U64} {steps : Nat} (hsteps : steps ≤ 16) {i : Nat}
    (hi : i < steps) : Prints 0 (moveText ((getRecordCell moves i).setWidth 8) (i + 1 = steps))
      (moveGlyphs ((getRecordCell moves i).setWidth 8) (i + 1 = steps)) := by
  have hcell := getRecordCell_lt moves (Nat.lt_of_lt_of_le hi hsteps)
  refine prints_moveText ?_ _
  rw [BitVec.toNat_setWidth]
  rw [nGrids] at hcell
  omega

/-- The name of a game. -/
theorem isText_gameName {i : Nat} :
    IsText (ascii ['G', 'A', 'M', 'E', '-'] ++ decimal i ++ ascii [':', ' ']) :=
  ((isText_ascii (printable_of_all rfl)).append (isText_decimal i)).append
    (isText_ascii (printable_of_all rfl))

/-- **The moves of a record are a panel**, as a record has at most 16 of them. -/
theorem panel_recordRows {tlb : XoTable} (hsteps : (xoAttrSteps tlb.attr).toNat ≤ 16) :
    Panel TabRows (recordRows tlb) := by
  have hid := xoAttrId_lt tlb.attr
  have hgoto : ∀ x, x < 1000 → ∀ i, i ≤ 16 → PanelCall TabRows (gotoxy x (53 + i)) :=
    fun x hx i hi => panelCall_gotoxy hx (by omega) (show 52 ≤ _ by omega)
  refine panel_of_head (x := 4) (y := 53) (by decide) (by decide) (show 52 ≤ _ by decide) rfl ?_
  refine List.forall_mem_append.mpr ⟨List.forall_mem_append.mpr ⟨?_, ?_⟩, ?_⟩
  · refine List.forall_mem_cons.mpr ⟨hgoto 4 (by decide) 0 (by decide),
      panelCalls_flatMap fun i hi => ?_⟩
    rw [List.mem_range, nGames] at hi
    have hlen := length_decimal (n := i) (k := 1) (by decide) (by omega)
    refine List.forall_mem_cons.mpr ⟨isText_gameName.panelPrintf ?_, List.forall_mem_singleton.mpr
      (hgoto 4 (by decide) (i + 1) (by omega))⟩
    simp only [List.length_append, length_ascii, List.length_cons, List.length_nil, outbufSize]
    omega
  · simp only [List.forall_mem_cons, List.not_mem_nil, false_implies, implies_true, and_true]
    exact ⟨hgoto 11 (by decide) _ (by omega), (isText_blanks 77).panelPrintf (by decide),
      hgoto 11 (by decide) _ (by omega)⟩
  · refine panelCalls_map fun i hi => ?_
    exact IsText.panelPrintf ⟨_, prints_moveTexts hsteps (List.mem_range.mp hi)⟩
      (Nat.lt_of_le_of_lt (length_moveText _ _) (by decide))

/-- `"%d.%02d"` of a packed average. -/
theorem isText_loadText (avg : U16) : IsText (loadText avg) := by
  refine (isText_decimal _).append (isText_ascii (List.forall_mem_cons.mpr ⟨by decide, ?_⟩))
  refine List.forall_mem_append.mpr ⟨fun c hc => ?_, fun c hc => ?_⟩
  · rw [(List.mem_replicate.mp hc).2]
    decide
  · exact isDigit_printable (Nat.isDigit_of_mem_toDigits (by decide) (by decide) hc)

/-- A load average of 16 bits has a short text. -/
theorem length_loadText (avg : U16) : (loadText avg).length ≤ 11 := by
  have hint := length_decimal (n := (shownInt avg).toNat) (k := 5) (by decide)
    (Nat.lt_trans (shownInt avg).isLt (by decide))
  have hfrac := length_decimal (n := (shownFrac avg).toNat) (k := 5) (by decide)
    (Nat.lt_trans (shownFrac avg).isLt (by decide))
  rw [decimal, length_ascii] at hfrac
  simp only [loadText, decimal2, List.length_append, length_ascii, List.length_cons,
    List.length_replicate]
  omega

/-- The gaps of the table. -/
theorem isText_spaces (n : Nat) : IsText (ascii (List.replicate n ' ')) := by
  refine isText_ascii fun c hc => ?_
  rw [(List.mem_replicate.mp hc).2]
  decide

/-- **The table of the load averages is a panel**, for any averages. -/
theorem panel_renderLoadavg (tab : TuiTab) (xoAvgs : Nat → XoAvg) :
    Panel TabRows (renderLoadavg tab xoAvgs) := by
  refine panel_of_head (x := 1) (y := 52) (by decide) (by decide) (show 52 ≤ _ by decide) rfl ?_
  refine List.forall_mem_append.mpr ⟨List.forall_mem_append.mpr
    ⟨panelCalls_drawTabBorder tab, ?_⟩, panelCalls_flatMap fun i hi => ?_⟩
  · simp only [List.forall_mem_cons, List.not_mem_nil, false_implies, implies_true, and_true]
    refine ⟨panelCall_gotoxy (by decide) (by decide) (show 52 ≤ _ by decide),
      IsText.panelPrintf ?_ (by decide)⟩
    exact (((isText_ascii (printable_of_all rfl)).append ⟨_, prints_oCh⟩).append
      (isText_spaces 25)).append ⟨_, prints_xCh⟩
  · rw [List.mem_range, nGames] at hi
    have hlen := length_decimal (n := i) (k := 1) (by decide) (by omega)
    have hlenO := length_loadText (xoAvgs i).avgO
    have hlenX := length_loadText (xoAvgs i).avgX
    simp only [List.forall_mem_cons, List.not_mem_nil, false_implies, implies_true, and_true]
    refine ⟨panelCall_gotoxy (by decide) (by omega) (show 52 ≤ _ by omega),
      IsText.panelPrintf ?_ ?_⟩
    · exact (((((isText_ascii (printable_of_all rfl)).append (isText_decimal i)).append
        (isText_spaces 15)).append (isText_loadText _)).append (isText_spaces 22)).append
        (isText_loadText _)
    · simp only [List.length_append, length_ascii, List.length_cons, List.length_nil,
        List.length_replicate, outbufSize]
      omega

/-- It is drawn when the tab is new and when it is due: not at all, once or twice. -/
theorem panel_xoLoadavg (tab : TuiTab) (first last : Timespec) (xoAvgs : Nat → XoAvg)
    (s : TuiState) : Panel TabRows (xoLoadavg tab first last xoAvgs s).2 :=
  (panel_renderLoadavg tab xoAvgs).ite.append (panel_renderLoadavg tab xoAvgs).ite

/-- `xo_record` in parts: it draws the border if the tab is new, and the moves. It reads past
`moves` unless there are at most 16. -/
theorem xoRecord_eq_some {tab : TuiTab} {tlb : XoTable} {s s' : TuiState}
    {calls : List OutbufCall} (h : xoRecord tab tlb s = some (s', calls)) :
    (xoAttrSteps tlb.attr).toNat ≤ 16 ∧ s' = { s with prevTab := some tab } ∧
      calls = (if some tab ≠ s.prevTab then drawTabBorder tab else []) ++ recordRows tlb := by
  rw [xoRecord] at h
  split at h
  case isTrue => cases h
  case isFalse hsteps =>
    obtain ⟨rfl, rfl⟩ := Prod.mk.inj (Option.some.inj h)
    exact ⟨by omega, rfl, rfl⟩

/-- A tab's own function stays below the labels. -/
theorem panel_render {tab : TuiTab} {tlb : XoTable} {first last : Timespec}
    {xoAvgs : Nat → XoAvg} {s s' : TuiState} {calls : List OutbufCall}
    (h : tab.render tlb first last xoAvgs s = some (s', calls)) : Panel TabRows calls := by
  cases tab with
  | record =>
    obtain ⟨hsteps, -, rfl⟩ := xoRecord_eq_some h
    exact (panel_drawTabBorder _).ite.append (panel_recordRows hsteps)
  | loadavg =>
    obtain ⟨-, rfl⟩ := Prod.mk.inj (Option.some.inj h)
    exact panel_xoLoadavg _ first last xoAvgs s

/-- `tui_update_tab` in parts: the labels, and the tab's function. -/
theorem tuiUpdateTab_eq_some {tab : TuiTab} {tlb : XoTable} {first last : Timespec}
    {xoAvgs : Nat → XoAvg} {s s' : TuiState} {calls : List OutbufCall}
    (h : tuiUpdateTab tab tlb first last xoAvgs s = some (s', calls)) :
    ∃ more, tab.render tlb first last xoAvgs s = some (s', more) ∧
      calls = drawTabLabel tab ++ more := by
  obtain ⟨⟨s₁, more⟩, hmore, hcalls⟩ := Option.bind_eq_some_iff.mp h
  obtain ⟨rfl, rfl⟩ := Prod.mk.inj (Option.some.inj hcalls)
  exact ⟨more, hmore, rfl⟩

/-- **The tabs stay off the frame.** -/
theorem panel_tuiUpdateTab {tab : TuiTab} {tlb : XoTable} {first last : Timespec}
    {xoAvgs : Nat → XoAvg} {s s' : TuiState} {calls : List OutbufCall}
    (h : tuiUpdateTab tab tlb first last xoAvgs s = some (s', calls)) : Panel OffFrame calls := by
  obtain ⟨more, hmore, rfl⟩ := tuiUpdateTab_eq_some h
  exact ((panel_drawTabLabel tab).mono fun r hr => .inr (Nat.le_trans (by decide) hr.1)).append
    ((panel_render hmore).mono fun r hr => .inr (Nat.le_trans (by decide) hr))

/-! ## The clock

Hour, minute and second, two digits each, in the row below the frame. -/

/-- A number below 100 has two digits. -/
theorem decimal2_spec {n : Nat} (h : n < 100) :
    (∀ c ∈ decimal2 n, 0x20 ≤ c.toNat ∧ c.toNat < 0x80) ∧ (decimal2 n).length = 2 := by
  have hlen : (Nat.toDigits 10 n).length ≤ 2 :=
    (Nat.length_toDigits_le_iff (by decide) (by decide)).mpr h
  refine ⟨List.forall_mem_append.mpr ⟨fun c hc => ?_, fun c hc => ?_⟩, ?_⟩
  · rw [(List.mem_replicate.mp hc).2]
    decide
  · exact isDigit_printable (Nat.isDigit_of_mem_toDigits (by decide) (by decide) hc)
  · rw [decimal2, List.length_append, List.length_replicate]
    omega

/-- **The clock stays in its row.** -/
theorem panel_printNow (tm : Tm) : Panel ClockRow (printNow tm) := by
  obtain ⟨hprint, hlen⟩ := decimal2_spec (Nat.lt_trans tm.hour_lt (by decide))
  obtain ⟨hprint', hlen'⟩ := decimal2_spec (Nat.lt_trans tm.min_lt (by decide))
  obtain ⟨hprint'', hlen''⟩ := decimal2_spec (Nat.lt_of_le_of_lt tm.sec_le (by decide))
  have htext : ∀ c ∈ decimal2 tm.tmHour ++ ':' :: decimal2 tm.tmMin ++ ':' :: decimal2 tm.tmSec,
      0x20 ≤ c.toNat ∧ c.toNat < 0x80 :=
    List.forall_mem_append.mpr ⟨List.forall_mem_append.mpr ⟨hprint,
      List.forall_mem_cons.mpr ⟨by decide, hprint'⟩⟩,
      List.forall_mem_cons.mpr ⟨by decide, hprint''⟩⟩
  have hlength : (ascii (decimal2 tm.tmHour ++ ':' :: decimal2 tm.tmMin ++
      ':' :: decimal2 tm.tmSec)).length = 8 := by
    simp only [length_ascii, List.length_append, List.length_cons, hlen, hlen', hlen'']
  constructor
  · refine List.forall_mem_cons.mpr ⟨short_gotoxy (by decide) (by decide),
      List.forall_mem_singleton.mpr ?_⟩
    show (_ ++ newline).length < outbufSize
    rw [List.length_append, hlength]
    decide
  · refine (draws_printf_newline (by decide) (by decide) (by rw [hlength]; decide)
      (prints_text htext)).confined ?_
    rw [List.forall_mem_singleton]
    rintro r c ⟨rfl, -⟩
    rfl

/-! ## The frame

`render_boards_temp` draws box by box. All its characters are in every twelfth row, from row 11 on,
and in every 35th column, counted from 0 except that column 0 is column 1. -/

/-- The lines between the boards and around them. -/
def frameLines : Region := fun r c => r % 12 = 11 ∨ c = 1 ∨ c % 35 = 0

/-- Calls after calls in a region. -/
theorem confined_append {R : Region} {calls more : List OutbufCall}
    (h : Confined R (callBytes calls)) (h' : Confined R (callBytes more)) :
    Confined R (callBytes (calls ++ more)) := by
  rw [callBytes_append]
  exact h.append h'

/-- A loop of calls in a region. -/
theorem confined_flatMap {R : Region} {ι : Type} {xs : List ι} {f : ι → List OutbufCall}
    (h : ∀ x ∈ xs, Confined R (callBytes (f x))) : Confined R (callBytes (xs.flatMap f)) := by
  rw [callBytes_flatMap]
  exact Confined.flatMap h

/-- One character of the frame. -/
theorem confined_boxCh {x y : Nat} (hx : x < 1000) (hy : y < 1000) {ch : List Byte}
    (hch : ∃ a b, ch = boxCh a b) (hin : frameLines (max 1 y) (max 1 x)) :
    Confined frameLines (callBytes [gotoxy x y, .outbufWrite ch]) := by
  obtain ⟨a, b, rfl⟩ := hch
  refine confined_gotoxy hx hy (prints_boxCh a b) fun c hc hc' => ?_
  rw [List.length_singleton] at hc'
  obtain rfl : c = max 1 x := by omega
  exact hin

/-- A box character chosen by a condition is one. -/
theorem boxCh_ite {c : Prop} [Decidable c] {ch ch' : List Byte} (h : ∃ a b, ch = boxCh a b)
    (h' : ∃ a b, ch' = boxCh a b) : ∃ a b, (if c then ch else ch') = boxCh a b := by
  split
  · exact h
  · exact h'

/-- The two characters at the sides of a box are on the lines. -/
theorem confined_frameCh {n i j x y : Nat} (hx : x < 900) (hx' : x % 35 = 0) (hy : y + j < 900) :
    Confined frameLines (callBytes (frameCh n i j x y)) := by
  have hleft : frameLines (max 1 (y + j + 1)) (max 1 x) := by
    rw [frameLines]
    omega
  have hright : frameLines (max 1 (y + j + 1)) (max 1 (x + boardW)) := by
    rw [frameLines, boardW]
    omega
  have hx'' : x + boardW < 1000 := by
    rw [boardW]
    omega
  -- the left character, and what comes behind it
  have hcons : ∀ ch, (∃ a b, ch = boxCh a b) → ∀ more, Confined frameLines (callBytes more) →
      Confined frameLines (callBytes (gotoxy x (y + j + 1) :: .outbufWrite ch :: more)) :=
    fun ch hch more hmore =>
      confined_append (confined_boxCh (by omega) (by omega) hch hleft) hmore
  have hlast : ∀ ch, (∃ a b, ch = boxCh a b) →
      Confined frameLines (callBytes [gotoxy (x + boardW) (y + j + 1), .outbufWrite ch]) :=
    fun ch hch => confined_boxCh hx'' (by omega) hch hright
  simp only [frameCh]
  split
  case isTrue => exact hcons _ ⟨_, _, rfl⟩ _ (hlast _ ⟨_, _, rfl⟩)
  case isFalse =>
    split
    case isTrue => exact hcons _ ⟨_, _, rfl⟩ _ .nil
    case isFalse =>
      split
      case isTrue => exact hcons _ ⟨_, _, rfl⟩ _ .nil
      case isFalse =>
        refine hcons _ ?_ _ ?_
        · exact boxCh_ite ⟨_, _, rfl⟩ (boxCh_ite ⟨_, _, rfl⟩ (boxCh_ite ⟨_, _, rfl⟩
            (boxCh_ite ⟨_, _, rfl⟩ ⟨_, _, rfl⟩)))
        · split
          · exact hlast _ (boxCh_ite ⟨_, _, rfl⟩ (boxCh_ite ⟨_, _, rfl⟩ (boxCh_ite ⟨_, _, rfl⟩
              (boxCh_ite ⟨_, _, rfl⟩ ⟨_, _, rfl⟩))))
          · exact .nil

/-- So is all that is drawn of a box: the line above it, the line below, the sides. -/
theorem confined_frameBox {n i : Nat} (hn : n ≠ 1) (hi : i < 200) :
    Confined frameLines (callBytes (frameBox n i)) := by
  have hmod : i % uiCols < 3 := Nat.mod_lt _ (by decide)
  have hdiv : i / uiCols < 67 := by
    rw [uiCols]
    omega
  simp only [frameBox]
  generalize i % uiCols = col at hmod
  generalize i / uiCols = row at hdiv
  refine confined_append (confined_append ?_ (confined_flatMap fun j hj => ?_))
    (confined_flatMap fun j hj => ?_)
  · -- the line above, and its end
    have hrow : (max 1 (10 + row * (11 + 1) + 1)) % 12 = 11 := by omega
    have htext : IsText (callBytes ((if i < uiCols then
        List.replicate boardW (.outbufWrite horizontal) else []) ++
        (if n = 1 ∧ i < uiCols then [.outbufWrite (0x08 :: boxCh 0x94 0x90)]
        else if i + 1 = uiCols ∨ i + 1 = n then [.outbufWrite (boxCh 0x94 0x90)] else []))) := by
      refine IsText.flatMap (List.forall_mem_append.mpr ⟨?_, ?_⟩)
      · intro call hcall
        split at hcall
        · rw [(List.mem_replicate.mp hcall).2]
          exact isText_boxCh _ _
        · cases hcall
      · rw [if_neg fun h => hn h.1]
        intro call hcall
        split at hcall
        · rw [List.mem_singleton.mp hcall]
          exact isText_boxCh _ _
        · cases hcall
    obtain ⟨gs, hgs⟩ := htext
    exact confined_gotoxy (by rw [boardW]; omega) (by omega) hgs fun c _ _ => .inl hrow
  · rw [List.mem_range, boardW] at hj
    refine confined_boxCh (by rw [boardW]; omega) (by omega) ⟨_, _, rfl⟩ (.inl ?_)
    omega
  · rw [List.mem_range] at hj
    exact confined_frameCh (by rw [boardW]; omega) (by rw [boardW]; omega) (by omega)

/-- **What `render_boards_temp` draws** are lines. -/
theorem confined_renderBoardsTemp {n : Nat} (hn : n ≠ 1) (hn' : n ≤ 200) :
    Confined frameLines (callBytes (renderBoardsTemp n)) := by
  unfold renderBoardsTemp
  split
  · exact .nil
  · refine confined_append (confined_flatMap fun i hi => ?_) ?_
    · rw [List.mem_range] at hi
      exact confined_frameBox hn (by omega)
    · exact draws_newline.confined (by simp)

end Kxo
