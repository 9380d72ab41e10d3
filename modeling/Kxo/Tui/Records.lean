import Kxo.Tui.Boards

/-!
# Kxo — the moves in the record tab (`user/tui.c`)

`xo_record` blanks 77 columns of a game's row, from column 11 to column 87, and prints the moves
over them, five columns a move. A switch of tabs clears every row. So while the tab is shown:

* columns 11 to 87 of a row spell the last record passed for its game, with blanks behind it;
* the 16th move of a full game has its letter in column 87 and its digit in column 88, the first
  column that is not blanked. A shorter record passed later leaves that digit behind;
* columns 89 and 90, which only the 16th move reaches, stay blank.

`recordPicture` is what `xo_record` draws, `recordPicture_row` and `recordPicture_tail` read a row
back from it, `recordsShown_tuiCall` is the step over all drawing calls, and **`records_shown`** the
result for any sequence of them.
-/

namespace Kxo

/-! ## What `xo_record` draws

The names of the nine games, then blanks over one row, then the moves of the record in this row. The
cursor is sent to the next row at the end of each name. -/

def recordName (i : Nat) : List Char := ['G', 'A', 'M', 'E', '-'] ++ Nat.toDigits 10 i ++ [':', ' ']

/-- The moves of a record, spelled out. -/
def recordGlyphs (tlb : XoTable) : List Glyph :=
  let steps := (xoAttrSteps tlb.attr).toNat
  (List.range steps).flatMap fun i =>
    moveGlyphs ((getRecordCell tlb.moves i).setWidth 8) (i + 1 = steps)

/-- The names, the blanks and the moves. -/
def recordPicture (tlb : XoTable) : List Stroke :=
  let id := (xoAttrId tlb.attr).toNat
  (List.range nGames).map (fun i => .text 4 (53 + i) (textGlyphs (recordName i))) ++
    [.text 11 (53 + id) (textGlyphs (padStart 77 [' '])), .text 11 (53 + id) (recordGlyphs tlb)]

/-- A blank padded to a width prints as blanks. -/
theorem prints_blanks (n : Nat) :
    Prints 0 (ascii (padStart n [' '])) (textGlyphs (padStart n [' '])) := by
  refine prints_text (List.forall_mem_append.mpr ⟨fun c hc => ?_, printable_of_all rfl⟩)
  rw [(List.mem_replicate.mp hc).2]
  decide

/-- The name of a game is eight characters. -/
theorem recordName_spec {i : Nat} (hi : i < nGames) :
    (∀ c ∈ recordName i, 0x20 ≤ c.toNat ∧ c.toNat < 0x80) ∧ (recordName i).length = 8 := by
  constructor
  · refine List.forall_mem_append.mpr ⟨List.forall_mem_append.mpr ⟨printable_of_all rfl,
      fun c hc => ?_⟩, printable_of_all rfl⟩
    exact isDigit_printable (Nat.isDigit_of_mem_toDigits (by decide) (by decide) hc)
  · have hlen : (Nat.toDigits 10 i).length ≤ 1 :=
      (Nat.length_toDigits_le_iff (by decide) (by decide)).mpr (Nat.lt_trans hi (by decide))
    have hpos : 0 < (Nat.toDigits 10 i).length := List.length_pos_iff.mpr Nat.toDigits_ne_nil
    simp only [recordName, List.length_append, List.length_cons, List.length_nil]
    omega

/-- A list of texts, each with the `gotoxy` to its row before it or at the end of the loop
before. -/
theorem callBytes_rows {x y : Nat} (hx : x < 1000) {n : Nat} (hy : y + n < 1000)
    (text : Nat → List Byte) (hlen : ∀ i < n, (text i).length < outbufSize) :
    callBytes (gotoxy x y :: (List.range n).flatMap fun i =>
        [.outbufPrintf (text i), gotoxy x (y + i + 1)]) =
      ((List.range n).flatMap fun i => cursorTo x (y + i) ++ text i) ++ cursorTo x (y + n) := by
  induction n with
  | zero =>
    rw [callBytes_cons, data_gotoxy hx (show y < 1000 by omega)]
    exact List.append_nil _
  | succ n ih =>
    have ih := ih (by omega) fun i hi => hlen i (by omega)
    rw [List.range_succ, List.flatMap_append, List.flatMap_append, ← List.cons_append,
      callBytes_append, ih, List.flatMap_singleton, List.flatMap_singleton, callBytes_cons,
      data_printf (hlen n (by omega)), callBytes, List.flatMap_singleton,
      data_gotoxy hx (by omega)]
    simp only [List.append_assoc, Nat.add_assoc]

/-- The loop over the names draws one in each row. -/
theorem draws_names : Draws (callBytes (gotoxy 4 53 :: (List.range nGames).flatMap fun i =>
      [.outbufPrintf (ascii ['G', 'A', 'M', 'E', '-'] ++ decimal i ++ ascii [':', ' ']),
        gotoxy 4 (53 + i + 1)]))
    ((List.range nGames).map fun i => .text 4 (53 + i) (textGlyphs (recordName i))) := by
  have htext : ∀ i, ascii ['G', 'A', 'M', 'E', '-'] ++ decimal i ++ ascii [':', ' '] =
      ascii (recordName i) := fun i => by simp [ascii, decimal, recordName]
  simp only [htext]
  rw [callBytes_rows (by decide) (by decide) _ fun i hi => by
    rw [length_ascii, (recordName_spec hi).2]; decide]
  rw [← List.append_nil ((List.range nGames).map _), ← List.flatMap_singleton' (List.map _ _),
    List.flatMap_map]
  refine Draws.append (Draws.flatMap fun i hi => ?_) (draws_cursorTo _ _)
  have h := (prints_text (recordName_spec (List.mem_range.mp hi)).1).at 4 (53 + i)
  rwa [Nat.max_eq_right (by omega), Nat.max_eq_right (by omega)] at h

/-- **What `xo_record` draws** behind its border. -/
theorem draws_recordRows {tlb : XoTable} (hsteps : (xoAttrSteps tlb.attr).toNat ≤ 16) :
    Draws (callBytes (recordRows tlb)) (recordPicture tlb) := by
  have hid := xoAttrId_lt tlb.attr
  have hblank : Draws (callBytes [gotoxy 11 (53 + (xoAttrId tlb.attr).toNat),
      .outbufPrintf (ascii (padStart 77 [' ']))])
      [.text 11 (53 + (xoAttrId tlb.attr).toNat) (textGlyphs (padStart 77 [' ']))] := by
    have h := draws_gotoxy (x := 11) (y := 53 + (xoAttrId tlb.attr).toNat) (by decide) (by omega)
      (prints_printf (by decide) (prints_blanks 77))
    rwa [Nat.max_eq_right (by omega), Nat.max_eq_right (by omega)] at h
  have hmoves : Draws (callBytes (gotoxy 11 (53 + (xoAttrId tlb.attr).toNat) ::
      (List.range (xoAttrSteps tlb.attr).toNat).map fun i => .outbufPrintf
        (moveText ((getRecordCell tlb.moves i).setWidth 8) (i + 1 = (xoAttrSteps tlb.attr).toNat))))
      [.text 11 (53 + (xoAttrId tlb.attr).toNat) (recordGlyphs tlb)] := by
    have hprints : Prints 0 (callBytes ((List.range (xoAttrSteps tlb.attr).toNat).map fun i =>
        .outbufPrintf (moveText ((getRecordCell tlb.moves i).setWidth 8)
          (i + 1 = (xoAttrSteps tlb.attr).toNat)))) (recordGlyphs tlb) := by
      rw [callBytes, List.flatMap_map]
      refine Prints.flatMap fun i hi => ?_
      rw [data_printf (Nat.lt_of_le_of_lt (length_moveText _ _) (by decide))]
      exact prints_moveTexts hsteps (List.mem_range.mp hi)
    have h := draws_gotoxy (x := 11) (y := 53 + (xoAttrId tlb.attr).toNat) (by decide) (by omega)
      hprints
    rwa [Nat.max_eq_right (by omega), Nat.max_eq_right (by omega)] at h
  have hall := (draws_names.append hblank).append hmoves
  rw [← callBytes_append, ← callBytes_append] at hall
  simpa [recordRows, recordPicture] using hall

/-! ## A row is read back

Each column behind the names, from the strokes that cover it: first those that are blanked, then the
three behind them. -/

/-- What column `11 + k` of a game's row shows of its record. -/
def recordGlyph (tlb : XoTable) (k : Nat) : Glyph := (recordGlyphs tlb)[k]?.getD .blank

/-- A move takes five columns. -/
theorem length_moveGlyphs (mv : Byte) (last : Bool) : (moveGlyphs mv last).length = 5 := rfl

/-- Five columns a move. -/
theorem flatMap_getElem? {ι α : Type} {n : Nat} (f : ι → List α) (hf : ∀ x, (f x).length = n)
    (xs : List ι) {i j : Nat} (hj : j < n) :
    (xs.flatMap f)[n * i + j]? = xs[i]?.bind fun x => (f x)[j]? := by
  induction xs generalizing i with
  | nil => simp
  | cons x xs ih =>
    cases i with
    | zero =>
      rw [List.flatMap_cons, List.getElem?_append_left (by rw [hf]; omega)]
      simp
    | succ i =>
      rw [List.flatMap_cons, List.getElem?_append_right (by rw [hf, Nat.mul_succ]; omega), hf,
        show n * (i + 1) + j - n = n * i + j by rw [Nat.mul_succ]; omega, ih]
      rfl

/-- The letter and the digit of a move. -/
theorem recordGlyph_move (tlb : XoTable) {i : Nat} (hi : i < (xoAttrSteps tlb.attr).toNat) :
    recordGlyph tlb (5 * i + 1) =
        ⟨[0x41 + ((getRecordCell tlb.moves i).setWidth 8 &&& 3)], 0⟩ ∧
      recordGlyph tlb (5 * i + 2) =
        ⟨[0x31 + BitVec.ofNat 8 (((getRecordCell tlb.moves i).setWidth 8 : Byte).toNat /
          boardSize)], 0⟩ := by
  have hget : (List.range (xoAttrSteps tlb.attr).toNat)[i]? = some i := by
    rw [List.getElem?_eq_getElem (by rwa [List.length_range]), List.getElem_range]
  rw [recordGlyph, recordGlyph, recordGlyphs]
  rw [flatMap_getElem? _ (fun i => length_moveGlyphs _ _) _ (by decide),
    flatMap_getElem? _ (fun i => length_moveGlyphs _ _) _ (by decide), hget]
  exact ⟨rfl, rfl⟩

/-- A row starts with a blank, whatever the record. -/
theorem recordGlyph_zero (tlb : XoTable) : recordGlyph tlb 0 = .blank := by
  rw [recordGlyph, recordGlyphs]
  cases (xoAttrSteps tlb.attr).toNat with
  | zero => rfl
  | succ n =>
    rw [List.range_succ_eq_map, List.flatMap_cons,
      List.getElem?_append_left (by rw [length_moveGlyphs]; decide)]
    rfl

/-- All 77 columns are blanked. -/
theorem blanks_getElem? {k : Nat} (hk : k < 77) :
    (textGlyphs (padStart 77 [' ']))[k]? = some .blank := by
  have hall : ∀ g ∈ textGlyphs (padStart 77 [' ']), g = .blank := by
    intro g hg
    obtain ⟨c, hc, rfl⟩ := List.mem_map.mp hg
    rcases List.mem_append.mp hc with hc | hc
    · rw [(List.mem_replicate.mp hc).2]
      rfl
    · rw [List.mem_singleton.mp hc]
      rfl
  have hlen : k < (textGlyphs (padStart 77 [' '])).length := by
    rw [length_textGlyphs, padStart, List.length_append, List.length_replicate]
    exact hk
  rw [List.getElem?_eq_getElem hlen, hall _ (List.getElem_mem hlen)]

/-- A name ends in a blank. -/
theorem recordName_last {i : Nat} (hi : i < nGames) :
    (textGlyphs (recordName i))[7]? = some .blank := by
  have hlen := (recordName_spec hi).2
  have hsix : (['G', 'A', 'M', 'E', '-'] ++ Nat.toDigits 10 i).length = 6 := by
    rw [recordName, List.length_append, List.length_cons, List.length_cons, List.length_nil] at hlen
    omega
  rw [textGlyphs, List.getElem?_map, recordName, List.getElem?_append_right (by omega), hsix]
  rfl

/-- The names leave column 11 blank. -/
theorem paint_names_blank {xs : List Nat} (hxs : ∀ i ∈ xs, i < nGames) {cell : Canvas} {id : Nat}
    (hblank : cell (53 + id) 11 = .blank) :
    (xs.map fun i => Stroke.text 4 (53 + i) (textGlyphs (recordName i))).foldl paint cell
      (53 + id) 11 = .blank := by
  induction xs generalizing cell with
  | nil => exact hblank
  | cons i xs ih =>
    rw [List.forall_mem_cons] at hxs
    refine ih hxs.2 ?_
    show textOn cell (53 + i) 4 _ (53 + id) 11 = _
    rw [textOn]
    split
    · rw [recordName_last hxs.1]
      rfl
    · exact hblank

/-- **The rows after `xo_record`**: its game's row shows its record, the other rows are as they were
from the second column behind the name on. -/
theorem recordPicture_row (tlb : XoTable) (cell : Canvas) {id k : Nat} (hk : k < 77)
    (hblank : k = 0 → cell (53 + id) 11 = .blank) :
    (recordPicture tlb).foldl paint cell (53 + id) (11 + k) =
      if (xoAttrId tlb.attr).toNat = id then recordGlyph tlb k else cell (53 + id) (11 + k) := by
  simp only [recordPicture, List.foldl_append, List.foldl_cons, List.foldl_nil]
  generalize (xoAttrId tlb.attr).toNat = id'
  split
  case isTrue h =>
    subst h
    show textOn (textOn _ (53 + id') 11 _) (53 + id') 11 _ (53 + id') (11 + k) = _
    rw [textOn, if_pos ⟨rfl, by omega⟩, textOn, if_pos ⟨rfl, by omega⟩, Nat.add_sub_cancel_left,
      blanks_getElem? hk]
    rfl
  case isFalse h =>
    rw [paint_of_not_covers, paint_of_not_covers]
    · by_cases hzero : k = 0
      · subst hzero
        rw [Nat.add_zero, hblank rfl]
        exact paint_names_blank (fun i hi => List.mem_range.mp hi) (hblank rfl)
      · refine foldl_paint_uncovered (fun p hp => ?_) cell
        obtain ⟨i, hi, rfl⟩ := List.mem_map.mp hp
        rintro ⟨-, -, hcol⟩
        rw [length_textGlyphs, (recordName_spec (List.mem_range.mp hi)).2] at hcol
        omega
    · rintro ⟨hrow, -⟩
      omega
    · rintro ⟨hrow, -⟩
      omega

/-- A record takes five columns a move. -/
theorem length_recordGlyphs (tlb : XoTable) :
    (recordGlyphs tlb).length = 5 * (xoAttrSteps tlb.attr).toNat := by
  simp [recordGlyphs, length_moveGlyphs, Nat.mul_comm]

/-- Behind the digit of the 16th move a row has blanks only. -/
theorem recordGlyph_end (tlb : XoTable) (h : (xoAttrSteps tlb.attr).toNat = 16) :
    recordGlyph tlb 78 = .blank ∧ recordGlyph tlb 79 = .blank := by
  have hget : (List.range (xoAttrSteps tlb.attr).toNat)[15]? = some 15 := by
    rw [h]
    rfl
  have hcol : ∀ j < 5, recordGlyph tlb (5 * 15 + j) =
      (moveGlyphs ((getRecordCell tlb.moves 15).setWidth 8) true)[j]?.getD .blank := by
    intro j hj
    rw [recordGlyph, recordGlyphs, flatMap_getElem? _ (fun i => length_moveGlyphs _ _) _ hj,
      hget, h]
    rfl
  exact ⟨hcol 3 (by decide), hcol 4 (by decide)⟩

/-- **The columns behind the blanks**: only a record of 16 moves reaches them, in its game's row. -/
theorem recordPicture_tail {tlb : XoTable} (hsteps : (xoAttrSteps tlb.attr).toNat ≤ 16)
    (cell : Canvas) {id k : Nat} (hk : 77 ≤ k) (hk' : k < 80) :
    (recordPicture tlb).foldl paint cell (53 + id) (11 + k) =
      if (xoAttrId tlb.attr).toNat = id ∧ (xoAttrSteps tlb.attr).toNat = 16 then recordGlyph tlb k
      else cell (53 + id) (11 + k) := by
  have hlen := length_recordGlyphs tlb
  have hblanks : (textGlyphs (padStart 77 [' '])).length = 77 := by
    rw [length_textGlyphs, padStart, List.length_append, List.length_replicate]
    rfl
  -- the names are to the left
  have hnames : ∀ p ∈ (List.range nGames).map fun i =>
      Stroke.text 4 (53 + i) (textGlyphs (recordName i)), ¬ p.Covers (53 + id) (11 + k) := by
    intro p hp
    obtain ⟨i, hi, rfl⟩ := List.mem_map.mp hp
    rintro ⟨-, -, hcol⟩
    rw [length_textGlyphs, (recordName_spec (List.mem_range.mp hi)).2] at hcol
    omega
  simp only [recordPicture, List.foldl_append, List.foldl_cons, List.foldl_nil]
  split
  case isTrue h =>
    obtain ⟨hid, hfull⟩ := h
    rw [hid]
    show textOn (textOn _ (53 + id) 11 _) (53 + id) 11 _ (53 + id) (11 + k) = _
    have hin : k < (recordGlyphs tlb).length := by omega
    rw [textOn, if_pos ⟨rfl, by omega⟩, Nat.add_sub_cancel_left, recordGlyph,
      List.getElem?_eq_getElem hin]
    rfl
  case isFalse h =>
    rw [paint_of_not_covers, paint_of_not_covers]
    · exact foldl_paint_uncovered hnames cell
    · rintro ⟨-, -, hcol⟩
      rw [hblanks] at hcol
      omega
    · rintro ⟨hrow, -, hcol⟩
      rw [hlen] at hcol
      refine h ⟨by omega, by omega⟩

/-! ## A switch of tabs

`draw_tab_border` erases twelve rows and draws a bottom line and two sides. The rest of these rows
is blank, whatever the other tab showed. -/

/-- The lines of `draw_tab_border`. -/
def tabLines (tab : TuiTab) : Region := fun r c => r = tabCtxBasey + tab.high ∨ c = 1 ∨ c = 105

/-- A single character of the border. -/
theorem confined_write_boxCh {R : Region} {x y : Nat} (hx : x < 1000) (hy : y < 1000) (a b : Byte)
    (hin : R (max 1 y) (max 1 x)) :
    Confined R (callBytes [gotoxy x y, .outbufWrite (boxCh a b)]) := by
  refine confined_gotoxy hx hy (prints_boxCh a b) fun c hc hc' => ?_
  rw [List.length_singleton] at hc'
  obtain rfl : c = max 1 x := by omega
  exact hin

/-- The loop of `clean_line` erases the rows of the tab. -/
theorem draws_cleanLines : Draws (callBytes ((List.range (tabMaxh + 1)).flatMap fun i =>
      [gotoxy 1 (tabCtxBasey + i), cleanLine]))
    ((List.range (tabMaxh + 1)).map fun i => .eraseRow (tabCtxBasey + i)) := by
  rw [callBytes_flatMap, ← List.flatMap_singleton' (List.map _ _), List.flatMap_map]
  refine Draws.flatMap fun i hi => ?_
  rw [List.mem_range, show tabMaxh = 11 from rfl] at hi
  have h := draws_eraseRow 1 (tabCtxBasey + i)
  rw [callBytes_cons, data_gotoxy (by decide) (by rw [tabCtxBasey]; omega)]
  rwa [Nat.max_eq_right (by rw [tabCtxBasey]; omega)] at h

/-- Erased rows are blank, whatever was there. -/
theorem foldl_eraseRow_blank {xs : List Nat} {row : Nat} (hrow : row ∈ xs) (cell : Canvas)
    (c : Nat) : (xs.map fun r => Stroke.eraseRow r).foldl paint cell row c = .blank := by
  have hblank : ∀ ys : List Nat,
      (ys.map fun r => Stroke.eraseRow r).foldl paint (fun _ _ => .blank) row c = .blank := by
    intro ys
    induction ys with
    | nil => rfl
    | cons y ys ih =>
      have hpaint : paint (fun _ _ => .blank) (.eraseRow y) = fun _ _ => .blank := by
        funext r c
        exact ite_self _
      rw [List.map_cons, List.foldl_cons, hpaint, ih]
  have hcovered : ∃ p ∈ xs.map fun r => Stroke.eraseRow r, p.Covers row c :=
    ⟨.eraseRow row, List.mem_map_of_mem hrow, rfl⟩
  rw [foldl_paint_covered hcovered cell fun _ _ => .blank, hblank]

/-- The border: rows erased, then lines. -/
theorem drawTabBorder_lines (tab : TuiTab) : ∃ lines,
    drawTabBorder tab = ((List.range (tabMaxh + 1)).flatMap fun i =>
      [gotoxy 1 (tabCtxBasey + i), cleanLine]) ++ lines ∧
    Confined (tabLines tab) (callBytes lines) := by
  have hhigh : tab.high ≤ 11 := by cases tab <;> decide
  have hrow : tabCtxBasey + tab.high < 1000 := by
    rw [tabCtxBasey]
    omega
  have hfoot : max 1 (tabCtxBasey + tab.high) = tabCtxBasey + tab.high :=
    Nat.max_eq_right (by rw [tabCtxBasey]; omega)
  refine ⟨_, (congrArg (· ++ _) (List.append_assoc ..)).trans (List.append_assoc ..), ?_⟩
  refine confined_append (confined_append ?corners ?sides) ?foot
  case corners =>
    exact confined_append (confined_write_boxCh (by decide) hrow _ _ (.inl hfoot))
      (confined_write_boxCh (by decide) hrow _ _ (.inl hfoot))
  case sides =>
    refine confined_flatMap fun i hi => ?_
    rw [List.mem_range] at hi
    exact confined_append
      (confined_write_boxCh (by decide) (by omega) _ _ (.inr (.inl rfl)))
      (confined_write_boxCh (by decide) (by omega) _ _ (.inr (.inr rfl)))
  case foot =>
    have htext : IsText (callBytes (List.replicate (106 - 3) (.outbufWrite horizontal))) :=
      IsText.flatMap fun call hcall => by
        rw [(List.mem_replicate.mp hcall).2]
        exact isText_boxCh _ _
    obtain ⟨gs, hgs⟩ := htext
    exact confined_gotoxy (by decide) hrow hgs fun c _ _ => .inl hfoot

/-- The border clears the rows inside it. -/
theorem drawTabBorder_blank (tab : TuiTab) {t : Terminal} (ht : t.Idle 0) :
    (t.feed (callBytes (drawTabBorder tab))).Idle 0 ∧
      ∀ i c, i ≤ tabMaxh → ¬ tabLines tab (tabCtxBasey + i) c →
        (t.feed (callBytes (drawTabBorder tab))).cell (tabCtxBasey + i) c = .blank := by
  obtain ⟨lines, hlines, hconfined⟩ := drawTabBorder_lines tab
  obtain ⟨hidle, hcell⟩ := draws_cleanLines t ht
  obtain ⟨hidle', hcell'⟩ := hconfined _ hidle
  rw [hlines, callBytes_append, Terminal.feed_append]
  refine ⟨hidle', fun i c hi hout => ?_⟩
  rw [hcell' _ c hout, hcell]
  have hmem : tabCtxBasey + i ∈ (List.range (tabMaxh + 1)).map (tabCtxBasey + ·) :=
    List.mem_map_of_mem (List.mem_range.mpr (Nat.lt_succ_of_le hi))
  have hblank := foldl_eraseRow_blank hmem t.cell c
  rwa [List.map_map] at hblank

/-! ## Calls in any order

What a row shows is found from the calls alone: the last record for the game, and the last record of
16 moves, both since the last switch to the tab. -/

/-- The record in the row of a game after a call: a switch of tabs empties the rows. -/
def TuiCall.record (id : Nat) (shown : Option XoTable) : TuiCall → Option XoTable
  | .tuiUpdateTab .record tlb _ _ _ => if (xoAttrId tlb.attr).toNat = id then some tlb else shown
  | .tuiUpdateTab .loadavg _ _ _ _ => none
  | _ => shown

/-- The last record passed to `xo_record` for a game since the tab was switched to. -/
def lastRecord (id : Nat) (calls : List TuiCall) : Option XoTable :=
  calls.foldl (TuiCall.record id) none

/-- The record of 16 moves whose last digit stands in the row of a game after a call. -/
def TuiCall.fullRecord (id : Nat) (shown : Option XoTable) : TuiCall → Option XoTable
  | .tuiUpdateTab .record tlb _ _ _ =>
      if (xoAttrId tlb.attr).toNat = id ∧ (xoAttrSteps tlb.attr).toNat = 16 then some tlb else shown
  | .tuiUpdateTab .loadavg _ _ _ _ => none
  | _ => shown

/-- The last record of 16 moves passed to `xo_record` for a game since the tab was switched to. -/
def lastFullRecord (id : Nat) (calls : List TuiCall) : Option XoTable :=
  calls.foldl (TuiCall.fullRecord id) none

/-- While the tab is shown each row spells its record and, behind the columns that are blanked, the
end of the last record of 16 moves; otherwise there is none to show. -/
structure RecordsShown (s : TuiState) (shown full : Nat → Option XoTable) (cell : Canvas) :
    Prop where
  rows : s.prevTab = some .record → ∀ id < nGames, ∀ k < 77,
    cell (53 + id) (11 + k) = (shown id).elim .blank (recordGlyph · k)
  tails : s.prevTab = some .record → ∀ id < nGames, ∀ k, 77 ≤ k → k < 80 →
    cell (53 + id) (11 + k) = (full id).elim .blank (recordGlyph · k)
  hidden : s.prevTab ≠ some .record → ∀ id, shown id = none ∧ full id = none
  steps_le : ∀ id tlb, shown id = some tlb → (xoAttrSteps tlb.attr).toNat ≤ 16
  full_of_shown : ∀ id tlb, shown id = some tlb → (xoAttrSteps tlb.attr).toNat = 16 →
    full id = some tlb
  steps_full : ∀ id tlb, full id = some tlb → (xoAttrSteps tlb.attr).toNat = 16

section Shown

variable {shown full : Nat → Option XoTable}

/-- It is about the nine rows only. -/
theorem RecordsShown.congr {s : TuiState} {cell cell' : Canvas}
    (h : RecordsShown s shown full cell)
    (hcell : ∀ id < nGames, ∀ c, cell' (53 + id) c = cell (53 + id) c) :
    RecordsShown s shown full cell' where
  rows htab id hid k hk := (hcell id hid _).trans (h.rows htab id hid k hk)
  tails htab id hid k hk hk' := (hcell id hid _).trans (h.tails htab id hid k hk hk')
  hidden := h.hidden
  steps_le := h.steps_le
  full_of_shown := h.full_of_shown
  steps_full := h.steps_full

/-- Nothing is shown before the tab is. -/
theorem recordsShown_start (cell : Canvas) :
    RecordsShown tuiStart (fun _ => none) (fun _ => none) cell where
  rows htab := absurd htab (by decide)
  tails htab := absurd htab (by decide)
  hidden _ _ := ⟨rfl, rfl⟩
  steps_le _ _ h := by cases h
  full_of_shown _ _ h := by cases h
  steps_full _ _ h := by cases h

/-- A panel that stays above the tab's rows. -/
theorem Panel.recordsShown {rows : Nat → Prop} {calls : List OutbufCall} (h : Panel rows calls)
    (hrows : ∀ r, rows r → r < 53) {s : TuiState} {t : Terminal} (ht : t.Idle 0)
    (hshown : RecordsShown s shown full t.cell) :
    (t.feed (callBytes calls)).Idle 0 ∧
      RecordsShown s shown full (t.feed (callBytes calls)).cell := by
  obtain ⟨hidle, hcell⟩ := h.confined t ht
  refine ⟨hidle, hshown.congr fun id _ c => hcell _ _ fun hin => ?_⟩
  have := hrows _ hin
  omega

/-- Before `xo_record` draws its rows they are as they were, or cleared if the tab is new. -/
theorem recordsShown_border {s : TuiState} {t : Terminal} (ht : t.Idle 0)
    (hshown : RecordsShown s shown full t.cell) :
    (t.feed (callBytes (if some .record ≠ s.prevTab then drawTabBorder .record else []))).Idle 0 ∧
      RecordsShown { s with prevTab := some .record } shown full
        (t.feed (callBytes
          (if some .record ≠ s.prevTab then drawTabBorder .record else []))).cell := by
  split
  case isTrue hswitch =>
    obtain ⟨hidle, hblank⟩ := drawTabBorder_blank .record ht
    have hnone := hshown.hidden (Ne.symm hswitch)
    have hrow : ∀ id < nGames, ∀ k < 80,
        (t.feed (callBytes (drawTabBorder .record))).cell (53 + id) (11 + k) = .blank := by
      intro id hid k hk
      rw [nGames] at hid
      have hcell := hblank (1 + id) (11 + k) (by rw [show tabMaxh = 11 from rfl]; omega) (by
        rw [tabLines, show TuiTab.record.high = 11 from rfl, tabCtxBasey]
        omega)
      rwa [tabCtxBasey, show 52 + (1 + id) = 53 + id by omega] at hcell
    refine ⟨hidle, fun _ id hid k hk => ?_, fun _ id hid k _ hk => ?_, fun hne => absurd rfl hne,
      hshown.steps_le, hshown.full_of_shown, hshown.steps_full⟩
    · rw [hrow id hid k (by omega), (hnone id).1]
      rfl
    · rw [hrow id hid k hk, (hnone id).2]
      rfl
  case isFalse hsame =>
    have htab : s.prevTab = some .record := (not_ne_iff.mp hsame).symm
    exact ⟨ht, fun _ => hshown.rows htab, fun _ => hshown.tails htab, fun hne => absurd rfl hne,
      hshown.steps_le, hshown.full_of_shown, hshown.steps_full⟩

/-- **`xo_record` keeps it**, cleared rows or not. -/
theorem recordsShown_xoRecord {tlb : XoTable} {s s' : TuiState} {calls : List OutbufCall}
    (h : xoRecord .record tlb s = some (s', calls)) {t : Terminal}
    (ht : t.Idle 0) (hshown : RecordsShown s shown full t.cell) :
    (t.feed (callBytes calls)).Idle 0 ∧
      RecordsShown s' (fun id => if (xoAttrId tlb.attr).toNat = id then some tlb else shown id)
        (fun id => if (xoAttrId tlb.attr).toNat = id ∧ (xoAttrSteps tlb.attr).toNat = 16
          then some tlb else full id)
        (t.feed (callBytes calls)).cell := by
  obtain ⟨hsteps, rfl, rfl⟩ := xoRecord_eq_some h
  obtain ⟨hidle₁, hshown₁⟩ := recordsShown_border ht hshown
  rw [callBytes_append, Terminal.feed_append]
  -- from here on the rows are those after the border, cleared or not
  generalize t.feed (callBytes (if some .record ≠ s.prevTab then drawTabBorder .record else []))
      = t₁
    at hidle₁ hshown₁ ⊢
  obtain ⟨hidle, hcell⟩ := draws_recordRows hsteps _ hidle₁
  refine ⟨hidle, fun _ id hid k hk => ?_, fun _ id hid k hk hk' => ?_, fun hne => absurd rfl hne,
    fun id tlb' htlb => ?_, fun id tlb' htlb hfull => ?_, fun id tlb' htlb => ?_⟩
  -- a row starts with a blank, so the end of a name hides nothing
  · have hfirst : k = 0 → t₁.cell (53 + id) 11 = .blank := by
      rintro rfl
      have hrow := hshown₁.rows rfl id hid 0 (by decide)
      rw [Nat.add_zero] at hrow
      rw [hrow]
      cases shown id with
      | none => rfl
      | some tlb' => exact recordGlyph_zero tlb'
    rw [hcell, recordPicture_row tlb _ hk hfirst]
    split
    · rfl
    · exact hshown₁.rows rfl id hid k hk
  · rw [hcell, recordPicture_tail hsteps _ hk hk']
    split
    · rfl
    · exact hshown₁.tails rfl id hid k hk hk'
  · split at htlb
    · rw [← Option.some.inj htlb]
      exact hsteps
    · exact hshown.steps_le id tlb' htlb
  · split at htlb
    case isTrue hid =>
      rw [← Option.some.inj htlb] at hfull
      rw [if_pos ⟨hid, hfull⟩, htlb]
    case isFalse hid =>
      rw [if_neg fun hand => hid hand.1]
      exact hshown.full_of_shown id tlb' htlb hfull
  · split at htlb
    case isTrue hand =>
      rw [← Option.some.inj htlb]
      exact hand.2
    case isFalse => exact hshown.steps_full id tlb' htlb

/-- **One call.** -/
theorem recordsShown_tuiCall {s s' : TuiState} {call : TuiCall} {out : List OutbufCall}
    (h : tuiCall s call = some (s', out))
    (hid : ∀ tlb, call = .updateTable tlb → (xoAttrId tlb.attr).toNat < nGames)
    {t : Terminal} (ht : t.Idle 0) (hshown : RecordsShown s shown full t.cell) :
    (t.feed (callBytes out)).Idle 0 ∧
      RecordsShown s' (fun id => call.record id (shown id)) (fun id => call.fullRecord id (full id))
        (t.feed (callBytes out)).cell := by
  cases call with
  | updateTable tlb =>
    obtain ⟨calls, hcalls, hout⟩ := Option.bind_eq_some_iff.mp h
    obtain ⟨rfl, rfl⟩ := Prod.mk.inj (Option.some.inj hout)
    obtain ⟨hidle, hcell⟩ := draws_updateTable_saved hcalls t ht
    refine ⟨hidle, hshown.congr fun id _ c => ?_⟩
    rw [hcell]
    refine foldl_paint_outside (boardPicture_within tlb) _ fun hbox => ?_
    -- the box of a game is inside the frame, above the rows of the tab
    have hinside := (boardBox_inside (hid tlb rfl) hbox).1
    exact hinside (.inr (by omega))
  | tuiUpdateTab tab tlb first last xoAvgs =>
    obtain ⟨more, hmore, rfl⟩ := tuiUpdateTab_eq_some h
    rw [callBytes_append, Terminal.feed_append]
    obtain ⟨hidle, hlabel⟩ := (panel_drawTabLabel tab).recordsShown
      (fun r hr => Nat.lt_of_le_of_lt hr.2 (by decide)) ht hshown
    cases tab with
    | record => exact recordsShown_xoRecord hmore hidle hlabel
    | loadavg =>
      obtain ⟨rfl, rfl⟩ := Prod.mk.inj (Option.some.inj hmore)
      obtain ⟨hidle', -⟩ := (panel_xoLoadavg .loadavg first last xoAvgs s).confined _ hidle
      -- another tab is shown: no row is promised
      exact ⟨hidle', fun htab => absurd htab (by simp), fun htab => absurd htab (by simp),
        fun _ _ => ⟨rfl, rfl⟩, fun _ _ hnone => (nomatch hnone), fun _ _ hnone => (nomatch hnone),
        fun _ _ hnone => (nomatch hnone)⟩
  | stopMessage stop =>
    obtain ⟨rfl, rfl⟩ := Prod.mk.inj (Option.some.inj h)
    exact (panel_stopMessage stop).recordsShown
      (fun r hr => Nat.lt_of_le_of_lt hr.2 (by decide)) ht hshown
  | printNow tm =>
    obtain ⟨rfl, rfl⟩ := Prod.mk.inj (Option.some.inj h)
    exact (panel_printNow tm).recordsShown (fun r hr => hr.trans_lt (by decide)) ht hshown
  | outbufFlush =>
    obtain ⟨rfl, rfl⟩ := Prod.mk.inj (Option.some.inj h)
    exact ⟨ht, hshown⟩

/-- **Calls one after another.** -/
theorem recordsShown_tuiCalls {s s' : TuiState} {calls : List TuiCall} {out : List OutbufCall}
    (h : tuiCalls s calls = some (s', out))
    (hid : ∀ tlb, .updateTable tlb ∈ calls → (xoAttrId tlb.attr).toNat < nGames)
    {t : Terminal} (ht : t.Idle 0) (hshown : RecordsShown s shown full t.cell) :
    RecordsShown s' (fun id => calls.foldl (TuiCall.record id) (shown id))
      (fun id => calls.foldl (TuiCall.fullRecord id) (full id)) (t.feed (callBytes out)).cell := by
  induction calls generalizing s s' out t shown full with
  | nil =>
    obtain ⟨rfl, rfl⟩ := Prod.mk.inj (Option.some.inj h)
    exact hshown
  | cons call calls ih =>
    obtain ⟨⟨s₁, first⟩, hfirst, h⟩ := Option.bind_eq_some_iff.mp h
    obtain ⟨⟨s₂, more⟩, hmore, h⟩ := Option.bind_eq_some_iff.mp h
    obtain ⟨rfl, rfl⟩ := Prod.mk.inj (Option.some.inj h)
    obtain ⟨hidle, hshown₁⟩ := recordsShown_tuiCall hfirst
      (fun tlb heq => hid tlb (heq ▸ List.mem_cons_self)) ht hshown
    rw [callBytes_append, Terminal.feed_append]
    exact ih hmore (fun tlb hmem => hid tlb (List.mem_cons_of_mem _ hmem)) hidle hshown₁

/-- The letter and the digit of each move of the record shown, the 16th included. -/
theorem RecordsShown.moves {s : TuiState} {cell : Canvas} (h : RecordsShown s shown full cell)
    (htab : s.prevTab = some .record) {id : Nat} (hgame : id < nGames) {tlb : XoTable}
    (hlast : shown id = some tlb) {i : Nat} (hi : i < (xoAttrSteps tlb.attr).toNat) :
    cell (53 + id) (11 + (5 * i + 1)) =
        ⟨[0x41 + ((getRecordCell tlb.moves i).setWidth 8 &&& 3)], 0⟩ ∧
      cell (53 + id) (11 + (5 * i + 2)) =
        ⟨[0x31 + BitVec.ofNat 8 (((getRecordCell tlb.moves i).setWidth 8 : Byte).toNat /
          boardSize)], 0⟩ := by
  have hsteps := h.steps_le id tlb hlast
  obtain ⟨hletter, hdigit⟩ := recordGlyph_move tlb hi
  refine ⟨?_, ?_⟩
  · rw [h.rows htab id hgame _ (by omega), hlast]
    exact hletter
  · by_cases hcol : 5 * i + 2 < 77
    · rw [h.rows htab id hgame _ hcol, hlast]
      exact hdigit
    · -- the digit of the 16th move
      have hfull := h.full_of_shown id tlb hlast (by omega)
      rw [h.tails htab id hgame _ (by omega) (by omega), hfull]
      exact hdigit

end Shown

/-- **The record tab.** Calls in any order, flushed at the end, `update_table` called for the nine
games only: while the tab is shown, the row of each game spells the moves of the last record passed
for it since the tab was switched to, letter and digit, with blanks behind them up to column 87.
Column 88 has the last digit of the last record of 16 moves, which a shorter one after it leaves
there, and columns 89 and 90 are blank. -/
theorem records_shown {s' : TuiState} {calls : List TuiCall} {out : List OutbufCall}
    (hcalls : tuiCalls tuiStart (calls ++ [.outbufFlush]) = some (s', out))
    (hid : ∀ tlb, .updateTable tlb ∈ calls → (xoAttrId tlb.attr).toNat < nGames) {b : Outbuf}
    (henabled : b.disabled = false) (hlen : b.len < flushThreshold) {t : Terminal}
    (ht : (t.feed b.output).Idle 0) :
    ∃ b', outbufCalls b out = some b' ∧ b'.disabled = false ∧ b'.len = 0 ∧
      (s'.prevTab = some .record → ∀ id < nGames,
        (∀ k < 77, (t.feed b'.written).cell (53 + id) (11 + k) =
          (lastRecord id calls).elim .blank (recordGlyph · k)) ∧
        (t.feed b'.written).cell (53 + id) 88 =
          (lastFullRecord id calls).elim .blank (recordGlyph · 77) ∧
        (t.feed b'.written).cell (53 + id) 89 = .blank ∧
        (t.feed b'.written).cell (53 + id) 90 = .blank ∧
        ∀ tlb, lastRecord id calls = some tlb → ∀ i < (xoAttrSteps tlb.attr).toNat,
          (t.feed b'.written).cell (53 + id) (11 + (5 * i + 1)) =
              ⟨[0x41 + ((getRecordCell tlb.moves i).setWidth 8 &&& 3)], 0⟩ ∧
            (t.feed b'.written).cell (53 + id) (11 + (5 * i + 2)) =
              ⟨[0x31 + BitVec.ofNat 8 (((getRecordCell tlb.moves i).setWidth 8 : Byte).toNat /
                boardSize)], 0⟩) := by
  obtain ⟨drawn, b', hdrawn, hb', henabled', hlen', hwritten⟩ :=
    tuiCalls_flushed hcalls henabled hlen
  have hshown := recordsShown_tuiCalls hdrawn hid ht (recordsShown_start (t.feed b.output).cell)
  refine ⟨b', hb', henabled', hlen', fun htab id hgame => ?_⟩
  rw [hwritten, Terminal.feed_append]
  have htail : ∀ k, 77 ≤ k → k < 80 →
      ((t.feed b.output).feed (callBytes drawn)).cell (53 + id) (11 + k) =
        (lastFullRecord id calls).elim .blank (recordGlyph · k) := hshown.tails htab id hgame
  -- what a full record has behind its last digit is blank too
  have hend : ∀ k, k = 78 ∨ k = 79 →
      (lastFullRecord id calls).elim .blank (recordGlyph · k) = .blank := by
    intro k hk
    cases hfull : lastFullRecord id calls with
    | none => rfl
    | some tlb =>
      obtain ⟨h78, h79⟩ := recordGlyph_end tlb (hshown.steps_full id tlb hfull)
      rcases hk with rfl | rfl
      · exact h78
      · exact h79
  refine ⟨hshown.rows htab id hgame, htail 77 (by decide) (by decide), ?_, ?_,
    fun tlb hlast i hi => hshown.moves htab hgame hlast hi⟩
  · exact (htail 78 (by decide) (by decide)).trans (hend 78 (.inl rfl))
  · exact (htail 79 (by decide) (by decide)).trans (hend 79 (.inr rfl))

/-- A full game, and the first move of the next one: the first game's rows on a cleared screen. -/
def fullThenShort : List TuiCall :=
  [.tuiUpdateTab .record ⟨0x100, 0x99999999, 0xfedcba9876543210⟩ ⟨0, 0⟩ ⟨0, 0⟩ fun _ => ⟨0, 0⟩,
    .tuiUpdateTab .record ⟨0x10, 1, 0⟩ ⟨0, 0⟩ ⟨0, 0⟩ fun _ => ⟨0, 0⟩]

/-- The row spells the one move, to the first square, and the last digit of the full game stays. -/
theorem records_shown_short : ∃ (out : List OutbufCall) (b' : Outbuf),
    tuiCalls tuiStart (fullThenShort ++ [.outbufFlush]) =
        some (⟨some .record, false, ⟨0, 0⟩⟩, out) ∧
      outbufCalls outbufInit out = some b' ∧
      (Terminal.cleared.feed b'.written).cell 53 12 = ⟨[0x41], 0⟩ ∧
      (Terminal.cleared.feed b'.written).cell 53 13 = ⟨[0x31], 0⟩ ∧
      (Terminal.cleared.feed b'.written).cell 53 17 = .blank ∧
      (Terminal.cleared.feed b'.written).cell 53 88 = ⟨[0x34], 0⟩ := by
  obtain ⟨out, hrun⟩ : ∃ out, tuiCalls tuiStart (fullThenShort ++ [.outbufFlush]) =
      some (⟨some .record, false, ⟨0, 0⟩⟩, out) := ⟨_, rfl⟩
  obtain ⟨b', hb', -, -, hrows⟩ := records_shown hrun (by simp [fullThenShort]) (b := outbufInit)
    rfl
    (by decide) Terminal.idle_cleared
  obtain ⟨hrow, htail, -, -, hmoves⟩ := hrows rfl 0 (by decide)
  obtain ⟨hletter, hdigit⟩ := hmoves ⟨0x10, 1, 0⟩ rfl 0 (by decide)
  exact ⟨out, b', hrun, hb', hletter, hdigit, hrow 6 (by decide), htail⟩

end Kxo
