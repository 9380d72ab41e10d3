import Kxo.Tui.Panels

/-!
# Kxo — the boards on the screen (`user/tui.c`)

A board hides the board drawn before it in its box and stays out of the other boxes. So inside the
frame the screen shows the last record of each game, in whatever order boards, tabs, messages and
the clock were drawn; and as no text of theirs is long enough to disable `outbuf`, the terminal
reads them in that order.

* **`boardBox`** — the cells of a game. Boxes are disjoint, inside the frame and off its lines.
* **`BoardsShown`** — from one canvas to another: in each box the given record, or what was there,
  and elsewhere inside the frame no change. `BoardsShown.trans` composes it, the later record of a
  game over the earlier one.
* **`tuiCall_spec`**, **`tuiCalls_spec`** — what one call does to the screen, and by induction what
  a list of calls does, had the terminal read their bytes at once.
* **`tuiCalls_flushed`** — the bytes that reach the terminal through `outbuf` are those bytes.
* **`boards_shown`**, **`boards_framed`** — the two put together, without and with the frame that
  `main` draws first.
-/

namespace Kxo

/-! ## The boxes

`update_table` draws from two rows below and nine columns right of the corner of the box: the title,
the grid, the squares and the names of the players. -/

/-- The cells a board takes in the box of a game. -/
def boardBox (id : Nat) : Region := fun r c =>
  boardY id + 2 ≤ r ∧ r ≤ boardY id + 12 ∧ boardX id + 9 ≤ c ∧ c ≤ boardX id + 25

/-- A cell is in the box of one game. -/
theorem boardBox_unique {id id' r c : Nat} (h : boardBox id r c) (h' : boardBox id' r c) :
    id = id' := by
  simp only [boardBox, boardX, boardY, boardBasey, boardW, boardH, uiCols] at h h'
  omega

/-- The boxes of the nine games are inside the frame, between its lines. -/
theorem boardBox_inside {id r c : Nat} (hid : id < nGames) (h : boardBox id r c) :
    ¬ OffFrame r ∧ ¬ frameLines r c := by
  simp only [boardBox, boardX, boardY, boardBasey, boardW, boardH, uiCols] at h
  simp only [nGames] at hid
  simp only [OffFrame, frameLines]
  omega

/-- A number that is no game's has its box below the frame. -/
theorem boardBox_below {id r c : Nat} (hid : ¬ id < nGames) (h : boardBox id r c) :
    OffFrame r := by
  simp only [boardBox, boardX, boardY, boardBasey, boardW, boardH, uiCols] at h
  simp only [nGames] at hid
  simp only [OffFrame]
  omega

/-- A character of ASCII takes one cell. -/
theorem length_textGlyphs (cs : List Char) : (textGlyphs cs).length = cs.length := List.length_map _

/-- All that is drawn of a record is in the box of its game. -/
theorem boardPicture_within (tlb : XoTable) :
    ∀ p ∈ boardPicture tlb, p.Within (boardBox (xoAttrId tlb.attr).toNat) := by
  have htitle := (boardTitle_spec (xoAttrId_lt tlb.attr)).2
  have hnames := (boardNames_spec tlb.attr).2
  simp only [boardPicture]
  generalize (xoAttrId tlb.attr).toNat = id at htitle
  refine List.forall_mem_append.mpr ⟨List.forall_mem_append.mpr ⟨List.forall_mem_append.mpr
    ⟨?_, ?_⟩, ?_⟩, ?_⟩
  · rw [List.forall_mem_singleton]
    rintro r c ⟨rfl, hc, hc'⟩
    rw [length_textGlyphs] at hc'
    simp only [boardBox]
    omega
  · intro p hp
    obtain ⟨i, hi, rfl⟩ := List.mem_map.mp hp
    rintro r c ⟨rfl, hc, hc'⟩
    rw [List.mem_range] at hi
    rw [List.length_map, List.length_range] at hc'
    simp only [boardBox]
    omega
  · intro p hp
    obtain ⟨i, hi, rfl⟩ := List.mem_map.mp hp
    rintro r c ⟨rfl, hc, hc'⟩
    rw [List.mem_range, nGrids] at hi
    rw [List.length_singleton] at hc'
    -- four squares a row, two rows and four columns apart
    simp only [cellCol, cellRow, boardSize, boardBox] at *
    omega
  · rw [List.forall_mem_singleton]
    rintro r c ⟨rfl, hc, hc'⟩
    rw [length_textGlyphs, hnames] at hc'
    simp only [boardBox]
    omega

/-- Two boards of a game are drawn over the same cells. -/
theorem boardPicture_extent {tlb tlb' : XoTable} (h : xoAttrId tlb.attr = xoAttrId tlb'.attr) :
    (boardPicture tlb).map Stroke.extent = (boardPicture tlb').map Stroke.extent := by
  have hnames := (boardNames_spec tlb.attr).2
  have hnames' := (boardNames_spec tlb'.attr).2
  simp only [boardPicture, h, List.map_append, List.map_map, List.map_cons, List.map_nil,
    Stroke.extent, length_textGlyphs, hnames, hnames', List.length_singleton, Function.comp_def]

/-! ## A board is read back

The letters come after the grid and the names are below them, so nothing hides a square. -/

/-- **Each cell shows the square of the record.** -/
theorem boardPicture_cell (tlb : XoTable) (cell : Canvas) {k : Nat} (hk : k < nGrids) :
    (boardPicture tlb).foldl paint cell (cellRow (xoAttrId tlb.attr).toNat k)
        (cellCol (xoAttrId tlb.attr).toNat k) = cellGlyph (tableGetCell tlb.table k) := by
  simp only [boardPicture, List.foldl_append, List.foldl_cons, List.foldl_nil]
  generalize (xoAttrId tlb.attr).toNat = id
  rw [paint_of_not_covers]
  · refine @foldl_paint_cells _ _ (cellCol id) (cellRow id) _ List.nodup_range
      (fun i hi j hj hcol hrow => ?_) _ k (List.mem_range.mpr hk)
    rw [List.mem_range, nGrids] at hi hj
    simp only [cellCol, cellRow, boardSize] at hcol hrow
    omega
  · rintro ⟨hrow, -⟩
    rw [nGrids] at hk
    simp only [cellRow, boardSize] at hrow
    omega

/-- The cells that show squares are in the box. -/
theorem cell_in_boardBox (id : Nat) {k : Nat} (hk : k < nGrids) :
    boardBox id (cellRow id k) (cellCol id k) := by
  rw [nGrids] at hk
  simp only [boardBox, cellRow, cellCol, boardSize]
  omega

/-! ## Calls in any order

By induction on the calls. Only `update_table` draws in boxes; the other functions stay off the
frame, and the cursor is put back after each. -/

/-- The record a call draws for a game. -/
def TuiCall.board (id : Nat) : TuiCall → Option XoTable
  | .updateTable tlb => if (xoAttrId tlb.attr).toNat = id then some tlb else none
  | _ => none

/-- The last record drawn for a game. -/
def lastBoard (id : Nat) (calls : List TuiCall) : Option XoTable :=
  (calls.filterMap (TuiCall.board id)).getLast?

/-- A call counts only if no later one draws a record for the game. -/
theorem lastBoard_cons (id : Nat) (call : TuiCall) (calls : List TuiCall) :
    lastBoard id (call :: calls) = (lastBoard id calls).or (call.board id) := by
  cases h : call.board id with
  | none => simp [lastBoard, h]
  | some tlb => simp [lastBoard, h, List.getLast?_cons, Option.or_some]

/-- A call draws in the box that the record names. -/
theorem TuiCall.board_id {id : Nat} {call : TuiCall} {tlb : XoTable}
    (h : call.board id = some tlb) : (xoAttrId tlb.attr).toNat = id := by
  cases call <;> simp [TuiCall.board] at h
  obtain ⟨hid, rfl⟩ := h
  exact hid

/-- So the last record of a game names the game. -/
theorem lastBoard_id {id : Nat} {calls : List TuiCall} {tlb : XoTable}
    (h : lastBoard id calls = some tlb) : (xoAttrId tlb.attr).toNat = id := by
  obtain ⟨call, -, hcall⟩ := List.mem_filterMap.mp (List.mem_of_getLast? h)
  exact TuiCall.board_id hcall

/-- Each box shows its record over what was there, and the lines are as they were. -/
structure BoardsShown (shown : Nat → Option XoTable) (before after : Canvas) : Prop where
  boards : ∀ id < nGames, ∀ r c, boardBox id r c →
    after r c = ((shown id).elim [] boardPicture).foldl paint before r c
  lines : ∀ r c, ¬ OffFrame r → (∀ id < nGames, ¬ boardBox id r c) → after r c = before r c

/-- A record drawn over another of its game leaves nothing of it. -/
theorem BoardsShown.trans {f g : Nat → Option XoTable} {before between after : Canvas}
    (hf : ∀ id tlb, f id = some tlb → (xoAttrId tlb.attr).toNat = id)
    (hg : ∀ id tlb, g id = some tlb → (xoAttrId tlb.attr).toNat = id)
    (h : BoardsShown f before between) (h' : BoardsShown g between after) :
    BoardsShown (fun id => (g id).or (f id)) before after where
  boards id hid r c hbox := by
    rw [h'.boards id hid r c hbox]
    have hbetween := h.boards id hid r c hbox
    rw [foldl_paint_congr hbetween]
    cases hgid : g id with
    | none => rfl
    | some tlb =>
      cases hfid : f id with
      | none => rfl
      | some tlb' =>
        have hsame : xoAttrId tlb'.attr = xoAttrId tlb.attr :=
          BitVec.eq_of_toNat_eq ((hf id tlb' hfid).trans (hg id tlb hgid).symm)
        exact congrFun (congrFun (foldl_paint_repaint (boardPicture_extent hsame) before) r) c
  lines r c hin hout := (h'.lines r c hin hout).trans (h.lines r c hin hout)

/-- Nothing drawn. -/
theorem BoardsShown.refl (cell : Canvas) : BoardsShown (fun _ => none) cell cell :=
  ⟨fun _ _ _ _ _ => rfl, fun _ _ _ _ => rfl⟩

/-- What a function off the frame draws changes no board. -/
theorem Panel.boardsShown {calls : List OutbufCall} (h : Panel OffFrame calls) {t : Terminal}
    (ht : t.Idle 0) : (t.feed (callBytes calls)).Idle 0 ∧
      BoardsShown (fun _ => none) t.cell (t.feed (callBytes calls)).cell := by
  obtain ⟨hidle, hcell⟩ := h.confined t ht
  exact ⟨hidle, fun id hid r c hbox => hcell r c (boardBox_inside hid hbox).1,
    fun r c hin _ => hcell r c hin⟩

/-- `update_table` between `save_xy` and `restore_xy`. -/
theorem draws_updateTable_saved {tlb : XoTable} {calls : List OutbufCall}
    (h : updateTable tlb = some calls) :
    Draws (callBytes (saveXy :: calls ++ [restoreXy])) (boardPicture tlb) := by
  have hdraws := (draws_saveCursor.append (draws_updateTable h)).append draws_restoreCursor
  rw [List.nil_append, List.append_nil] at hdraws
  rw [callBytes_append, callBytes_cons]
  exact hdraws

/-- A board is shown in its box, over what was there, and changes no other. -/
theorem boardsShown_updateTable {tlb : XoTable} {calls : List OutbufCall}
    (h : updateTable tlb = some calls) {t : Terminal} (ht : t.Idle 0) :
    let t' := t.feed (callBytes (saveXy :: calls ++ [restoreXy]))
    t'.Idle 0 ∧ BoardsShown (fun id => (TuiCall.updateTable tlb).board id) t.cell t'.cell := by
  obtain ⟨hidle, hcell⟩ := draws_updateTable_saved h t ht
  refine ⟨hidle, fun id hid r c hbox => ?_, fun r c hin hout => ?_⟩
  · rw [hcell]
    by_cases hsame : (xoAttrId tlb.attr).toNat = id
    · simp [TuiCall.board, hsame]
    · simp only [TuiCall.board, hsame, if_false, Option.elim_none, List.foldl_nil]
      exact foldl_paint_outside (boardPicture_within tlb) _ fun hin =>
        hsame (boardBox_unique hin hbox)
  · rw [hcell]
    by_cases hid : (xoAttrId tlb.attr).toNat < nGames
    · exact foldl_paint_outside (boardPicture_within tlb) _ (hout _ hid)
    · exact foldl_paint_outside (boardPicture_within tlb) _ fun hbox =>
        hin (boardBox_below hid hbox)

/-- **One call**: it disables nothing, and shows its record if it draws one. -/
theorem tuiCall_spec {s s' : TuiState} {call : TuiCall} {out : List OutbufCall}
    (h : tuiCall s call = some (s', out)) {t : Terminal} (ht : t.Idle 0) :
    (t.feed (callBytes out)).Idle 0 ∧
      BoardsShown (fun id => call.board id) t.cell (t.feed (callBytes out)).cell := by
  cases call with
  | updateTable tlb =>
    obtain ⟨calls, hcalls, hout⟩ := Option.bind_eq_some_iff.mp h
    obtain ⟨-, rfl⟩ := Prod.mk.inj (Option.some.inj hout)
    exact boardsShown_updateTable hcalls ht
  | tuiUpdateTab tab tlb first last xoAvgs => exact (panel_tuiUpdateTab h).boardsShown ht
  | stopMessage stop =>
    obtain ⟨-, rfl⟩ := Prod.mk.inj (Option.some.inj h)
    exact ((panel_stopMessage stop).mono fun _ hr => .inl hr.2).boardsShown ht
  | printNow tm =>
    obtain ⟨-, rfl⟩ := Prod.mk.inj (Option.some.inj h)
    exact ((panel_printNow tm).mono fun _ hr => .inr hr.ge).boardsShown ht
  | outbufFlush =>
    obtain ⟨-, rfl⟩ := Prod.mk.inj (Option.some.inj h)
    exact ⟨ht, BoardsShown.refl _⟩

/-- **Any calls**: the terminal is left at rest, and each game shows the last record drawn for it.
-/
theorem tuiCalls_spec {s s' : TuiState} {calls : List TuiCall} {out : List OutbufCall}
    (h : tuiCalls s calls = some (s', out)) {t : Terminal} (ht : t.Idle 0) :
    (t.feed (callBytes out)).Idle 0 ∧
      BoardsShown (fun id => lastBoard id calls) t.cell (t.feed (callBytes out)).cell := by
  induction calls generalizing s s' out t with
  | nil =>
    obtain ⟨-, rfl⟩ := Prod.mk.inj (Option.some.inj h)
    exact ⟨ht, BoardsShown.refl _⟩
  | cons call calls ih =>
    obtain ⟨⟨s₁, first⟩, hfirst, h⟩ := Option.bind_eq_some_iff.mp h
    obtain ⟨⟨s₂, more⟩, hmore, h⟩ := Option.bind_eq_some_iff.mp h
    obtain ⟨-, rfl⟩ := Prod.mk.inj (Option.some.inj h)
    obtain ⟨hidle, hshown⟩ := tuiCall_spec hfirst ht
    obtain ⟨hidle', hshown'⟩ := ih hmore hidle
    rw [callBytes_append, Terminal.feed_append]
    refine ⟨hidle', ?_⟩
    simp only [lastBoard_cons]
    exact hshown.trans (fun _ _ => TuiCall.board_id) (fun _ _ => lastBoard_id) hshown'

/-! ## Through the buffer

`outbuf` delays and splits what it is given; a text of its size or more disables buffering, and only
then can bytes overtake others. The texts drawn here are shorter, so the bytes written are those of
the calls in order. -/

/-- Counting bytes does not disable buffering. -/
theorem disabled_account (b : Outbuf) (n : Nat) : (b.account n).disabled = b.disabled := by
  rw [Outbuf.account]
  split <;> rfl

/-- Nor does writing out what is buffered, -/
theorem disabled_writeOutAny (b : Outbuf) : b.writeOutAny.disabled = b.disabled := by
  rw [Outbuf.writeOutAny]
  split <;> rfl

/-- or storing bytes, -/
theorem disabled_store {b b' : Outbuf} {offset : Nat} {data : List Byte}
    (h : b.store offset data = some b') : b'.disabled = b.disabled := by
  rw [Outbuf.store] at h
  split at h
  · rw [← Option.some.inj h]
  · cases h

/-- or formatting a text, of which the length is returned. -/
theorem vsnprintf_result {b b' : Outbuf} {offset size n : Nat} {text : List Byte}
    (h : b.vsnprintf offset size text = some (b', n)) :
    b'.disabled = b.disabled ∧ n = text.length := by
  rw [Outbuf.vsnprintf] at h
  split at h
  · obtain ⟨rfl, rfl⟩ := Prod.mk.inj (Option.some.inj h)
    exact ⟨rfl, rfl⟩
  · obtain ⟨b₁, hstore, h⟩ := Option.bind_eq_some_iff.mp h
    obtain ⟨rfl, rfl⟩ := Prod.mk.inj (Option.some.inj h)
    exact ⟨disabled_store hstore, rfl⟩

/-- Only a text as long as the buffer disables buffering. -/
theorem disabled_outbufCall {b b' : Outbuf} {call : OutbufCall} (hshort : call.Short)
    (h : outbufCall b call = some b') : b'.disabled = b.disabled := by
  cases call with
  | outbufWrite data =>
    simp only [outbufCall, outbufWrite] at h
    split at h
    · rw [← Option.some.inj h]
      rfl
    · split at h
      · rw [← Option.some.inj h]
        exact disabled_writeOutAny b
      · obtain ⟨b₁, hstore, h⟩ := Option.bind_eq_some_iff.mp h
        rw [← Option.some.inj h, disabled_account, disabled_store hstore]
        split <;> rfl
  | outbufPrintf text =>
    obtain ⟨⟨b₁, n⟩, hfirst, h⟩ := Option.bind_eq_some_iff.mp h
    obtain ⟨hdisabled, rfl⟩ := vsnprintf_result hfirst
    dsimp only at h
    split at h
    · obtain ⟨⟨b₂, n⟩, hagain, h⟩ := Option.bind_eq_some_iff.mp h
      obtain ⟨hdisabled', rfl⟩ := vsnprintf_result hagain
      dsimp only at h
      rw [if_neg (Nat.not_le_of_lt hshort)] at h
      rw [← Option.some.inj h, disabled_account, hdisabled', disabled_writeOutAny, hdisabled]
    · rw [← Option.some.inj h, disabled_account, hdisabled]
  | outbufFlush =>
    rw [← Option.some.inj h]
    exact disabled_writeOutAny b

/-- A call adds its bytes to those written and buffered so far. -/
theorem output_outbufCall {b b' : Outbuf} {call : OutbufCall} (henabled : b.disabled = false)
    (hlen : b.len < flushThreshold) (h : outbufCall b call = some b') :
    b'.output = b.output ++ call.data := by
  cases call with
  | outbufWrite data =>
    obtain ⟨b₁, hb₁, houtput, -⟩ := outbufWrite_enabled data henabled
    obtain rfl := Option.some.inj (hb₁.symm.trans h)
    exact houtput
  | outbufPrintf text =>
    obtain ⟨b₁, hb₁, houtput, -⟩ := outbufPrintf_spec text hlen
    obtain rfl := Option.some.inj (hb₁.symm.trans h)
    exact houtput
  | outbufFlush =>
    rw [← Option.some.inj h]
    exact (output_writeOutAny b).trans (List.append_nil _).symm

/-- Short calls go through the buffer in order. -/
theorem outbufCalls_short {calls : List OutbufCall} (hshort : ∀ call ∈ calls, call.Short)
    {b : Outbuf} (henabled : b.disabled = false) (hlen : b.len < flushThreshold) :
    ∃ b', outbufCalls b calls = some b' ∧ b'.disabled = false ∧ b'.len < flushThreshold ∧
      b'.output = b.output ++ callBytes calls := by
  induction calls generalizing b with
  | nil => exact ⟨b, rfl, henabled, hlen, (List.append_nil _).symm⟩
  | cons call calls ih =>
    rw [List.forall_mem_cons] at hshort
    obtain ⟨b₁, hb₁, hlen₁⟩ := outbufCall_defined call hlen
    have henabled₁ := (disabled_outbufCall hshort.1 hb₁).trans henabled
    have houtput₁ := output_outbufCall henabled hlen hb₁
    obtain ⟨b', hb', henabled', hlen', houtput'⟩ := ih hshort.2 henabled₁ hlen₁
    refine ⟨b', ?_, henabled', hlen', ?_⟩
    · rw [outbufCalls, hb₁]
      exact hb'
    · rw [houtput', houtput₁, callBytes_cons, List.append_assoc]

/-- What holds of the calls for each item holds of the calls for all of them. -/
theorem mem_mapM_flatten {ι : Type} {xs : List ι} {f : ι → Option (List OutbufCall)}
    {P : OutbufCall → Prop} (h : ∀ x ∈ xs, ∀ calls, f x = some calls → ∀ call ∈ calls, P call)
    {parts : List (List OutbufCall)} (hparts : xs.mapM f = some parts) :
    ∀ call ∈ parts.flatten, P call := by
  induction xs generalizing parts with
  | nil =>
    obtain rfl : [] = parts := Option.some.inj hparts
    simp
  | cons x xs ih =>
    rw [List.forall_mem_cons] at h
    obtain ⟨calls, rest, hcalls, hrest, rfl⟩ := mapM_cons_eq_some hparts
    rw [List.flatten_cons]
    exact List.forall_mem_append.mpr ⟨h.1 calls hcalls, ih h.2 hrest⟩

/-- The lines of the grid are short, -/
theorem short_gridRow {x y i : Nat} (hx : x < 1000) (hy : y + i < 1000) :
    ∀ call ∈ gridRow x y i, call.Short := by
  refine List.forall_mem_cons.mpr ⟨short_gotoxy hx hy, fun call hcall => ?_⟩
  obtain ⟨j, -, rfl⟩ := List.mem_map.mp hcall
  trivial

/-- and all texts of a board. -/
theorem short_updateTable {tlb : XoTable} {calls : List OutbufCall}
    (h : updateTable tlb = some calls) : ∀ call ∈ calls, call.Short := by
  have hid := xoAttrId_lt tlb.attr
  have hx := boardX_le (xoAttrId tlb.attr).toNat
  have hy := boardY_le hid
  have hlenId := length_decimal (k := 2) (by decide) (Nat.lt_trans hid (by decide : 16 < 10 ^ 2))
  have hnames := (boardNames_spec tlb.attr).2
  obtain ⟨cells, hcells, hcalls⟩ := Option.bind_eq_some_iff.mp h
  obtain rfl := Option.some.inj hcalls
  refine List.forall_mem_append.mpr ⟨List.forall_mem_append.mpr ⟨List.forall_mem_append.mpr
    ⟨?_, ?_⟩, ?_⟩, ?_⟩
  · refine List.forall_mem_cons.mpr ⟨short_gotoxy (by omega) (by omega),
      List.forall_mem_singleton.mpr ?_⟩
    show List.length _ < outbufSize
    simp only [List.length_append, length_ascii, List.length_cons, List.length_nil, newline,
      outbufSize]
    omega
  · intro call hcall
    obtain ⟨i, hi, hcall⟩ := List.mem_flatMap.mp hcall
    rw [List.mem_range] at hi
    exact short_gridRow (by omega) (by omega) call hcall
  · refine mem_mapM_flatten (fun i hi calls hcall => ?_) hcells
    obtain ⟨ch, hch, hcall⟩ := Option.bind_eq_some_iff.mp hcall
    obtain rfl := Option.some.inj hcall
    have hcol := cellCol_le (xoAttrId tlb.attr).toNat i
    have hrow := cellRow_le hid (List.mem_range.mp hi)
    exact List.forall_mem_cons.mpr ⟨short_gotoxy (by omega) (by omega),
      List.forall_mem_singleton.mpr (prints_cellTlb hch).2⟩
  · refine List.forall_mem_cons.mpr ⟨short_gotoxy (by omega) (by omega),
      List.forall_mem_cons.mpr ⟨?_, List.forall_mem_singleton.mpr trivial⟩⟩
    show (ascii (boardNames tlb.attr) ++ newline).length < outbufSize
    rw [List.length_append, length_ascii, hnames]
    decide

/-- No text of a call is long enough to disable buffering, -/
theorem short_tuiCall {s s' : TuiState} {call : TuiCall} {out : List OutbufCall}
    (h : tuiCall s call = some (s', out)) : ∀ call ∈ out, call.Short := by
  cases call with
  | updateTable tlb =>
    obtain ⟨calls, hcalls, hout⟩ := Option.bind_eq_some_iff.mp h
    obtain ⟨-, rfl⟩ := Prod.mk.inj (Option.some.inj hout)
    exact List.forall_mem_append.mpr ⟨List.forall_mem_cons.mpr ⟨trivial,
      short_updateTable hcalls⟩, List.forall_mem_singleton.mpr trivial⟩
  | tuiUpdateTab tab tlb first last xoAvgs => exact (panel_tuiUpdateTab h).short
  | stopMessage stop =>
    obtain ⟨-, rfl⟩ := Prod.mk.inj (Option.some.inj h)
    exact (panel_stopMessage stop).short
  | printNow tm =>
    obtain ⟨-, rfl⟩ := Prod.mk.inj (Option.some.inj h)
    exact (panel_printNow tm).short
  | outbufFlush =>
    obtain ⟨-, rfl⟩ := Prod.mk.inj (Option.some.inj h)
    exact List.forall_mem_singleton.mpr trivial

/-- nor is one of any number of calls. -/
theorem short_tuiCalls {s s' : TuiState} {calls : List TuiCall} {out : List OutbufCall}
    (h : tuiCalls s calls = some (s', out)) : ∀ call ∈ out, call.Short := by
  induction calls generalizing s s' out with
  | nil =>
    obtain ⟨-, rfl⟩ := Prod.mk.inj (Option.some.inj h)
    simp
  | cons call calls ih =>
    obtain ⟨⟨s₁, first⟩, hfirst, h⟩ := Option.bind_eq_some_iff.mp h
    obtain ⟨⟨s₂, more⟩, hmore, h⟩ := Option.bind_eq_some_iff.mp h
    obtain ⟨-, rfl⟩ := Prod.mk.inj (Option.some.inj h)
    exact List.forall_mem_append.mpr ⟨short_tuiCall hfirst, ih hmore⟩

/-- Calls after other calls, with the state that these leave. -/
theorem tuiCalls_append {s s' : TuiState} {calls more : List TuiCall} {out : List OutbufCall}
    (h : tuiCalls s (calls ++ more) = some (s', out)) :
    ∃ s₁ out₁ out₂, tuiCalls s calls = some (s₁, out₁) ∧ tuiCalls s₁ more = some (s', out₂) ∧
      out = out₁ ++ out₂ := by
  induction calls generalizing s out with
  | nil => exact ⟨s, [], out, rfl, h, rfl⟩
  | cons call calls ih =>
    obtain ⟨⟨s₁, first⟩, hfirst, h⟩ := Option.bind_eq_some_iff.mp h
    obtain ⟨⟨s₂, rest⟩, hrest, h⟩ := Option.bind_eq_some_iff.mp h
    obtain ⟨rfl, rfl⟩ := Prod.mk.inj (Option.some.inj h)
    obtain ⟨s₃, out₁, out₂, hcalls, hmore, rfl⟩ := ih hrest
    refine ⟨s₃, first ++ out₁, out₂, ?_, hmore, (List.append_assoc ..).symm⟩
    rw [tuiCalls, hfirst]
    show (tuiCalls s₁ calls).bind _ = _
    rw [hcalls]
    rfl

/-- Calls of the buffer after other calls. -/
theorem outbufCalls_bind (b : Outbuf) (calls more : List OutbufCall) :
    outbufCalls b (calls ++ more) = (outbufCalls b calls).bind fun b' => outbufCalls b' more := by
  induction calls generalizing b with
  | nil => rfl
  | cons call calls ih =>
    rw [List.cons_append, outbufCalls, outbufCalls]
    cases outbufCall b call with
    | none => rfl
    | some b₁ => exact ih b₁

/-- The same from the buffer that the first calls leave. -/
theorem outbufCalls_append {b b' : Outbuf} {calls more : List OutbufCall}
    (h : outbufCalls b calls = some b') : outbufCalls b (calls ++ more) = outbufCalls b' more := by
  rw [outbufCalls_bind, h]
  rfl

/-- Calls flushed at the end: all they draw has been written, in order. -/
theorem tuiCalls_flushed {s s' : TuiState} {calls : List TuiCall} {out : List OutbufCall}
    (hcalls : tuiCalls s (calls ++ [.outbufFlush]) = some (s', out)) {b : Outbuf}
    (henabled : b.disabled = false) (hlen : b.len < flushThreshold) :
    ∃ drawn b', tuiCalls s calls = some (s', drawn) ∧ outbufCalls b out = some b' ∧
      b'.disabled = false ∧ b'.len = 0 ∧ b'.written = b.output ++ callBytes drawn := by
  obtain ⟨s₁, out₁, out₂, hcalls₁, hflush, rfl⟩ := tuiCalls_append hcalls
  obtain ⟨rfl, rfl⟩ := Prod.mk.inj (Option.some.inj hflush)
  obtain ⟨b₁, hb₁, henabled₁, hlen₁, houtput₁⟩ :=
    outbufCalls_short (short_tuiCalls hcalls₁) henabled hlen
  have houtput := output_writeOutAny b₁
  rw [Outbuf.output, Outbuf.buffered_eq_nil (len_writeOutAny b₁), List.append_nil] at houtput
  exact ⟨out₁, outbufFlush b₁, hcalls₁, outbufCalls_append hb₁,
    (disabled_writeOutAny b₁).trans henabled₁, len_writeOutAny b₁, houtput.trans houtput₁⟩

/-- **The screen after a round.** Calls in any order, flushed at the end: in its box each game shows
the last record drawn for it, each square of it in its cell, and the lines are as they were. -/
theorem boards_shown {s s' : TuiState} {calls : List TuiCall} {out : List OutbufCall}
    (hcalls : tuiCalls s (calls ++ [.outbufFlush]) = some (s', out)) {b : Outbuf}
    (henabled : b.disabled = false) (hlen : b.len < flushThreshold) {t : Terminal}
    (ht : (t.feed b.output).Idle 0) :
    ∃ b', outbufCalls b out = some b' ∧ b'.disabled = false ∧ b'.len = 0 ∧
      (t.feed b'.written).Idle 0 ∧
      BoardsShown (fun id => lastBoard id calls) (t.feed b.output).cell (t.feed b'.written).cell ∧
      ∀ id < nGames, ∀ tlb, lastBoard id calls = some tlb → ∀ k < nGrids,
        (t.feed b'.written).cell (cellRow id k) (cellCol id k) =
          cellGlyph (tableGetCell tlb.table k) := by
  obtain ⟨drawn, b', hdrawn, hb', henabled', hlen', hwritten⟩ :=
    tuiCalls_flushed hcalls henabled hlen
  obtain ⟨hidle, hshown⟩ := tuiCalls_spec hdrawn ht
  refine ⟨b', hb', henabled', hlen', ?_⟩
  rw [hwritten, Terminal.feed_append]
  refine ⟨hidle, hshown, fun id hid tlb hlast k hk => ?_⟩
  obtain rfl := lastBoard_id hlast
  rw [hshown.boards _ hid _ _ (cell_in_boardBox _ hk)]
  simp only [hlast, Option.elim_some]
  exact boardPicture_cell tlb _ hk

/-- Boards of the first two games, and a later one of the first. -/
def threeBoards : List TuiCall :=
  [.updateTable ⟨0, 0x1, 0⟩, .updateTable ⟨1, 0x2, 0⟩, .updateTable ⟨0, 0x801, 0⟩]

/-- None of the three calls reads out of a table. -/
theorem threeBoards_drawn : ∃ out, tuiCalls tuiStart (threeBoards ++ [.outbufFlush]) =
    some (tuiStart, out) := by
  obtain ⟨calls₁, hcalls₁⟩ := @updateTable_defined ⟨0, 0x1, 0⟩ (by decide)
  obtain ⟨calls₂, hcalls₂⟩ := @updateTable_defined ⟨1, 0x2, 0⟩ (by decide)
  obtain ⟨calls₃, hcalls₃⟩ := @updateTable_defined ⟨0, 0x801, 0⟩ (by decide)
  simp only [threeBoards, List.cons_append, List.nil_append, tuiCalls, tuiCall, hcalls₁, hcalls₂,
    hcalls₃]
  exact ⟨_, rfl⟩

/-- On a cleared screen: the first game has an O in its first square and, from the later board, an X
in its sixth; the second game has an X in its first. -/
theorem boards_shown_three : ∃ (out : List OutbufCall) (b' : Outbuf),
    tuiCalls tuiStart (threeBoards ++ [.outbufFlush]) = some (tuiStart, out) ∧
      outbufCalls outbufInit out = some b' ∧
      (Terminal.cleared.feed b'.written).cell (cellRow 0 0) (cellCol 0 0) = ⟨[0x4f], 32⟩ ∧
      (Terminal.cleared.feed b'.written).cell (cellRow 0 5) (cellCol 0 5) = ⟨[0x58], 31⟩ ∧
      (Terminal.cleared.feed b'.written).cell (cellRow 1 0) (cellCol 1 0) = ⟨[0x58], 31⟩ := by
  obtain ⟨out, hrun⟩ := threeBoards_drawn
  obtain ⟨b', hb', -, -, -, -, hcells⟩ :=
    boards_shown hrun (b := outbufInit) rfl (by decide) Terminal.idle_cleared
  refine ⟨out, b', hrun, hb', ?_, ?_, ?_⟩
  · exact (hcells 0 (by decide) ⟨0, 0x801, 0⟩ (by decide) 0 (by decide)).trans (by decide)
  · exact (hcells 0 (by decide) ⟨0, 0x801, 0⟩ (by decide) 5 (by decide)).trans (by decide)
  · exact (hcells 1 (by decide) ⟨1, 0x2, 0⟩ (by decide) 0 (by decide)).trans (by decide)

/-! ## Inside the frame

The frame is drawn before any record, between the same lines of the screen. It draws lines only, so
the boxes keep what they held. -/

instance : DecidablePred OutbufCall.Short
  | .outbufPrintf text => inferInstanceAs (Decidable (text.length < outbufSize))
  | .outbufWrite _ => isTrue trivial
  | .outbufFlush => isTrue trivial

/-- The frame has no long text. -/
theorem short_renderBoardsTemp : ∀ call ∈ renderBoardsTemp nGames, call.Short := by
  decide +kernel

/-- **The frame stands.** `main` draws the frame once, and then calls in any order, flushed at the
end: the lines of the frame are as `render_boards_temp` drew them, and as it drew nothing between
them, a box shows the last record of its game over what was there before the frame. -/
theorem boards_framed {s' : TuiState} {calls : List TuiCall} {out : List OutbufCall}
    (hcalls : tuiCalls tuiStart (calls ++ [.outbufFlush]) = some (s', out)) {b : Outbuf}
    (henabled : b.disabled = false) (hlen : b.len < flushThreshold) {t : Terminal}
    (ht : (t.feed b.output).Idle 0) :
    ∃ b' b'', outbufCalls b (renderBoardsTemp nGames) = some b' ∧ b'.len < flushThreshold ∧
      outbufCalls b' out = some b'' ∧ b''.disabled = false ∧ b''.len = 0 ∧
      (∀ r c, frameLines r c → ¬ OffFrame r →
        (t.feed b''.written).cell r c = (t.feed b'.output).cell r c) ∧
      ∀ id < nGames, ∀ r c, boardBox id r c → (t.feed b''.written).cell r c =
        ((lastBoard id calls).elim [] boardPicture).foldl paint (t.feed b.output).cell r c := by
  obtain ⟨b', hb', henabled', hlen', houtput'⟩ :=
    outbufCalls_short short_renderBoardsTemp henabled hlen
  obtain ⟨hidle, hframe⟩ := confined_renderBoardsTemp (n := nGames) (by decide) (by decide) _ ht
  rw [← Terminal.feed_append, ← houtput'] at hidle hframe
  obtain ⟨drawn, b'', hdrawn, hb'', henabled'', hlen'', hwritten⟩ :=
    tuiCalls_flushed hcalls henabled' hlen'
  obtain ⟨-, hshown⟩ := tuiCalls_spec hdrawn hidle
  refine ⟨b', b'', hb', hlen', hb'', henabled'', hlen'', ?_⟩
  rw [hwritten, Terminal.feed_append]
  refine ⟨fun r c hline hin => hshown.lines r c hin fun id hid hbox => ?_,
    fun id hid r c hbox => ?_⟩
  · exact (boardBox_inside hid hbox).2 hline
  · rw [hshown.boards id hid r c hbox]
    exact foldl_paint_congr (hframe r c (boardBox_inside hid hbox).2) _

/-- The frame and then three boards on a cleared screen: the line between the first two boxes stands
beside an O in the first square of the first. -/
theorem boards_framed_three : ∃ (out : List OutbufCall) (b' b'' : Outbuf),
    tuiCalls tuiStart (threeBoards ++ [.outbufFlush]) = some (tuiStart, out) ∧
      outbufCalls outbufInit (renderBoardsTemp nGames) = some b' ∧
      outbufCalls b' out = some b'' ∧
      (∀ r, 11 ≤ r → r ≤ 47 → (Terminal.cleared.feed b''.written).cell r 35 =
        (Terminal.cleared.feed b'.output).cell r 35) ∧
      (Terminal.cleared.feed b''.written).cell (cellRow 0 0) (cellCol 0 0) = ⟨[0x4f], 32⟩ := by
  obtain ⟨out, hrun⟩ := threeBoards_drawn
  obtain ⟨b', b'', hb', -, hb'', -, -, hlines, hboxes⟩ :=
    boards_framed hrun (b := outbufInit) rfl (by decide) (t := Terminal.cleared)
      Terminal.idle_cleared
  refine ⟨out, b', b'', hrun, hb', hb'', fun r hr hr' => ?_, ?_⟩
  · refine hlines r 35 (.inr (.inr rfl)) ?_
    rw [OffFrame]
    omega
  · rw [hboxes 0 (by decide) _ _ (cell_in_boardBox 0 (k := 0) (by decide))]
    exact (boardPicture_cell ⟨0, 0x801, 0⟩ _ (k := 0) (by decide)).trans (by decide)

end Kxo
