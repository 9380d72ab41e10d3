import Kxo.Driver.Coherence
import Kxo.Game.Lines
import Kxo.Spec.Screen

/-!
# Kxo — drawings on the terminal (`user/tui.c`)

What the calls of a drawing function make of a terminal: a board as a picture, stroke by stroke, and
of the other functions where they draw at most.

The functions emit bytes; the statements are about glyphs on a canvas. Three notions of the terminal
library lead from the one to the other, each closed under appending bytes:

* **`Prints`** — bytes without cursor moves that print a row of glyphs, letters, box characters of
  three bytes and coloured text alike;
* **`Draws`** — bytes that paint a list of strokes, whatever was on the screen; a `gotoxy` before
  printed bytes makes one stroke of them;
* **`Confined`** — bytes that change nothing outside a region.

`draws_updateTable` is built from these, part by part: the title, the rows of the grid, the squares
and the names.
-/

namespace Kxo

/-- The bytes of several calls. -/
def callBytes (calls : List OutbufCall) : List Byte := calls.flatMap OutbufCall.data

/-- Calls after calls put their bytes behind. -/
theorem callBytes_append (calls more : List OutbufCall) :
    callBytes (calls ++ more) = callBytes calls ++ callBytes more := List.flatMap_append

/-- The first call comes first. -/
theorem callBytes_cons (call : OutbufCall) (calls : List OutbufCall) :
    callBytes (call :: calls) = call.data ++ callBytes calls := List.flatMap_cons

/-- The bytes of a loop over calls. -/
theorem callBytes_flatMap {ι : Type} (xs : List ι) (f : ι → List OutbufCall) :
    callBytes (xs.flatMap f) = xs.flatMap fun x => callBytes (f x) := List.flatMap_assoc

/-- The bytes of a loop of writes. -/
theorem callBytes_map_write {ι : Type} (xs : List ι) (f : ι → List Byte) :
    callBytes (xs.map fun x => .outbufWrite (f x)) = xs.flatMap f := by
  rw [callBytes, List.flatMap_map]
  rfl

/-! ## Short texts

`outbuf_printf` drops a text of `OUTBUF_SIZE` bytes or more. No text of the drawing functions comes
near that; their lengths are bounded by those of the numbers in them. -/

/-- A call that does not disable buffering. -/
def OutbufCall.Short : OutbufCall → Prop
  | .outbufPrintf text => text.length < outbufSize
  | _ => True

/-- A short text is passed whole. -/
theorem data_printf {text : List Byte} (h : text.length < outbufSize) :
    (OutbufCall.outbufPrintf text).data = text := if_neg (by omega)

/-- One byte a character. -/
theorem length_ascii (cs : List Char) : (ascii cs).length = cs.length := by simp [ascii]

/-- A number below `10 ^ k` has at most `k` digits. -/
theorem length_decimal {n k : Nat} (hk : 0 < k) (h : n < 10 ^ k) : (decimal n).length ≤ k := by
  rw [decimal, length_ascii]
  exact (Nat.length_toDigits_le_iff (by decide) hk).mpr h

/-- The sequence of a cursor move is short, for any place on a screen. -/
theorem short_gotoxy {x y : Nat} (hx : x < 1000) (hy : y < 1000) : (gotoxy x y).Short := by
  have hlenx := length_decimal (k := 3) (by decide) hx
  have hleny := length_decimal (k := 3) (by decide) hy
  show (cursorTo x y).length < outbufSize
  simp only [cursorTo, List.length_append, List.length_cons, List.length_nil, outbufSize]
  omega

/-- So `gotoxy` passes its sequence. -/
theorem data_gotoxy {x y : Nat} (hx : x < 1000) (hy : y < 1000) :
    (gotoxy x y).data = cursorTo x y := data_printf (short_gotoxy hx hy)

/-! ## Characters

The glyphs of single characters: ASCII has one byte, the box characters have three, and a letter of
a board is wrapped in its colour. -/

/-- A box character is one glyph of three bytes. -/
theorem prints_boxCh (a b : Byte) : Prints 0 (boxCh a b) [⟨boxCh a b, 0⟩] :=
  prints_utf8_three (by decide) (by decide)

/-- A blank is one glyph. -/
theorem prints_blank : Prints 0 [0x20] [⟨[0x20], 0⟩] := prints_ascii (by decide) (by decide)

/-- The glyph of a cell of a board. -/
def cellGlyph (cell : U32) : Glyph :=
  if cell = cellO then ⟨[0x4f], 32⟩ else if cell = cellX then ⟨[0x58], 31⟩ else .blank

/-- O is green. -/
theorem prints_oCh : Prints 0 oCh [⟨[0x4f], 32⟩] :=
  Prints.coloured (@prints_ascii 32 0x4f (by decide) (by decide))

/-- X is red. -/
theorem prints_xCh : Prints 0 xCh [⟨[0x58], 31⟩] :=
  Prints.coloured (@prints_ascii 31 0x58 (by decide) (by decide))

/-- What `cell_tlb` has for a square is its glyph, in few bytes. -/
theorem prints_cellTlb {cell : U32} {ch : List Byte} (h : cellTlb cell = some ch) :
    Prints 0 ch [cellGlyph cell] ∧ ch.length < outbufSize := by
  unfold cellTlb at h
  split at h
  case isTrue hempty =>
    obtain rfl := Option.some.inj h
    obtain rfl := hempty
    exact ⟨prints_blank, by decide⟩
  case isFalse =>
    split at h
    case isTrue ho =>
      obtain rfl := Option.some.inj h
      obtain rfl := ho
      exact ⟨prints_oCh, by decide⟩
    case isFalse =>
      split at h
      case isTrue hx =>
        obtain rfl := Option.some.inj h
        obtain rfl := hx
        exact ⟨prints_xCh, by decide⟩
      case isFalse => cases h

/-- Every character of the grid takes one cell. -/
theorem prints_gridCh (i j : Nat) : Prints 0 (gridCh i j) [⟨gridCh i j, 0⟩] := by
  simp only [gridCh]
  split_ifs <;> first | exact prints_boxCh _ _ | exact prints_blank

/-- Calls that print after a `gotoxy`. -/
theorem draws_gotoxy {x y : Nat} (hx : x < 1000) (hy : y < 1000) {calls : List OutbufCall}
    {gs : List Glyph} (h : Prints 0 (callBytes calls) gs) :
    Draws (callBytes (gotoxy x y :: calls)) [.text (max 1 x) (max 1 y) gs] := by
  rw [callBytes_cons, data_gotoxy hx hy]
  exact h.at x y

/-- Calls that print after a `gotoxy` change only the cells they print on. -/
theorem confined_gotoxy {R : Region} {x y : Nat} (hx : x < 1000) (hy : y < 1000)
    {calls : List OutbufCall} {gs : List Glyph} (h : Prints 0 (callBytes calls) gs)
    (hin : ∀ c, max 1 x ≤ c → c < max 1 x + gs.length → R (max 1 y) c) :
    Confined R (callBytes (gotoxy x y :: calls)) := by
  rw [callBytes_cons, data_gotoxy hx hy]
  exact h.confined_at x y hin

/-- `outbuf_printf` of a short text prints the text. -/
theorem prints_printf {text : List Byte} {gs : List Glyph} (hlen : text.length < outbufSize)
    (h : Prints 0 text gs) : Prints 0 (callBytes [.outbufPrintf text]) gs := by
  rw [callBytes, List.flatMap_singleton, data_printf hlen]
  exact h

/-- A text with a newline at its end is drawn like the text. -/
theorem draws_printf_newline {x y : Nat} (hx : x < 1000) (hy : y < 1000) {text : List Byte}
    {gs : List Glyph} (hlen : text.length + 1 < outbufSize) (h : Prints 0 text gs) :
    Draws (callBytes [gotoxy x y, .outbufPrintf (text ++ newline)])
      [.text (max 1 x) (max 1 y) gs] := by
  have hdata : (OutbufCall.outbufPrintf (text ++ newline)).data = text ++ newline :=
    data_printf (by simpa [newline] using hlen)
  have hbytes : callBytes [gotoxy x y, .outbufPrintf (text ++ newline)] =
      (cursorTo x y ++ text) ++ newline := by
    rw [callBytes_cons, data_gotoxy hx hy, callBytes, List.flatMap_singleton, hdata,
      List.append_assoc]
  rw [hbytes, ← List.append_nil [_]]
  exact (h.at x y).append draws_newline

/-! ## A board -/

/-- A game's number has four bits. -/
theorem xoAttrId_lt (attr : U32) : (xoAttrId attr).toNat < 16 := by
  rw [xoAttrId, BitVec.toNat_and]
  exact Nat.lt_succ_of_le Nat.and_le_right

/-- The columns of a board, -/
theorem boardX_le (id : Nat) : boardX id ≤ 71 := by
  simp only [boardX, uiCols, boardW]
  omega

/-- its rows, -/
theorem boardY_le {id : Nat} (h : id < 16) : boardY id ≤ 70 := by
  simp only [boardY, boardBasey, uiCols, boardH]
  omega

/-- and the places of its squares have three digits at most, -/
theorem cellCol_le (id i : Nat) : cellCol id i ≤ 94 := by
  have h := boardX_le id
  simp only [cellCol, boardSize]
  omega

/-- whatever number the attribute word holds. -/
theorem cellRow_le {id i : Nat} (h : id < 16) (hi : i < nGrids) : cellRow id i ≤ 80 := by
  have h := boardY_le h
  simp only [cellRow, boardSize, nGrids] at *
  omega

def boardTitle (id : Nat) : List Char := ['G', 'a', 'm', 'e', '-'] ++ Nat.toDigits 10 id

def boardNames (attr : U32) : List Char :=
  padStart 4 (algName attr .o) ++ [' ', 'v', 's', ' '] ++ padEnd 4 (algName attr .x)

/-- The strokes of `update_table`. -/
def boardPicture (tlb : XoTable) : List Stroke :=
  let id := (xoAttrId tlb.attr).toNat
  [.text (boardX id + 15) (boardY id + 2) (textGlyphs (boardTitle id))] ++
    (List.range 9).map (fun i => .text (boardX id + 9) (boardY id + 3 + i)
      ((List.range 17).map fun j => ⟨gridCh i j, 0⟩)) ++
    (List.range nGrids).map (fun i =>
      .text (cellCol id i) (cellRow id i) [cellGlyph (tableGetCell tlb.table i)]) ++
    [.text (boardX id + 12) (boardY id + 12) (textGlyphs (boardNames tlb.attr))]

/-- A row of the grid is one stroke of 17 cells. -/
theorem draws_gridRow {x y i : Nat} (hx : 1 ≤ x) (hx' : x < 1000) (hy : 1 ≤ y + i)
    (hy' : y + i < 1000) :
    Draws (callBytes (gridRow x y i))
      [.text x (y + i) ((List.range 17).map fun j => ⟨gridCh i j, 0⟩)] := by
  have hprints : Prints 0 (callBytes ((List.range 17).map fun j => .outbufWrite (gridCh i j)))
      ((List.range 17).map fun j => ⟨gridCh i j, 0⟩) := by
    rw [callBytes_map_write, ← List.flatMap_singleton' ((List.range 17).map _), List.flatMap_map]
    exact Prints.flatMap fun j _ => prints_gridCh i j
  have h := draws_gotoxy hx' hy' hprints
  rwa [Nat.max_eq_right hx, Nat.max_eq_right hy] at h

/-- The names are printable and, padded, always as wide. -/
theorem boardNames_spec (attr : U32) :
    (∀ c ∈ boardNames attr, 0x20 ≤ c.toNat ∧ c.toNat < 0x80) ∧ (boardNames attr).length = 12 := by
  simp only [boardNames, algName]
  generalize xoAi ((xoAttrAiAlg attr).toNat % xoAiTot) = o
  generalize xoAi ((xoAttrAiAlg attr >>> 2).toNat % xoAiTot) = x
  cases o <;> cases x <;> exact ⟨printable_of_all rfl, rfl⟩

/-- The title is printable, and short for every number of four bits. -/
theorem boardTitle_spec {id : Nat} (h : id < 16) :
    (∀ c ∈ boardTitle id, 0x20 ≤ c.toNat ∧ c.toNat < 0x80) ∧ (boardTitle id).length ≤ 7 := by
  constructor
  · refine List.forall_mem_append.mpr ⟨printable_of_all rfl,
      fun c hc => isDigit_printable ?_⟩
    exact Nat.isDigit_of_mem_toDigits (by decide) (by decide) hc
  · have hlen := (Nat.length_toDigits_le_iff (b := 10) (n := id) (k := 2) (by decide)
      (by decide)).mpr (by omega)
    simp only [boardTitle, List.length_append, List.length_cons, List.length_nil]
    omega

/-- A loop that does not fail has made its first step and the others. -/
theorem mapM_cons_eq_some {ι α : Type} {x : ι} {xs : List ι} {f : ι → Option α} {ys : List α}
    (h : (x :: xs).mapM f = some ys) :
    ∃ z zs, f x = some z ∧ xs.mapM f = some zs ∧ ys = z :: zs := by
  rw [List.mapM_cons] at h
  obtain ⟨z, hz, h⟩ := Option.bind_eq_some_iff.mp h
  obtain ⟨zs, hzs, h⟩ := Option.bind_eq_some_iff.mp h
  exact ⟨z, zs, hz, hzs, (Option.some.inj h).symm⟩

/-- A loop that can fail draws, where it does not, the strokes of its steps. -/
theorem draws_mapM {ι : Type} {xs : List ι} {f : ι → Option (List OutbufCall)} {g : ι → Stroke}
    (h : ∀ x ∈ xs, ∀ calls, f x = some calls → Draws (callBytes calls) [g x])
    {parts : List (List OutbufCall)} (hparts : xs.mapM f = some parts) :
    Draws (callBytes parts.flatten) (xs.map g) := by
  induction xs generalizing parts with
  | nil =>
    obtain rfl : [] = parts := Option.some.inj hparts
    exact .nil
  | cons x xs ih =>
    rw [List.forall_mem_cons] at h
    obtain ⟨calls, rest, hcalls, hrest, rfl⟩ := mapM_cons_eq_some hparts
    rw [List.flatten_cons, callBytes_append]
    exact (h.1 calls hcalls).append (ih h.2 hrest)

/-- One cell of a board. -/
theorem draws_cell {id i : Nat} (hid : id < 16) (hi : i < nGrids) {cell : U32} {ch : List Byte}
    (hch : cellTlb cell = some ch) :
    Draws (callBytes [gotoxy (cellCol id i) (cellRow id i), .outbufPrintf ch])
      [.text (cellCol id i) (cellRow id i) [cellGlyph cell]] := by
  obtain ⟨hprints, hlen⟩ := prints_cellTlb hch
  have hcol := cellCol_le id i
  have hrow := cellRow_le hid hi
  have h := draws_gotoxy (x := cellCol id i) (y := cellRow id i) (by omega) (by omega)
    (prints_printf hlen hprints)
  rwa [Nat.max_eq_right (by simp only [cellCol]; omega),
    Nat.max_eq_right (by simp only [cellRow]; omega)] at h

/-- No cell of a valid board is past the end of `cell_tlb`. -/
theorem cellTlb_defined {table : U32} (h : ValidBoard table) {i : Nat} (hi : i < nGrids) :
    ∃ ch, cellTlb (tableGetCell table i) = some ch := by
  rcases cell_cases hi (h i hi) .o with h | h | h <;> rw [h] <;> exact ⟨_, rfl⟩

/-- A loop fails nowhere if no step of it does. -/
theorem mapM_defined {ι α : Type} {xs : List ι} {f : ι → Option α}
    (h : ∀ x ∈ xs, ∃ y, f x = some y) : ∃ ys, xs.mapM f = some ys := by
  induction xs with
  | nil => exact ⟨[], rfl⟩
  | cons x xs ih =>
    rw [List.forall_mem_cons] at h
    obtain ⟨y, hy⟩ := h.1
    obtain ⟨ys, hys⟩ := ih h.2
    exact ⟨y :: ys, by rw [List.mapM_cons, hy, hys]; rfl⟩

/-- A valid board is drawn. -/
theorem updateTable_defined {tlb : XoTable} (h : ValidBoard tlb.table) :
    ∃ calls, updateTable tlb = some calls := by
  obtain ⟨cells, hcells⟩ := @mapM_defined _ _ (List.range nGrids) (fun i => do
      let ch ← cellTlb (tableGetCell tlb.table i)
      return [gotoxy (cellCol (xoAttrId tlb.attr).toNat i) (cellRow (xoAttrId tlb.attr).toNat i),
        .outbufPrintf ch]) fun i hi => by
    obtain ⟨ch, hch⟩ := cellTlb_defined h (List.mem_range.mp hi)
    exact ⟨_, by rw [hch]; rfl⟩
  exact ⟨_, by rw [updateTable, hcells]; rfl⟩

/-- **What `update_table` draws.** -/
theorem draws_updateTable {tlb : XoTable} {calls : List OutbufCall}
    (h : updateTable tlb = some calls) : Draws (callBytes calls) (boardPicture tlb) := by
  have hid := xoAttrId_lt tlb.attr
  have hx := boardX_le (xoAttrId tlb.attr).toNat
  have hy := boardY_le hid
  obtain ⟨cells, hcells, hcalls⟩ := Option.bind_eq_some_iff.mp h
  obtain rfl := Option.some.inj hcalls
  set id := (xoAttrId tlb.attr).toNat with hidDef
  have hx1 : 1 ≤ boardX id := by simp only [boardX]; omega
  have hy1 : 1 ≤ boardY id := by simp only [boardY, boardBasey]; omega
  -- the four parts of the picture
  have htitle : Draws (callBytes [gotoxy (boardX id + 15) (boardY id + 2), .outbufPrintf
      (ascii ['G', 'a', 'm', 'e', '-'] ++ decimal id ++ newline)])
      [.text (boardX id + 15) (boardY id + 2) (textGlyphs (boardTitle id))] := by
    obtain ⟨hprintable, hlen⟩ := boardTitle_spec hid
    have hascii : ascii ['G', 'a', 'm', 'e', '-'] ++ decimal id = ascii (boardTitle id) := rfl
    have h := draws_printf_newline (x := boardX id + 15) (y := boardY id + 2) (by omega) (by omega)
      (by rw [length_ascii]; exact Nat.lt_of_le_of_lt (Nat.succ_le_succ hlen) (by decide))
      (prints_text hprintable)
    rw [hascii]
    rwa [Nat.max_eq_right (by omega), Nat.max_eq_right (by omega)] at h
  have hrows : Draws (callBytes ((List.range 9).flatMap (gridRow (boardX id + 9) (boardY id + 3))))
      ((List.range 9).map fun i => .text (boardX id + 9) (boardY id + 3 + i)
        ((List.range 17).map fun j => ⟨gridCh i j, 0⟩)) := by
    rw [callBytes_flatMap, ← List.flatMap_singleton' ((List.range 9).map _), List.flatMap_map]
    refine Draws.flatMap fun i hi => draws_gridRow (by omega) (by omega) (by omega) ?_
    rw [List.mem_range] at hi
    omega
  have hboard : Draws (callBytes cells.flatten) ((List.range nGrids).map fun i =>
      .text (cellCol id i) (cellRow id i) [cellGlyph (tableGetCell tlb.table i)]) := by
    refine draws_mapM (fun i hi calls hcall => ?_) hcells
    obtain ⟨ch, hch, hcall⟩ := Option.bind_eq_some_iff.mp hcall
    obtain rfl := Option.some.inj hcall
    exact draws_cell hid (List.mem_range.mp hi) hch
  have hnames : Draws (callBytes [gotoxy (boardX id + 12) (boardY id + 12), .outbufPrintf
      (ascii (boardNames tlb.attr) ++ newline)])
      [.text (boardX id + 12) (boardY id + 12) (textGlyphs (boardNames tlb.attr))] := by
    obtain ⟨hprintable, hlen⟩ := boardNames_spec tlb.attr
    have h := draws_printf_newline (x := boardX id + 12) (y := boardY id + 12) (by omega) (by omega)
      (by rw [length_ascii, hlen]; decide) (prints_text hprintable)
    rwa [Nat.max_eq_right (by omega), Nat.max_eq_right (by omega)] at h
  have hflush : Draws (callBytes [.outbufFlush]) [] := .nil
  have hall := ((htitle.append hrows).append hboard).append (hnames.append hflush)
  rw [← callBytes_append, ← callBytes_append, ← callBytes_append, ← callBytes_append] at hall
  rw [List.append_nil] at hall
  exact hall

end Kxo
