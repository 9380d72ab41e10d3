import Kxo.Lib.Bytes
import Mathlib.Data.List.Basic

/-!
# Kxo — a terminal

A terminal reads bytes: characters, each in one cell however many bytes it takes, and control
sequences that move the cursor, change the colour or erase. The screen is as large as what is drawn
on it, so nothing wraps or scrolls.

## The architecture

Four levels, each stated with the one below it and then used without it:

* **`Terminal.step`** — the terminal itself, byte by byte, with what it is in the middle of
  (`TermMode`). `Terminal.Idle` is its state between characters.
* **`Prints`** — bytes that print certain characters in a colour, wherever the cursor is. Texts are
  put together with `Prints.append` and `Prints.flatMap`, and coloured with `Prints.coloured`.
* **`Draws`** — bytes that draw a list of strokes (texts at given places and erased rows), wherever
  the cursor is, and leave the terminal idle. A text at a place is `Prints.at`.
* **`Confined`**, **`KeepsRows`** — bytes that change no cell outside a region. These say less than
  `Draws` and so need less: a text whose length is not known still stays in its row.

What a drawing shows is then a question about strokes: `paint_text_get` and `foldl_paint_cells` read
cells off them, `foldl_paint_outside` is the frame, and `foldl_paint_repaint` says that strokes of
the same extent hide those they are drawn over.
-/

namespace Kxo

/-! ## The screen

A canvas gives each cell its character. The terminal adds the cursor, a saved cursor, the colour and
what it is in the middle of. Only the control sequences that the client sends have an effect. -/

/-- A character, and the number of its colour, 0 for the default. -/
structure Glyph where
  bytes : List Byte
  colour : Nat
  deriving DecidableEq, Repr

def Glyph.blank : Glyph := ⟨[0x20], 0⟩

/-- What is in the cell of a row and a column, both counted from 1. -/
abbrev Canvas := Nat → Nat → Glyph

/-- Characters written into a row from a column on. -/
def textOn (cell : Canvas) (row col : Nat) (glyphs : List Glyph) : Canvas := fun r c =>
  if r = row ∧ col ≤ c then glyphs[c - col]?.getD (cell r c) else cell r c

/-- A row erased. -/
def eraseOn (cell : Canvas) (row : Nat) : Canvas := fun r c => if r = row then .blank else cell r c

/-- No characters, nothing written. -/
@[simp] theorem textOn_nil (cell : Canvas) (row col : Nat) : textOn cell row col [] = cell := by
  funext r c
  simp [textOn]

/-- Two texts side by side are one text. -/
theorem textOn_append (cell : Canvas) (row col : Nat) (gs hs : List Glyph) :
    textOn (textOn cell row col gs) row (col + gs.length) hs = textOn cell row col (gs ++ hs) := by
  funext r c
  simp only [textOn]
  by_cases hr : r = row ∧ col ≤ c
  · rw [if_pos hr, if_pos hr, List.getElem?_append]
    by_cases hg : c - col < gs.length
    · rw [if_neg (by omega), if_pos hg]
    · rw [if_pos (by omega), if_neg hg, List.getElem?_eq_none (Nat.le_of_not_lt hg), Nat.sub_add_eq]
      rfl
  · rw [if_neg hr, if_neg hr, if_neg (by omega)]

/-- In the middle of what a terminal is: between characters, in a control sequence with the
parameters read so far, or in a character with some of its bytes missing. -/
inductive TermMode where
  | ground
  | escape
  | csi (isPrivate : Bool) (params : List Nat) (current : Nat)
  | utf8 (pending : List Byte) (missing : Nat)
  deriving DecidableEq, Repr

structure Terminal where
  mode : TermMode
  cell : Canvas
  row : Nat
  col : Nat
  saved : Nat × Nat
  colour : Nat

namespace Terminal

/-- A terminal with nothing on its screen. -/
def cleared : Terminal := ⟨.ground, fun _ _ => .blank, 1, 1, (1, 1), 0⟩

/-- A character at the cursor, which moves on. -/
def put (t : Terminal) (bytes : List Byte) : Terminal :=
  { t with
    mode := .ground
    cell := textOn t.cell t.row t.col [⟨bytes, t.colour⟩]
    col := t.col + 1 }

/-- The end of a control sequence. -/
def control (t : Terminal) (params : List Nat) (final : Byte) : Terminal :=
  if final = 0x48 then { t with row := max 1 (params.getD 0 0), col := max 1 (params.getD 1 0) }
  else if final = 0x4a ∧ params.getD 0 0 = 2 then { t with cell := fun _ _ => .blank }
  else if final = 0x4b ∧ params.getD 0 0 = 2 then
    { t with cell := eraseOn t.cell t.row }
  else if final = 0x6d then { t with colour := params.getLastD 0 }
  else if final = 0x73 then { t with saved := (t.row, t.col) }
  else if final = 0x75 then { t with row := t.saved.1, col := t.saved.2 }
  else t

/-- A byte between characters: the first of one, or a control character. -/
def first (t : Terminal) (b : Byte) : Terminal :=
  if b = 0x1b then { t with mode := .escape }
  else if b = 0x0a then { t with row := t.row + 1, col := 1 }
  else if b = 0x08 then { t with col := max 1 (t.col - 1) }
  else if b < 0x20 then t
  else if b < 0x80 then t.put [b]
  else if b < 0xe0 then { t with mode := .utf8 [b] 1 }
  else if b < 0xf0 then { t with mode := .utf8 [b] 2 }
  else { t with mode := .utf8 [b] 3 }

/-- An ASCII character is printed as soon as it is read. -/
theorem first_ascii (t : Terminal) {b : Byte} (h : 0x20 ≤ b) (h' : b < 0x80) :
    t.first b = t.put [b] := by
  rw [first, if_neg (by bv_omega), if_neg (by bv_omega), if_neg (by bv_omega),
    if_neg (by bv_omega), if_pos h']

/-- The first byte of a character of three: two more are awaited. -/
theorem first_utf8_three (t : Terminal) {b : Byte} (h : 0xe0 ≤ b) (h' : b < 0xf0) :
    t.first b = { t with mode := .utf8 [b] 2 } := by
  rw [first, if_neg (by bv_omega), if_neg (by bv_omega), if_neg (by bv_omega),
    if_neg (by bv_omega), if_neg (by bv_omega), if_neg (by bv_omega), if_pos h']

/-- The first byte of a character of four: three more are awaited. -/
theorem first_utf8_four (t : Terminal) {b : Byte} (h : 0xf0 ≤ b) :
    t.first b = { t with mode := .utf8 [b] 3 } := by
  rw [first, if_neg (by bv_omega), if_neg (by bv_omega), if_neg (by bv_omega),
    if_neg (by bv_omega), if_neg (by bv_omega), if_neg (by bv_omega), if_neg (by bv_omega)]

def step (t : Terminal) (b : Byte) : Terminal :=
  match t.mode with
  | .ground => t.first b
  | .escape => { t with mode := if b = 0x5b then .csi false [] 0 else .ground }
  | .csi isPrivate params n =>
      if 0x30 ≤ b ∧ b ≤ 0x39 then { t with mode := .csi isPrivate params (n * 10 + (b.toNat - 48)) }
      else if b = 0x3b then { t with mode := .csi isPrivate (params ++ [n]) 0 }
      else if b = 0x3f then { t with mode := .csi true params n }
      else if isPrivate then { t with mode := .ground }
      else { t.control (params ++ [n]) b with mode := .ground }
  | .utf8 pending missing =>
      if missing ≤ 1 then t.put (pending ++ [b])
      else { t with mode := .utf8 (pending ++ [b]) (missing - 1) }

def feed (t : Terminal) (bytes : List Byte) : Terminal := bytes.foldl step t

/-- Bytes are read one after another, so a concatenation is read in two parts. -/
theorem feed_append (t : Terminal) (a b : List Byte) : t.feed (a ++ b) = (t.feed a).feed b :=
  List.foldl_append

/-- The first byte is read, then the others. -/
theorem feed_cons (t : Terminal) (b : Byte) (bs : List Byte) :
    t.feed (b :: bs) = (t.step b).feed bs := rfl

/-- Between characters, in a given colour. -/
structure Idle (t : Terminal) (colour : Nat) : Prop where
  mode : t.mode = .ground
  colour : t.colour = colour

/-- Characters from the cursor on. -/
def puts (t : Terminal) (glyphs : List Glyph) : Terminal :=
  { t with
    cell := textOn t.cell t.row t.col glyphs
    col := t.col + glyphs.length }

end Terminal

/-! ## Loops

A loop writes the bytes of its rounds one after another. What is kept by appending holds of all of
them if it holds of each. -/

section Loops

variable {ι α β : Type*} {xs : List ι} {f : ι → List α} {g : ι → List β}

/-- **The rule for loops**: a relation between what is written and what it comes to, true of nothing
and kept by appending, holds of a loop if it holds of each round. Induction on the rounds. -/
theorem flatMap_rel {R : List α → List β → Prop} (nil : R [] [])
    (append : ∀ {a b gs hs}, R a gs → R b hs → R (a ++ b) (gs ++ hs))
    (h : ∀ x ∈ xs, R (f x) (g x)) : R (xs.flatMap f) (xs.flatMap g) := by
  induction xs with
  | nil => exact nil
  | cons x xs ih =>
    rw [List.forall_mem_cons] at h
    exact append h.1 (ih h.2)

/-- The same rule for a property of what is written. -/
theorem flatMap_mem {P : List α → Prop} (nil : P []) (append : ∀ {a b}, P a → P b → P (a ++ b))
    (h : ∀ x ∈ xs, P (f x)) : P (xs.flatMap f) :=
  @flatMap_rel ι α α xs f f (fun a _ => P a) nil (fun ha hb => append ha hb) h

end Loops

/-! ## Text

What is between control sequences. A character of three or four bytes takes one cell, as the
client's box-drawing characters and marks do. -/

/-- The bytes print these characters, if the colour is `colour`. -/
def Prints (colour : Nat) (bytes : List Byte) (glyphs : List Glyph) : Prop :=
  ∀ t : Terminal, t.Idle colour → t.feed bytes = t.puts glyphs

section Text

variable {t : Terminal} {colour : Nat}

/-- A cleared terminal waits for a character, in the default colour. -/
theorem Terminal.idle_cleared : Terminal.cleared.Idle 0 := ⟨rfl, rfl⟩

/-- Printing leaves a terminal between characters and in its colour. -/
theorem Terminal.Idle.puts (h : t.Idle colour) (glyphs : List Glyph) :
    (t.puts glyphs).Idle colour :=
  ⟨h.mode, h.colour⟩

/-- Between characters the next byte is the first of something. -/
theorem Terminal.Idle.step (h : t.Idle colour) (b : Byte) : t.step b = t.first b := by
  rw [Terminal.step, h.mode]

/-- Characters printed in two parts. -/
theorem Terminal.puts_append (t : Terminal) (gs hs : List Glyph) :
    (t.puts gs).puts hs = t.puts (gs ++ hs) := by
  simp only [Terminal.puts, textOn_append, List.length_append, Nat.add_assoc]

/-- No bytes print nothing. -/
theorem Prints.nil : Prints colour [] [] := by
  intro t _
  simp [Terminal.feed, Terminal.puts]

/-- A character of one byte. -/
theorem prints_ascii {b : Byte} (h : 0x20 ≤ b) (h' : b < 0x80) :
    Prints colour [b] [⟨[b], colour⟩] := by
  intro t ht
  rw [Terminal.feed_cons, ht.step, t.first_ascii h h']
  simp [Terminal.feed, Terminal.put, Terminal.puts, ht.mode, ht.colour]

/-- A character of three bytes. -/
theorem prints_utf8_three {a b c : Byte} (h : 0xe0 ≤ a) (h' : a < 0xf0) :
    Prints colour [a, b, c] [⟨[a, b, c], colour⟩] := by
  intro t ht
  rw [Terminal.feed_cons, ht.step, t.first_utf8_three h h']
  simp [Terminal.feed, Terminal.step, Terminal.put, Terminal.puts, ht.mode, ht.colour]

/-- A character of four bytes. -/
theorem prints_utf8_four {a b c d : Byte} (h : 0xf0 ≤ a) :
    Prints colour [a, b, c, d] [⟨[a, b, c, d], colour⟩] := by
  intro t ht
  rw [Terminal.feed_cons, ht.step, t.first_utf8_four h]
  simp [Terminal.feed, Terminal.step, Terminal.put, Terminal.puts, ht.mode, ht.colour]

/-- Bytes one after another print their characters one after another: printing leaves the terminal
idle and in the same colour. -/
theorem Prints.append {a b : List Byte} {gs hs : List Glyph} (ha : Prints colour a gs)
    (hb : Prints colour b hs) : Prints colour (a ++ b) (gs ++ hs) := by
  intro t ht
  rw [Terminal.feed_append, ha t ht, hb _ (ht.puts gs), Terminal.puts_append]

/-- The characters of a loop's rounds, one after another. -/
theorem Prints.flatMap {ι : Type*} {xs : List ι} {f : ι → List Byte} {g : ι → List Glyph}
    (h : ∀ x ∈ xs, Prints colour (f x) (g x)) : Prints colour (xs.flatMap f) (xs.flatMap g) :=
  flatMap_rel .nil .append h

end Text

/-! ## Control sequences

The numbers are written in decimal and read back digit by digit; that they come out the same is
`Terminal.feed_decimal`. -/

/-- The bytes of ASCII characters. -/
def ascii (cs : List Char) : List Byte := cs.map fun c => BitVec.ofNat 8 c.toNat

/-- `%d` of a number that is not negative. -/
def decimal (n : Nat) : List Byte := ascii (Nat.toDigits 10 n)

/-- The control sequence with a parameter. -/
def csi (n : Nat) (final : Byte) : List Byte := [0x1b, 0x5b] ++ (decimal n ++ [final])

def cursorTo (col row : Nat) : List Byte :=
  [0x1b, 0x5b] ++ (decimal row ++ ([0x3b] ++ (decimal col ++ [0x48])))

def sgr (colour : Nat) : List Byte := csi colour 0x6d

/-- The codes of the decimal digits. -/
theorem isDigit_bounds {c : Char} (h : c.isDigit) : 48 ≤ c.toNat ∧ c.toNat ≤ 57 := by
  simp only [Char.isDigit, ge_iff_le, Bool.and_eq_true, decide_eq_true_eq] at h
  exact ⟨UInt32.le_iff_toNat_le.mp h.1, UInt32.le_iff_toNat_le.mp h.2⟩

/-- Digits add up to the number they spell. -/
theorem Terminal.feed_digits {cs : List Char} (h : ∀ c ∈ cs, c.isDigit) (t : Terminal)
    {isPrivate : Bool} {params : List Nat} {n : Nat} (hmode : t.mode = .csi isPrivate params n) :
    t.feed (ascii cs) =
      { t with mode := .csi isPrivate params (Nat.ofDigitChars 10 cs n) } := by
  induction cs generalizing t n with
  | nil =>
    rw [Nat.ofDigitChars_nil, ← hmode]
    rfl
  | cons c cs ih =>
    rw [List.forall_mem_cons] at h
    have hdigit := isDigit_bounds h.1
    have hstep : t.step (BitVec.ofNat 8 c.toNat) =
        { t with mode := .csi isPrivate params (n * 10 + (c.toNat - 48)) } := by
      rw [Terminal.step, hmode]
      dsimp only
      rw [if_pos (by constructor <;> bv_omega)]
      have hnat : (BitVec.ofNat 8 c.toNat).toNat = c.toNat := by
        rw [BitVec.toNat_ofNat]
        omega
      rw [hnat]
    have hcons : t.feed (ascii (c :: cs)) = (t.step (BitVec.ofNat 8 c.toNat)).feed (ascii cs) := rfl
    rw [hcons, hstep, ih h.2 _ rfl, Nat.ofDigitChars_cons, Nat.mul_comm]
    rfl

/-- A number in decimal is read as that number. -/
theorem Terminal.feed_decimal (t : Terminal) {isPrivate : Bool} {params : List Nat}
    (hmode : t.mode = .csi isPrivate params 0) (n : Nat) :
    t.feed (decimal n) = { t with mode := .csi isPrivate params n } := by
  rw [decimal, Terminal.feed_digits (fun c hc =>
    Nat.isDigit_of_mem_toDigits (by decide) (by decide) hc) t hmode, Nat.ofDigitChars_ten_toDigits]

section Control

variable {t : Terminal} {colour : Nat}

/-- Escape and bracket open a control sequence, with no parameters yet. -/
theorem Terminal.Idle.feed_open (h : t.Idle colour) :
    t.feed [0x1b, 0x5b] = { t with mode := .csi false [] 0 } := by
  simp [Terminal.feed, Terminal.step, h.mode, Terminal.first]

/-- The last byte of a control sequence. -/
theorem Terminal.feed_final {params : List Nat} {n : Nat} (hmode : t.mode = .csi false params n)
    {final : Byte} (hfinal : 0x40 ≤ final) :
    t.feed [final] = { t.control (params ++ [n]) final with mode := .ground } := by
  have hdigit : ¬ (0x30 ≤ final ∧ final ≤ 0x39) := by bv_omega
  have hsemicolon : final ≠ 0x3b := by bv_omega
  have hquestion : final ≠ 0x3f := by bv_omega
  show t.step final = _
  rw [Terminal.step, hmode]
  dsimp only
  rw [if_neg hdigit, if_neg hsemicolon, if_neg hquestion]
  rfl

/-- A control sequence with one parameter: its digits are read as the number they write, and the
final byte has its effect. -/
theorem Terminal.Idle.feed_csi (h : t.Idle colour) (n : Nat) {final : Byte}
    (hfinal : 0x40 ≤ final) :
    t.feed (csi n final) =
      { ({ t with mode := .csi false [] n } : Terminal).control [n] final with
        mode := .ground } := by
  rw [csi, Terminal.feed_append, h.feed_open, Terminal.feed_append, Terminal.feed_decimal _ rfl,
    Terminal.feed_final rfl hfinal]
  rfl

/-- The cursor goes where it is told, counting from 1. -/
theorem Terminal.Idle.feed_cursorTo (h : t.Idle colour) (col row : Nat) :
    t.feed (cursorTo col row) = { t with row := max 1 row, col := max 1 col } := by
  have hsep : ({ t with mode := .csi false [] row } : Terminal).feed [0x3b] =
      { t with mode := .csi false [row] 0 } := by
    simp [Terminal.feed, Terminal.step]
  rw [cursorTo, Terminal.feed_append, h.feed_open, Terminal.feed_append,
    Terminal.feed_decimal _ rfl, Terminal.feed_append, hsep, Terminal.feed_append,
    Terminal.feed_decimal _ rfl, Terminal.feed_final rfl (by decide)]
  simp [Terminal.control, ← h.mode]

/-- The colour is set, and nothing else changes. -/
theorem Terminal.Idle.feed_sgr (h : t.Idle colour) (colour' : Nat) :
    t.feed (sgr colour') = { t with colour := colour' } := by
  rw [sgr, h.feed_csi _ (by decide)]
  simp [Terminal.control, ← h.mode]

/-- A new line moves the cursor to the start of the next row and prints nothing. -/
theorem Terminal.Idle.feed_newline (h : t.Idle colour) :
    t.feed [0x0a] = { t with row := t.row + 1, col := 1 } := by
  simp [Terminal.feed, Terminal.step, h.mode, Terminal.first]

/-- The sequence that erases the row of the cursor. -/
theorem Terminal.Idle.feed_eraseRow (h : t.Idle colour) :
    t.feed (csi 2 0x4b) = { t with cell := eraseOn t.cell t.row } := by
  rw [h.feed_csi _ (by decide)]
  simp [Terminal.control, ← h.mode]

/-- Coloured characters, the default colour before and after. -/
theorem Prints.coloured {bytes : List Byte} {gs : List Glyph} (h : Prints colour bytes gs) :
    Prints 0 (sgr colour ++ (bytes ++ sgr 0)) gs := by
  intro t ht
  have hcoloured : ({ t with colour := colour } : Terminal).Idle colour := ⟨ht.mode, rfl⟩
  rw [Terminal.feed_append, ht.feed_sgr, Terminal.feed_append, h _ hcoloured,
    (hcoloured.puts gs).feed_sgr]
  simp [Terminal.puts, ← ht.colour]

end Control

/-! ## Drawings

A drawing says what ends up in which cells and forgets how the cursor got there. That the cursor's
place does not matter is what makes drawings compose. -/

/-- A text at a place, or a row erased. -/
inductive Stroke where
  | text (col row : Nat) (glyphs : List Glyph)
  | eraseRow (row : Nat)

def paint (cell : Canvas) : Stroke → Canvas
  | .text col row glyphs => textOn cell row col glyphs
  | .eraseRow row => eraseOn cell row

/-- The bytes draw the strokes, one after another, wherever the cursor is. -/
def Draws (bytes : List Byte) (strokes : List Stroke) : Prop :=
  ∀ t : Terminal, t.Idle 0 →
    (t.feed bytes).Idle 0 ∧ (t.feed bytes).cell = strokes.foldl paint t.cell

/-- No bytes draw nothing. -/
theorem Draws.nil : Draws [] [] := fun _ ht => ⟨ht, rfl⟩

/-- Drawings one after another: the first leaves the terminal idle, and the second does not ask
where the cursor is. -/
theorem Draws.append {a b : List Byte} {ps qs : List Stroke} (ha : Draws a ps) (hb : Draws b qs) :
    Draws (a ++ b) (ps ++ qs) := by
  intro t ht
  obtain ⟨hidle, hcell⟩ := ha t ht
  obtain ⟨hidle', hcell'⟩ := hb _ hidle
  rw [Terminal.feed_append]
  exact ⟨hidle', by rw [hcell', hcell, List.foldl_append]⟩

/-- The drawings of a loop's rounds, one after another. -/
theorem Draws.flatMap {ι : Type*} {xs : List ι} {f : ι → List Byte} {g : ι → List Stroke}
    (h : ∀ x ∈ xs, Draws (f x) (g x)) : Draws (xs.flatMap f) (xs.flatMap g) :=
  flatMap_rel .nil .append h

/-- Moving the cursor draws nothing. -/
theorem draws_cursorTo (col row : Nat) : Draws (cursorTo col row) [] := by
  intro t ht
  rw [ht.feed_cursorTo]
  exact ⟨⟨ht.mode, ht.colour⟩, rfl⟩

/-- A new line draws nothing. -/
theorem draws_newline : Draws [0x0a] [] := by
  intro t ht
  rw [ht.feed_newline]
  exact ⟨⟨ht.mode, ht.colour⟩, rfl⟩

/-- So do saving and restoring its place. -/
theorem draws_saveCursor : Draws [0x1b, 0x5b, 0x73] [] := by
  intro t ht
  have h : t.feed [0x1b, 0x5b, 0x73] = { t with saved := (t.row, t.col) } := by
    rw [show [0x1b, 0x5b, 0x73] = [0x1b, 0x5b] ++ ([0x73] : List Byte) from rfl,
      Terminal.feed_append, ht.feed_open, Terminal.feed_final rfl (by decide)]
    simp [Terminal.control, ← ht.mode]
  rw [h]
  exact ⟨⟨ht.mode, ht.colour⟩, rfl⟩

/-- Nor does restoring the cursor. -/
theorem draws_restoreCursor : Draws [0x1b, 0x5b, 0x75] [] := by
  intro t ht
  have h : t.feed [0x1b, 0x5b, 0x75] = { t with row := t.saved.1, col := t.saved.2 } := by
    rw [show [0x1b, 0x5b, 0x75] = [0x1b, 0x5b] ++ ([0x75] : List Byte) from rfl,
      Terminal.feed_append, ht.feed_open, Terminal.feed_final rfl (by decide)]
    simp [Terminal.control, ← ht.mode]
  rw [h]
  exact ⟨⟨ht.mode, ht.colour⟩, rfl⟩

/-- A text printed at a place. -/
theorem Prints.at {bytes : List Byte} {gs : List Glyph} (h : Prints 0 bytes gs) (col row : Nat) :
    Draws (cursorTo col row ++ bytes) [.text (max 1 col) (max 1 row) gs] := by
  intro t ht
  have hidle : ({ t with row := max 1 row, col := max 1 col } : Terminal).Idle 0 :=
    ⟨ht.mode, ht.colour⟩
  rw [Terminal.feed_append, ht.feed_cursorTo, h _ hidle]
  exact ⟨hidle.puts gs, rfl⟩

/-- A row is erased whole, whatever column the cursor was moved to. Row 0 is row 1 to the terminal.
-/
theorem draws_eraseRow (col row : Nat) :
    Draws (cursorTo col row ++ csi 2 0x4b) [.eraseRow (max 1 row)] := by
  intro t ht
  have hidle : ({ t with row := max 1 row, col := max 1 col } : Terminal).Idle 0 :=
    ⟨ht.mode, ht.colour⟩
  rw [Terminal.feed_append, ht.feed_cursorTo, hidle.feed_eraseRow]
  exact ⟨⟨ht.mode, ht.colour⟩, rfl⟩

/-! ## Where a drawing is

Strokes cover cells. What no stroke covers is untouched, and what some stroke covers does not depend
on what was there before. -/

/-- A set of cells. -/
abbrev Region := Nat → Nat → Prop

/-- The cells a stroke writes. -/
def Stroke.Covers : Stroke → Region
  | .text col row glyphs, r, c => r = row ∧ col ≤ c ∧ c < col + glyphs.length
  | .eraseRow row, r, _ => r = row

/-- The stroke stays in a region. -/
def Stroke.Within (R : Region) (p : Stroke) : Prop := ∀ r c, p.Covers r c → R r c

/-- The frame of a stroke: a cell it does not cover is as it was. -/
theorem paint_of_not_covers (cell : Canvas) {p : Stroke} {r c : Nat} (h : ¬ p.Covers r c) :
    paint cell p r c = cell r c := by
  cases p with
  | text col row glyphs =>
    show textOn cell row col glyphs r c = _
    rw [textOn]
    split
    case isTrue hin =>
      rw [List.getElem?_eq_none, Option.getD_none]
      by_contra hlen
      exact h ⟨hin.1, hin.2, by omega⟩
    case isFalse => rfl
  | eraseRow row =>
    exact if_neg h

/-- What a stroke writes does not depend on what was there. -/
theorem paint_of_covers (cell cell' : Canvas) {p : Stroke} {r c : Nat} (h : p.Covers r c) :
    paint cell p r c = paint cell' p r c := by
  cases p with
  | text col row glyphs =>
    obtain ⟨hr, hc, hlen⟩ := h
    show textOn cell row col glyphs r c = textOn cell' row col glyphs r c
    rw [textOn, textOn, if_pos ⟨hr, hc⟩, if_pos ⟨hr, hc⟩,
      List.getElem?_eq_getElem (by omega)]
    rfl
  | eraseRow row =>
    exact (if_pos h).trans (if_pos h).symm

/-- The frame of a drawing: what no stroke covers is as it was. -/
theorem foldl_paint_uncovered {strokes : List Stroke} {r c : Nat}
    (h : ∀ p ∈ strokes, ¬ p.Covers r c) (cell : Canvas) :
    strokes.foldl paint cell r c = cell r c := by
  induction strokes generalizing cell with
  | nil => rfl
  | cons p strokes ih =>
    rw [List.forall_mem_cons] at h
    rw [List.foldl_cons, ih h.2, paint_of_not_covers cell h.1]

/-- A cell after a drawing depends on that cell before it, and on no other. -/
theorem foldl_paint_congr {cell cell' : Canvas} {r c : Nat} (h : cell r c = cell' r c)
    (strokes : List Stroke) : strokes.foldl paint cell r c = strokes.foldl paint cell' r c := by
  induction strokes generalizing cell cell' with
  | nil => exact h
  | cons p strokes ih =>
    refine ih ?_
    by_cases hp : p.Covers r c
    · exact paint_of_covers cell cell' hp
    · rw [paint_of_not_covers cell hp, paint_of_not_covers cell' hp, h]

/-- A cell that a stroke covers shows the same on any screen: the last stroke that covers it
decides. -/
theorem foldl_paint_covered {strokes : List Stroke} {r c : Nat}
    (h : ∃ p ∈ strokes, p.Covers r c) (cell cell' : Canvas) :
    strokes.foldl paint cell r c = strokes.foldl paint cell' r c := by
  obtain ⟨p, hp, hcovers⟩ := h
  obtain ⟨before, after, rfl⟩ := List.append_of_mem hp
  rw [List.foldl_append, List.foldl_append, List.foldl_cons, List.foldl_cons]
  exact foldl_paint_congr (paint_of_covers _ _ hcovers) after

/-- Where a stroke is and how long, whatever it shows. -/
def Stroke.extent : Stroke → Nat × Nat × Option Nat
  | .text col row glyphs => (col, row, some glyphs.length)
  | .eraseRow row => (0, row, none)

/-- Which cells a stroke covers depends on its extent only. -/
theorem Stroke.covers_congr {p q : Stroke} (h : p.extent = q.extent) (r c : Nat) :
    p.Covers r c ↔ q.Covers r c := by
  cases p <;> cases q <;> simp_all [Stroke.extent, Stroke.Covers]

/-- **Repainting.** Strokes of the same extents hide what others have drawn. -/
theorem foldl_paint_repaint {ps qs : List Stroke}
    (h : ps.map Stroke.extent = qs.map Stroke.extent) (cell : Canvas) :
    qs.foldl paint (ps.foldl paint cell) = qs.foldl paint cell := by
  funext r c
  by_cases hcovers : ∃ q ∈ qs, q.Covers r c
  · exact foldl_paint_covered hcovers _ _
  · have hps : ∀ p ∈ ps, ¬ p.Covers r c := by
      intro p hp hpcovers
      have hmem : p.extent ∈ qs.map Stroke.extent := h ▸ List.mem_map_of_mem hp
      obtain ⟨q, hq, hextent⟩ := List.mem_map.mp hmem
      exact hcovers ⟨q, hq, (Stroke.covers_congr hextent r c).mpr hpcovers⟩
    exact foldl_paint_congr (foldl_paint_uncovered hps cell) qs

/-- A text is read back. -/
theorem paint_text_get (cell : Canvas) (col row : Nat) (glyphs : List Glyph) {k : Nat}
    (hk : k < glyphs.length) : paint cell (.text col row glyphs) row (col + k) = glyphs[k] := by
  show textOn cell row col glyphs row (col + k) = _
  rw [textOn, if_pos ⟨rfl, by omega⟩, Nat.add_sub_cancel_left, List.getElem?_eq_getElem hk]
  rfl

/-- One-cell texts at different places: each shows its glyph. -/
theorem foldl_paint_cells {ι : Type*} {xs : List ι} {col row : ι → Nat} {glyph : ι → Glyph}
    (hnodup : xs.Nodup) (hinj : ∀ x ∈ xs, ∀ y ∈ xs, col x = col y → row x = row y → x = y)
    (cell : Canvas) {x : ι} (hx : x ∈ xs) :
    (xs.map fun y => Stroke.text (col y) (row y) [glyph y]).foldl paint cell (row x) (col x) =
      glyph x := by
  obtain ⟨before, after, rfl⟩ := List.append_of_mem hx
  have hlater : ∀ p ∈ after.map fun y => Stroke.text (col y) (row y) [glyph y],
      ¬ p.Covers (row x) (col x) := by
    intro p hp
    obtain ⟨y, hy, rfl⟩ := List.mem_map.mp hp
    rintro ⟨hrow, hcol, hcol'⟩
    rw [List.length_singleton] at hcol'
    have hxy : x = y := hinj x hx y (by simp [hy]) (by omega) hrow
    have hnot : x ∉ after := by
      rw [List.nodup_append] at hnodup
      exact (List.nodup_cons.mp hnodup.2.1).1
    exact hnot (hxy ▸ hy)
  rw [List.map_append, List.map_cons, List.foldl_append, List.foldl_cons,
    foldl_paint_uncovered hlater]
  have hread := paint_text_get ((before.map fun y =>
    Stroke.text (col y) (row y) [glyph y]).foldl paint cell) (col x) (row x) [glyph x]
    (k := 0) (by simp)
  exact hread

/-- Strokes change no cell outside their region. -/
theorem foldl_paint_outside {R : Region} {strokes : List Stroke}
    (h : ∀ p ∈ strokes, p.Within R) (cell : Canvas) {r c : Nat} (hout : ¬ R r c) :
    strokes.foldl paint cell r c = cell r c :=
  foldl_paint_uncovered (fun p hp hcovers => hout (h p hp r c hcovers)) cell

/-- The bytes change no cell outside a region. -/
def Confined (R : Region) (bytes : List Byte) : Prop :=
  ∀ t : Terminal, t.Idle 0 →
    (t.feed bytes).Idle 0 ∧ ∀ r c, ¬ R r c → (t.feed bytes).cell r c = t.cell r c

section Confined

variable {R : Region}

/-- A drawing whose strokes stay in a region changes nothing outside it. -/
theorem Draws.confined {bytes : List Byte} {strokes : List Stroke} (h : Draws bytes strokes)
    (hin : ∀ p ∈ strokes, p.Within R) : Confined R bytes := by
  intro t ht
  obtain ⟨hidle, hcell⟩ := h t ht
  exact ⟨hidle, fun r c hout => by rw [hcell, foldl_paint_outside hin _ hout]⟩

/-- No bytes change nothing. -/
theorem Confined.nil : Confined R [] := Draws.nil.confined (by simp)

/-- Confinement of bytes one after another. -/
theorem Confined.append {a b : List Byte} (ha : Confined R a) (hb : Confined R b) :
    Confined R (a ++ b) := by
  intro t ht
  obtain ⟨hidle, hcell⟩ := ha t ht
  obtain ⟨hidle', hcell'⟩ := hb _ hidle
  rw [Terminal.feed_append]
  exact ⟨hidle', fun r c hout => (hcell' r c hout).trans (hcell r c hout)⟩

/-- Confinement of a loop's rounds. -/
theorem Confined.flatMap {ι : Type*} {xs : List ι} {f : ι → List Byte}
    (h : ∀ x ∈ xs, Confined R (f x)) : Confined R (xs.flatMap f) :=
  flatMap_mem .nil .append h

/-- What stays in a region stays in a larger one. -/
theorem Confined.mono {R' : Region} {bytes : List Byte} (h : Confined R bytes)
    (hR : ∀ r c, R r c → R' r c) : Confined R' bytes := by
  intro t ht
  obtain ⟨hidle, hcell⟩ := h t ht
  exact ⟨hidle, fun r c hout => hcell r c fun hin => hout (hR r c hin)⟩

/-- A text at a place, as long as it stays in the region. -/
theorem Prints.confined_at {bytes : List Byte} {gs : List Glyph} (h : Prints 0 bytes gs)
    (col row : Nat)
    (hin : ∀ c, max 1 col ≤ c → c < max 1 col + gs.length → R (max 1 row) c) :
    Confined R (cursorTo col row ++ bytes) := by
  refine (h.at col row).confined ?_
  rw [List.forall_mem_singleton]
  rintro _ c ⟨rfl, hcol, hlen⟩
  exact hin c hcol hlen

end Confined

/-! ## Rows

For texts of unknown length the region is a set of rows, and the cursor must be in it when they
begin. -/

/-- The bytes keep the cursor in some rows, and change no cell of the others. -/
def KeepsRows (rows : Nat → Prop) (bytes : List Byte) : Prop :=
  ∀ t : Terminal, t.Idle 0 → rows t.row →
    (t.feed bytes).Idle 0 ∧ rows (t.feed bytes).row ∧
      ∀ r c, ¬ rows r → (t.feed bytes).cell r c = t.cell r c

section Rows

variable {rows : Nat → Prop}

/-- No bytes leave the cursor where it is. -/
theorem KeepsRows.nil : KeepsRows rows [] := fun _ ht hrow => ⟨ht, hrow, fun _ _ _ => rfl⟩

/-- Bytes that keep the rows, one after another. -/
theorem KeepsRows.append {a b : List Byte} (ha : KeepsRows rows a) (hb : KeepsRows rows b) :
    KeepsRows rows (a ++ b) := by
  intro t ht hrow
  obtain ⟨hidle, hrow', hcell⟩ := ha t ht hrow
  obtain ⟨hidle', hrow'', hcell'⟩ := hb _ hidle hrow'
  rw [Terminal.feed_append]
  exact ⟨hidle', hrow'', fun r c hout => (hcell' r c hout).trans (hcell r c hout)⟩

/-- The rounds of a loop keep the rows if each does. -/
theorem KeepsRows.flatMap {ι : Type*} {xs : List ι} {f : ι → List Byte}
    (h : ∀ x ∈ xs, KeepsRows rows (f x)) : KeepsRows rows (xs.flatMap f) :=
  flatMap_mem .nil .append h

/-- Moving the cursor into one of the rows changes no cell. -/
theorem keepsRows_cursorTo {row : Nat} (col : Nat) (hrow : rows (max 1 row)) :
    KeepsRows rows (cursorTo col row) := by
  intro t ht _
  rw [ht.feed_cursorTo]
  exact ⟨⟨ht.mode, ht.colour⟩, hrow, fun _ _ _ => rfl⟩

/-- Erasing the cursor's row changes no other. -/
theorem keepsRows_eraseRow : KeepsRows rows (csi 2 0x4b) := by
  intro t ht hrow
  rw [ht.feed_eraseRow]
  refine ⟨⟨ht.mode, ht.colour⟩, hrow, fun r c hout => if_neg ?_⟩
  rintro rfl
  exact hout hrow

/-- A text, however long, stays in the row it starts in: nothing wraps. -/
theorem Prints.keepsRows {bytes : List Byte} {gs : List Glyph} (h : Prints 0 bytes gs) :
    KeepsRows rows bytes := by
  intro t ht hrow
  rw [h t ht]
  refine ⟨ht.puts gs, hrow, fun r c hout => ?_⟩
  refine if_neg ?_
  rintro ⟨rfl, _⟩
  exact hout hrow

/-- From a place in the rows on, wherever the cursor was. -/
theorem KeepsRows.confined {bytes : List Byte} (h : KeepsRows rows bytes) (col : Nat) {row : Nat}
    (hrow : rows (max 1 row)) : Confined (fun r _ => rows r) (cursorTo col row ++ bytes) := by
  intro t ht
  have hidle : ({ t with row := max 1 row, col := max 1 col } : Terminal).Idle 0 :=
    ⟨ht.mode, ht.colour⟩
  rw [Terminal.feed_append, ht.feed_cursorTo]
  obtain ⟨hidle', _, hcell⟩ := h _ hidle hrow
  exact ⟨hidle', hcell⟩

end Rows

/-! ## ASCII texts

Words of the source are given as lists of characters. Whether one is printable is decided once for
each word. -/

/-- The characters of an ASCII text. -/
def textGlyphs (cs : List Char) : List Glyph := cs.map fun c => ⟨[BitVec.ofNat 8 c.toNat], 0⟩

/-- Printable ASCII characters print as themselves, in the default colour. -/
theorem prints_text {cs : List Char} (h : ∀ c ∈ cs, 0x20 ≤ c.toNat ∧ c.toNat < 0x80) :
    Prints 0 (ascii cs) (textGlyphs cs) := by
  induction cs with
  | nil => exact .nil
  | cons c cs ih =>
    rw [List.forall_mem_cons] at h
    have hc := h.1
    exact (@prints_ascii 0 (BitVec.ofNat 8 c.toNat) (by bv_omega) (by bv_omega)).append (ih h.2)

/-- Printability of a given text is decided by evaluation. -/
theorem printable_of_all {cs : List Char}
    (h : (cs.all fun c => 0x20 ≤ c.toNat && c.toNat < 0x80) = true) :
    ∀ c ∈ cs, 0x20 ≤ c.toNat ∧ c.toNat < 0x80 := by
  simpa using h

/-- Digits are printable. -/
theorem isDigit_printable {c : Char} (h : c.isDigit) : 0x20 ≤ c.toNat ∧ c.toNat < 0x80 := by
  have := isDigit_bounds h
  omega

/-- The bytes print characters, whichever. -/
def IsText (bytes : List Byte) : Prop := ∃ gs, Prints 0 bytes gs

/-- No bytes are a text. -/
theorem IsText.nil : IsText [] := ⟨_, .nil⟩

/-- Texts one after another are a text. -/
theorem IsText.append {a b : List Byte} (ha : IsText a) (hb : IsText b) : IsText (a ++ b) := by
  obtain ⟨gs, hgs⟩ := ha
  obtain ⟨hs, hhs⟩ := hb
  exact ⟨_, hgs.append hhs⟩

/-- So are those of a loop's rounds. -/
theorem IsText.flatMap {ι : Type*} {xs : List ι} {f : ι → List Byte} (h : ∀ x ∈ xs, IsText (f x)) :
    IsText (xs.flatMap f) :=
  flatMap_mem .nil .append h

/-- Printable ASCII characters are a text. -/
theorem isText_ascii {cs : List Char} (h : ∀ c ∈ cs, 0x20 ≤ c.toNat ∧ c.toNat < 0x80) :
    IsText (ascii cs) := ⟨_, prints_text h⟩

/-- A number in decimal is printed digit by digit. -/
theorem prints_decimal (n : Nat) : Prints 0 (decimal n) (textGlyphs (Nat.toDigits 10 n)) :=
  prints_text fun _ hc =>
    isDigit_printable (Nat.isDigit_of_mem_toDigits (by decide) (by decide) hc)

/-- A number is a text, of digits. -/
theorem isText_decimal (n : Nat) : IsText (decimal n) := ⟨_, prints_decimal n⟩

end Kxo
