import Kxo.Spec.Driver
import Kxo.Spec.Screen
import Mathlib.Data.Nat.Digits.Defs

/-!
# Kxo — the client (`user/xo-user.c`)

One round of `main`'s loop: the bodies of the three coroutines, in the order in which they are
started, and the flush. What `select` and the clocks report is the input of a round. Of
`listen_keyboard_handler` it is the part that concerns the client; its read and its write of
`kxo_state` are steps of the driver. The message Ctrl-Q prints behind the back of `outbuf`, in the
last round, is left out.
-/

namespace Kxo

/-! ## Records from bytes -/

/-- The word with these bytes, least significant first. -/
def ofLeBytes (w : Nat) (bytes : List Byte) : BitVec w :=
  BitVec.ofNat w (Nat.ofDigits 256 (bytes.map BitVec.toNat))

/-- The `struct xo_table` that `read` leaves at `&xo_tlb`. -/
def recordOf (bytes : List Byte) : XoTable where
  attr := ofLeBytes 32 (bytes.take 4)
  table := ofLeBytes 32 ((bytes.drop 4).take 4)
  moves := ofLeBytes 64 ((bytes.drop 8).take 8)

/-- What reads of `sizeof(struct xo_table)` make of a stream. -/
def recordsIn (bytes : List Byte) : List XoTable :=
  (List.range (bytes.length / recordSize)).map fun k =>
    recordOf ((bytes.drop (recordSize * k)).take recordSize)

/-! ## The client's state -/

/-- `read_attr`, `end_attr` and `tobj`; `tlb` is `none` as long as nothing has been copied to it. -/
structure Client where
  readAttr : Bool
  endAttr : Bool
  tab : TuiTab
  tlb : Option XoTable

/-- What `main` starts its loop with. -/
def clientStart : Client := ⟨true, false, .record, none⟩

def ctrlP : Byte := 16

def ctrlQ : Byte := 17

def keyQ : Byte := 113

def keyW : Byte := 119

/-- `listen_keyboard_handler`; `opened` says whether `kxo_state` could be opened, `input` is the
character read from `stdin`, if any. -/
def listenKeyboardHandler (opened : Bool) (input : Option Byte) (c : Client) : Client :=
  if opened then
    if input = some ctrlP then { c with readAttr := !c.readAttr }
    else if input = some ctrlQ then { c with readAttr := false, endAttr := true }
    else if input = some keyQ then { c with tab := .record }
    else if input = some keyW then { c with tab := .loadavg }
    else c
  else c

/-! ## A round -/

/-- What `select` reports: `stdin`, whether or not the device is ready as well, or the device. -/
inductive Ready where
  | stdin (opened : Bool) (input : Option Byte)
  | device

/-- What a round finds: the time of the day, what is ready, and for `xo_loadavg` its readings of the
clock and the averages. -/
structure RoundInput where
  tm : Tm
  ready : Ready
  first : Timespec
  last : Timespec
  xoAvgs : Nat → XoAvg

def taskPrintNow (input : RoundInput) : List TuiCall := [.printNow input.tm]

/-- `task_io` reads from the device. -/
def readsDevice (input : RoundInput) (c : Client) : Bool :=
  match input.ready with
  | .stdin _ _ => false
  | .device => c.readAttr

/-- `task_io`; `bytes` is what `read` copies. Nothing where that is less than a record. -/
def taskIo (input : RoundInput) (bytes : List Byte) (c : Client) :
    Option (Client × List TuiCall) := do
  let (c, calls) ← match input.ready with
    | .stdin opened key => some (listenKeyboardHandler opened key c, [])
    | .device =>
        if c.readAttr then
          if bytes.length = recordSize then
            some ({ c with tlb := some (recordOf bytes) }, [.updateTable (recordOf bytes)])
          else none
        else some (c, [])
  return (c, calls ++ [.stopMessage (!c.readAttr)])

/-- The record `tui_update_tab` finds at `tobj`. `xo_loadavg` does not look at it; for `xo_record`
there must be one. -/
def tabRecord (c : Client) : Option XoTable :=
  match c.tab with
  | .record => c.tlb
  | .loadavg => some (c.tlb.getD ⟨0, 0, 0⟩)

def taskTab (input : RoundInput) (c : Client) : Option (List TuiCall) :=
  if c.readAttr then do
    let tlb ← tabRecord c
    return [.tuiUpdateTab c.tab tlb input.first input.last input.xoAvgs]
  else some []

/-- One round. -/
def clientRound (input : RoundInput) (bytes : List Byte) (c : Client) :
    Option (Client × List TuiCall) := do
  let (c, ioCalls) ← taskIo input bytes c
  let tabCalls ← taskTab input c
  return (c, taskPrintNow input ++ ioCalls ++ tabCalls ++ [.outbufFlush])

/-! ## The client at the driver -/

section Watch

variable {σ : Type}

/-- The driver, its client, the TUI's statics and `outbuf`. The last field is a history variable:
the calls of the client's rounds. -/
structure Watch (σ : Type) where
  driver : Driver σ
  client : Client
  tui : TuiState
  outbuf : Outbuf
  calls : List TuiCall

/-- A step of the driver that is no `read`, or a round. -/
inductive WatchEvent where
  | driver (e : Event)
  | round (input : RoundInput)

/-- The bytes a round reads, and the driver afterwards. -/
def roundRead (input : RoundInput) (s : Watch σ) : List Byte × Driver σ :=
  if readsDevice input s.client then
    (s.driver.device.rxFifo.take recordSize,
      { s.driver with device := kxoRead s.driver.device recordSize })
  else ([], s.driver)

/-- A round of the client; nothing where the C code has no behaviour. -/
def watchRound (input : RoundInput) (s : Watch σ) : Option (Watch σ) := do
  let (bytes, driver) := roundRead input s
  let (client, calls) ← clientRound input bytes s.client
  let (tui, out) ← tuiCalls s.tui calls
  let outbuf ← outbufCalls s.outbuf out
  return ⟨driver, client, tui, outbuf, s.calls ++ calls⟩

/-- The client alone with the driver, from the start of its loop on. What went out before is on the
screen and no longer in `written`; `select` finds the device ready when there is something to
read. -/
def watchSystem (A : Agents σ) : System (Watch σ) WatchEvent where
  init s := (driverSystem A).init s.driver ∧ s.client = clientStart ∧ s.tui = tuiStart ∧
    s.outbuf.disabled = false ∧ s.outbuf.len = 0 ∧ s.outbuf.written = [] ∧ s.calls = []
  step s e s' :=
    match e with
    | .driver e => (∀ count, e ≠ .read count) ∧ ∃ driver, (driverSystem A).step s.driver e driver ∧
        s' = { s with driver }
    | .round input => s.client.endAttr = false ∧
        (input.ready = .device → s.driver.device.rxFifo ≠ []) ∧ watchRound input s = some s'

end Watch

end Kxo
