import Kxo.Lib.Bytes
import Kxo.Lib.TransitionSystem

/-!
# Kxo — the TUI's output buffer (`user/tui.c`)

Everything the TUI draws goes through `outbuf`. `write` takes every byte it is given and `vsnprintf`
does not fail; a `printf` call is the text its format and arguments stand for. `fflush(stdout)` has
nothing to do, since no byte goes through `stdout`.
-/

namespace Kxo

def outbufSize : Nat := 4096

def flushThreshold : Nat := 2048

/-- `outbuf`, and as a history variable the bytes handed to `write` so far. -/
structure Outbuf where
  buf : Nat → Byte
  len : Nat
  disabled : Bool
  written : List Byte

def outbufInit : Outbuf := ⟨fun _ => 0, 0, false, []⟩

namespace Outbuf

/-- The bytes in the buffer. -/
def buffered (b : Outbuf) : List Byte := bytesAt b.buf 0 b.len

/-- Bytes stored into `buf`: undefined past its end. -/
def store (b : Outbuf) (offset : Nat) (data : List Byte) : Option Outbuf :=
  if offset + data.length ≤ outbufSize then some { b with buf := memcpy b.buf offset data }
  else none

/-- `vsnprintf(buf + offset, size, ...)`: as much of the text as leaves room for a `NUL`. Returns
the length of the text. -/
def vsnprintf (b : Outbuf) (offset size : Nat) (text : List Byte) : Option (Outbuf × Nat) :=
  if size = 0 then some (b, text.length)
  else do
    let b ← b.store offset (text.take (size - 1) ++ [0])
    return (b, text.length)

def safeWrite (b : Outbuf) (data : List Byte) : Outbuf := { b with written := b.written ++ data }

/-- The buffer handed to `safe_write` and emptied. -/
def writeOut (b : Outbuf) : Outbuf := { b.safeWrite b.buffered with len := 0 }

/-- `if (outbuf.len > 0)`. -/
def writeOutAny (b : Outbuf) : Outbuf := if 0 < b.len then b.writeOut else b

/-- The count of bytes just stored, and the automatic flush. -/
def account (b : Outbuf) (n : Nat) : Outbuf :=
  let b := { b with len := b.len + n }
  if flushThreshold ≤ b.len then b.writeOut else b

end Outbuf

def outbufWrite (data : List Byte) (b : Outbuf) : Option Outbuf :=
  if b.disabled then some (b.safeWrite data)
  else if outbufSize ≤ data.length then some (b.writeOutAny.safeWrite data)
  else do
    let b := if outbufSize < b.len + data.length then b.writeOut else b
    let b ← b.store b.len data
    return b.account data.length

def outbufPrintf (text : List Byte) (b : Outbuf) : Option Outbuf := do
  let remaining := outbufSize - b.len
  let (b, written) ← b.vsnprintf b.len remaining text
  if remaining ≤ written then
    let b := b.writeOutAny
    let (b, written) ← b.vsnprintf 0 outbufSize text
    if outbufSize ≤ written then return { b with disabled := true }
    else return b.account written
  else return b.account written

def outbufFlush (b : Outbuf) : Outbuf := b.writeOutAny

/-- The calls of the rest of the TUI. -/
inductive OutbufCall where
  | outbufWrite (data : List Byte)
  | outbufPrintf (text : List Byte)
  | outbufFlush

def outbufCall (b : Outbuf) : OutbufCall → Option Outbuf
  | .outbufWrite data => outbufWrite data b
  | .outbufPrintf text => outbufPrintf text b
  | .outbufFlush => some (outbufFlush b)

/-- What a call passes: a text of `OUTBUF_SIZE` bytes or more is dropped. -/
def OutbufCall.data : OutbufCall → List Byte
  | .outbufWrite data => data
  | .outbufPrintf text => if outbufSize ≤ text.length then [] else text
  | .outbufFlush => []

/-- The buffer under any sequence of calls, with the data passed so far. -/
def outbufSystem : System (Outbuf × List Byte) OutbufCall where
  init s := s = (outbufInit, [])
  step s call s' := outbufCall s.1 call = some s'.1 ∧ s'.2 = s.2 ++ call.data

end Kxo
