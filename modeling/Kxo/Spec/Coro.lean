import Kxo.Lib.Bytes
import Kxo.Lib.LinkedQueue
import Kxo.Spec.Device
import Mathlib.Data.List.FinRange

/-!
# Kxo — coroutines (`user/coro.c`)

The pool of coroutines, the run queue and the channels. Only one context runs at a time: `Control`
says which, and `Pc` where the others go on when they are switched to. What the functions of the
coroutines do between two calls of this file is left open, and so is the order of their calls; a
channel is addressed by any type of names, and `co_chan_release` is left out.

A stack is its pointer alone. Where the C writes through a pointer that is no stack, in `co_start`
on a slot whose `mmap` failed before, there is no next state.
-/

namespace Kxo

def coMax : Nat := 16

def coMaxArgs : Nat := 8

/-- A pointer into `sched.pool`. -/
abbrev Slot := Fin coMax

inductive CoState where
  | free
  | ready
  | running
  | blocked
  | done
  deriving DecidableEq, Repr

/-- `stack.ptr`: `NULL`, `MAP_FAILED`, or the top of mapped memory. -/
inductive StackPtr where
  | null
  | mapFailed
  | mapped
  deriving DecidableEq, Repr

/-- Where a coroutine goes on when it is switched to: at `co_proxy`, in its function, or in the loop
of `co_chan_send` or `co_chan_recv`. -/
inductive Pc (χ : Type) where
  | entry
  | user
  | send (ch : χ) (data : List Byte)
  | recv (ch : χ)

def Pc.isUser {χ : Type} : Pc χ → Bool
  | .user => true
  | _ => false

/-- `struct coroutine`; its link is one of the run queue's. -/
structure Coroutine (χ : Type) where
  state : CoState
  stack : StackPtr
  func : Nat
  argc : Nat
  argv : Nat → U64
  pc : Pc χ

/-! ## Channels -/

/-- `struct co_chan`. -/
structure CoChan where
  buf : Nat → Byte
  elemSize : Nat
  cap : Nat
  head : Nat
  tail : Nat
  count : Nat
  recvWaiter : Option Slot
  sendWaiter : Option Slot

def coChanMake (elemSize cap : Nat) : CoChan := ⟨fun _ => 0, elemSize, cap, 0, 0, 0, none, none⟩

namespace CoChan

/-- Copy an element to the tail. -/
def put (c : CoChan) (data : List Byte) : CoChan :=
  { c with
    buf := memcpy c.buf (c.tail * c.elemSize) data
    tail := (c.tail + 1) % c.cap
    count := c.count + 1 }

/-- The element copied from the head. -/
def front (c : CoChan) : List Byte := bytesAt c.buf (c.head * c.elemSize) c.elemSize

/-- Move the head past its element. -/
def advance (c : CoChan) : CoChan :=
  { c with head := (c.head + 1) % c.cap, count := c.count - 1 }

end CoChan

/-! ## The scheduler -/

/-- Whose stack the processor is on: the main program's outside `co_run`; `co_run`'s, at the top of
its loop or after the switch to a coroutine has returned; or a coroutine's. -/
inductive Control where
  | main
  | loop
  | returned (co : Slot)
  | running (co : Slot)
  deriving DecidableEq, Repr

/-- History of a slot: whether a coroutine was started in it, whether its function has returned, and
whether control has come back to the scheduler since. -/
inductive Occupancy where
  | vacant
  | live
  | leaving
  deriving DecidableEq, Repr

/-- A call of a coroutine's function. -/
structure Invocation where
  func : Nat
  argc : Nat
  argv : Nat → U64

/-- `sched` and the channels. The last six fields are history variables, read by no step: when each
slot last became READY, by a clock that counts these moments; the use of the slots; the elements
passed to completed sends and copied out by completed receives of each channel, oldest first; and
the calls of coroutines' functions, oldest first. -/
structure Sched (χ : Type) where
  pool : Slot → Coroutine χ
  current : Option Slot
  queue : LinkedQueue Slot
  chans : χ → CoChan
  control : Control
  clock : Nat
  readyAt : Slot → Nat
  occupancy : Slot → Occupancy
  sent : χ → List (List Byte)
  received : χ → List (List Byte)
  calls : List Invocation

section Operations

variable {χ : Type}

def setCo (s : Sched χ) (co : Slot) (c : Coroutine χ) : Sched χ :=
  { s with pool := Function.update s.pool co c }

def setState (s : Sched χ) (co : Slot) (state : CoState) : Sched χ :=
  setCo s co { s.pool co with state }

def setPc (s : Sched χ) (co : Slot) (pc : Pc χ) : Sched χ := setCo s co { s.pool co with pc }

def enqueue (s : Sched χ) (co : Slot) : Sched χ := { s with queue := s.queue.enqueue co }

/-- `co->state = CO_READY`. -/
def markReady (s : Sched χ) (co : Slot) : Sched χ :=
  { setState s co .ready with
    readyAt := Function.update s.readyAt co s.clock
    clock := s.clock + 1 }

/-- `co_switch` from a coroutine to the scheduler. -/
def switchToMain (s : Sched χ) : Sched χ :=
  match s.control with
  | .running co => { s with control := .returned co }
  | _ => s

/-- The search of `co_start` for a free slot. -/
def freeSlot (s : Sched χ) : Option Slot :=
  (List.finRange coMax).find? fun co => (s.pool co).state = .free

/-- The arguments copied into a slot. -/
def copyArgs (argv : Nat → U64) (args : List U64) : Nat → U64 := fun i =>
  if i < args.length ∧ i < coMaxArgs then args.getD i 0 else argv i

/-- `co_start` once it has found the slot `co`, whose stack is not `MAP_FAILED`; `mmap` says whether
the `mmap` of `co_stack_alloc`, if it is called, succeeds. -/
def startIn (mmap : Bool) (fn : Nat) (args : List U64) (co : Slot) (s : Sched χ) : Sched χ :=
  let c := { s.pool co with
    func := fn, argc := args.length, argv := copyArgs (s.pool co).argv args }
  if c.stack = .null ∧ mmap = false then setCo s co { c with stack := .mapFailed }
  else
    let c := { c with stack := if c.stack = .null then .mapped else c.stack, pc := .entry }
    let s := { setCo s co c with occupancy := Function.update s.occupancy co .live }
    enqueue (markReady s co) co

/-- `co_start`. A slot whose `mmap` failed before keeps `MAP_FAILED`, which is not `NULL`: nothing
is allocated, and `co_stack_init` writes below that address, where nothing is mapped. -/
def coStart (mmap : Bool) (fn : Nat) (args : List U64) (s : Sched χ) : Option (Sched χ) :=
  match freeSlot s with
  | none => some s
  | some co =>
      if (s.pool co).stack = .mapFailed then none else some (startIn mmap fn args co s)

def coYield (s : Sched χ) : Sched χ :=
  match s.current with
  | none => s
  | some co =>
      let s := if (s.pool co).state = .running then markReady s co else s
      switchToMain (enqueue s co)

/-- `co_proxy` calls the function of the coroutine. -/
def coProxyCall (co : Slot) (s : Sched χ) : Sched χ :=
  let c := s.pool co
  { setPc s co .user with calls := s.calls ++ [⟨c.func, c.argc, c.argv⟩] }

/-- `co_proxy` after the function has returned. -/
def coProxyReturn (co : Slot) (s : Sched χ) : Sched χ :=
  let s := { setState s co .done with occupancy := Function.update s.occupancy co .leaving }
  switchToMain s

/-- One round of the loop of `co_run`, from its top or from the return of `co_switch`. -/
def coRunStep (s : Sched χ) : Sched χ :=
  match s.control with
  | .loop =>
      match s.queue.dequeue with
      | (none, queue) => { s with queue, current := none, control := .main }
      | (some co, queue) =>
          setState { s with queue, current := some co, control := .running co } co .running
  | .returned co =>
      let s := if (s.pool co).state = .done then setState s co .free else s
      { s with
        control := .loop
        occupancy :=
          if s.occupancy co = .leaving then Function.update s.occupancy co .vacant
          else s.occupancy }
  | _ => s

section Channel

variable [DecidableEq χ]

def setChan (s : Sched χ) (ch : χ) (c : CoChan) : Sched χ :=
  { s with chans := Function.update s.chans ch c }

/-- `sched.current->state = CO_BLOCKED`, and the switch. -/
def blockCurrent (s : Sched χ) : Sched χ :=
  match s.current with
  | none => s
  | some co => switchToMain (setState s co .blocked)

/-- Wake the blocked receiver. -/
def wakeReceiver (s : Sched χ) (ch : χ) : Sched χ :=
  match (s.chans ch).recvWaiter with
  | none => s
  | some w =>
      let s := enqueue (markReady s w) w
      setChan s ch { s.chans ch with recvWaiter := none }

/-- Wake the blocked sender. -/
def wakeSender (s : Sched χ) (ch : χ) : Sched χ :=
  match (s.chans ch).sendWaiter with
  | none => s
  | some w =>
      let s := enqueue (markReady s w) w
      setChan s ch { s.chans ch with sendWaiter := none }

/-- `co_chan_send` of the coroutine `co`, from the test of its loop on. -/
def coChanSend (co : Slot) (ch : χ) (data : List Byte) (s : Sched χ) : Sched χ :=
  let c := s.chans ch
  if c.cap ≤ c.count then
    blockCurrent (setPc (setChan s ch { c with sendWaiter := s.current }) co (.send ch data))
  else
    let s := { setChan s ch (c.put data) with
      sent := Function.update s.sent ch (s.sent ch ++ [data]) }
    setPc (wakeReceiver s ch) co .user

/-- `co_chan_recv` of the coroutine `co`, from the test of its loop on. -/
def coChanRecv (co : Slot) (ch : χ) (s : Sched χ) : Sched χ :=
  let c := s.chans ch
  if c.count = 0 then
    blockCurrent (setPc (setChan s ch { c with recvWaiter := s.current }) co (.recv ch))
  else
    let s := { setChan s ch c.advance with
      received := Function.update s.received ch (s.received ch ++ [c.front]) }
    setPc (wakeSender s ch) co .user

end Channel

end Operations

/-! ## Steps -/

/-- A call of the main program or of the running coroutine, a coroutine going on after a switch to
it, or a round of `co_run`. -/
inductive CoEvent (χ : Type) where
  | start (mmap : Bool) (fn : Nat) (args : List U64)
  | yield
  | send (ch : χ) (data : List Byte)
  | recv (ch : χ)
  | ret
  | resume
  | run
  | sched

section Steps

variable {χ : Type}

/-- A call made by the function of the running coroutine. -/
def userCall (s : Sched χ) (call : Slot → Option (Sched χ)) : Option (Sched χ) :=
  match s.control with
  | .running co => if (s.pool co).pc.isUser then call co else none
  | _ => none

variable [DecidableEq χ]

/-- A coroutine goes on where it was switched away from. -/
def coResume (s : Sched χ) : Option (Sched χ) :=
  match s.control with
  | .running co =>
      match (s.pool co).pc with
      | .entry => some (coProxyCall co s)
      | .user => none
      | .send ch data => some (coChanSend co ch data s)
      | .recv ch => some (coChanRecv co ch s)
  | _ => none

/-- The state after an event, `none` where it cannot happen or the processor faults. An element has
the size of its channel's. -/
def coStep (s : Sched χ) : CoEvent χ → Option (Sched χ)
  | .start mmap fn args =>
      if s.control = .main then coStart mmap fn args s
      else userCall s fun _ => coStart mmap fn args s
  | .yield => userCall s fun _ => some (coYield s)
  | .send ch data =>
      if data.length = (s.chans ch).elemSize then
        userCall s fun co => some (coChanSend co ch data s)
      else none
  | .recv ch => userCall s fun co => some (coChanRecv co ch s)
  | .ret => userCall s fun co => some (coProxyReturn co s)
  | .resume => coResume s
  | .run => if s.control = .main then some { s with control := .loop } else none
  | .sched =>
      match s.control with
      | .loop => some (coRunStep s)
      | .returned _ => some (coRunStep s)
      | _ => none

/-- The state after several events. -/
def coSteps (s : Sched χ) : List (CoEvent χ) → Option (Sched χ)
  | [] => some s
  | e :: es => (coStep s e).bind fun s => coSteps s es

/-- After `co_sched_init`, with a channel of each name made. -/
def coInit (elemSize cap : χ → Nat) : Sched χ where
  pool _ := ⟨.free, .null, 0, 0, fun _ => 0, .entry⟩
  current := none
  queue := .empty
  chans ch := coChanMake (elemSize ch) (cap ch)
  control := .main
  clock := 0
  readyAt _ := 0
  occupancy _ := .vacant
  sent _ := []
  received _ := []
  calls := []

def coSystem (elemSize cap : χ → Nat) : System (Sched χ) (CoEvent χ) where
  init s := s = coInit elemSize cap
  step s e s' := coStep s e = some s'

end Steps

end Kxo
