import Kxo.Spec.Client
import Kxo.Spec.Coro

/-!
# Kxo — the client's tasks (`user/xo-user.c` on `user/coro.c`)

`main`'s loop and the three coroutines it starts, on the scheduler. A step of the client is one call
of `coro.c`, one pass of `co_run`'s loop, or a piece of a task's body up to the next thing that it
learns from outside; the driver's steps come between any two of these. The stacks can be allocated.
-/

namespace Kxo

/-! ## The arguments -/

/-- The pointers that `main` passes on. -/
structure ClientPtrs where
  chan : U64
  tobj : U64
  deviceFd : U64
  maxFd : U64

def taskPrintNowFn : Nat := 0

def taskIoFn : Nat := 1

def taskTabFn : Nat := 2

/-- Where `main` is in a round of its loop. -/
inductive MainPc where
  | startPrintNow
  | startIo
  | startTab
  | run
  | flush

/-- Where a task is in its body. -/
inductive TaskPc where
  | printNow
  | select
  | read
  | stopMessage
  | send
  | recv
  | updateTab (ptr : U64)
  | ret

/-- A task begins with its arguments; nothing where one is not what it is used as. -/
def taskEntry (p : ClientPtrs) (co : Coroutine Unit) : Option TaskPc :=
  if co.func = taskPrintNowFn then some .printNow
  else if co.func = taskIoFn then
    if co.argv 0 = p.chan ∧ co.argv 1 = p.tobj ∧ co.argv 2 = p.deviceFd ∧ co.argv 3 = p.maxFd then
      some .select
    else none
  else if co.argv 0 = p.chan then some .recv
  else none

/-! ## The steps of the client -/

section Steps

variable {σ : Type}

/-- The scheduler, where `main` and the tasks are, and the rest of the client and the driver. -/
structure Tasks (σ : Type) where
  sched : Sched Unit
  main : MainPc
  pc : Slot → TaskPc
  watch : Watch σ

/-- Calls to `tui.c`. -/
def draw (calls : List TuiCall) (w : Watch σ) : Option (Watch σ) := do
  let (tui, out) ← tuiCalls w.tui calls
  let outbuf ← outbufCalls w.outbuf out
  return { w with tui, outbuf, calls := w.calls ++ calls }

def mainStep (p : ClientPtrs) (s : Tasks σ) : Option (Tasks σ) :=
  match s.main with
  | .startPrintNow =>
      if s.watch.client.endAttr then none
      else do
        let sched ← coStep s.sched (.start true taskPrintNowFn [])
        return { s with sched, main := .startIo }
  | .startIo => do
      let sched ← coStep s.sched (.start true taskIoFn [p.chan, p.tobj, p.deviceFd, p.maxFd])
      return { s with sched, main := .startTab }
  | .startTab => do
      let sched ← coStep s.sched (.start true taskTabFn [p.chan])
      return { s with sched, main := .run }
  | .run => do
      let sched ← coStep s.sched .run
      return { s with sched, main := .flush }
  | .flush => do
      let watch ← draw [.outbufFlush] s.watch
      return { s with watch, main := .startPrintNow }

/-- Where `co_chan_send` leaves its caller: in its loop as long as the channel is full. -/
def afterSend (c : CoChan) : TaskPc := if c.cap ≤ c.count then .send else .ret

/-- Where `co_chan_recv` leaves its caller: in its loop as long as the channel is empty. -/
def afterRecv (c : CoChan) : TaskPc :=
  if c.count = 0 then .recv else .updateTab (ofLeBytes 64 c.front)

/-- A piece of the body of the task in the slot `co`; `input` has what it learns from outside. -/
def taskStep (p : ClientPtrs) (input : RoundInput) (co : Slot) (s : Tasks σ) :
    Option (Tasks σ) :=
  let goTo (pc : TaskPc) : Slot → TaskPc := Function.update s.pc co pc
  let c := s.watch.client
  match s.pc co with
  | .printNow => do
      let watch ← draw (taskPrintNow input) s.watch
      return { s with watch, pc := goTo .ret }
  | .select =>
      match input.ready with
      | .stdin opened key =>
          let client := listenKeyboardHandler opened key c
          some { s with watch := { s.watch with client }, pc := goTo .stopMessage }
      | .device => some { s with pc := goTo (if c.readAttr then .read else .stopMessage) }
  | .read =>
      let device := s.watch.driver.device
      let bytes := device.rxFifo.take recordSize
      if bytes.length = recordSize then do
        let watch ← draw [.updateTable (recordOf bytes)] s.watch
        let driver := { watch.driver with device := kxoRead device recordSize }
        let client := { c with tlb := some (recordOf bytes) }
        return { s with watch := { watch with driver, client }, pc := goTo .stopMessage }
      else none
  | .stopMessage => do
      let watch ← draw [.stopMessage (!c.readAttr)] s.watch
      return { s with watch, pc := goTo .send }
  | .send => do
      let sched ← coStep s.sched (.send () (leBytes 8 p.tobj))
      return { s with sched, pc := goTo (afterSend (s.sched.chans ())) }
  | .recv => do
      let sched ← coStep s.sched (.recv ())
      return { s with sched, pc := goTo (afterRecv (s.sched.chans ())) }
  | .updateTab ptr =>
      if c.readAttr = true ∧ ptr ≠ p.tobj then none
      else do
        let calls ← taskTab input c
        let watch ← draw calls s.watch
        return { s with watch, pc := goTo .ret }
  | .ret => do
      let sched ← coStep s.sched .ret
      return { s with sched }

/-- The next step of the client, `none` where it has no behaviour or has left its loop. -/
def clientStep (p : ClientPtrs) (input : RoundInput) (s : Tasks σ) : Option (Tasks σ) :=
  match s.sched.control with
  | .main => mainStep p s
  | .running co =>
      let resume (pc : TaskPc) : Option (Tasks σ) := do
        let sched ← coStep s.sched .resume
        return { s with sched, pc := Function.update s.pc co pc }
      match (s.sched.pool co).pc with
      | .entry => do resume (← taskEntry p (s.sched.pool co))
      | .user => taskStep p input co s
      | .send ch _ => resume (afterSend (s.sched.chans ch))
      | .recv ch => resume (afterRecv (s.sched.chans ch))
  | _ => do
      let sched ← coStep s.sched .sched
      return { s with sched }

/-- The client alone with the driver, step by step, from the start of its loop on. -/
def taskSystem (A : Agents σ) (p : ClientPtrs) : System (Tasks σ) WatchEvent where
  init s := s.sched = coInit (fun _ => 8) (fun _ => 0x10) ∧ s.main = .startPrintNow ∧
    (watchSystem A).init s.watch
  step s e s' :=
    match e with
    | .driver e => (∀ count, e ≠ .read count) ∧
        ∃ driver, (driverSystem A).step s.watch.driver e driver ∧
          s' = { s with watch := { s.watch with driver } }
    | .round input => (input.ready = .device → s.watch.driver.device.rxFifo ≠ []) ∧
        clientStep p input s = some s'

end Steps

end Kxo
