import Kxo.Coro.Arguments
import Kxo.Coro.Channels

/-!
# Kxo — running coroutines step by step (`user/coro.c`)

What a known scheduler does next. `SchedAt` says all that matters of it: whose turn it is, the run
queue in order, the job in each slot, and what each channel holds, no one waiting on any. There is
one rule a step, and a program that never blocks is followed by them from its first `co_start` to
the return of `co_run`.

Each rule has the form of a triple: from `SchedAt` before it gives the state after the step, and
`SchedAt` of that state.

* **`start`**, **`run`** — the main program;
* **`dispatch`**, **`reap`**, **`stop`** — `co_run`: the next coroutine, the end of one, and the
  end;
* **`call`**, **`ret`**, **`send`**, **`recv`** — the coroutine that runs.
-/

namespace Kxo

variable {χ : Type}

/-- What a slot in use is at. -/
structure Job (χ : Type) where
  state : CoState
  pc : Pc χ
  func : Nat
  args : List U64

/-- A slot holds a job, or is free. -/
structure HoldsJob (c : Coroutine χ) (j : Job χ) : Prop where
  state : c.state = j.state
  pc : c.pc = j.pc
  func : c.func = j.func
  argv : ∀ i, i < j.args.length → i < coMaxArgs → c.argv i = j.args.getD i 0
  stack : c.stack ≠ .mapFailed

/-- What a slot holds; no `mmap` of it has failed. -/
def Holds (c : Coroutine χ) : Option (Job χ) → Prop
  | none => c.state = .free ∧ c.stack ≠ .mapFailed
  | some j => HoldsJob c j

/-- A channel of a size and capacity holds the elements, oldest first, and no one waits on it. -/
structure ChanAt (elemSize cap : Nat) (elems : List (List Byte)) (c : CoChan) : Prop where
  size : c.elemSize = elemSize
  cap : c.cap = cap
  ring : c.ring.WellFormed
  contents : c.ring.contents = elems
  recvWaiter : c.recvWaiter = none
  sendWaiter : c.sendWaiter = none

/-- The channel counts what it holds. -/
theorem ChanAt.count_eq {elemSize cap : Nat} {elems : List (List Byte)} {c : CoChan}
    (h : ChanAt elemSize cap elems c) : c.count = elems.length := by
  have hlen := congrArg List.length h.contents
  rwa [Ring.contents, List.length_map, List.length_range] at hlen

/-- The state of the scheduler. -/
structure SchedAt (elemSize cap : χ → Nat) (turn : Control) (queue : List Slot)
    (jobs : Slot → Option (Job χ)) (elems : χ → List (List Byte)) (s : Sched χ) : Prop where
  control : s.control = turn
  queue : s.queue.Represents queue
  jobs : ∀ co, Holds (s.pool co) (jobs co)
  chans : ∀ ch, ChanAt (elemSize ch) (cap ch) (elems ch) (s.chans ch)

/-- `co_start` takes the first free slot. -/
theorem freeSlot_eq {s : Sched χ} {co : Slot} (hfree : (s.pool co).state = .free)
    (hbefore : ∀ i < co, (s.pool i).state ≠ .free) : freeSlot s = some co := by
  rw [freeSlot, List.find?_eq_some_iff_getElem]
  refine ⟨by simpa using hfree, co, by simp, by simp, fun i hi => ?_⟩
  simpa using hbefore ⟨i, Nat.lt_trans hi co.isLt⟩ hi

namespace SchedAt

variable {elemSize cap : χ → Nat} {co : Slot} {queue : List Slot} {jobs : Slot → Option (Job χ)}
  {elems : χ → List (List Byte)} {s : Sched χ} {j : Job χ} {turn : Control}

/-- A slot with a job. -/
theorem holds (h : SchedAt elemSize cap turn queue jobs elems s) (hj : jobs co = some j) :
    HoldsJob (s.pool co) j := by
  have hco := h.jobs co
  rwa [hj] at hco

/-- One slot is given another job, or none. -/
theorem update (h : SchedAt elemSize cap turn queue jobs elems s) {c : Coroutine χ}
    {j : Option (Job χ)} (hc : Holds c j) (i : Slot) :
    Holds (Function.update s.pool co c i) (Function.update jobs co j i) := by
  rcases eq_or_ne i co with rfl | hne
  · rwa [Function.update_self, Function.update_self]
  · rw [Function.update_of_ne hne, Function.update_of_ne hne]
    exact h.jobs i

/-- One slot is given another job. -/
theorem holds_update (h : SchedAt elemSize cap turn queue jobs elems s) {c : Coroutine χ}
    (hc : HoldsJob c j) (i : Slot) :
    Holds (Function.update s.pool co c i) (Function.update jobs co (some j) i) :=
  h.update (j := some j) hc i

/-- A step that stays in its function leaves its job as it is. -/
theorem jobs_setPc (h : SchedAt elemSize cap turn queue jobs elems s) (hj : jobs co = some j)
    (hpc : j.pc = .user) (i : Slot) : Holds ((setPc s co .user).pool i) (jobs i) := by
  have hco := h.holds hj
  have hgo : HoldsJob { s.pool co with pc := .user } j :=
    ⟨hco.state, hpc.symm, hco.func, hco.argv, hco.stack⟩
  have hi : Holds ((setPc s co .user).pool i) (Function.update jobs co (some j) i) :=
    h.holds_update hgo i
  rwa [← hj, Function.update_eq_self] at hi

/-! ## The main program

The rules while nothing runs. -/

/-- `co_start` takes the first slot without a job and queues it. -/
theorem start [DecidableEq χ] (h : SchedAt elemSize cap .main queue jobs elems s) (fn : Nat)
    (args : List U64) (hfree : jobs co = none) (hbefore : ∀ i < co, ∃ j, jobs i = some j ∧
      j.state = .ready) (hqueue : co ∉ queue) :
    ∃ s', coStep s (.start true fn args) = some s' ∧
      SchedAt elemSize cap .main (queue ++ [co])
        (Function.update jobs co (some ⟨.ready, .entry, fn, args⟩)) elems s' := by
  -- `co_start` takes the first free slot, and all before this one are taken
  have hslot : freeSlot s = some co := by
    have hco := h.jobs co
    rw [hfree] at hco
    refine freeSlot_eq hco.1 fun i hi => ?_
    obtain ⟨j, hj, hready⟩ := hbefore i hi
    rw [(h.holds hj).state, hready]
    exact CoState.noConfusion
  -- its stack is not `MAP_FAILED`, so the start does not fault
  have husable : (s.pool co).stack ≠ .mapFailed := by
    have hco := h.jobs co
    rw [hfree] at hco
    exact hco.2
  have hstart : coStart true fn args s = some (coStarted true fn args s) := by
    refine coStart_eq_some_iff.mpr ⟨fun i hi => ?_, rfl⟩
    obtain rfl := Option.some.inj (hslot.symm.trans hi)
    exact husable
  obtain ⟨hq, hcontrol, -, c, hfunc, -, hargv, hpc, hstate, hstack, hpool⟩ :=
    @coStarted_started _ s co true fn args hslot fun _ => rfl
  refine ⟨coStarted true fn args s, (if_pos h.control).trans hstart, hcontrol.trans h.control, ?_,
    ?_, fun ch => ?_⟩
  · rw [hq]
    exact h.queue.enqueue hqueue
  · rw [hpool]
    refine h.holds_update ⟨hstate, hpc, hfunc, fun k hk hmax => ?_, ?_⟩
    · rw [hargv, copyArgs, if_pos ⟨hk, hmax⟩]
    · rw [hstack]
      split
      · exact StackPtr.noConfusion
      · exact husable
  · rw [(Aside.start true fn args s).chans]
    exact h.chans ch

/-- `co_run` begins. -/
theorem run [DecidableEq χ] (h : SchedAt elemSize cap .main queue jobs elems s) :
    ∃ s', coStep s .run = some s' ∧ SchedAt elemSize cap .loop queue jobs elems s' :=
  ⟨_, if_pos h.control, rfl, h.queue, h.jobs, h.chans⟩

/-! ## `co_run`

The rules of the loop. -/

/-- In its loop the only step is the loop's. -/
theorem coStep_loop [DecidableEq χ] (h : SchedAt elemSize cap .loop queue jobs elems s) :
    coStep s .sched = some (coRunStep s) := by
  simp only [coStep, h.control]

/-- The first of the queue runs. -/
theorem dispatch [DecidableEq χ] (h : SchedAt elemSize cap .loop (co :: queue) jobs elems s)
    (hj : jobs co = some j) :
    ∃ s', coStep s .sched = some s' ∧ SchedAt elemSize cap (.running co) queue
      (Function.update jobs co (some { j with state := .running })) elems s' := by
  obtain ⟨hfirst, hrest⟩ := h.queue.dequeue_cons
  have hco := h.holds hj
  refine ⟨_, h.coStep_loop, ?_⟩
  unfold coRunStep
  rw [h.control]
  generalize s.queue.dequeue = d at hfirst hrest
  obtain ⟨first, rest⟩ := d
  obtain rfl : first = some co := hfirst
  exact ⟨rfl, hrest, h.holds_update ⟨rfl, hco.pc, hco.func, hco.argv, hco.stack⟩, h.chans⟩

/-- With an empty queue `co_run` returns. -/
theorem stop [DecidableEq χ] (h : SchedAt elemSize cap .loop [] jobs elems s) :
    ∃ s', coStep s .sched = some s' ∧ SchedAt elemSize cap .main [] jobs elems s' := by
  refine ⟨_, h.coStep_loop, ?_⟩
  unfold coRunStep
  rw [h.control]
  have hnone := h.queue.dequeue_nil
  rw [hnone]
  exact ⟨rfl, h.queue, h.jobs, h.chans⟩

/-- A coroutine that is done leaves its slot free. -/
theorem reap [DecidableEq χ] (h : SchedAt elemSize cap (.returned co) queue jobs elems s)
    (hj : jobs co = some j) (hdone : j.state = .done) :
    ∃ s', coStep s .sched = some s' ∧
      SchedAt elemSize cap .loop queue (Function.update jobs co none) elems s' := by
  have hstate : (s.pool co).state = .done := (h.holds hj).state.trans hdone
  refine ⟨coRunStep s, by simp only [coStep, h.control], ?_⟩
  unfold coRunStep
  rw [h.control]
  simp only [if_pos hstate]
  exact ⟨rfl, h.queue, h.update (j := none) ⟨rfl, (h.holds hj).stack⟩, h.chans⟩

/-! ## The running coroutine

The rules of the code that a coroutine runs. `send` and `recv` ask for room and for an element, so
no rule blocks. -/

/-- A call that the running coroutine's code makes. -/
theorem userCall_eq (h : SchedAt elemSize cap (.running co) queue jobs elems s)
    (hj : jobs co = some j) (hpc : j.pc = .user) (call : Slot → Option (Sched χ)) :
    userCall s call = call co := by
  simp only [userCall, h.control, (h.holds hj).pc, hpc, Pc.isUser, if_true]

/-- `co_proxy` calls the coroutine's function. -/
theorem call [DecidableEq χ] (h : SchedAt elemSize cap (.running co) queue jobs elems s)
    (hj : jobs co = some j) (hpc : j.pc = .entry) :
    ∃ s', coStep s .resume = some s' ∧ SchedAt elemSize cap (.running co) queue
      (Function.update jobs co (some { j with pc := .user })) elems s' := by
  have hco := h.holds hj
  have hentry : (s.pool co).pc = .entry := hco.pc.trans hpc
  refine ⟨coProxyCall co s, ?_, h.control, h.queue, ?_, h.chans⟩
  · simp only [coStep, coResume, h.control, hentry]
  · exact h.holds_update ⟨hco.state, rfl, hco.func, hco.argv, hco.stack⟩

/-- The function returns, and the coroutine is done. -/
theorem ret [DecidableEq χ] (h : SchedAt elemSize cap (.running co) queue jobs elems s)
    (hj : jobs co = some j) (hpc : j.pc = .user) :
    ∃ s', coStep s .ret = some s' ∧ SchedAt elemSize cap (.returned co) queue
      (Function.update jobs co (some { j with state := .done })) elems s' := by
  have hco := h.holds hj
  have hcontrol : (setState s co .done).control = .running co := h.control
  refine ⟨coProxyReturn co s, h.userCall_eq hj hpc _, ?_⟩
  simp only [coProxyReturn, switchToMain, hcontrol]
  exact ⟨rfl, h.queue, h.holds_update ⟨rfl, hco.pc, hco.func, hco.argv, hco.stack⟩, h.chans⟩

/-- A channel with room takes an element. -/
theorem send [DecidableEq χ] (h : SchedAt elemSize cap (.running co) queue jobs elems s)
    (hj : jobs co = some j) (hpc : j.pc = .user) {ch : χ} {data : List Byte}
    (hlen : data.length = elemSize ch) (hroom : (elems ch).length < cap ch) :
    ∃ s', coStep s (.send ch data) = some s' ∧ SchedAt elemSize cap (.running co) queue jobs
      (Function.update elems ch (elems ch ++ [data])) s' := by
  have hc := h.chans ch
  have hsize : data.length = (s.chans ch).elemSize := hlen.trans hc.size.symm
  have hring : (s.chans ch).count < (s.chans ch).cap := by rwa [hc.count_eq, hc.cap]
  have hput := CoChan.ring_put hsize
  have hnone : ((sendElem s ch data).chans ch).recvWaiter = none := by
    rw [show (sendElem s ch data).chans ch = (s.chans ch).put data from Function.update_self _ _ _]
    exact hc.recvWaiter
  refine ⟨coChanSend co ch data s, (if_pos hsize).trans (h.userCall_eq hj hpc _), ?_⟩
  rw [coChanSend_room hring, wakeReceiver_none hnone]
  refine ⟨h.control, h.queue, h.jobs_setPc hj hpc, fun ch' => ?_⟩
  show ChanAt _ _ _ (Function.update s.chans ch ((s.chans ch).put data) ch')
  rcases eq_or_ne ch' ch with rfl | hne
  · rw [Function.update_self, Function.update_self]
    refine ⟨hc.size, hc.cap, ?_, ?_, hc.recvWaiter, hc.sendWaiter⟩
    · rw [hput]
      exact hc.ring.push hring data
    · rw [hput, hc.ring.contents_push hring, hc.contents]
  · rw [Function.update_of_ne hne, Function.update_of_ne hne]
    exact h.chans ch'

/-- The oldest element of a channel is taken. -/
theorem recv [DecidableEq χ] (h : SchedAt elemSize cap (.running co) queue jobs elems s)
    (hj : jobs co = some j) (hpc : j.pc = .user) {ch : χ} {data : List Byte}
    {more : List (List Byte)} (helems : elems ch = data :: more) :
    (s.chans ch).front = data ∧ (s.chans ch).count ≠ 0 ∧ ∃ s', coStep s (.recv ch) = some s' ∧
      SchedAt elemSize cap (.running co) queue jobs (Function.update elems ch more) s' := by
  have hc := h.chans ch
  have hsome : 0 < (s.chans ch).ring.count := by
    show 0 < (s.chans ch).count
    rw [hc.count_eq, helems]
    exact Nat.succ_pos _
  have hne : (s.chans ch).count ≠ 0 := Nat.pos_iff_ne_zero.mp hsome
  have hpop := hc.contents.symm.trans (hc.ring.contents_pop hsome)
  rw [helems] at hpop
  obtain ⟨hfront, hmore⟩ := List.cons.inj hpop
  have hnone : ((recvElem s ch).chans ch).sendWaiter = none := by
    rw [show (recvElem s ch).chans ch = (s.chans ch).advance from Function.update_self _ _ _]
    exact hc.sendWaiter
  refine ⟨hfront.symm, hne, coChanRecv co ch s, h.userCall_eq hj hpc _, ?_⟩
  rw [coChanRecv_some hne, wakeSender_none hnone]
  refine ⟨h.control, h.queue, h.jobs_setPc hj hpc, fun ch' => ?_⟩
  show ChanAt _ _ _ (Function.update s.chans ch (s.chans ch).advance ch')
  rcases eq_or_ne ch' ch with rfl | hne
  · rw [Function.update_self, Function.update_self]
    exact ⟨hc.size, hc.cap, hc.ring.pop hsome, hmore.symm, hc.recvWaiter, hc.sendWaiter⟩
  · rw [Function.update_of_ne hne, Function.update_of_ne hne]
    exact h.chans ch'

end SchedAt

end Kxo
