import Kxo.Coro.Stacks
import Mathlib.Data.List.Forall2

/-!
# Kxo — arguments of coroutines (`user/coro.c`)

A `co_start` that takes a slot leaves its function and arguments there, and `co_proxy` passes them
on when the slot comes up in the run queue. In between nobody changes them, so the calls made and
the calls still owed are the starts, each once and in their order. Of the arguments only
`CO_MAX_ARGS` are copied, while the count is passed on as it was given.

## The architecture

* **`owed`**, **`StartsOwed`** — the calls made so far, and behind them those of the coroutines that
  stand at `co_proxy`, in the order of the run queue. The invariant: they are the starts.
* **`CoMove.entries`** — what each move of the scheduler does to that order: nothing, but for a
  start, which goes to the end, and a call, which goes from the front of the queue to the calls
  made.
* **`KeepsArgs`** — what every other operation keeps: the arguments left in the slots.
* **`StartsOwed.call`**, **`StartsOwed.start`**, **`StartsOwed.step`** — the invariant under each.
* **`received_iff`** — when `co_run` returns nothing is owed, so every start was received, as far as
  arguments are copied: exactly if no start had more than `CO_MAX_ARGS`.
-/

namespace Kxo

variable {χ : Type}

/-- What a `co_start` that takes a slot was given. -/
structure Start where
  func : Nat
  args : List U64

/-- `argv[k]` as the function of a coroutine finds it, if the array reaches so far. -/
def Invocation.arg (call : Invocation) (k : Nat) : Option U64 :=
  if k < coMaxArgs then some (call.argv k) else none

/-- The call of the function that was started, with the arguments it was started with. -/
structure Received (start : Start) (call : Invocation) : Prop where
  func : call.func = start.func
  argc : call.argc = start.args.length
  argv : ∀ k, k < call.argc → call.arg k = start.args[k]?

/-- The same as far as the array `argv` goes. -/
structure Copied (start : Start) (call : Invocation) : Prop where
  func : call.func = start.func
  argc : call.argc = start.args.length
  argv : ∀ k, k < start.args.length → k < coMaxArgs → some (call.argv k) = start.args[k]?

/-- The start that an event is, if it takes a slot. -/
def startOf (s : Sched χ) : CoEvent χ → List Start
  | .start _ fn args => if (freeSlot s).isSome then [⟨fn, args⟩] else []
  | _ => []

/-- The coroutines, with the starts so far; every allocation of a stack succeeds. -/
def argSystem [DecidableEq χ] (elemSize cap : χ → Nat) :
    System (Sched χ × List Start) (CoEvent χ) where
  init s := s = (coInit elemSize cap, [])
  step s e s' := MmapSucceeds s.1 e ∧ coStep s.1 e = some s'.1 ∧ s'.2 = s.2 ++ startOf s.1 e

/-! ## Calls made and owed

A coroutine's function is called in its first run, so what is owed to a slot is the call that
`co_proxy` is still to make. -/

def Pc.isEntry : Pc χ → Bool
  | .entry => true
  | _ => false

/-- The call `co_proxy` makes for a coroutine. -/
def Coroutine.invocation (c : Coroutine χ) : Invocation := ⟨c.func, c.argc, c.argv⟩

/-- The coroutine that runs. -/
def Control.running? : Control → List Slot
  | .running co => [co]
  | _ => []

/-- Who is at `co_proxy`. -/
def atEntry (s : Sched χ) (co : Slot) : Bool := (s.pool co).pc.isEntry

/-- The calls made so far, and behind them those of the coroutines that run or are in the queue and
have not begun. -/
def owed (s : Sched χ) (queue : List Slot) : List Invocation :=
  s.calls ++ ((s.control.running? ++ queue).filter (atEntry s)).map fun co =>
    (s.pool co).invocation

/-- The starts so far are the calls made and owed, and nobody is blocked before his call. -/
structure StartsOwed (s : Sched χ) (starts : List Start) : Prop where
  copied : ∃ l, s.queue.Represents l ∧ List.Forall₂ Copied starts (owed s l)
  blocked : ∀ co, (s.pool co).state = .blocked → atEntry s co = false

/-! ## The moves of the scheduler

The order in which calls are made is that of the run queue, so the scheduler's moves are looked at
for the coroutines that have not run yet. -/

section Moves

variable {v v' : SchedView} {entry : Slot → Bool} {l : List Slot}

/-- The run queue holds the READY coroutines. -/
theorem mem_queue_iff (h : SchedInv v) (hl : v.queue.Represents l) (co : Slot) :
    co ∈ l ↔ v.state co = .ready := by
  obtain ⟨l', hl', hmem, _⟩ := h.queue
  rw [hl.unique hl', hmem]

/-- Nobody is blocked at its entry after one coroutine has changed its state, unless that one is. -/
theorem blocked_update {state : Slot → CoState} {co : Slot} {c : CoState}
    (hblocked : ∀ i, state i = .blocked → entry i = false) (hc : c = .blocked → entry co = false) :
    ∀ i, Function.update state co c i = .blocked → entry i = false := by
  intro i hi
  rcases eq_or_ne i co with rfl | hne
  · rw [Function.update_self] at hi
    exact hc hi
  · rw [Function.update_of_ne hne] at hi
    exact hblocked i hi

/-- **A move other than a start keeps the order of those who have not begun.** -/
theorem CoMove.entries (hmove : CoMove v v') (h : SchedInv v) (hl : v.queue.Represents l)
    (hfree : ∀ co, v.state co = .free → v'.state co = .free)
    (hrunning : ∀ co, v.control = .running co → entry co = false)
    (hblocked : ∀ co, v.state co = .blocked → entry co = false) :
    (∃ l', v'.queue.Represents l' ∧
      (v'.control.running? ++ l').filter entry = (v.control.running? ++ l).filter entry) ∧
    ∀ co, v'.state co = .blocked → entry co = false := by
  have hmem := mem_queue_iff h hl
  cases hmove with
  | @start co hco => exact absurd (hfree co hco) (by simp [SchedView.ready])
  | @yield co hco =>
    have hnotin : co ∉ l := fun hin => h.not_ready hco ((hmem co).mp hin)
    refine ⟨⟨l ++ [co], hl.enqueue hnotin, ?_⟩, blocked_update hblocked (by simp)⟩
    simp [hco, Control.running?, hrunning co hco]
  | @block co hco =>
    refine ⟨⟨l, hl, ?_⟩, blocked_update hblocked fun _ => hrunning co hco⟩
    simp [hco, Control.running?, hrunning co hco]
  | @ret co hco =>
    refine ⟨⟨l, hl, ?_⟩, blocked_update hblocked (by simp)⟩
    simp [hco, Control.running?, hrunning co hco]
  | @wake co hco =>
    have hnotin : co ∉ l := fun hin => by simp [(hmem co).mp hin] at hco
    refine ⟨⟨l ++ [co], hl.enqueue hnotin, ?_⟩, blocked_update hblocked (by simp)⟩
    simp [SchedView.ready, hblocked co hco]
  | run hmain =>
    refine ⟨⟨l, hl, ?_⟩, hblocked⟩
    simp [hmain, Control.running?]
  | @dispatch co hloop hco =>
    cases l with
    | nil => rw [hl.dequeue_nil] at hco; cases hco
    | cons first rest =>
      obtain ⟨hfirst, hrest⟩ := hl.dequeue_cons
      obtain rfl : co = first := Option.some.inj (hco.symm.trans hfirst)
      refine ⟨⟨rest, hrest, ?_⟩, blocked_update hblocked (by simp)⟩
      simp [hloop, Control.running?]
  | stop hloop hnone =>
    cases l with
    | nil =>
      rw [hl.dequeue_nil]
      refine ⟨⟨[], hl, ?_⟩, hblocked⟩
      simp [hloop, Control.running?]
    | cons first rest => exact absurd (hnone.symm.trans hl.dequeue_cons.1) (by simp)
  | @reap co hco hdone =>
    refine ⟨⟨l, hl, ?_⟩, blocked_update hblocked (by simp)⟩
    simp [hco, Control.running?]
  | @again co hco hdone =>
    refine ⟨⟨l, hl, ?_⟩, hblocked⟩
    simp [hco, Control.running?]

end Moves

/-! ## Steps that pass no arguments

One lemma an operation. -/

section Keep

variable {s s' s'' : Sched χ} {co : Slot}

/-- No call is made, and each slot keeps what `co_start` left in it. -/
structure KeepsArgs (s s' : Sched χ) : Prop where
  calls : s'.calls = s.calls
  invocation : ∀ i, (s'.pool i).invocation = (s.pool i).invocation
  entry : ∀ i, atEntry s' i = atEntry s i

namespace KeepsArgs

/-- Nothing happens to the slots. -/
theorem of_pool (hpool : s'.pool = s.pool) (hcalls : s'.calls = s.calls) : KeepsArgs s s' :=
  ⟨hcalls, fun i => by rw [hpool], fun i => by rw [atEntry, atEntry, hpool]⟩

/-- One operation after another. -/
theorem trans (h : KeepsArgs s s') (h' : KeepsArgs s' s'') : KeepsArgs s s'' where
  calls := h'.calls.trans h.calls
  invocation i := (h'.invocation i).trans (h.invocation i)
  entry i := (h'.entry i).trans (h.entry i)

/-- One coroutine changes, but neither its function nor its arguments, and it is at its entry before
and after or neither. -/
theorem of_update (co : Slot) {c : Coroutine χ} (hpool : s'.pool = Function.update s.pool co c)
    (hcalls : s'.calls = s.calls) (hinvocation : c.invocation = (s.pool co).invocation)
    (hentry : c.pc.isEntry = (s.pool co).pc.isEntry) : KeepsArgs s s' where
  calls := hcalls
  invocation i := by
    rw [hpool]
    rcases eq_or_ne i co with rfl | hi
    · rw [Function.update_self, hinvocation]
    · rw [Function.update_of_ne hi]
  entry i := by
    rw [atEntry, atEntry, hpool]
    rcases eq_or_ne i co with rfl | hi
    · rw [Function.update_self, hentry]
    · rw [Function.update_of_ne hi]

/-- Leaving a coroutine makes no call. -/
theorem calls_switchToMain (s : Sched χ) : (switchToMain s).calls = s.calls := by
  unfold switchToMain
  split <;> rfl

/-- `co_yield` leaves the slots' arguments. -/
theorem yield (h : SchedInv s.view) (hco : s.control = .running co) : KeepsArgs s (coYield s) := by
  rw [coYield_eq h hco]
  exact of_update co (pool_switchToMain _) (calls_switchToMain _) rfl rfl

/-- So does a coroutine's end. -/
theorem ret (co : Slot) (s : Sched χ) : KeepsArgs s (coProxyReturn co s) :=
  of_update co (pool_switchToMain _) (calls_switchToMain _) rfl rfl

/-- So does a round of `co_run`. -/
theorem loop (hloop : s.control = .loop) : KeepsArgs s (coRunStep s) := by
  unfold coRunStep
  rw [hloop]
  dsimp only
  cases s.queue.dequeue with
  | mk first queue =>
    cases first with
    | none => exact of_pool rfl rfl
    | some co => exact of_update co rfl rfl rfl rfl

/-- And what it does after a coroutine has come back. -/
theorem returned (hco : s.control = .returned co) : KeepsArgs s (coRunStep s) := by
  unfold coRunStep
  rw [hco]
  dsimp only
  split
  · exact of_update co rfl rfl rfl rfl
  · exact of_pool rfl rfl

/-- A coroutine past its entry goes on elsewhere than at its entry. -/
theorem setPc (hentry : atEntry s co = false) {pc : Pc χ} (hpc : pc.isEntry = false) :
    KeepsArgs s (setPc s co pc) :=
  of_update co rfl rfl rfl (hpc.trans hentry.symm)

section Channel

variable [DecidableEq χ] {ch : χ} {data : List Byte}

/-- A wake-up changes a state. -/
theorem wakeReceiver (s : Sched χ) (ch : χ) : KeepsArgs s (wakeReceiver s ch) := by
  cases hw : (s.chans ch).recvWaiter with
  | none =>
    rw [wakeReceiver_none hw]
    exact of_pool rfl rfl
  | some w =>
    rw [wakeReceiver_some hw]
    exact of_update w rfl rfl rfl rfl

/-- The same on the other side. -/
theorem wakeSender (s : Sched χ) (ch : χ) : KeepsArgs s (wakeSender s ch) := by
  cases hw : (s.chans ch).sendWaiter with
  | none =>
    rw [wakeSender_none hw]
    exact of_pool rfl rfl
  | some w =>
    rw [wakeSender_some hw]
    exact of_update w rfl rfl rfl rfl

/-- A call that blocks is not at `co_proxy`. -/
theorem block (hentry : atEntry s co = false) {c : CoChan} {pc : Pc χ}
    (hpc : pc.isEntry = false) : KeepsArgs s (blockOn s co ch c pc) :=
  of_update co (pool_blockOn s co ch c pc) (calls_switchToMain _) rfl (hpc.trans hentry.symm)

/-- Sending passes no arguments. -/
theorem send (hinv : SchedInv s.view) (hco : s.control = .running co)
    (hentry : atEntry s co = false) : KeepsArgs s (coChanSend co ch data s) := by
  rcases Nat.lt_or_ge (s.chans ch).count (s.chans ch).cap with hroom | hfull
  · rw [coChanSend_room hroom]
    have hwake : KeepsArgs s (Kxo.wakeReceiver (sendElem s ch data) ch) :=
      (of_pool rfl rfl : KeepsArgs s (sendElem s ch data)).trans (wakeReceiver _ ch)
    exact hwake.trans (setPc ((hwake.entry co).trans hentry) rfl)
  · rw [coChanSend_full (hinv.current co hco) hfull]
    exact block hentry rfl

/-- Nor does receiving. -/
theorem recv (hinv : SchedInv s.view) (hco : s.control = .running co)
    (hentry : atEntry s co = false) : KeepsArgs s (coChanRecv co ch s) := by
  rcases Nat.eq_zero_or_pos (s.chans ch).count with hempty | hsome
  · rw [coChanRecv_empty (hinv.current co hco) hempty]
    exact block hentry rfl
  · rw [coChanRecv_some hsome.ne']
    have hwake : KeepsArgs s (Kxo.wakeSender (recvElem s ch) ch) :=
      (of_pool rfl rfl : KeepsArgs s (recvElem s ch)).trans (wakeSender _ ch)
    exact hwake.trans (setPc ((hwake.entry co).trans hentry) rfl)

end Channel

end KeepsArgs

end Keep

/-! ## Every step

The case analysis over the code that a step runs. -/

section Steps

variable {s s' : Sched χ} {e : CoEvent χ} {co : Slot} {mmap : Bool} {fn : Nat} {args : List U64}
  {starts : List Start}

variable [DecidableEq χ]

/-- Where a coroutine goes on when it is switched to. -/
theorem coResume_eq_some (h : coResume s = some s') :
    ∃ co, s.control = .running co ∧
      ((s.pool co).pc = .entry ∧ s' = coProxyCall co s ∨
        (∃ ch data, (s.pool co).pc = .send ch data ∧ s' = coChanSend co ch data s) ∨
          ∃ ch, (s.pool co).pc = .recv ch ∧ s' = coChanRecv co ch s) := by
  unfold coResume at h
  split at h
  next co hco =>
    split at h
    next hpc => exact ⟨co, hco, .inl ⟨hpc, (Option.some.inj h).symm⟩⟩
    next => cases h
    next ch data hpc => exact ⟨co, hco, .inr (.inl ⟨ch, data, hpc, (Option.some.inj h).symm⟩)⟩
    next ch hpc => exact ⟨co, hco, .inr (.inr ⟨ch, hpc, (Option.some.inj h).symm⟩)⟩
  next => cases h

/-- **What a step does with arguments**: it starts a coroutine, calls the function of the running
one, or leaves them alone; and then the running one has begun. -/
theorem coStep_keepsArgs (h : CoInv s) (hstep : coStep s e = some s') :
    (∃ mmap fn args, e = .start mmap fn args ∧ s' = coStarted mmap fn args s) ∨
    (e = .resume ∧ ∃ co, s.control = .running co ∧ (s.pool co).pc = .entry ∧
      s' = coProxyCall co s) ∨
    ((∀ mmap fn args, e ≠ .start mmap fn args) ∧ KeepsArgs s s' ∧
      ∀ co, s.control = .running co → atEntry s co = false) := by
  -- only one coroutine runs, and it has left its entry
  have hrunning : ∀ {co : Slot}, s.control = .running co → atEntry s co = false →
      ∀ i, s.control = .running i → atEntry s i = false := by
    intro co hco hentry i hi
    obtain rfl : co = i := Control.running.inj (hco.symm.trans hi)
    exact hentry
  have huser : ∀ {co : Slot}, (s.pool co).pc = .user → atEntry s co = false := by
    intro co hpc
    rw [atEntry, hpc]
    rfl
  cases e with
  | start mmap fn args => exact .inl ⟨mmap, fn, args, rfl, (coStep_start hstep).1⟩
  | yield =>
    obtain ⟨co, hco, hpc, ⟨⟩⟩ := userCall_eq_some hstep
    exact .inr (.inr ⟨by simp, .yield h.sched hco, hrunning hco (huser hpc)⟩)
  | send ch data =>
    simp only [coStep] at hstep
    split at hstep
    · obtain ⟨co, hco, hpc, ⟨⟩⟩ := userCall_eq_some hstep
      exact .inr (.inr ⟨by simp, .send h.sched hco (huser hpc), hrunning hco (huser hpc)⟩)
    · cases hstep
  | recv ch =>
    obtain ⟨co, hco, hpc, ⟨⟩⟩ := userCall_eq_some hstep
    exact .inr (.inr ⟨by simp, .recv h.sched hco (huser hpc), hrunning hco (huser hpc)⟩)
  | ret =>
    obtain ⟨co, hco, hpc, ⟨⟩⟩ := userCall_eq_some hstep
    exact .inr (.inr ⟨by simp, .ret co s, hrunning hco (huser hpc)⟩)
  | resume =>
    obtain ⟨co, hco, ⟨hpc, rfl⟩ | ⟨ch, data, hpc, rfl⟩ | ⟨ch, hpc, rfl⟩⟩ := coResume_eq_some hstep
    -- at its entry `co_proxy` makes the call
    · exact .inr (.inl ⟨rfl, co, hco, hpc, rfl⟩)
    · have hentry : atEntry s co = false := by
        rw [atEntry, hpc]
        rfl
      exact .inr (.inr ⟨by simp, .send h.sched hco hentry, hrunning hco hentry⟩)
    · have hentry : atEntry s co = false := by
        rw [atEntry, hpc]
        rfl
      exact .inr (.inr ⟨by simp, .recv h.sched hco hentry, hrunning hco hentry⟩)
  | run =>
    simp only [coStep] at hstep
    split at hstep
    next hmain =>
      obtain rfl := Option.some.inj hstep
      exact .inr (.inr ⟨by simp, .of_pool rfl rfl, fun co hco => by simp [hmain] at hco⟩)
    next => cases hstep
  | sched =>
    simp only [coStep] at hstep
    split at hstep
    next hloop =>
      obtain rfl := Option.some.inj hstep
      exact .inr (.inr ⟨by simp, .loop hloop, fun co hco => by simp [hloop] at hco⟩)
    next co' hcontrol =>
      obtain rfl := Option.some.inj hstep
      exact .inr (.inr ⟨by simp, .returned hcontrol, fun co hco => by simp [hcontrol] at hco⟩)
    next => cases hstep

/-! ## In every state

The two lists grow at their ends only. -/

omit [DecidableEq χ] in

/-- What is owed depends on who stands at `co_proxy`, in order, and on their slots. -/
theorem owed_congr (hkeep : KeepsArgs s s') {l l' : List Slot}
    (hentries : (s'.control.running? ++ l').filter (atEntry s) =
      (s.control.running? ++ l).filter (atEntry s)) : owed s' l' = owed s l := by
  have hentry : atEntry s' = atEntry s := funext hkeep.entry
  have hinvocation : (fun co => (s'.pool co).invocation) = fun co => (s.pool co).invocation :=
    funext hkeep.invocation
  rw [owed, owed, hkeep.calls, hentry, hinvocation, hentries]

omit [DecidableEq χ] in

/-- A step that passes no arguments keeps what is owed. -/
theorem StartsOwed.keep (h : StartsOwed s starts) (hinv : SchedInv s.view)
    (hkeep : KeepsArgs s s') (hmove : s'.view = s.view ∨ CoMove s.view s'.view)
    (hfree : ∀ co, s.view.state co = .free → s'.view.state co = .free)
    (hrunning : ∀ co, s.control = .running co → atEntry s co = false) : StartsOwed s' starts := by
  obtain ⟨l, hl, hcopied⟩ := h.copied
  obtain ⟨⟨l', hl', hentries⟩, hblocked⟩ : (∃ l', s'.view.queue.Represents l' ∧
      (s'.view.control.running? ++ l').filter (atEntry s) =
        (s.view.control.running? ++ l).filter (atEntry s)) ∧
      ∀ co, s'.view.state co = .blocked → atEntry s co = false := by
    obtain hview | hmove := hmove
    · rw [hview]
      exact ⟨⟨l, hl, rfl⟩, h.blocked⟩
    · exact hmove.entries hinv hl hfree hrunning h.blocked
  refine ⟨⟨l', hl', ?_⟩, fun co hco => (hkeep.entry co).trans (hblocked co hco)⟩
  rw [owed_congr hkeep hentries]
  exact hcopied

omit [DecidableEq χ] in
/-- `co_proxy` makes the first of the calls owed. -/
theorem StartsOwed.call (h : StartsOwed s starts) (hinv : SchedInv s.view)
    (hco : s.control = .running co) (hentry : (s.pool co).pc = .entry) :
    StartsOwed (coProxyCall co s) starts := by
  obtain ⟨l, hl, hcopied⟩ := h.copied
  -- the coroutine that runs is not in the queue, so the others owe what they owed
  have hnotin : ∀ i ∈ l, i ≠ co := by
    rintro i hi rfl
    exact hinv.not_ready hco ((mem_queue_iff hinv hl i).mp hi)
  have hothers : ∀ i, i ≠ co → (coProxyCall co s).pool i = s.pool i := fun i hi =>
    Function.update_of_ne hi _ _
  have hself : atEntry (coProxyCall co s) co = false := by
    simp [atEntry, coProxyCall, Pc.isEntry]
  refine ⟨⟨l, hl, ?_⟩, fun i hi => ?_⟩
  · have hfilter : l.filter (atEntry (coProxyCall co s)) = l.filter (atEntry s) :=
      List.filter_congr fun i hi => by rw [atEntry, atEntry, hothers i (hnotin i hi)]
    have howed : owed (coProxyCall co s) l = owed s l := by
      have hbefore : atEntry s co = true := by
        rw [atEntry, hentry]
        rfl
      have hmap : (l.filter (atEntry s)).map (fun i => ((coProxyCall co s).pool i).invocation) =
          (l.filter (atEntry s)).map fun i => (s.pool i).invocation :=
        List.map_congr_left fun i hi => by
          rw [hothers i (hnotin i (List.mem_of_mem_filter hi))]
      have hcontrol : (coProxyCall co s).control = .running co := hco
      rw [owed, owed, hco, hcontrol, Control.running?, List.singleton_append,
        List.filter_cons_of_neg (by simp [hself]), List.filter_cons_of_pos hbefore, hfilter, hmap,
        List.map_cons]
      exact List.append_assoc _ _ _
    rw [howed]
    exact hcopied
  · rcases eq_or_ne i co with rfl | hne
    · exact hself
    · rw [hothers i hne] at hi
      rw [atEntry, hothers i hne]
      exact h.blocked i hi

omit [DecidableEq χ] in
/-- A `co_start` owes the call with a copy of its arguments, behind all others. -/
theorem StartsOwed.start (h : StartsOwed s starts) (hinv : SchedInv s.view) (fn : Nat)
    (args : List U64) (hfree : freeSlot s = some co)
    (hstack : (s.pool co).stack = .null → mmap = true) :
    StartsOwed (coStarted mmap fn args s) (starts ++ [⟨fn, args⟩]) := by
  obtain ⟨l, hl, hcopied⟩ := h.copied
  have hstate : (s.pool co).state = .free := freeSlot_state hfree
  -- a free slot is neither running nor in the queue
  have hnotin : co ∉ s.control.running? ++ l := by
    rw [List.mem_append]
    rintro (hrun | hmem)
    · cases hcontrol : s.control with
      | running i =>
        rw [hcontrol] at hrun
        obtain rfl := List.mem_singleton.mp hrun
        exact absurd (hstate.symm.trans (hinv.state_of_running hcontrol)) (by decide)
      | main => simp [hcontrol, Control.running?] at hrun
      | loop => simp [hcontrol, Control.running?] at hrun
      | returned i => simp [hcontrol, Control.running?] at hrun
    · have hready : (s.pool co).state = .ready := (mem_queue_iff hinv hl co).mp hmem
      exact absurd (hstate.symm.trans hready) (by decide)
  obtain ⟨hqueue, hcontrol, hcalls, c, hfunc, hargc, hargv, hpc, hready, -, hpool⟩ :=
    coStarted_started fn args hfree hstack
  generalize coStarted mmap fn args s = t at hqueue hcontrol hcalls hpool
  -- the start writes no other slot
  have hothers : ∀ i, i ≠ co → t.pool i = s.pool i := fun i hi => by
    rw [hpool, Function.update_of_ne hi]
  have hne : ∀ i ∈ s.control.running? ++ l, i ≠ co := fun i hi heq => hnotin (heq ▸ hi)
  have hself : atEntry t co = true := by
    rw [atEntry, hpool, Function.update_self, hpc]
    rfl
  refine ⟨⟨l ++ [co], ?_, ?_⟩, fun i hi => ?_⟩
  · rw [hqueue]
    exact hl.enqueue fun hmem => hnotin (List.mem_append_right _ hmem)
  -- those that owed a call still do, and the new one comes behind them
  · have hfilter : (s.control.running? ++ l).filter (atEntry t) =
        (s.control.running? ++ l).filter (atEntry s) :=
      List.filter_congr fun i hi => by rw [atEntry, atEntry, hothers i (hne i hi)]
    have hmap : ((s.control.running? ++ l).filter (atEntry s)).map
          (fun i => (t.pool i).invocation) =
        ((s.control.running? ++ l).filter (atEntry s)).map fun i => (s.pool i).invocation :=
      List.map_congr_left fun i hi => by
        rw [hothers i (hne i (List.mem_of_mem_filter hi))]
    have howed : owed t (l ++ [co]) = owed s l ++ [c.invocation] := by
      rw [owed, owed, hcalls, hcontrol, ← List.append_assoc, List.filter_append, hfilter,
        List.filter_cons_of_pos hself, List.filter_nil, List.map_append, hmap, List.map_singleton,
        hpool, Function.update_self, List.append_assoc]
    rw [howed, Coroutine.invocation, hfunc, hargc, hargv]
    -- of the arguments the first `CO_MAX_ARGS` are copied
    refine List.rel_append hcopied (.cons ⟨rfl, rfl, fun k hk hmax => ?_⟩ .nil)
    show some (copyArgs (s.pool co).argv args k) = args[k]?
    rw [copyArgs, if_pos ⟨hk, hmax⟩, List.getD_eq_getElem?_getD, List.getElem?_eq_getElem hk,
      Option.getD_some]
  · rcases eq_or_ne i co with rfl | hi'
    · rw [hpool, Function.update_self, hready] at hi
      cases hi
    · rw [hothers i hi'] at hi
      rw [atEntry, hothers i hi']
      exact h.blocked i hi

/-- **One step keeps the starts owed.** -/
theorem StartsOwed.step (h : StartsOwed s starts) (hinv : CoInv s) (hmmap : MmapSucceeds s e)
    (hstep : coStep s e = some s') : StartsOwed s' (starts ++ startOf s e) := by
  obtain ⟨mmap, fn, args, rfl, rfl⟩ | ⟨rfl, co, hco, hentry, rfl⟩ | ⟨hne, hkeep, hrunning⟩ :=
    coStep_keepsArgs hinv hstep
  · unfold startOf
    cases hfree : freeSlot s with
    | none =>
      rw [coStarted_none hfree]
      simpa using h
    | some co =>
      have hstack : (s.pool co).stack = .null → mmap = true := hmmap co hfree
      simpa using h.start hinv.sched fn args hfree hstack
  · simpa [startOf] using h.call hinv.sched hco hentry
  · have hstart : startOf s e = [] := by
      cases e with
      | start mmap fn args => exact absurd rfl (hne mmap fn args)
      | _ => rfl
    have hfree : ∀ co, s.view.state co = .free → s'.view.state co = .free := fun co =>
      (coStep_keepsStacks hinv hstep hne co).2
    rw [hstart, List.append_nil]
    exact h.keep hinv.sched hkeep ((coStep_cases hstep).move hinv) hfree hrunning

/-- In every reachable state the starts are the calls made and owed. -/
theorem startsOwed_invariant (elemSize cap : χ → Nat) :
    (argSystem elemSize cap).Invariant fun s => CoInv s.1 ∧ StartsOwed s.1 s.2 where
  init := by
    rintro s rfl
    refine ⟨coInit_inv elemSize cap, ⟨[], LinkedQueue.represents_empty, .nil⟩, fun co hco => ?_⟩
    simp [coInit] at hco
  step := by
    rintro ⟨s, starts⟩ e ⟨s', starts'⟩ ⟨hinv, howed⟩ ⟨hmmap, hstep, hstarts⟩
    obtain rfl : starts' = starts ++ startOf s e := hstarts
    exact ⟨(coInv_invariant elemSize cap).step s e s' hinv hstep, howed.step hinv hmmap hstep⟩

/-! ## When `co_run` returns

It returns with an empty run queue, so no coroutine stands at `co_proxy`. -/

omit [DecidableEq χ] in
/-- A copied call has been received unless there were more arguments than the array holds. -/
theorem Copied.isReceived_iff {start : Start} {call : Invocation} (h : Copied start call) :
    Received start call ↔ start.args.length ≤ coMaxArgs := by
  constructor
  · intro hreceived
    by_contra hlong
    have hlast : start.args[coMaxArgs]? ≠ none := by
      rw [Ne, List.getElem?_eq_none_iff]
      omega
    have harg := hreceived.argv coMaxArgs (by rw [h.argc]; omega)
    rw [Invocation.arg, if_neg (lt_irrefl _)] at harg
    exact hlast harg.symm
  · intro hle
    refine ⟨h.func, h.argc, fun k hk => ?_⟩
    rw [h.argc] at hk
    rw [Invocation.arg, if_pos (by omega), h.argv k hk (by omega)]

omit [DecidableEq χ] in

/-- A start is received when all its arguments were copied. -/
theorem received_iff_of_copied {calls : List Invocation} (h : List.Forall₂ Copied starts calls) :
    List.Forall₂ Received starts calls ↔ ∀ start ∈ starts, start.args.length ≤ coMaxArgs := by
  induction h with
  | nil => exact iff_of_true .nil (by simp)
  | cons hfirst _ ih => rw [List.forall₂_cons, List.forall_mem_cons, hfirst.isReceived_iff, ih]

omit [DecidableEq χ] in
/-- `co_run` returns when its queue is empty. -/
theorem coRunStep_main (hmain : (coRunStep s).control = .main) (hne : s.control ≠ .main) :
    s.control = .loop ∧ s.queue.dequeue.1 = none ∧ (coRunStep s).calls = s.calls := by
  unfold coRunStep at hmain ⊢
  cases hcontrol : s.control with
  | main => exact absurd hcontrol hne
  | loop =>
    rw [hcontrol] at hmain
    dsimp only at hmain ⊢
    cases hdeq : s.queue.dequeue with
    | mk first queue =>
      cases first with
      | none => exact ⟨rfl, rfl, rfl⟩
      | some co =>
        rw [hdeq] at hmain
        cases hmain
  | returned co =>
    rw [hcontrol] at hmain
    cases hmain
  | running co =>
    rw [hcontrol] at hmain
    dsimp only at hmain
    rw [hcontrol] at hmain
    cases hmain

/-- A step of `co_run`. -/
theorem coStep_sched (h : coStep s .sched = some s') :
    s.control ≠ .main ∧ s' = coRunStep s := by
  simp only [coStep] at h
  split at h
  next hloop => exact ⟨by simp [hloop], (Option.some.inj h).symm⟩
  next co hco => exact ⟨by simp [hco], (Option.some.inj h).symm⟩
  next => cases h

/-- **When the coroutines have received what they were started with**: whenever `co_run` returns,
there has been one call for each start, in the order of the starts, with the same function and
arguments, exactly when no start had more than `CO_MAX_ARGS` arguments. -/
theorem received_iff (elemSize cap : χ → Nat)
    (hr : (argSystem elemSize cap).Reachable (s, starts)) (hreturn : coStep s .sched = some s')
    (hmain : s'.control = .main) :
    List.Forall₂ Received starts s'.calls ↔ ∀ start ∈ starts, start.args.length ≤ coMaxArgs := by
  obtain ⟨hinv, howed⟩ := (startsOwed_invariant elemSize cap).holds hr
  obtain ⟨hne, rfl⟩ := coStep_sched hreturn
  obtain ⟨hloop, hempty, hcalls⟩ := coRunStep_main hmain hne
  have hcopied : List.Forall₂ Copied starts (coRunStep s).calls := by
    obtain ⟨l, hl, hcopied⟩ := howed.copied
    cases l with
    | nil =>
      rw [hcalls]
      simpa [owed, hloop, Control.running?] using hcopied
    | cons first rest => exact absurd (hempty.symm.trans hl.dequeue_cons.1) (by simp)
  exact received_iff_of_copied hcopied

end Steps

/-! ## One coroutine

A run in which one coroutine is started with given arguments, and `co_run` returns. -/

/-- A step that is no start leaves the list of starts. -/
theorem argSystem_coStep [DecidableEq χ] {elemSize cap : χ → Nat} {s s' : Sched χ}
    {starts : List Start} {e : CoEvent χ}
    (hr : (argSystem elemSize cap).Reachable (s, starts)) (hmmap : MmapSucceeds s e)
    (hstep : coStep s e = some s') (hstart : startOf s e = []) :
    (argSystem elemSize cap).Reachable (s', starts) := by
  refine .step hr (e := e) ⟨hmmap, hstep, ?_⟩
  rw [hstart, List.append_nil]

/-- A coroutine is started and runs to its end, and `co_run` returns. -/
theorem oneRound_reachable (args : List U64) :
    ∃ s s', (argSystem (fun _ : Unit => 4) fun _ => 1).Reachable (s, [⟨0, args⟩]) ∧
      coStep s .sched = some s' ∧ s'.control = .main ∧
      s'.calls = [⟨0, args.length, copyArgs (fun _ => 0) args⟩] := by
  have hstart : (argSystem (fun _ : Unit => 4) fun _ => 1).Reachable
      (coStarted true 0 args (coInit (fun _ => 4) fun _ => 1), [⟨0, args⟩]) :=
    .step (.init rfl) (e := .start true 0 args) ⟨fun _ _ _ => rfl, rfl, rfl⟩
  have hrun := argSystem_coStep (e := .run) hstart trivial rfl rfl
  have hsched := argSystem_coStep (e := .sched) hrun trivial rfl rfl
  have hresume := argSystem_coStep (e := .resume) hsched trivial rfl rfl
  have hret := argSystem_coStep (e := .ret) hresume trivial rfl rfl
  have hloop := argSystem_coStep (e := .sched) hret trivial rfl rfl
  exact ⟨_, _, hloop, rfl, rfl, rfl⟩

/-- Two arguments are received. -/
theorem received_iff_two : ∃ s s' starts,
    (argSystem (fun _ : Unit => 4) fun _ => 1).Reachable (s, starts) ∧
      coStep s .sched = some s' ∧ s'.control = .main ∧ starts.length = 1 ∧
      (List.Forall₂ Received starts s'.calls ↔
        ∀ start ∈ starts, start.args.length ≤ coMaxArgs) := by
  obtain ⟨s, s', hr, hreturn, hmain, -⟩ := oneRound_reachable [3, 4]
  exact ⟨s, s', _, hr, hreturn, hmain, rfl, received_iff _ _ hr hreturn hmain⟩

/-- Of nine arguments the last is not received, while the count says that there are nine. -/
theorem not_received_nine : ∃ s s',
    (argSystem (fun _ : Unit => 4) fun _ => 1).Reachable (s, [⟨0, [1, 2, 3, 4, 5, 6, 7, 8, 9]⟩]) ∧
      coStep s .sched = some s' ∧ s'.control = .main ∧
      ¬ List.Forall₂ Received [⟨0, [1, 2, 3, 4, 5, 6, 7, 8, 9]⟩] s'.calls := by
  obtain ⟨s, s', hr, hreturn, hmain, hcalls⟩ := oneRound_reachable [1, 2, 3, 4, 5, 6, 7, 8, 9]
  refine ⟨s, s', hr, hreturn, hmain, fun h => ?_⟩
  rw [hcalls, List.forall₂_cons] at h
  have hlast := h.1.argv 8 (by decide)
  exact absurd hlast (by decide)

end Kxo
