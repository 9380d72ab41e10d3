import Kxo.Spec.Coro

/-!
# Kxo — the run queue (`user/coro.c`)

Seen from the scheduler, the calls of coroutines do eight things: start a coroutine, let the running
one yield, block or return, wake a blocked one, and let `co_run` begin, take the next coroutine, go
round after one has come back, or end. `CoMove` lists them. Every step is one of these or leaves the
scheduler alone, so its invariant is checked once against each.

* **`SchedView`** — `sched` without what only channels and user functions read.
* **`QueueInv`** — the run queue represents, as a `LinkedQueue`, the READY coroutines in order.
* **`ControlInv`** — who runs, and which slots are in use.
* **`SchedInv.move`** — every move keeps both: one lemma a move, put together by cases on `CoMove`.
-/

namespace Kxo

variable {χ : Type}

/-! ## The view

The states of the slots, the queue, and where control is. -/

/-- `sched` without what only channels and user functions read. -/
structure SchedView where
  state : Slot → CoState
  queue : LinkedQueue Slot
  current : Option Slot
  control : Control
  clock : Nat
  readyAt : Slot → Nat
  occupancy : Slot → Occupancy

def Sched.view (s : Sched χ) : SchedView :=
  ⟨fun co => (s.pool co).state, s.queue, s.current, s.control, s.clock, s.readyAt, s.occupancy⟩

/-- A coroutine becomes READY and is queued. -/
def SchedView.ready (v : SchedView) (co : Slot) : SchedView :=
  { v with
    state := Function.update v.state co .ready
    queue := v.queue.enqueue co
    readyAt := Function.update v.readyAt co v.clock
    clock := v.clock + 1 }

def SchedView.setState (v : SchedView) (co : Slot) (state : CoState) : SchedView :=
  { v with state := Function.update v.state co state }

def SchedView.occupy (v : SchedView) (co : Slot) (use : Occupancy) : SchedView :=
  { v with occupancy := Function.update v.occupancy co use }

/-- What the calls and `co_run` do to the scheduler. -/
inductive CoMove : SchedView → SchedView → Prop where
  /-- `co_start` takes a free slot. -/
  | start {v : SchedView} {co : Slot} : v.state co = .free →
      CoMove v ((v.occupy co .live).ready co)
  /-- The running coroutine yields. -/
  | yield {v : SchedView} {co : Slot} : v.control = .running co →
      CoMove v { v.ready co with control := .returned co }
  /-- The running coroutine blocks. -/
  | block {v : SchedView} {co : Slot} : v.control = .running co →
      CoMove v { v.setState co .blocked with control := .returned co }
  /-- The function of the running coroutine returns. -/
  | ret {v : SchedView} {co : Slot} : v.control = .running co →
      CoMove v { (v.setState co .done).occupy co .leaving with control := .returned co }
  /-- A blocked coroutine is woken. -/
  | wake {v : SchedView} {co : Slot} : v.state co = .blocked → CoMove v (v.ready co)
  /-- The main program calls `co_run`. -/
  | run {v : SchedView} : v.control = .main → CoMove v { v with control := .loop }
  /-- `co_run` switches to the first coroutine of the queue. -/
  | dispatch {v : SchedView} {co : Slot} : v.control = .loop → v.queue.dequeue.1 = some co →
      CoMove v { v.setState co .running with
        queue := v.queue.dequeue.2, current := some co, control := .running co }
  /-- `co_run` finds the queue empty and returns. -/
  | stop {v : SchedView} : v.control = .loop → v.queue.dequeue.1 = none →
      CoMove v { v with queue := v.queue.dequeue.2, current := none, control := .main }
  /-- `co_run` frees the slot of a coroutine that has come back DONE. -/
  | reap {v : SchedView} {co : Slot} : v.control = .returned co → v.state co = .done →
      CoMove v { (v.setState co .free).occupy co .vacant with control := .loop }
  /-- `co_run` goes round after a coroutine that yielded or blocked. -/
  | again {v : SchedView} {co : Slot} : v.control = .returned co → v.state co ≠ .done →
      CoMove v { v with control := .loop }

/-! ## The queue

A coroutine is linked into the queue once, when it becomes READY, and taken out when it is run. -/

/-- The run queue holds the READY coroutines in the order they became ready. -/
structure QueueInv (v : SchedView) : Prop where
  queue : ∃ l, v.queue.Represents l ∧ (∀ co, co ∈ l ↔ v.state co = .ready) ∧
    l.Pairwise fun a b => v.readyAt a < v.readyAt b
  stamp : ∀ co, v.state co = .ready → v.readyAt co < v.clock

namespace QueueInv

variable {v : SchedView} {co : Slot}

/-- **A coroutine that was not READY goes to the end of the queue.** -/
theorem ready (h : QueueInv v) (hne : v.state co ≠ .ready) : QueueInv (v.ready co) := by
  obtain ⟨l, hrep, hmem, horder⟩ := h.queue
  have hnotin : co ∉ l := fun hco => hne ((hmem co).mp hco)
  -- the stamp of a coroutine in the queue is older than the clock
  have hkeep : ∀ a ∈ l, Function.update v.readyAt co v.clock a = v.readyAt a := fun a ha =>
    Function.update_of_ne (ne_of_mem_of_not_mem ha hnotin) _ _
  refine ⟨⟨l ++ [co], hrep.enqueue hnotin, fun i => ?_, ?_⟩, fun i hi => ?_⟩
  · show i ∈ l ++ [co] ↔ Function.update v.state co .ready i = .ready
    rcases eq_or_ne i co with rfl | hi
    · simp
    · simp [hi, hmem]
  · rw [List.pairwise_append]
    refine ⟨horder.imp_of_mem fun {a b} ha hb hlt => ?_, List.pairwise_singleton _ _,
      fun a ha b hb => ?_⟩
    · show Function.update v.readyAt co v.clock a < Function.update v.readyAt co v.clock b
      rw [hkeep a ha, hkeep b hb]
      exact hlt
    · obtain rfl := List.mem_singleton.mp hb
      show Function.update v.readyAt b v.clock a < Function.update v.readyAt b v.clock b
      rw [hkeep a ha, Function.update_self]
      exact h.stamp a ((hmem a).mp ha)
  · show Function.update v.readyAt co v.clock i < v.clock + 1
    rcases eq_or_ne i co with rfl | hne'
    · rw [Function.update_self]
      exact Nat.lt_succ_self _
    · rw [Function.update_of_ne hne']
      have hstate : v.state i = .ready := by
        have hi' : Function.update v.state co .ready i = .ready := hi
        rwa [Function.update_of_ne hne'] at hi'
      exact Nat.lt_succ_of_lt (h.stamp i hstate)

/-- A coroutine that is not in the queue changes its state, and stays out. -/
theorem setState (h : QueueInv v) (hne : v.state co ≠ .ready) {state : CoState}
    (hstate : state ≠ .ready) : QueueInv (v.setState co state) := by
  have hiff : ∀ i, Function.update v.state co state i = .ready ↔ v.state i = .ready := by
    intro i
    rcases eq_or_ne i co with rfl | hi
    · simp [hstate, hne]
    · rw [Function.update_of_ne hi]
  obtain ⟨l, hrep, hmem, horder⟩ := h.queue
  exact ⟨⟨l, hrep, fun i => (hmem i).trans (hiff i).symm, horder⟩,
    fun i hi => h.stamp i ((hiff i).mp hi)⟩

/-- The first coroutine leaves the queue to run. -/
theorem dispatch (h : QueueInv v) (hco : v.queue.dequeue.1 = some co) :
    v.state co = .ready ∧
      QueueInv { v.setState co .running with queue := v.queue.dequeue.2 } := by
  obtain ⟨l, hrep, hmem, horder⟩ := h.queue
  cases l with
  | nil => simp [hrep.dequeue_nil] at hco
  | cons a l =>
    obtain ⟨hfirst, hrest⟩ := hrep.dequeue_cons
    obtain rfl : a = co := Option.some.inj (hfirst.symm.trans hco)
    obtain ⟨hnotin, _⟩ := List.nodup_cons.mp hrep.nodup
    have hready : ∀ i, Function.update v.state a .running i = .ready → v.state i = .ready := by
      intro i hi
      rcases eq_or_ne i a with rfl | hne
      · simp at hi
      · rwa [Function.update_of_ne hne] at hi
    refine ⟨(hmem a).mp (by simp), ⟨l, hrest, fun i => ?_, (List.pairwise_cons.mp horder).2⟩,
      fun i hi => h.stamp i (hready i hi)⟩
    show i ∈ l ↔ Function.update v.state a .running i = .ready
    rcases eq_or_ne i a with rfl | hne
    · simp [hnotin]
    · rw [Function.update_of_ne hne, ← hmem i, List.mem_cons, or_iff_right hne]

/-- Taking from an empty queue changes nothing. -/
theorem stop (h : QueueInv v) (hnone : v.queue.dequeue.1 = none) :
    QueueInv { v with queue := v.queue.dequeue.2 } := by
  obtain ⟨l, hrep, hmem, horder⟩ := h.queue
  cases l with
  | cons a l => simp [hrep.dequeue_cons.1] at hnone
  | nil =>
    refine ⟨⟨[], ?_, hmem, horder⟩, h.stamp⟩
    rw [hrep.dequeue_nil]
    exact hrep

end QueueInv

/-! ## The running coroutine and the slots

One coroutine runs at most, and a slot is in use from its start until `co_run` has seen that it is
done. -/

/-- Who runs, and who uses a slot. -/
structure ControlInv (v : SchedView) : Prop where
  running : ∀ co, v.state co = .running ↔ v.control = .running co
  current : ∀ co, v.control = .running co → v.current = some co
  done : ∀ co, v.state co = .done → v.control = .returned co
  leaving : ∀ co, v.occupancy co = .leaving ↔ v.state co = .done
  vacant : ∀ co, v.occupancy co = .vacant ↔ v.state co = .free

/-- The scheduler's invariant. -/
structure SchedInv (v : SchedView) : Prop extends QueueInv v, ControlInv v

namespace SchedInv

variable {v : SchedView} {co : Slot}

/-- The coroutine that runs is RUNNING. -/
theorem state_of_running (h : SchedInv v) (hco : v.control = .running co) : v.state co = .running :=
  (h.running co).mpr hco

/-- And so it is not in the queue. -/
theorem not_ready (h : SchedInv v) (hco : v.control = .running co) : v.state co ≠ .ready := by
  rw [h.state_of_running hco]
  simp

/-- A start: the slot was free, and its coroutine is queued. -/
theorem start (h : SchedInv v) (hco : v.state co = .free) :
    SchedInv ((v.occupy co .live).ready co) := by
  have hq : QueueInv (v.occupy co .live) := ⟨h.queue, h.stamp⟩
  have hrun : v.control ≠ .running co := fun hc => by simp [h.state_of_running hc] at hco
  refine ⟨hq.ready (by show v.state co ≠ .ready; simp [hco]), ⟨fun i => ?_, h.current, fun i => ?_,
    fun i => ?_, fun i => ?_⟩⟩ <;> simp only [SchedView.ready, SchedView.occupy]
    <;> rcases eq_or_ne i co with rfl | hi
  · simp [hrun]
  · simp [hi, h.running]
  · simp
  · simpa [hi] using h.done i
  · simp
  · simp [hi, h.leaving]
  · simp
  · simp [hi, h.vacant]

/-- While a coroutine runs, no other is RUNNING or DONE. -/
theorem others (h : SchedInv v) (hco : v.control = .running co) {i : Slot} (hi : i ≠ co) :
    v.state i ≠ .running ∧ v.state i ≠ .done := by
  constructor
  · intro hrun
    have hci := (h.running i).mp hrun
    rw [hco] at hci
    exact hi (Control.running.inj hci).symm
  · intro hdone
    have hci := h.done i hdone
    rw [hco] at hci
    exact Control.noConfusion hci

/-- The running coroutine switches to the scheduler, in a new state. -/
theorem leave (h : SchedInv v) (hco : v.control = .running co) {state : CoState} {use : Occupancy}
    (hrun : state ≠ .running) (hleaving : use = .leaving ↔ state = .done)
    (hvacant : use = .vacant ↔ state = .free) {v' : SchedView}
    (hstate : v'.state = Function.update v.state co state)
    (hoccupancy : v'.occupancy = Function.update v.occupancy co use)
    (hcontrol : v'.control = .returned co) : ControlInv v' := by
  refine ⟨fun i => ?_, fun i hi => ?_, fun i => ?_, fun i => ?_, fun i => ?_⟩
  · rw [hstate, hcontrol]
    rcases eq_or_ne i co with rfl | hi
    · simp [hrun]
    · simp [hi, (h.others hco hi).1]
  · simp [hcontrol] at hi
  · rw [hstate, hcontrol]
    rcases eq_or_ne i co with rfl | hi
    · simp
    · simp [hi, (h.others hco hi).2]
  · rw [hstate, hoccupancy]
    rcases eq_or_ne i co with rfl | hi
    · simp [hleaving]
    · simp [hi, h.leaving]
  · rw [hstate, hoccupancy]
    rcases eq_or_ne i co with rfl | hi
    · simp [hvacant]
    · simp [hi, h.vacant]

/-- The use of the slot of the running coroutine. -/
theorem occupancy_of_running (h : SchedInv v) (hco : v.control = .running co) :
    v.occupancy co ≠ .leaving ∧ v.occupancy co ≠ .vacant := by
  have hstate := h.state_of_running hco
  exact ⟨fun hl => by simp [(h.leaving co).mp hl] at hstate,
    fun hv => by simp [(h.vacant co).mp hv] at hstate⟩

/-- A yield: the running coroutine is queued again. -/
theorem yield (h : SchedInv v) (hco : v.control = .running co) :
    SchedInv { v.ready co with control := .returned co } := by
  obtain ⟨hl, hv⟩ := h.occupancy_of_running hco
  have hq := h.toQueueInv.ready (h.not_ready hco)
  refine ⟨⟨hq.queue, hq.stamp⟩, h.leave hco ?_ ?_ ?_ rfl (Function.update_eq_self co _).symm rfl⟩
  · simp
  · show v.occupancy co = .leaving ↔ _
    simp [hl]
  · show v.occupancy co = .vacant ↔ _
    simp [hv]

/-- A coroutine blocks. -/
theorem block (h : SchedInv v) (hco : v.control = .running co) :
    SchedInv { v.setState co .blocked with control := .returned co } := by
  obtain ⟨hl, hv⟩ := h.occupancy_of_running hco
  have hq := h.toQueueInv.setState (h.not_ready hco) (show CoState.blocked ≠ .ready by simp)
  refine ⟨⟨hq.queue, hq.stamp⟩, h.leave hco ?_ ?_ ?_ rfl (Function.update_eq_self co _).symm rfl⟩
  · simp
  · show v.occupancy co = .leaving ↔ _
    simp [hl]
  · show v.occupancy co = .vacant ↔ _
    simp [hv]

/-- A coroutine ends, and its slot is still in use until `co_run` frees it. -/
theorem ret (h : SchedInv v) (hco : v.control = .running co) :
    SchedInv { (v.setState co .done).occupy co .leaving with control := .returned co } := by
  have hq := h.toQueueInv.setState (h.not_ready hco) (show CoState.done ≠ .ready by simp)
  refine ⟨⟨hq.queue, hq.stamp⟩, h.leave hco ?_ ?_ ?_ rfl rfl rfl⟩
  · simp
  · simp
  · simp

/-- A blocked coroutine is queued. -/
theorem wake (h : SchedInv v) (hco : v.state co = .blocked) : SchedInv (v.ready co) := by
  have hrun : v.control ≠ .running co := fun hc => by simp [h.state_of_running hc] at hco
  have hleaving : v.occupancy co ≠ .leaving := by simp [h.leaving, hco]
  have hvacant : v.occupancy co ≠ .vacant := by simp [h.vacant, hco]
  refine ⟨h.toQueueInv.ready (by simp [hco]), ⟨fun i => ?_, h.current, fun i => ?_, fun i => ?_,
    fun i => ?_⟩⟩ <;> simp only [SchedView.ready] <;> rcases eq_or_ne i co with rfl | hi
  · simp [hrun]
  · simp [hi, h.running]
  · simp
  · simpa [hi] using h.done i
  · simp [hleaving]
  · simp [hi, h.leaving]
  · simp [hvacant]
  · simp [hi, h.vacant]

/-- Outside the coroutines none is RUNNING. -/
theorem not_running (h : SchedInv v) (hc : ∀ i, v.control ≠ .running i) (i : Slot) :
    v.state i ≠ .running := fun hrun => hc i ((h.running i).mp hrun)

/-- Between two switches none is DONE. -/
theorem not_done (h : SchedInv v) (hc : ∀ i, v.control ≠ .returned i) (i : Slot) :
    v.state i ≠ .done := fun hdone => hc i (h.done i hdone)

/-- `co_run` begins. -/
theorem run (h : SchedInv v) (hmain : v.control = .main) :
    SchedInv { v with control := .loop } := by
  have hrun := h.not_running (by simp [hmain])
  have hdone := h.not_done (by simp [hmain])
  exact ⟨⟨h.queue, h.stamp⟩, ⟨fun i => by simp [hrun], fun i hi => by simp at hi,
    fun i hi => absurd hi (hdone i), h.leaving, h.vacant⟩⟩

/-- The first of the queue runs. -/
theorem dispatch (h : SchedInv v) (hloop : v.control = .loop)
    (hco : v.queue.dequeue.1 = some co) :
    SchedInv { v.setState co .running with
      queue := v.queue.dequeue.2, current := some co, control := .running co } := by
  have hrun := h.not_running (by simp [hloop])
  have hdone := h.not_done (by simp [hloop])
  obtain ⟨hready, hq⟩ := h.toQueueInv.dispatch hco
  have hleaving : v.occupancy co ≠ .leaving := by simp [h.leaving, hready]
  have hvacant : v.occupancy co ≠ .vacant := by simp [h.vacant, hready]
  refine ⟨⟨hq.queue, hq.stamp⟩, ⟨fun i => ?_, fun i hi => ?_, fun i => ?_, fun i => ?_,
    fun i => ?_⟩⟩ <;> simp only [SchedView.setState]
  · rcases eq_or_ne i co with rfl | hi
    · simp
    · simp [hi, hi.symm, hrun i]
  · exact congrArg some (Control.running.inj hi)
  · rcases eq_or_ne i co with rfl | hi
    · simp
    · simp [hi, hdone i]
  · rcases eq_or_ne i co with rfl | hi
    · simp [hleaving]
    · simp [hi, h.leaving]
  · rcases eq_or_ne i co with rfl | hi
    · simp [hvacant]
    · simp [hi, h.vacant]

/-- `co_run` ends when the queue is empty. -/
theorem stop (h : SchedInv v) (hloop : v.control = .loop) (hnone : v.queue.dequeue.1 = none) :
    SchedInv { v with queue := v.queue.dequeue.2, current := none, control := .main } := by
  have hrun := h.not_running (by simp [hloop])
  have hdone := h.not_done (by simp [hloop])
  have hq := h.toQueueInv.stop hnone
  exact ⟨⟨hq.queue, hq.stamp⟩, ⟨fun i => by simp [hrun], fun i hi => by simp at hi,
    fun i hi => absurd hi (hdone i), h.leaving, h.vacant⟩⟩

/-- The slot of a coroutine that is done is freed. -/
theorem reap (h : SchedInv v) (hco : v.control = .returned co) (hdone : v.state co = .done) :
    SchedInv { (v.setState co .free).occupy co .vacant with control := .loop } := by
  have hrun := h.not_running (by simp [hco])
  have hothers : ∀ i, i ≠ co → v.state i ≠ .done := by
    intro i hi hd
    have hci := h.done i hd
    rw [hco] at hci
    exact hi (Control.returned.inj hci).symm
  have hready : v.state co ≠ .ready := by simp [hdone]
  have hq := h.toQueueInv.setState hready (show CoState.free ≠ .ready by simp)
  refine ⟨⟨hq.queue, hq.stamp⟩, ⟨fun i => ?_, fun i hi => by simp at hi, fun i => ?_, fun i => ?_,
    fun i => ?_⟩⟩ <;> simp only [SchedView.setState, SchedView.occupy]
    <;> rcases eq_or_ne i co with rfl | hi
  · simp
  · simp [hi, hrun i]
  · simp
  · simp [hi, hothers i hi]
  · simp
  · simp [hi, h.leaving]
  · simp
  · simp [hi, h.vacant]

/-- One that is not done keeps its slot. -/
theorem again (h : SchedInv v) (hco : v.control = .returned co) (hdone : v.state co ≠ .done) :
    SchedInv { v with control := .loop } := by
  have hrun := h.not_running (by simp [hco])
  have hnone : ∀ i, v.state i ≠ .done := by
    intro i hd
    have hci := h.done i hd
    rw [hco] at hci
    exact hdone (Control.returned.inj hci ▸ hd)
  exact ⟨⟨h.queue, h.stamp⟩, ⟨fun i => by simp [hrun], fun i hi => by simp at hi,
    fun i hi => absurd hi (hnone i), h.leaving, h.vacant⟩⟩

/-- **Every move keeps the scheduler's invariant.** -/
theorem move {v' : SchedView} (h : SchedInv v) (hmove : CoMove v v') : SchedInv v' := by
  cases hmove with
  | start hco => exact h.start hco
  | yield hco => exact h.yield hco
  | block hco => exact h.block hco
  | ret hco => exact h.ret hco
  | wake hco => exact h.wake hco
  | run hmain => exact h.run hmain
  | dispatch hloop hco => exact h.dispatch hloop hco
  | stop hloop hnone => exact h.stop hloop hnone
  | reap hco hdone => exact h.reap hco hdone
  | again hco hdone => exact h.again hco hdone

end SchedInv

end Kxo
