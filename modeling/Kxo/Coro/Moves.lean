import Kxo.Coro.Scheduler

/-!
# Kxo — the moves of the scheduler (`user/coro.c`)

The operations aside of the channels: each is a move of the scheduler or none, and leaves alone
whoever is blocked.

* **`coStarted`**, **`coStart_eq_some_iff`** — `co_start` in two parts: it faults on a stack pointer
  that is `MAP_FAILED`, and what it leaves otherwise.
* **`coStarted_move`**, **`coYield_move`**, **`coRunStep_loop_move`** and the others — one lemma an
  operation, which names its move.
* **`Aside`** — what these operations have in common for the channels: none of them touches a
  channel or a coroutine that is blocked.
-/

namespace Kxo

variable {χ : Type}

/-! ## The move of each operation

The simp lemmas say what the small functions do to the slots, the channels and the view; each
operation is then unfolded once. -/

section Moves

variable {s : Sched χ} {co : Slot}

@[simp] theorem pool_setCo (s : Sched χ) (co : Slot) (c : Coroutine χ) :
    (setCo s co c).pool = Function.update s.pool co c := rfl

@[simp] theorem pool_enqueue (s : Sched χ) (co : Slot) : (enqueue s co).pool = s.pool := rfl

@[simp] theorem pool_markReady (s : Sched χ) (co : Slot) :
    (markReady s co).pool = Function.update s.pool co { s.pool co with state := .ready } := rfl

@[simp] theorem pool_switchToMain (s : Sched χ) : (switchToMain s).pool = s.pool := by
  unfold switchToMain
  split <;> rfl

@[simp] theorem pool_setState (s : Sched χ) (co : Slot) (state : CoState) :
    (setState s co state).pool = Function.update s.pool co { s.pool co with state } := rfl

@[simp] theorem pool_setPc (s : Sched χ) (co : Slot) (pc : Pc χ) :
    (setPc s co pc).pool = Function.update s.pool co { s.pool co with pc } := rfl

@[simp] theorem chans_setState (s : Sched χ) (co : Slot) (state : CoState) :
    (setState s co state).chans = s.chans := rfl

@[simp] theorem chans_setPc (s : Sched χ) (co : Slot) (pc : Pc χ) :
    (setPc s co pc).chans = s.chans := rfl

@[simp] theorem chans_enqueue (s : Sched χ) (co : Slot) : (enqueue s co).chans = s.chans := rfl

@[simp] theorem chans_markReady (s : Sched χ) (co : Slot) : (markReady s co).chans = s.chans := rfl

@[simp] theorem chans_switchToMain (s : Sched χ) : (switchToMain s).chans = s.chans := by
  unfold switchToMain
  split <;> rfl

/-- The view after a slot was written. -/
theorem view_setCo (s : Sched χ) (co : Slot) (c : Coroutine χ) :
    (setCo s co c).view = s.view.setState co c.state := by
  have hstate := Function.comp_update Coroutine.state s.pool co c
  simp only [Sched.view, setCo, SchedView.setState]
  congr 1

/-- It does not change with what the scheduler does not read. -/
theorem view_setCo_of_state {c : Coroutine χ} (hc : c.state = (s.pool co).state) :
    (setCo s co c).view = s.view := by
  rw [view_setCo, SchedView.setState, hc]
  exact congrArg (fun state => { s.view with state }) (Function.update_eq_self co s.view.state)

@[simp] theorem view_setPc (s : Sched χ) (co : Slot) (pc : Pc χ) : (setPc s co pc).view = s.view :=
  view_setCo_of_state rfl

@[simp] theorem view_setState (s : Sched χ) (co : Slot) (state : CoState) :
    (setState s co state).view = s.view.setState co state := view_setCo s co _

/-- The two steps by which a coroutine is queued. -/
theorem view_enqueue_markReady (s : Sched χ) (co : Slot) :
    (enqueue (markReady s co) co).view = s.view.ready co := by
  have hstate : (setState s co .ready).view.state = Function.update s.view.state co .ready :=
    congrArg SchedView.state (view_setState s co .ready)
  show SchedView.mk (setState s co .ready).view.state _ _ _ _ _ _ = _
  rw [hstate]
  rfl

/-- Leaving the running coroutine hands control back to `co_run`. -/
theorem view_switchToMain (s : Sched χ) (co : Slot) (hco : s.control = .running co) :
    (switchToMain s).view = { s.view with control := .returned co } := by
  simp only [switchToMain, hco]
  rfl

/-- The slot that `co_start` takes is free. -/
theorem freeSlot_state (h : freeSlot s = some co) : (s.pool co).state = .free := by
  simpa [freeSlot] using List.find?_some h

/-- What a `co_start` that does not fault leaves. -/
def coStarted (mmap : Bool) (fn : Nat) (args : List U64) (s : Sched χ) : Sched χ :=
  match freeSlot s with
  | none => s
  | some co => startIn mmap fn args co s

/-- A `co_start` faults exactly where it takes a slot whose `mmap` failed before. -/
theorem coStart_eq_some_iff {mmap : Bool} {fn : Nat} {args : List U64} {s s' : Sched χ} :
    coStart mmap fn args s = some s' ↔
      (∀ co, freeSlot s = some co → (s.pool co).stack ≠ .mapFailed) ∧
        s' = coStarted mmap fn args s := by
  unfold coStart coStarted
  cases hfree : freeSlot s with
  | none => simp [eq_comm]
  | some co =>
    dsimp only
    by_cases hfailed : (s.pool co).stack = .mapFailed
    · rw [if_pos hfailed]
      exact iff_of_false (by simp) fun h => h.1 co rfl hfailed
    · rw [if_neg hfailed, Option.some_inj, eq_comm]
      refine ⟨fun h => ⟨fun i hi => ?_, h⟩, And.right⟩
      obtain rfl := Option.some.inj hi
      exact hfailed

/-- What `co_start` does to the pool and the queue. -/
theorem coStarted_cases (mmap : Bool) (fn : Nat) (args : List U64) (s : Sched χ) :
    coStarted mmap fn args s = s ∨
      ∃ co c, (s.pool co).state = .free ∧ c.state = .free ∧
        (c.pc = (s.pool co).pc ∧ coStarted mmap fn args s = setCo s co c ∨
          c.pc = .entry ∧ coStarted mmap fn args s =
            (let s := { setCo s co c with occupancy := Function.update s.occupancy co .live }
            enqueue (markReady s co) co)) := by
  unfold coStarted
  cases hfree : freeSlot s with
  | none => exact .inl rfl
  | some co =>
    have hstate := freeSlot_state hfree
    dsimp only [startIn]
    split
    · refine .inr ⟨co, _, hstate, ?_, .inl ⟨?_, rfl⟩⟩
      · exact hstate
      · rfl
    · refine .inr ⟨co, _, hstate, ?_, .inr ⟨?_, rfl⟩⟩
      · exact hstate
      · rfl

/-- `co_start` starts a coroutine, or makes no move. -/
theorem coStarted_move (mmap : Bool) (fn : Nat) (args : List U64) (s : Sched χ) :
    (coStarted mmap fn args s).view = s.view ∨ CoMove s.view (coStarted mmap fn args s).view := by
  obtain heq | ⟨co, c, hfree, hc, ⟨_, heq⟩ | ⟨_, heq⟩⟩ := coStarted_cases mmap fn args s
  · exact .inl (congrArg Sched.view heq)
  · rw [heq]
    exact .inl (view_setCo_of_state (hc.trans hfree.symm))
  · right
    have hview : Sched.view
        { setCo s co c with occupancy := Function.update s.occupancy co .live } =
        s.view.occupy co .live :=
      congrArg (fun v : SchedView => v.occupy co .live)
        (view_setCo_of_state (hc.trans hfree.symm))
    rw [heq, view_enqueue_markReady, hview]
    exact .start hfree

/-- `co_yield`: ready again, to the end of the queue, and back to `co_run`. -/
theorem coYield_eq (h : SchedInv s.view) (hco : s.control = .running co) :
    coYield s = switchToMain (enqueue (markReady s co) co) := by
  have hcurrent : s.current = some co := h.current co hco
  have hstate : (s.pool co).state = .running := h.state_of_running hco
  simp only [coYield, hcurrent, hstate, if_true]

/-- Which is a yield. -/
theorem coYield_move (h : SchedInv s.view) (hco : s.control = .running co) :
    CoMove s.view (coYield s).view := by
  have hview : (coYield s).view = { s.view.ready co with control := .returned co } := by
    rw [coYield_eq h hco, view_switchToMain _ co (by exact hco),
      view_enqueue_markReady]
  rw [hview]
  exact .yield hco

/-- A function that returns ends its coroutine. -/
theorem coProxyReturn_move (hco : s.control = .running co) :
    CoMove s.view (coProxyReturn co s).view := by
  have hview : (coProxyReturn co s).view =
      { (s.view.setState co .done).occupy co .leaving with control := .returned co } := by
    unfold coProxyReturn
    dsimp only
    rw [view_switchToMain _ co (by exact hco)]
    exact congrArg (fun v : SchedView => { v.occupy co .leaving with control := .returned co })
      (view_setState s co .done)
  rw [hview]
  exact .ret hco

/-- A round of `co_run` takes the next coroutine, or ends. -/
theorem coRunStep_loop_move (hloop : s.control = .loop) : CoMove s.view (coRunStep s).view := by
  unfold coRunStep
  rw [hloop]
  dsimp only
  cases hdeq : s.queue.dequeue with
  | mk first queue =>
    have hqueue : s.view.queue.dequeue.2 = queue := congrArg Prod.snd hdeq
    cases first with
    | none => exact hqueue ▸ .stop hloop (congrArg Prod.fst hdeq)
    | some co =>
      dsimp only
      rw [view_setState]
      exact hqueue ▸ .dispatch hloop (congrArg Prod.fst hdeq)

/-- When a coroutine has come back, its slot is freed if it is done. -/
theorem coRunStep_returned_move (h : SchedInv s.view) (hco : s.control = .returned co) :
    CoMove s.view (coRunStep s).view := by
  unfold coRunStep
  rw [hco]
  dsimp only
  by_cases hdone : (s.pool co).state = .done
  · have hleaving : s.occupancy co = .leaving := (h.leaving co).mpr hdone
    have hif : ((if (s.pool co).state = .done then setState s co .free else s).occupancy co =
        .leaving) := by rwa [if_pos hdone]
    rw [if_pos hif, if_pos hdone]
    have hview := view_setState s co .free
    have hmove : CoMove s.view
        { (s.view.setState co .free).occupy co .vacant with control := .loop } := .reap hco hdone
    rw [← hview] at hmove
    exact hmove
  · have hleaving : s.occupancy co ≠ .leaving := fun hl => hdone ((h.leaving co).mp hl)
    rw [if_neg hdone, if_neg hleaving]
    exact .again hco hdone


end Moves

/-! ## Blocked coroutines

A blocked coroutine is woken by the channel it is blocked on, and by nothing else. -/

section Aside

variable {s s' : Sched χ} {co : Slot}

@[simp] theorem sent_switchToMain (s : Sched χ) : (switchToMain s).sent = s.sent := by
  unfold switchToMain
  split <;> rfl

@[simp] theorem received_switchToMain (s : Sched χ) : (switchToMain s).received = s.received := by
  unfold switchToMain
  split <;> rfl

/-- Channels are left alone, and so is everyone who is blocked, before or after; nobody begins to
send. -/
structure Aside (s s' : Sched χ) : Prop where
  pool : ∀ i, (s.pool i).state = .blocked ∨ (s'.pool i).state = .blocked → s'.pool i = s.pool i
  pc : ∀ i ch data, (s'.pool i).pc = .send ch data → (s.pool i).pc = .send ch data
  chans : s'.chans = s.chans
  sent : s'.sent = s.sent
  received : s'.received = s.received

namespace Aside

/-- Nothing happens. -/
theorem refl (s : Sched χ) : Aside s s := ⟨fun _ _ => rfl, fun _ _ _ h => h, rfl, rfl, rfl⟩

/-- One coroutine changes that is not blocked before or after, and it does not begin to send. -/
theorem of_update (co : Slot) (hpool : ∀ i, i ≠ co → s'.pool i = s.pool i)
    (hbefore : (s.pool co).state ≠ .blocked) (hafter : (s'.pool co).state ≠ .blocked)
    (hpc : ∀ ch data, (s'.pool co).pc = .send ch data → (s.pool co).pc = .send ch data)
    (hchans : s'.chans = s.chans) (hsent : s'.sent = s.sent)
    (hreceived : s'.received = s.received) : Aside s s' := by
  refine ⟨fun i hi => hpool i ?_, fun i ch data hi => ?_, hchans, hsent, hreceived⟩
  · rintro rfl
    exact hi.elim hbefore hafter
  · rcases eq_or_ne i co with rfl | hne
    · exact hpc ch data hi
    · rwa [hpool i hne] at hi

/-- A start takes a slot that was free. -/
theorem start (mmap : Bool) (fn : Nat) (args : List U64) (s : Sched χ) :
    Aside s (coStarted mmap fn args s) := by
  obtain heq | ⟨co, c, hfree, hc, ⟨hpc, heq⟩ | ⟨hpc, heq⟩⟩ := coStarted_cases mmap fn args s <;>
    rw [heq]
  · exact refl s
  · exact of_update co (fun i hi => by simp [hi]) (by simp [hfree]) (by simp [hc]) (by simp [hpc])
      rfl rfl rfl
  · exact of_update co (fun i hi => by simp [hi]) (by simp [hfree]) (by simp) (by simp [hpc])
      rfl rfl rfl

/-- A yield leaves the channels. -/
theorem yield (h : SchedInv s.view) (hco : s.control = .running co) : Aside s (coYield s) := by
  have hstate : (s.pool co).state = .running := h.state_of_running hco
  rw [coYield_eq h hco]
  apply of_update co (fun i hi => by simp [hi])
  · simp [hstate]
  · simp
  · simp
  · simp
  · exact sent_switchToMain _
  · exact received_switchToMain _

/-- A coroutine that runs goes on in its function. -/
theorem go_on (hco : (s.pool co).state ≠ .blocked) : Aside s (setPc s co .user) :=
  of_update co (fun i hi => by simp [hi]) hco (by simpa using hco) (by simp) rfl rfl rfl

/-- So does the call of a coroutine's function. -/
theorem call (h : SchedInv s.view) (hco : s.control = .running co) :
    Aside s (coProxyCall co s) := by
  have hstate : (s.pool co).state = .running := h.state_of_running hco
  have hgo : Aside s (setPc s co .user) := go_on (by simp [hstate])
  exact ⟨hgo.pool, hgo.pc, hgo.chans, hgo.sent, hgo.received⟩

/-- So does its return. -/
theorem ret (h : SchedInv s.view) (hco : s.control = .running co) :
    Aside s (coProxyReturn co s) := by
  have hstate : (s.pool co).state = .running := h.state_of_running hco
  apply of_update co (fun i hi => by simp [coProxyReturn, hi])
  · simp [hstate]
  · simp [coProxyReturn]
  · simp [coProxyReturn]
  · simp [coProxyReturn]
  · exact sent_switchToMain _
  · exact received_switchToMain _

/-- So does a round of `co_run`. -/
theorem loop (h : SchedInv s.view) (hloop : s.control = .loop) : Aside s (coRunStep s) := by
  unfold coRunStep
  rw [hloop]
  dsimp only
  cases hdeq : s.queue.dequeue with
  | mk first queue =>
    cases first with
    | none => exact ⟨fun _ _ => rfl, fun _ _ _ h => h, rfl, rfl, rfl⟩
    | some co =>
      have hready : (s.pool co).state = .ready :=
        (h.toQueueInv.dispatch (congrArg Prod.fst hdeq)).1
      exact of_update co (fun i hi => by simp [hi]) (by simp [hready]) (by simp) (by simp)
        rfl rfl rfl

/-- And what it does after a coroutine has come back. -/
theorem returned (hco : s.control = .returned co) : Aside s (coRunStep s) := by
  unfold coRunStep
  rw [hco]
  dsimp only
  split
  next hdone =>
    exact of_update co (fun i hi => by simp [hi]) (by simp [hdone]) (by simp) (by simp) rfl rfl rfl
  next => exact ⟨fun _ _ => rfl, fun _ _ _ h => h, rfl, rfl, rfl⟩

end Aside

end Aside

end Kxo
