import Kxo.Coro.Moves

/-!
# Kxo — waiters (`user/coro.c`)

A coroutine recorded as the waiter of a channel is blocked in a call on it. So waking it is a move
of the scheduler, and the calls on channels are moves as well.

* **`Waiters`** — the invariant, for receivers and senders.
* **`blockOn`**, **`coChanSend_full`**, **`coChanRecv_empty`** — a call that cannot go on: the
  channel remembers the coroutine, and the coroutine blocks.
* **`sendElem`**, **`recvElem`**, **`coChanSend_room`**, **`coChanRecv_some`** — a call that can: an
  element is copied, and then the waiter of the other side is woken.
* **`coChanSend_move`**, **`coChanRecv_move`** — either way the call is one move of the scheduler,
  or none.
* **`Waiters.coChanSend`**, **`Waiters.coChanRecv`** — and keeps the invariant.
-/

namespace Kxo

variable {χ : Type} {s s' : Sched χ} {co : Slot} {ch : χ}

/-! ## Waiters

A channel has one field for a receiver and one for a sender. What an operation has to leave alone is
who is named there, and that the named ones are blocked. -/

/-- The waiter of a channel is blocked in a call on it. -/
structure Waiters (s : Sched χ) : Prop where
  recv : ∀ ch w, (s.chans ch).recvWaiter = some w →
    (s.pool w).state = .blocked ∧ (s.pool w).pc = .recv ch
  send : ∀ ch w, (s.chans ch).sendWaiter = some w →
    (s.pool w).state = .blocked ∧ ∃ data, (s.pool w).pc = .send ch data

/-- Every waiter was one before. -/
structure NoNewWaiter (s s' : Sched χ) : Prop where
  recv : ∀ ch w, (s'.chans ch).recvWaiter = some w → (s.chans ch).recvWaiter = some w
  send : ∀ ch w, (s'.chans ch).sendWaiter = some w → (s.chans ch).sendWaiter = some w

/-- Blocked coroutines are left alone, and no waiter is new. -/
theorem Waiters.frame (h : Waiters s)
    (hpool : ∀ i, (s.pool i).state = .blocked → s'.pool i = s.pool i)
    (hnew : NoNewWaiter s s') : Waiters s' where
  recv ch w hw := by
    obtain ⟨hstate, hpc⟩ := h.recv ch w (hnew.recv ch w hw)
    rw [hpool w hstate]
    exact ⟨hstate, hpc⟩
  send ch w hw := by
    obtain ⟨hstate, hpc⟩ := h.send ch w (hnew.send ch w hw)
    rw [hpool w hstate]
    exact ⟨hstate, hpc⟩

/-- With the channels as they were nobody waits anew. -/
theorem NoNewWaiter.of_eq (hchans : s'.chans = s.chans) : NoNewWaiter s s' :=
  ⟨fun ch w hw => by rwa [← hchans], fun ch w hw => by rwa [← hchans]⟩

/-- Operations aside of the channels keep the waiters: they touch nobody who is blocked. -/
theorem Waiters.aside (h : Waiters s) (haside : Aside s s') : Waiters s' :=
  h.frame (fun i hi => haside.pool i (.inl hi)) (.of_eq haside.chans)

/-- A coroutine that runs is no waiter. -/
theorem Waiters.ne_recv (h : Waiters s) (hco : (s.pool co).state = .running) (ch : χ) :
    (s.chans ch).recvWaiter ≠ some co := by
  intro hw
  have hstate := (h.recv ch co hw).1
  simp [hco] at hstate

/-- The running coroutine waits on no channel, as a sender either. -/
theorem Waiters.ne_send (h : Waiters s) (hco : (s.pool co).state = .running) (ch : χ) :
    (s.chans ch).sendWaiter ≠ some co := by
  intro hw
  have hstate := (h.send ch co hw).1
  simp [hco] at hstate

/-! ## Calls on channels

Each call tests once a step: it blocks, or it copies and returns. After a wake-up the test is made
again. -/

variable [DecidableEq χ]

@[simp] theorem pool_setChan (s : Sched χ) (ch : χ) (c : CoChan) : (setChan s ch c).pool = s.pool :=
  rfl

@[simp] theorem chans_setChan (s : Sched χ) (ch : χ) (c : CoChan) :
    (setChan s ch c).chans = Function.update s.chans ch c := rfl

@[simp] theorem view_setChan (s : Sched χ) (ch : χ) (c : CoChan) :
    (setChan s ch c).view = s.view := rfl

/-- How a call that blocks leaves the state: its channel and where its coroutine goes on. -/
def blockOn (s : Sched χ) (co : Slot) (ch : χ) (c : CoChan) (pc : Pc χ) : Sched χ :=
  switchToMain (setState (setPc (setChan s ch c) co pc) co .blocked)

@[simp] theorem pool_blockOn (s : Sched χ) (co : Slot) (ch : χ) (c : CoChan) (pc : Pc χ) :
    (blockOn s co ch c pc).pool =
      Function.update s.pool co { s.pool co with pc, state := .blocked } := by
  simp [blockOn]

@[simp] theorem chans_blockOn (s : Sched χ) (co : Slot) (ch : χ) (c : CoChan) (pc : Pc χ) :
    (blockOn s co ch c pc).chans = Function.update s.chans ch c := by
  simp [blockOn]

/-- A call that blocks is a move. -/
theorem blockOn_move (hco : s.control = .running co) (c : CoChan) (pc : Pc χ) :
    CoMove s.view (blockOn s co ch c pc).view := by
  have hview : (blockOn s co ch c pc).view =
      { s.view.setState co .blocked with control := .returned co } := by
    rw [blockOn, view_switchToMain _ co (by exact hco)]
    simp
  rw [hview]
  exact .block hco

omit [DecidableEq χ] in

/-- The running coroutine is blocked, and control goes back to `co_run`. -/
theorem blockCurrent_eq (hcurrent : s.current = some co) :
    blockCurrent s = switchToMain (setState s co .blocked) := by
  simp only [blockCurrent, hcurrent]

/-- A send into a full channel blocks. -/
theorem coChanSend_full (hcurrent : s.current = some co) {data : List Byte}
    (hfull : (s.chans ch).cap ≤ (s.chans ch).count) :
    coChanSend co ch data s =
      blockOn s co ch { s.chans ch with sendWaiter := some co } (.send ch data) := by
  rw [coChanSend, if_pos hfull, hcurrent]
  exact blockCurrent_eq hcurrent

/-- A receive from an empty channel blocks. -/
theorem coChanRecv_empty (hcurrent : s.current = some co) (hempty : (s.chans ch).count = 0) :
    coChanRecv co ch s =
      blockOn s co ch { s.chans ch with recvWaiter := some co } (.recv ch) := by
  rw [coChanRecv, if_pos hempty, hcurrent]
  exact blockCurrent_eq hcurrent

/-! ### Wake-ups

`wakeReceiver` and `wakeSender` are the same code on the two fields. -/

/-- Nobody to wake. -/
theorem wakeReceiver_none (hw : (s.chans ch).recvWaiter = none) : wakeReceiver s ch = s := by
  simp only [wakeReceiver, hw]

/-- The receiver is ready and queued, and remembered no longer. -/
theorem wakeReceiver_some {w : Slot} (hw : (s.chans ch).recvWaiter = some w) :
    wakeReceiver s ch =
      setChan (enqueue (markReady s w) w) ch { s.chans ch with recvWaiter := none } := by
  simp only [wakeReceiver, hw]
  rfl

/-- Nobody to wake. -/
theorem wakeSender_none (hw : (s.chans ch).sendWaiter = none) : wakeSender s ch = s := by
  simp only [wakeSender, hw]

/-- The sender is ready and queued, and remembered no longer. -/
theorem wakeSender_some {w : Slot} (hw : (s.chans ch).sendWaiter = some w) :
    wakeSender s ch =
      setChan (enqueue (markReady s w) w) ch { s.chans ch with sendWaiter := none } := by
  simp only [wakeSender, hw]
  rfl

/-- A wake-up takes the waiter off its channel. -/
theorem chans_wakeReceiver (s : Sched χ) (ch : χ) :
    (wakeReceiver s ch).chans =
      Function.update s.chans ch { s.chans ch with recvWaiter := none } := by
  cases hw : (s.chans ch).recvWaiter with
  | none =>
    rw [wakeReceiver_none hw, ← hw]
    exact (Function.update_eq_self ch s.chans).symm
  | some w =>
    rw [wakeReceiver_some hw]
    rfl

/-- The channel after waking its sender. -/
theorem chans_wakeSender (s : Sched χ) (ch : χ) :
    (wakeSender s ch).chans =
      Function.update s.chans ch { s.chans ch with sendWaiter := none } := by
  cases hw : (s.chans ch).sendWaiter with
  | none =>
    rw [wakeSender_none hw, ← hw]
    exact (Function.update_eq_self ch s.chans).symm
  | some w =>
    rw [wakeSender_some hw]
    rfl

/-- Who is not the waiter is left alone. -/
theorem pool_wakeReceiver {i : Slot} (hi : (s.chans ch).recvWaiter ≠ some i) :
    (wakeReceiver s ch).pool i = s.pool i := by
  cases hw : (s.chans ch).recvWaiter with
  | none => rw [wakeReceiver_none hw]
  | some w =>
    have hne : i ≠ w := by
      rintro rfl
      exact hi hw
    rw [wakeReceiver_some hw]
    simp [hne]

/-- Everyone else is as before. -/
theorem pool_wakeSender {i : Slot} (hi : (s.chans ch).sendWaiter ≠ some i) :
    (wakeSender s ch).pool i = s.pool i := by
  cases hw : (s.chans ch).sendWaiter with
  | none => rw [wakeSender_none hw]
  | some w =>
    have hne : i ≠ w := by
      rintro rfl
      exact hi hw
    rw [wakeSender_some hw]
    simp [hne]

/-- Waking a receiver is a move of the scheduler, or none. -/
theorem wakeReceiver_move (h : Waiters s) (ch : χ) :
    (wakeReceiver s ch).view = s.view ∨ CoMove s.view (wakeReceiver s ch).view := by
  cases hw : (s.chans ch).recvWaiter with
  | none => exact .inl (congrArg Sched.view (wakeReceiver_none hw))
  | some w =>
    right
    rw [wakeReceiver_some hw, view_setChan, view_enqueue_markReady]
    exact .wake (h.recv ch w hw).1

/-- So is waking a sender. -/
theorem wakeSender_move (h : Waiters s) (ch : χ) :
    (wakeSender s ch).view = s.view ∨ CoMove s.view (wakeSender s ch).view := by
  cases hw : (s.chans ch).sendWaiter with
  | none => exact .inl (congrArg Sched.view (wakeSender_none hw))
  | some w =>
    right
    rw [wakeSender_some hw, view_setChan, view_enqueue_markReady]
    exact .wake (h.send ch w hw).1

/-! ### Who waits after an update

The invariant after each way in which a channel is written. -/

/-- One channel changes, and has the waiters it had or none. -/
theorem NoNewWaiter.of_update {c : CoChan} (hchans : s'.chans = Function.update s.chans ch c)
    (hrecv : ∀ w, c.recvWaiter = some w → (s.chans ch).recvWaiter = some w)
    (hsend : ∀ w, c.sendWaiter = some w → (s.chans ch).sendWaiter = some w) :
    NoNewWaiter s s' := by
  refine ⟨fun ch' w hw => ?_, fun ch' w hw => ?_⟩ <;> rw [hchans] at hw <;>
    rcases eq_or_ne ch' ch with rfl | hne
  · exact hrecv w (by rwa [Function.update_self] at hw)
  · rwa [Function.update_of_ne hne] at hw
  · exact hsend w (by rwa [Function.update_self] at hw)
  · rwa [Function.update_of_ne hne] at hw

/-- A wake-up makes nobody wait. -/
theorem NoNewWaiter.wake_recv (s : Sched χ) (ch : χ) : NoNewWaiter s (wakeReceiver s ch) :=
  .of_update (chans_wakeReceiver s ch) (fun w hw => by simp at hw) fun w hw => hw

/-- On either side. -/
theorem NoNewWaiter.wake_send (s : Sched χ) (ch : χ) : NoNewWaiter s (wakeSender s ch) :=
  .of_update (chans_wakeSender s ch) (fun w hw => hw) fun w hw => by simp at hw

/-- The coroutine that blocks may become a waiter of its channel. -/
theorem Waiters.block (h : Waiters s) (hco : (s.pool co).state = .running) {c : CoChan} {pc : Pc χ}
    (hrecv : ∀ w, c.recvWaiter = some w →
      (s.chans ch).recvWaiter = some w ∨ w = co ∧ pc = .recv ch)
    (hsend : ∀ w, c.sendWaiter = some w →
      (s.chans ch).sendWaiter = some w ∨ w = co ∧ ∃ data, pc = .send ch data) :
    Waiters (blockOn s co ch c pc) := by
  have hne : ∀ w, (s.pool w).state = .blocked → w ≠ co := by
    rintro w hw rfl
    simp [hco] at hw
  -- a waiter of before is another coroutine, which stays as it is
  have hrecv_old : ∀ ch' w, (s.chans ch').recvWaiter = some w →
      ((blockOn s co ch c pc).pool w).state = .blocked ∧
        ((blockOn s co ch c pc).pool w).pc = .recv ch' := by
    intro ch' w hw
    obtain ⟨hstate, hpc⟩ := h.recv ch' w hw
    rw [pool_blockOn, Function.update_of_ne (hne w hstate)]
    exact ⟨hstate, hpc⟩
  have hsend_old : ∀ ch' w, (s.chans ch').sendWaiter = some w →
      ((blockOn s co ch c pc).pool w).state = .blocked ∧
        ∃ data, ((blockOn s co ch c pc).pool w).pc = .send ch' data := by
    intro ch' w hw
    obtain ⟨hstate, hpc⟩ := h.send ch' w hw
    rw [pool_blockOn, Function.update_of_ne (hne w hstate)]
    exact ⟨hstate, hpc⟩
  refine ⟨fun ch' w hw => ?_, fun ch' w hw => ?_⟩
  · rw [chans_blockOn] at hw
    rcases eq_or_ne ch' ch with rfl | hch
    · rw [Function.update_self] at hw
      obtain hw | ⟨rfl, hpc⟩ := hrecv w hw
      · exact hrecv_old ch' w hw
      · simp [hpc]
    · rw [Function.update_of_ne hch] at hw
      exact hrecv_old ch' w hw
  · rw [chans_blockOn] at hw
    rcases eq_or_ne ch' ch with rfl | hch
    · rw [Function.update_self] at hw
      obtain hw | ⟨rfl, hpc⟩ := hsend w hw
      · exact hsend_old ch' w hw
      · simp [hpc]
    · rw [Function.update_of_ne hch] at hw
      exact hsend_old ch' w hw

/-- A woken receiver was the waiter of no other channel. -/
theorem Waiters.wake_recv (h : Waiters s) (ch : χ) : Waiters (wakeReceiver s ch) := by
  have hnew := NoNewWaiter.wake_recv s ch
  have hchans := chans_wakeReceiver s ch
  refine ⟨fun ch' i hi => ?_, fun ch' i hi => ?_⟩
  · obtain ⟨hstate, hpc⟩ := h.recv ch' i (hnew.recv ch' i hi)
    have hother : (s.chans ch).recvWaiter ≠ some i := by
      intro hw
      obtain rfl : ch' = ch := Pc.recv.inj (hpc.symm.trans (h.recv ch i hw).2)
      simp [hchans] at hi
    rw [pool_wakeReceiver hother]
    exact ⟨hstate, hpc⟩
  · obtain ⟨hstate, data, hpc⟩ := h.send ch' i (hnew.send ch' i hi)
    have hother : (s.chans ch).recvWaiter ≠ some i := by
      intro hw
      simp [(h.recv ch i hw).2] at hpc
    rw [pool_wakeReceiver hother]
    exact ⟨hstate, data, hpc⟩

/-- A woken sender was the waiter of no other channel. -/
theorem Waiters.wake_send (h : Waiters s) (ch : χ) : Waiters (wakeSender s ch) := by
  have hnew := NoNewWaiter.wake_send s ch
  have hchans := chans_wakeSender s ch
  refine ⟨fun ch' i hi => ?_, fun ch' i hi => ?_⟩
  · obtain ⟨hstate, hpc⟩ := h.recv ch' i (hnew.recv ch' i hi)
    have hother : (s.chans ch).sendWaiter ≠ some i := by
      intro hw
      obtain ⟨_, data, hsend⟩ := h.send ch i hw
      simp [hpc] at hsend
    rw [pool_wakeSender hother]
    exact ⟨hstate, hpc⟩
  · obtain ⟨hstate, data, hpc⟩ := h.send ch' i (hnew.send ch' i hi)
    have hother : (s.chans ch).sendWaiter ≠ some i := by
      intro hw
      obtain ⟨_, data', hsend⟩ := h.send ch i hw
      obtain rfl : ch' = ch := (Pc.send.inj (hpc.symm.trans hsend)).1
      simp [hchans] at hi
    rw [pool_wakeSender hother]
    exact ⟨hstate, data, hpc⟩

/-! ## Sending and receiving

The calls put together from their parts. -/

/-- An element of a send is in its channel, the receiver not yet woken. -/
def sendElem (s : Sched χ) (ch : χ) (data : List Byte) : Sched χ :=
  { setChan s ch ((s.chans ch).put data) with
    sent := Function.update s.sent ch (s.sent ch ++ [data]) }

/-- An element of a receive is out of its channel, the sender not yet woken. -/
def recvElem (s : Sched χ) (ch : χ) : Sched χ :=
  { setChan s ch (s.chans ch).advance with
    received := Function.update s.received ch (s.received ch ++ [(s.chans ch).front]) }

/-- A send with room copies, wakes the receiver and returns. -/
theorem coChanSend_room {data : List Byte} (hroom : (s.chans ch).count < (s.chans ch).cap) :
    coChanSend co ch data s = setPc (wakeReceiver (sendElem s ch data) ch) co .user := by
  rw [coChanSend, if_neg (Nat.not_le.mpr hroom)]
  rfl

/-- A receive with an element copies, wakes the sender and returns. -/
theorem coChanRecv_some (hsome : (s.chans ch).count ≠ 0) :
    coChanRecv co ch s = setPc (wakeSender (recvElem s ch) ch) co .user := by
  rw [coChanRecv, if_neg hsome]
  rfl

/-- Copying in makes nobody wait. -/
theorem NoNewWaiter.send_elem (s : Sched χ) (ch : χ) (data : List Byte) :
    NoNewWaiter s (sendElem s ch data) :=
  @of_update _ s _ ch _ ((s.chans ch).put data) rfl (fun _ hw => hw) fun _ hw => hw

/-- Nor does copying out. -/
theorem NoNewWaiter.recv_elem (s : Sched χ) (ch : χ) : NoNewWaiter s (recvElem s ch) :=
  @of_update _ s _ ch _ (s.chans ch).advance rfl (fun _ hw => hw) fun _ hw => hw

/-- Copying in keeps the waiters. -/
theorem Waiters.send_elem (h : Waiters s) (ch : χ) (data : List Byte) :
    Waiters (sendElem s ch data) := h.frame (fun _ _ => rfl) (.send_elem s ch data)

/-- So does copying out. -/
theorem Waiters.recv_elem (h : Waiters s) (ch : χ) : Waiters (recvElem s ch) :=
  h.frame (fun _ _ => rfl) (.recv_elem s ch)

/-- The caller of a send that is done keeps running. -/
theorem pool_sent (h : Waiters s) (hco : (s.pool co).state = .running) (ch : χ)
    (data : List Byte) : (wakeReceiver (sendElem s ch data) ch).pool co = s.pool co :=
  pool_wakeReceiver ((h.send_elem ch data).ne_recv hco ch)

/-- The running coroutine is not the one that is woken. -/
theorem pool_received (h : Waiters s) (hco : (s.pool co).state = .running) (ch : χ) :
    (wakeSender (recvElem s ch) ch).pool co = s.pool co :=
  pool_wakeSender ((h.recv_elem ch).ne_send hco ch)

/-- `co_chan_send`, whether it blocks or not. -/
theorem Waiters.coChanSend (h : Waiters s) (hinv : SchedInv s.view)
    (hco : s.control = .running co) (ch : χ) (data : List Byte) :
    Waiters (coChanSend co ch data s) := by
  have hstate : (s.pool co).state = .running := hinv.state_of_running hco
  rcases Nat.lt_or_ge (s.chans ch).count (s.chans ch).cap with hroom | hfull
  · rw [coChanSend_room hroom]
    apply ((h.send_elem ch data).wake_recv ch).aside
    apply Aside.go_on
    rw [pool_sent h hstate, hstate]
    simp
  · rw [coChanSend_full (hinv.current co hco) hfull]
    exact h.block hstate (fun w hw => .inl hw) fun w hw =>
      .inr ⟨(Option.some.inj hw).symm, data, rfl⟩

/-- `co_chan_recv`, whether it blocks or not. -/
theorem Waiters.coChanRecv (h : Waiters s) (hinv : SchedInv s.view)
    (hco : s.control = .running co) (ch : χ) : Waiters (coChanRecv co ch s) := by
  have hstate : (s.pool co).state = .running := hinv.state_of_running hco
  rcases Nat.eq_zero_or_pos (s.chans ch).count with hempty | hsome
  · rw [coChanRecv_empty (hinv.current co hco) hempty]
    exact h.block hstate (fun w hw => .inr ⟨(Option.some.inj hw).symm, rfl⟩) fun w hw => .inl hw
  · rw [coChanRecv_some hsome.ne']
    apply ((h.recv_elem ch).wake_send ch).aside
    apply Aside.go_on
    rw [pool_received h hstate, hstate]
    simp

/-- `co_chan_send` as a move of the scheduler. -/
theorem coChanSend_move (h : Waiters s) (hinv : SchedInv s.view) (hco : s.control = .running co)
    (ch : χ) (data : List Byte) :
    (coChanSend co ch data s).view = s.view ∨ CoMove s.view (coChanSend co ch data s).view := by
  rcases Nat.lt_or_ge (s.chans ch).count (s.chans ch).cap with hroom | hfull
  · rw [coChanSend_room hroom, view_setPc]
    exact wakeReceiver_move (h.send_elem ch data) ch
  · rw [coChanSend_full (hinv.current co hco) hfull]
    exact .inr (blockOn_move hco _ _)

/-- `co_chan_recv` as a move of the scheduler. -/
theorem coChanRecv_move (h : Waiters s) (hinv : SchedInv s.view) (hco : s.control = .running co)
    (ch : χ) :
    (coChanRecv co ch s).view = s.view ∨ CoMove s.view (coChanRecv co ch s).view := by
  rcases Nat.eq_zero_or_pos (s.chans ch).count with hempty | hsome
  · rw [coChanRecv_empty (hinv.current co hco) hempty]
    exact .inr (blockOn_move hco _ _)
  · rw [coChanRecv_some hsome.ne', view_setPc]
    exact wakeSender_move (h.recv_elem ch) ch

end Kxo
