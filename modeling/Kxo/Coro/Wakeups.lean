import Kxo.Coro.RunQueue

/-!
# Kxo — lost wake-ups (`user/coro.c`)

A channel remembers one blocked receiver and one blocked sender. A second receiver that blocks takes
the place of the first, which no send will wake: it stays blocked for good, and `co_run` can return
with elements in its channel. In runs where no coroutine blocks over another this does not happen.
-/

namespace Kxo

variable {χ : Type} {s s' t : Sched χ} {e : CoEvent χ} {co : Slot} {ch : χ}

/-- No coroutine is blocked on a channel that it could use. -/
def NoLostWakeup (s : Sched χ) : Prop :=
  ∀ co ch, (s.pool co).state = .blocked →
    ((s.pool co).pc = .recv ch → (s.chans ch).count = 0) ∧
      ∀ data, (s.pool co).pc = .send ch data → (s.chans ch).cap ≤ (s.chans ch).count

/-- No coroutine blocks on a channel that already has a waiter for the same direction. -/
def KeepsWaiter (s : Sched χ) (e : CoEvent χ) : Prop :=
  (∀ co ch, AtRecv s e co ch → (s.chans ch).count = 0 → (s.chans ch).recvWaiter = none) ∧
    ∀ co ch data, AtSend s e co ch data → (s.chans ch).cap ≤ (s.chans ch).count →
      (s.chans ch).sendWaiter = none

/-- Every blocked coroutine is the waiter of its channel, which it cannot use. -/
structure WakeInv (s : Sched χ) : Prop where
  recv : ∀ co ch, (s.pool co).state = .blocked → (s.pool co).pc = .recv ch →
    (s.chans ch).recvWaiter = some co ∧ (s.chans ch).count = 0
  send : ∀ co ch data, (s.pool co).state = .blocked → (s.pool co).pc = .send ch data →
    (s.chans ch).sendWaiter = some co ∧ (s.chans ch).cap ≤ (s.chans ch).count

namespace WakeInv

/-- Operations aside of the channels lose no wake-up. -/
theorem aside (h : WakeInv s) (haside : Aside s s') : WakeInv s' where
  recv i ch hstate hpc := by
    have hi := haside.pool i (.inr hstate)
    rw [hi] at hstate hpc
    rw [haside.chans]
    exact h.recv i ch hstate hpc
  send i ch data hstate hpc := by
    have hi := haside.pool i (.inr hstate)
    rw [hi] at hstate hpc
    rw [haside.chans]
    exact h.send i ch data hstate hpc

variable [DecidableEq χ]

/-- A receiver blocks where no other waits. -/
theorem block_recv (h : WakeInv s) (hempty : (s.chans ch).count = 0)
    (hnone : (s.chans ch).recvWaiter = none) :
    WakeInv (blockOn s co ch { s.chans ch with recvWaiter := some co } (.recv ch)) where
  recv i ch' hstate hpc := by
    rcases eq_or_ne i co with rfl | hne
    · obtain rfl : ch = ch' := by simpa using hpc
      simp [hempty]
    · have hold := h.recv i ch' (by simpa [hne] using hstate) (by simpa [hne] using hpc)
      have hch : ch' ≠ ch := by
        rintro rfl
        simp [hnone] at hold
      simpa [hch] using hold
  send i ch' data hstate hpc := by
    rcases eq_or_ne i co with rfl | hne
    · simp at hpc
    · have hold := h.send i ch' data (by simpa [hne] using hstate) (by simpa [hne] using hpc)
      rcases eq_or_ne ch' ch with rfl | hch
      · simpa using hold
      · simpa [hch] using hold

/-- A sender blocks where no other waits. -/
theorem block_send {data : List Byte} (h : WakeInv s)
    (hfull : (s.chans ch).cap ≤ (s.chans ch).count) (hnone : (s.chans ch).sendWaiter = none) :
    WakeInv (blockOn s co ch { s.chans ch with sendWaiter := some co } (.send ch data)) where
  recv i ch' hstate hpc := by
    rcases eq_or_ne i co with rfl | hne
    · simp at hpc
    · have hold := h.recv i ch' (by simpa [hne] using hstate) (by simpa [hne] using hpc)
      rcases eq_or_ne ch' ch with rfl | hch
      · simpa using hold
      · simpa [hch] using hold
  send i ch' data' hstate hpc := by
    rcases eq_or_ne i co with rfl | hne
    · obtain ⟨rfl, _⟩ : ch = ch' ∧ data = data' := by simpa using hpc
      simp [hfull]
    · have hold := h.send i ch' data' (by simpa [hne] using hstate) (by simpa [hne] using hpc)
      have hch : ch' ≠ ch := by
        rintro rfl
        simp [hnone] at hold
      simpa [hch] using hold

end WakeInv

/-! ## Waking

A wake-up that comes goes to the waiter of the channel; everyone else who is blocked stays so. -/

section Wake

variable [DecidableEq χ] {i : Slot}

/-- Who is still blocked after a wake-up was blocked, and not the waiter. -/
theorem wakeReceiver_blocked (hi : ((wakeReceiver s ch).pool i).state = .blocked) :
    (wakeReceiver s ch).pool i = s.pool i ∧ (s.chans ch).recvWaiter ≠ some i := by
  have hother : (s.chans ch).recvWaiter ≠ some i := by
    intro hw
    simp [wakeReceiver_some hw] at hi
  exact ⟨pool_wakeReceiver hother, hother⟩

/-- Who is blocked after waking a sender was not that sender. -/
theorem wakeSender_blocked (hi : ((wakeSender s ch).pool i).state = .blocked) :
    (wakeSender s ch).pool i = s.pool i ∧ (s.chans ch).sendWaiter ≠ some i := by
  have hother : (s.chans ch).sendWaiter ≠ some i := by
    intro hw
    simp [wakeSender_some hw] at hi
  exact ⟨pool_wakeSender hother, hother⟩

/-- Who is blocked after a send that was done was blocked before, and not the receiver woken. -/
theorem coChanSend_blocked {data : List Byte} (hw : Waiters s)
    (hco : (s.pool co).state = .running) (hroom : (s.chans ch).count < (s.chans ch).cap)
    (hi : ((coChanSend co ch data s).pool i).state = .blocked) :
    (coChanSend co ch data s).pool i = s.pool i ∧ (s.chans ch).recvWaiter ≠ some i := by
  rw [coChanSend_room hroom] at hi ⊢
  have hne : i ≠ co := by
    rintro rfl
    simp [pool_sent hw hco, hco] at hi
  rw [pool_setPc, Function.update_of_ne hne] at hi ⊢
  simpa [sendElem, CoChan.put] using wakeReceiver_blocked hi

/-- Nor after a receive that copies. -/
theorem coChanRecv_blocked (hw : Waiters s) (hco : (s.pool co).state = .running)
    (hsome : (s.chans ch).count ≠ 0)
    (hi : ((coChanRecv co ch s).pool i).state = .blocked) :
    (coChanRecv co ch s).pool i = s.pool i ∧ (s.chans ch).sendWaiter ≠ some i := by
  rw [coChanRecv_some hsome] at hi ⊢
  have hne : i ≠ co := by
    rintro rfl
    simp [pool_received hw hco, hco] at hi
  rw [pool_setPc, Function.update_of_ne hne] at hi ⊢
  simpa [recvElem, CoChan.advance] using wakeSender_blocked hi

/-- A send with room touches its own channel only. -/
theorem chans_coChanSend_of_ne {ch' : χ} {data : List Byte}
    (hroom : (s.chans ch).count < (s.chans ch).cap) (hne : ch' ≠ ch) :
    (coChanSend co ch data s).chans ch' = s.chans ch' := by
  rw [coChanSend_room hroom, chans_setPc, chans_wakeReceiver, Function.update_of_ne hne]
  exact Function.update_of_ne hne _ _

/-- So does a receive with an element. -/
theorem chans_coChanRecv_of_ne {ch' : χ} (hsome : (s.chans ch).count ≠ 0) (hne : ch' ≠ ch) :
    (coChanRecv co ch s).chans ch' = s.chans ch' := by
  rw [coChanRecv_some hsome, chans_setPc, chans_wakeSender, Function.update_of_ne hne]
  exact Function.update_of_ne hne _ _

end Wake

/-! ## Runs that overwrite no waiter

Then the blocked ones are the waiters, and a channel with a waiter is empty or full. -/

section Runs

variable [DecidableEq χ] {elemSize cap : χ → Nat}

/-- `co_chan_send`, where it overwrites no waiter. -/
theorem WakeInv.coChanSend {data : List Byte} (h : WakeInv s) (hw : Waiters s)
    (hinv : SchedInv s.view) (hat : AtSend s e co ch data) (hkeep : KeepsWaiter s e) :
    WakeInv (coChanSend co ch data s) := by
  have hrun : (s.pool co).state = .running := hinv.state_of_running hat.1
  rcases Nat.lt_or_ge (s.chans ch).count (s.chans ch).cap with hroom | hfull
  · refine ⟨fun i ch' hstate hpc => ?_, fun i ch' data' hstate hpc => ?_⟩
    · obtain ⟨hsame, hnot⟩ := coChanSend_blocked hw hrun hroom hstate
      rw [hsame] at hstate hpc
      have hold := h.recv i ch' hstate hpc
      -- the one receiver that waited on this channel has been woken
      have hch : ch' ≠ ch := by
        rintro rfl
        exact hnot hold.1
      rwa [chans_coChanSend_of_ne hroom hch]
    · obtain ⟨hsame, _⟩ := coChanSend_blocked hw hrun hroom hstate
      rw [hsame] at hstate hpc
      have hold := h.send i ch' data' hstate hpc
      -- no sender waits on a channel with room
      have hch : ch' ≠ ch := by
        rintro rfl
        exact absurd hold.2 (Nat.not_le.mpr hroom)
      rwa [chans_coChanSend_of_ne hroom hch]
  · rw [coChanSend_full (hinv.current co hat.1) hfull]
    exact h.block_send hfull (hkeep.2 co ch data hat hfull)

/-- `co_chan_recv`, where it overwrites no waiter. -/
theorem WakeInv.coChanRecv (h : WakeInv s) (hw : Waiters s) (hinv : SchedInv s.view)
    (hat : AtRecv s e co ch) (hkeep : KeepsWaiter s e) : WakeInv (coChanRecv co ch s) := by
  have hrun : (s.pool co).state = .running := hinv.state_of_running hat.1
  by_cases hempty : (s.chans ch).count = 0
  · rw [coChanRecv_empty (hinv.current co hat.1) hempty]
    exact h.block_recv hempty (hkeep.1 co ch hat hempty)
  · refine ⟨fun i ch' hstate hpc => ?_, fun i ch' data' hstate hpc => ?_⟩
    · obtain ⟨hsame, _⟩ := coChanRecv_blocked hw hrun hempty hstate
      rw [hsame] at hstate hpc
      have hold := h.recv i ch' hstate hpc
      -- no receiver waits on a channel with elements
      have hch : ch' ≠ ch := by
        rintro rfl
        exact hempty hold.2
      rwa [chans_coChanRecv_of_ne hempty hch]
    · obtain ⟨hsame, hnot⟩ := coChanRecv_blocked hw hrun hempty hstate
      rw [hsame] at hstate hpc
      have hold := h.send i ch' data' hstate hpc
      -- the one sender that waited on this channel has been woken
      have hch : ch' ≠ ch := by
        rintro rfl
        exact hnot hold.1
      rwa [chans_coChanRecv_of_ne hempty hch]

/-- Every step that overwrites no waiter. -/
theorem CoAction.wake (hact : CoAction s e s') (hinv : CoInv s) (hkeep : KeepsWaiter s e)
    (h : WakeInv s) : WakeInv s' := by
  obtain ⟨hsched, hw⟩ := hinv
  obtain haside | ⟨co, ch, data, hat, rfl⟩ | ⟨co, ch, hat, rfl⟩ := hact.aside_or hsched
  · exact h.aside haside
  · exact h.coChanSend hw hsched hat hkeep
  · exact h.coChanRecv hw hsched hat hkeep

/-- In every state of a run that overwrites none. -/
theorem wake_invariant (elemSize cap : χ → Nat) :
    ((coSystem elemSize cap).restrict KeepsWaiter).Invariant fun s => CoInv s ∧ WakeInv s := by
  refine ((coInv_invariant elemSize cap).restrict KeepsWaiter).and ?_ ?_
  · rintro s rfl
    exact ⟨fun i ch h => by simp [coInit] at h, fun i ch data h => by simp [coInit] at h⟩
  · rintro s e s' hinv h ⟨hkeep, hstep⟩
    exact (coStep_cases hstep).wake hinv hkeep h

/-- **No wake-up is lost where no waiter is overwritten.** In every state of a run in which no
coroutine blocks over another, those blocked cannot go on. -/
theorem no_lost_wakeup (elemSize cap : χ → Nat)
    (hr : ((coSystem elemSize cap).restrict KeepsWaiter).Reachable s) : NoLostWakeup s := by
  obtain ⟨_, h⟩ := (wake_invariant elemSize cap).holds hr
  exact fun co ch hstate => ⟨fun hpc => (h.recv co ch hstate hpc).2,
    fun data hpc => (h.send co ch data hstate hpc).2⟩

omit [DecidableEq χ] in

/-- Where nobody waits nobody is overwritten. -/
theorem keepsWaiter_of_none
    (h : ∀ ch, (s.chans ch).recvWaiter = none ∧ (s.chans ch).sendWaiter = none) :
    KeepsWaiter s e :=
  ⟨fun _ ch _ _ => (h ch).1, fun _ ch _ _ _ => (h ch).2⟩

/-- A receiver has blocked on an empty channel. -/
theorem no_lost_wakeup_blocked :
    NoLostWakeup (coChanRecv ⟨0, by decide⟩ () (coProxyCall ⟨0, by decide⟩ (coRunStep
      { coStarted true 0 [] (coInit (fun _ : Unit => 1) fun _ => 2) with control := .loop }))) := by
  apply no_lost_wakeup (fun _ : Unit => 1) fun _ => 2
  have hstart : ((coSystem (fun _ : Unit => 1) fun _ => 2).restrict KeepsWaiter).Reachable
      (coStarted true 0 [] (coInit (fun _ : Unit => 1) fun _ => 2)) :=
    .step (e := .start true 0 []) (.init rfl) ⟨keepsWaiter_of_none fun _ => ⟨rfl, rfl⟩, rfl⟩
  apply System.Reachable.step (e := .recv ())
  · apply System.Reachable.step (e := .resume)
    · apply System.Reachable.step (e := .sched)
      · exact .step (e := .run) hstart ⟨keepsWaiter_of_none fun _ => ⟨rfl, rfl⟩, rfl⟩
      · exact ⟨keepsWaiter_of_none fun _ => ⟨rfl, rfl⟩, rfl⟩
    · exact ⟨keepsWaiter_of_none fun _ => ⟨rfl, rfl⟩, rfl⟩
  · exact ⟨keepsWaiter_of_none fun _ => ⟨rfl, rfl⟩, rfl⟩

/-- Two coroutines receive from a channel of capacity 2, and a third sends to it twice. -/
def lostWakeupEvents : List (CoEvent Unit) :=
  [.start true 0 [], .start true 0 [], .start true 0 [], .run,
    -- two receivers block, the second over the first
    .sched, .resume, .recv (), .sched, .sched, .resume, .recv (), .sched,
    -- two elements are sent, of which the second receiver takes one
    .sched, .resume, .send () [1], .send () [2], .ret, .sched, .sched, .resume, .ret, .sched,
    .sched]

/-- `co_run` returns with the first receiver blocked and an element in the channel. -/
theorem wakeup_lost :
    ∃ s, coSteps (coInit (fun _ : Unit => 1) fun _ => 2) lostWakeupEvents = some s ∧
      s.control = .main ∧ ¬ NoLostWakeup s := by
  have hend : (coSteps (coInit (fun _ : Unit => 1) fun _ => 2) lostWakeupEvents).map
      (fun s => (s.control, (s.pool ⟨0, by decide⟩).state, (s.pool ⟨0, by decide⟩).pc,
        (s.chans ()).count)) = some (.main, .blocked, .recv (), 1) := rfl
  obtain ⟨s, hs, heq⟩ := Option.map_eq_some_iff.mp hend
  simp only [Prod.mk.injEq] at heq
  obtain ⟨hcontrol, hblocked, hpc, hcount⟩ := heq
  refine ⟨s, hs, hcontrol, fun h => ?_⟩
  have hzero := (h _ () hblocked).1 hpc
  omega

/-! ## What is overwritten

The converse: a coroutine that no channel remembers is never woken. -/

/-- Blocked, and the waiter of no channel. -/
structure Forgotten (s : Sched χ) (i : Slot) : Prop where
  blocked : (s.pool i).state = .blocked
  recv : ∀ ch, (s.chans ch).recvWaiter ≠ some i
  send : ∀ ch, (s.chans ch).sendWaiter ≠ some i

namespace Forgotten

variable {i : Slot}

omit [DecidableEq χ] in

/-- A forgotten coroutine is blocked, so it is not the one that runs. -/
theorem ne_running (h : Forgotten s i) (hinv : SchedInv s.view) (hco : s.control = .running co) :
    i ≠ co := by
  rintro rfl
  have hstate : (s.pool i).state = .running := hinv.state_of_running hco
  rw [h.blocked] at hstate
  simp at hstate

omit [DecidableEq χ] in
/-- They are left alone, and no waiter is new. -/
theorem frame (h : Forgotten s i) (hpool : s'.pool i = s.pool i) (hnew : NoNewWaiter s s') :
    Forgotten s' i where
  blocked := by
    rw [hpool]
    exact h.blocked
  recv ch hw := h.recv ch (hnew.recv ch i hw)
  send ch hw := h.send ch (hnew.send ch i hw)

/-- Another coroutine blocks. -/
theorem block (h : Forgotten s i) (hne : i ≠ co) {c : CoChan} {pc : Pc χ}
    (hrecv : c.recvWaiter ≠ some i) (hsend : c.sendWaiter ≠ some i) :
    Forgotten (blockOn s co ch c pc) i := by
  refine ⟨by simpa [hne] using h.blocked, fun ch' hw => ?_, fun ch' hw => ?_⟩ <;>
    rw [chans_blockOn] at hw <;> rcases eq_or_ne ch' ch with rfl | hch
  · exact hrecv (by rwa [Function.update_self] at hw)
  · exact h.recv ch' (by rwa [Function.update_of_ne hch] at hw)
  · exact hsend (by rwa [Function.update_self] at hw)
  · exact h.send ch' (by rwa [Function.update_of_ne hch] at hw)

/-- `co_chan_send` leaves it forgotten. -/
theorem coChanSend (h : Forgotten s i) (hinv : SchedInv s.view) (hco : s.control = .running co)
    (ch : χ) (data : List Byte) : Forgotten (coChanSend co ch data s) i := by
  have hne := h.ne_running hinv hco
  rcases Nat.lt_or_ge (s.chans ch).count (s.chans ch).cap with hroom | hfull
  · have hsent : Forgotten (sendElem s ch data) i := h.frame rfl (.send_elem s ch data)
    have hwoken := hsent.frame (pool_wakeReceiver (hsent.recv ch)) (.wake_recv _ ch)
    rw [coChanSend_room hroom]
    exact hwoken.frame (by simp [hne]) (.of_eq rfl)
  · rw [coChanSend_full (hinv.current co hco) hfull]
    exact h.block hne (h.recv ch) (by simpa using hne.symm)

/-- So does `co_chan_recv`. -/
theorem coChanRecv (h : Forgotten s i) (hinv : SchedInv s.view) (hco : s.control = .running co)
    (ch : χ) : Forgotten (coChanRecv co ch s) i := by
  have hne := h.ne_running hinv hco
  by_cases hempty : (s.chans ch).count = 0
  · rw [coChanRecv_empty (hinv.current co hco) hempty]
    exact h.block hne (by simpa using hne.symm) (h.send ch)
  · have hreceived : Forgotten (recvElem s ch) i := h.frame rfl (.recv_elem s ch)
    have hwoken := hreceived.frame (pool_wakeSender (hreceived.send ch)) (.wake_send _ ch)
    rw [coChanRecv_some hempty]
    exact hwoken.frame (by simp [hne]) (.of_eq rfl)

/-- And so does every step: it is woken by none. -/
theorem step (h : Forgotten s i) (hinv : CoInv s) (hact : CoAction s e s') : Forgotten s' i := by
  obtain haside | ⟨co, ch, data, hat, rfl⟩ | ⟨co, ch, hat, rfl⟩ := hact.aside_or hinv.sched
  · exact h.frame (haside.pool i (.inl h.blocked)) (.of_eq haside.chans)
  · exact h.coChanSend hinv.sched hat.1 ch data
  · exact h.coChanRecv hinv.sched hat.1 ch

/-- Hence it is blocked for good. Induction on the run. -/
theorem run (h : Forgotten s i) (hinv : CoInv s) {es : List (CoEvent χ)}
    (hes : (coSystem elemSize cap).Executes s es t) : Forgotten t i := by
  induction hes with
  | nil => exact h
  | cons hstep _ ih =>
    exact ih (h.step hinv (coStep_cases hstep)) ((coInv_invariant elemSize cap).step _ _ _ hinv
      hstep)

end Forgotten

/-- A receiver that is overwritten is the waiter of no channel. -/
theorem Waiters.forgotten_recv (h : Waiters s) {w : Slot}
    (hrun : (s.pool co).state = .running) (hw : (s.chans ch).recvWaiter = some w) :
    Forgotten (blockOn s co ch { s.chans ch with recvWaiter := some co } (.recv ch)) w := by
  obtain ⟨hstate, hpc⟩ := h.recv ch w hw
  have hne : w ≠ co := by
    rintro rfl
    simp [hrun] at hstate
  refine ⟨by simpa [hne] using hstate, fun ch' hi => ?_, fun ch' hi => ?_⟩
  · rcases eq_or_ne ch' ch with rfl | hch
    · exact hne (by simpa using hi.symm)
    · have hold := h.recv ch' w (by simpa [hch] using hi)
      exact hch (Pc.recv.inj (hold.2.symm.trans hpc))
  · have hi' : (s.chans ch').sendWaiter = some w := by
      rcases eq_or_ne ch' ch with rfl | hch
      · simpa using hi
      · simpa [hch] using hi
    obtain ⟨_, data, hsend⟩ := h.send ch' w hi'
    simp [hpc] at hsend

/-- A sender that blocks over another leaves it forgotten. -/
theorem Waiters.forgotten_send (h : Waiters s) {w : Slot} {data : List Byte}
    (hrun : (s.pool co).state = .running) (hw : (s.chans ch).sendWaiter = some w) :
    Forgotten (blockOn s co ch { s.chans ch with sendWaiter := some co } (.send ch data)) w := by
  obtain ⟨hstate, data', hpc⟩ := h.send ch w hw
  have hne : w ≠ co := by
    rintro rfl
    simp [hrun] at hstate
  refine ⟨by simpa [hne] using hstate, fun ch' hi => ?_, fun ch' hi => ?_⟩
  · have hi' : (s.chans ch').recvWaiter = some w := by
      rcases eq_or_ne ch' ch with rfl | hch
      · simpa using hi
      · simpa [hch] using hi
    have hrecv := (h.recv ch' w hi').2
    simp [hpc] at hrecv
  · rcases eq_or_ne ch' ch with rfl | hch
    · exact hne (by simpa using hi.symm)
    · obtain ⟨_, data'', hold⟩ := h.send ch' w (by simpa [hch] using hi)
      exact hch (Pc.send.inj (hold.symm.trans hpc)).1

/-- A step that breaks the condition leaves a coroutine blocked that no channel records. -/
theorem exists_forgotten (hinv : CoInv s) (hstep : coStep s e = some s')
    (hover : ¬ KeepsWaiter s e) : ∃ w, Forgotten s' w := by
  obtain ⟨hsched, hwaiters⟩ := hinv
  rw [KeepsWaiter, not_and_or] at hover
  obtain hrecv | hsend := hover
  · push Not at hrecv
    obtain ⟨co, ch, hat, hempty, hsome⟩ := hrecv
    obtain ⟨w, hw⟩ := Option.ne_none_iff_exists'.mp hsome
    obtain rfl := Option.some.inj (hstep.symm.trans (coStep_of_atRecv hat))
    rw [coChanRecv_empty (hsched.current co hat.1) hempty]
    exact ⟨w, hwaiters.forgotten_recv (hsched.state_of_running hat.1) hw⟩
  · push Not at hsend
    obtain ⟨co, ch, data, hat, hfull, hsome⟩ := hsend
    obtain ⟨w, hw⟩ := Option.ne_none_iff_exists'.mp hsome
    obtain rfl := Option.some.inj (hstep.symm.trans (coStep_of_atSend hat))
    rw [coChanSend_full (hsched.current co hat.1) hfull]
    exact ⟨w, hwaiters.forgotten_send (hsched.state_of_running hat.1) hw⟩

/-- **The condition is needed.** Where a coroutine blocks over another, that one is blocked in every
later state. -/
theorem blocked_of_overwritten (elemSize cap : χ → Nat)
    (hr : (coSystem elemSize cap).Reachable s) (hstep : (coSystem elemSize cap).step s e s')
    (hover : ¬ KeepsWaiter s e) :
    ∃ w, ∀ es t, (coSystem elemSize cap).Executes s' es t → (t.pool w).state = .blocked := by
  have hinv := (coInv_invariant elemSize cap).holds hr
  obtain ⟨w, hw⟩ := exists_forgotten hinv hstep hover
  have hinv' := (coInv_invariant elemSize cap).step s e s' hinv hstep
  exact ⟨w, fun es t hes => (hw.run hinv' hes).blocked⟩

end Runs

end Kxo
