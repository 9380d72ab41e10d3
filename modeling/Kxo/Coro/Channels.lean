import Kxo.Coro.RunQueue
import Kxo.Lib.Ring

/-!
# Kxo — channels as queues (`user/coro.c`)

The buffer of a channel is a ring of elements: `memcpy` to the tail writes one of its slots. With
the history of completed calls this makes a channel a queue, whatever runs while a call is blocked.

* **`CoChan.ring`** — the bytes of the buffer as a `Ring` of elements of the channel's size.
* **`ChanInv`** — the ring is well formed, and what was sent is what was received and then what the
  ring holds. The history is two variables that no operation reads.
* **`ChanFrame`** — the operations that copy nothing; **`ChanInv.send_elem`** and
  **`ChanInv.recv_elem`** for the two that do.
* **`channel_fifo`** — so elements come out in the order in which they went in, in every run.
-/

namespace Kxo

/-! ## The buffer

Slot `i` of the ring is the bytes from `i` times the element size on; two slots do not overlap. -/

/-- Elements at different indices do not overlap. -/
theorem bytesAt_memcpy_ne (dst : Nat → Byte) {i j : Nat} (hij : i ≠ j) (data : List Byte) :
    bytesAt (memcpy dst (j * data.length) data) (i * data.length) data.length =
      bytesAt dst (i * data.length) data.length := by
  refine bytesAt_congr fun k hlow hhigh => memcpy_outside ?_
  rcases Nat.lt_or_gt_of_ne hij with hlt | hgt
  · have hle : (i + 1) * data.length ≤ j * data.length := Nat.mul_le_mul_right _ hlt
    rw [Nat.succ_mul] at hle
    omega
  · have hle : (j + 1) * data.length ≤ i * data.length := Nat.mul_le_mul_right _ hgt
    rw [Nat.succ_mul] at hle
    omega

/-- The ring of elements in the buffer of a channel. -/
def CoChan.ring (c : CoChan) : Ring (List Byte) :=
  ⟨fun k => bytesAt c.buf (k * c.elemSize) c.elemSize, c.cap, c.head, c.tail, c.count⟩

/-- **A copy to the tail is a push.** -/
theorem CoChan.ring_put {c : CoChan} {data : List Byte} (hlen : data.length = c.elemSize) :
    (c.put data).ring = c.ring.push data := by
  have hslots : (c.put data).ring.slots = Function.update c.ring.slots c.tail data := by
    funext k
    show bytesAt (memcpy c.buf (c.tail * c.elemSize) data) (k * c.elemSize) c.elemSize = _
    rw [← hlen]
    rcases eq_or_ne k c.tail with rfl | hk
    · rw [Function.update_self, bytesAt_memcpy]
    · rw [Function.update_of_ne hk, bytesAt_memcpy_ne _ hk, hlen]
      rfl
  show Ring.mk (c.put data).ring.slots _ _ _ _ = Ring.mk _ _ _ _ _
  rw [hslots]
  rfl

/-! ## The invariant

Sent is received followed by what is held. It fixes order, loss and duplication together. -/

variable {χ : Type} {s s' t : Sched χ}

/-- A channel keeps its shape and holds what was sent and not received; a sender that is blocked
holds an element of the channel's size. -/
structure ChanInv (elemSize cap : χ → Nat) (s : Sched χ) : Prop where
  size : ∀ ch, (s.chans ch).elemSize = elemSize ch
  cap : ∀ ch, (s.chans ch).cap = cap ch
  ring : ∀ ch, (s.chans ch).ring.WellFormed
  fifo : ∀ ch, s.sent ch = s.received ch ++ (s.chans ch).ring.contents
  pending : ∀ co ch data, (s.pool co).pc = .send ch data → data.length = elemSize ch

/-- No element is copied and no call of `co_chan_send` begun. -/
structure ChanFrame (s s' : Sched χ) : Prop where
  ring : ∀ ch, (s'.chans ch).ring = (s.chans ch).ring
  size : ∀ ch, (s'.chans ch).elemSize = (s.chans ch).elemSize
  sent : s'.sent = s.sent
  received : s'.received = s.received
  pending : ∀ co ch data, (s'.pool co).pc = .send ch data → (s.pool co).pc = .send ch data

namespace ChanFrame

/-- One operation after another. -/
theorem trans (h : ChanFrame s s') (h' : ChanFrame s' t) : ChanFrame s t where
  ring ch := (h'.ring ch).trans (h.ring ch)
  size ch := (h'.size ch).trans (h.size ch)
  sent := h'.sent.trans h.sent
  received := h'.received.trans h.received
  pending co ch data hpc := h.pending co ch data (h'.pending co ch data hpc)

/-- Operations aside of the channels copy nothing. -/
theorem of_aside (h : Aside s s') : ChanFrame s s' where
  ring ch := by rw [h.chans]
  size ch := by rw [h.chans]
  sent := h.sent
  received := h.received
  pending := h.pc

end ChanFrame

/-- Whatever copies nothing keeps the invariant. -/
theorem ChanInv.frame {elemSize cap : χ → Nat} (h : ChanInv elemSize cap s)
    (hframe : ChanFrame s s') : ChanInv elemSize cap s' where
  size ch := (hframe.size ch).trans (h.size ch)
  cap ch := (congrArg Ring.cap (hframe.ring ch)).trans (h.cap ch)
  ring ch := by
    rw [hframe.ring]
    exact h.ring ch
  fifo ch := by
    rw [hframe.sent, hframe.received, hframe.ring]
    exact h.fifo ch
  pending co ch data hpc := h.pending co ch data (hframe.pending co ch data hpc)

/-! ## Wake-ups

Waking a waiter changes its state and the waiter that the channel remembers, not the buffer. -/

namespace ChanFrame

variable [DecidableEq χ]

/-- Only the waiters of one channel change, and the state of a coroutine. -/
theorem of_waiters {ch : χ} (c : CoChan) (hring : c.ring = (s.chans ch).ring)
    (hsize : c.elemSize = (s.chans ch).elemSize)
    (hchans : s'.chans = Function.update s.chans ch c) (hsent : s'.sent = s.sent)
    (hreceived : s'.received = s.received)
    (hpc : ∀ i ch data, (s'.pool i).pc = .send ch data → (s.pool i).pc = .send ch data) :
    ChanFrame s s' where
  ring ch' := by
    rw [hchans]
    rcases eq_or_ne ch' ch with rfl | hne
    · rw [Function.update_self, hring]
    · rw [Function.update_of_ne hne]
  size ch' := by
    rw [hchans]
    rcases eq_or_ne ch' ch with rfl | hne
    · rw [Function.update_self, hsize]
    · rw [Function.update_of_ne hne]
  sent := hsent
  received := hreceived
  pending := hpc

/-- A wake-up copies nothing. -/
theorem wake_recv (s : Sched χ) (ch : χ) : ChanFrame s (wakeReceiver s ch) := by
  cases hw : (s.chans ch).recvWaiter with
  | none =>
    rw [wakeReceiver_none hw]
    exact of_aside (.refl s)
  | some w =>
    rw [wakeReceiver_some hw]
    refine of_waiters { s.chans ch with recvWaiter := none } rfl rfl rfl rfl rfl
      fun i ch' data hpc => ?_
    rcases eq_or_ne i w with rfl | hne
    · simpa using hpc
    · simpa [hne] using hpc

/-- On either side. -/
theorem wake_send (s : Sched χ) (ch : χ) : ChanFrame s (wakeSender s ch) := by
  cases hw : (s.chans ch).sendWaiter with
  | none =>
    rw [wakeSender_none hw]
    exact of_aside (.refl s)
  | some w =>
    rw [wakeSender_some hw]
    refine of_waiters { s.chans ch with sendWaiter := none } rfl rfl rfl rfl rfl
      fun i ch' data hpc => ?_
    rcases eq_or_ne i w with rfl | hne
    · simpa using hpc
    · simpa [hne] using hpc

omit [DecidableEq χ] in

/-- Nor does the return of a call. -/
theorem setPc_user (s : Sched χ) (co : Slot) : ChanFrame s (setPc s co .user) where
  ring _ := rfl
  size _ := rfl
  sent := rfl
  received := rfl
  pending i ch data hi := by
    rcases eq_or_ne i co with rfl | hne
    · simp at hi
    · simpa [hne] using hi

end ChanFrame

/-! ## Operations that copy

`memcpy` into the tail slot, or out of the head's. -/

section Calls

variable [DecidableEq χ] {elemSize cap : χ → Nat} {co : Slot} {ch : χ} {data : List Byte}
  {e : CoEvent χ}

/-- A call blocks; it holds the element it is to send. -/
theorem ChanInv.block (h : ChanInv elemSize cap s) {c : CoChan} {pc : Pc χ}
    (hring : c.ring = (s.chans ch).ring) (hsize : c.elemSize = (s.chans ch).elemSize)
    (hpc : ∀ ch data, pc = .send ch data → data.length = elemSize ch) :
    ChanInv elemSize cap (blockOn s co ch c pc) := by
  -- the waiter is recorded first, which leaves all coroutines as they are
  have hset : ChanInv elemSize cap (setChan s ch c) :=
    h.frame (.of_waiters c hring hsize rfl rfl rfl fun _ _ _ hi => hi)
  refine ⟨?_, ?_, ?_, ?_, fun i ch' data hi => ?_⟩
  · simpa [blockOn] using hset.size
  · simpa [blockOn] using hset.cap
  · simpa [blockOn] using hset.ring
  · simpa [blockOn, setState, setPc, setCo] using hset.fifo
  · rcases eq_or_ne i co with rfl | hne
    · exact hpc ch' data (by simpa using hi)
    · exact h.pending i ch' data (by simpa [hne] using hi)

/-- One channel changes, and holds what was sent and not received. -/
theorem ChanInv.update (h : ChanInv elemSize cap s) (c : CoChan)
    (hsize : c.elemSize = (s.chans ch).elemSize) (hcap : c.cap = (s.chans ch).cap)
    (hring : c.ring.WellFormed) (hfifo : s'.sent ch = s'.received ch ++ c.ring.contents)
    (hpool : s'.pool = s.pool) (hchans : s'.chans = Function.update s.chans ch c)
    (hother : ∀ ch', ch' ≠ ch → s'.sent ch' = s.sent ch' ∧ s'.received ch' = s.received ch') :
    ChanInv elemSize cap s' := by
  refine ⟨fun ch' => ?_, fun ch' => ?_, fun ch' => ?_, fun ch' => ?_, fun i ch' data hpc => ?_⟩
  rotate_left 4
  · exact h.pending i ch' data (hpool ▸ hpc)
  all_goals
    rw [hchans]
    -- for each field the channel that changes, and the others
    rcases eq_or_ne ch' ch with rfl | hne
  · rw [Function.update_self]
    exact hsize.trans (h.size ch')
  · rw [Function.update_of_ne hne]
    exact h.size ch'
  · rw [Function.update_self]
    exact hcap.trans (h.cap ch')
  · rw [Function.update_of_ne hne]
    exact h.cap ch'
  · rw [Function.update_self]
    exact hring
  · rw [Function.update_of_ne hne]
    exact h.ring ch'
  · rw [Function.update_self]
    exact hfifo
  · obtain ⟨hsent, hreceived⟩ := hother ch' hne
    rw [Function.update_of_ne hne, hsent, hreceived]
    exact h.fifo ch'

/-- **A send appends its element.** -/
theorem ChanInv.send_elem (h : ChanInv elemSize cap s) (hlen : data.length = elemSize ch)
    (hroom : (s.chans ch).count < (s.chans ch).cap) :
    ChanInv elemSize cap (sendElem s ch data) := by
  have hring := CoChan.ring_put (hlen.trans (h.size ch).symm)
  apply h.update ((s.chans ch).put data) rfl rfl
  · rw [hring]
    exact (h.ring ch).push hroom data
  · show Function.update s.sent ch (s.sent ch ++ [data]) ch = s.received ch ++ _
    rw [Function.update_self, hring, (h.ring ch).contents_push hroom, ← List.append_assoc]
    exact congrArg (· ++ [data]) (h.fifo ch)
  · rfl
  · rfl
  · exact fun ch' hne => ⟨Function.update_of_ne hne _ _, rfl⟩

/-- **A receive takes the oldest element.** -/
theorem ChanInv.recv_elem (h : ChanInv elemSize cap s) (hsome : 0 < (s.chans ch).count) :
    ChanInv elemSize cap (recvElem s ch) := by
  have hfront : (s.chans ch).ring.contents =
      (s.chans ch).front :: (s.chans ch).advance.ring.contents := (h.ring ch).contents_pop hsome
  apply h.update (s.chans ch).advance rfl rfl
  · exact (h.ring ch).pop hsome
  · show s.sent ch =
      Function.update s.received ch (s.received ch ++ [(s.chans ch).front]) ch ++ _
    rw [Function.update_self, List.append_assoc, List.singleton_append, ← hfront]
    exact h.fifo ch
  · rfl
  · rfl
  · exact fun ch' hne => ⟨rfl, Function.update_of_ne hne _ _⟩

omit [DecidableEq χ] in
/-- A sender holds an element of its channel's size, at its call and after a switch. -/
theorem ChanInv.length_of_atSend (h : ChanInv elemSize cap s) (hat : AtSend s e co ch data) :
    data.length = elemSize ch := by
  obtain ⟨_, ⟨_, _, hlen⟩ | ⟨_, hpc⟩⟩ := hat
  · exact hlen.trans (h.size ch)
  · exact h.pending co ch data hpc

/-- `co_chan_send` copies an element if there is room, and blocks if there is none. -/
theorem ChanInv.coChanSend (h : ChanInv elemSize cap s) (hinv : SchedInv s.view)
    (hat : AtSend s e co ch data) : ChanInv elemSize cap (coChanSend co ch data s) := by
  have hlen := h.length_of_atSend hat
  rcases Nat.lt_or_ge (s.chans ch).count (s.chans ch).cap with hroom | hfull
  · rw [coChanSend_room hroom]
    exact (h.send_elem hlen hroom).frame ((ChanFrame.wake_recv _ ch).trans (.setPc_user _ co))
  · rw [coChanSend_full (hinv.current co hat.1) hfull]
    refine h.block rfl rfl fun ch' data' hpc => ?_
    obtain ⟨rfl, rfl⟩ := Pc.send.inj hpc
    exact hlen

/-- `co_chan_recv` copies an element if there is one, and blocks if there is none. -/
theorem ChanInv.coChanRecv (h : ChanInv elemSize cap s) (hinv : SchedInv s.view)
    (hco : s.control = .running co) : ChanInv elemSize cap (coChanRecv co ch s) := by
  rcases Nat.eq_zero_or_pos (s.chans ch).count with hempty | hsome
  · rw [coChanRecv_empty (hinv.current co hco) hempty]
    exact h.block rfl rfl fun ch' data' hpc => by simp at hpc
  · rw [coChanRecv_some hsome.ne']
    exact (h.recv_elem hsome).frame ((ChanFrame.wake_send _ ch).trans (.setPc_user _ co))

/-! ## Every state

By the code that a step runs. -/

omit [DecidableEq χ] in

/-- A new channel is empty. -/
theorem coInit_chan (hcap : ∀ ch, 1 ≤ cap ch) : ChanInv elemSize cap (coInit elemSize cap) where
  size _ := rfl
  cap _ := rfl
  ring ch := ⟨Nat.zero_le _, hcap ch, hcap ch, (Nat.zero_mod _).symm⟩
  fifo _ := rfl
  pending co ch data h := by simp [coInit] at h

/-- A step copies an element where a call completes, and nothing elsewhere. -/
theorem CoAction.chan (hact : CoAction s e s') (hinv : SchedInv s.view)
    (h : ChanInv elemSize cap s) : ChanInv elemSize cap s' := by
  obtain haside | ⟨co, ch, data, hat, rfl⟩ | ⟨co, ch, hat, rfl⟩ := hact.aside_or hinv
  · exact h.frame (.of_aside haside)
  · exact h.coChanSend hinv hat
  · exact h.coChanRecv hinv hat.1

/-- In every reachable state. -/
theorem chan_invariant (hcap : ∀ ch, 1 ≤ cap ch) :
    (coSystem elemSize cap).Invariant fun s => CoInv s ∧ ChanInv elemSize cap s := by
  refine (coInv_invariant elemSize cap).and ?_ fun s e s' hinv h hstep => ?_
  · rintro s rfl
    exact coInit_chan hcap
  · exact (coStep_cases hstep).chan hinv.sched h

/-- **A channel is a bounded queue.** In every reachable state the elements received are, in the
order the calls completed, the first of those sent, and the ring holds the rest from its head on. -/
theorem channel_fifo (elemSize cap : χ → Nat) (hcap : ∀ ch, 1 ≤ cap ch)
    (hr : (coSystem elemSize cap).Reachable s) (ch : χ) :
    let c := s.chans ch
    s.received ch <+: s.sent ch ∧ c.cap = cap ch ∧ c.count ≤ c.cap ∧ c.head < c.cap ∧
      c.tail < c.cap ∧ c.tail = (c.head + c.count) % c.cap ∧
      s.sent ch = s.received ch ++ (List.range c.count).map fun k =>
        bytesAt c.buf ((c.head + k) % c.cap * c.elemSize) c.elemSize := by
  obtain ⟨_, h⟩ := (chan_invariant hcap).holds hr
  have hring := h.ring ch
  exact ⟨⟨_, (h.fifo ch).symm⟩, h.cap ch, hring.count_le, hring.head_lt, hring.tail_lt,
    hring.tail_eq, h.fifo ch⟩

/-- An element has been sent and not yet received. -/
theorem channel_fifo_sent :
    ∃ s, coSteps (coInit (fun _ : Unit => 1) fun _ => 2)
        [.start true 0 [], .run, .sched, .resume, .send () [7]] = some s ∧
      let c := s.chans ()
      s.received () <+: s.sent () ∧ c.cap = 2 ∧ c.count ≤ c.cap ∧ c.head < c.cap ∧
        c.tail < c.cap ∧ c.tail = (c.head + c.count) % c.cap ∧
        s.sent () = s.received () ++ (List.range c.count).map fun k =>
          bytesAt c.buf ((c.head + k) % c.cap * c.elemSize) c.elemSize := by
  obtain ⟨s, hs⟩ := Option.isSome_iff_exists.mp
    (show (coSteps (coInit (fun _ : Unit => 1) fun _ => 2)
      [.start true 0 [], .run, .sched, .resume, .send () [7]]).isSome from rfl)
  exact ⟨s, hs, channel_fifo _ _ (by simp) (reachable_coSteps (.init rfl) hs) ()⟩

end Calls

end Kxo
