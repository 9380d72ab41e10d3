import Kxo.Coro.RunQueue

/-!
# Kxo — stacks of coroutines (`user/coro.c`)

`co_stack_alloc` leaves `MAP_FAILED` in `stack.ptr` where its `mmap` fails, and `co_start` takes any
pointer but `NULL` for a stack. So a slot whose allocation has failed is never allocated again: the
next `co_start` that finds it free builds a coroutine's first frame below `MAP_FAILED`, which
faults. Two things follow, one for each half of what a failed allocation should leave
(`readyMapped_iff`): a coroutine that becomes ready does have a stack of mapped memory, since
nothing runs on after the fault; but a slot stays one that can be started in only as long as no
`mmap` fails.
-/

namespace Kxo

variable {χ : Type}

/-- Whoever is ready has a stack of mapped memory. -/
def ReadyMapped (s : Sched χ) : Prop :=
  ∀ co, (s.pool co).state = .ready → (s.pool co).stack = .mapped

/-- So has everyone who was started. -/
def StacksMapped (s : Sched χ) : Prop :=
  ∀ co, (s.pool co).state ≠ .free → (s.pool co).stack = .mapped

/-- Each slot has a stack of mapped memory or none, which `co_start` allocates. -/
def NoneFailed (s : Sched χ) : Prop := ∀ co, (s.pool co).stack ≠ .mapFailed

/-- The `mmap` of a `co_start` succeeds, if it is called. -/
def MmapSucceeds (s : Sched χ) : CoEvent χ → Prop
  | .start mmap .. => ∀ co, freeSlot s = some co → (s.pool co).stack = .null → mmap = true
  | _ => True

/-! ## The steps

A stack is written by `co_start` only, and a slot is taken by it only. -/

section Keep

variable {s s' s'' : Sched χ} {co : Slot} {ch : χ}

/-- No stack is changed, and no free slot is taken. -/
def KeepsStacks (s s' : Sched χ) : Prop :=
  ∀ i, (s'.pool i).stack = (s.pool i).stack ∧ ((s.pool i).state = .free → (s'.pool i).state = .free)

namespace KeepsStacks

/-- Nothing happens to the slots. -/
theorem of_pool (h : s'.pool = s.pool) : KeepsStacks s s' := fun i => by
  rw [h]
  exact ⟨rfl, id⟩

/-- One operation after another. -/
theorem trans (h : KeepsStacks s s') (h' : KeepsStacks s' s'') : KeepsStacks s s'' := fun i =>
  ⟨(h' i).1.trans (h i).1, fun hi => (h' i).2 ((h i).2 hi)⟩

/-- One coroutine changes, which was not free or becomes so. -/
theorem of_update (co : Slot) {c : Coroutine χ} (hpool : s'.pool = Function.update s.pool co c)
    (hstack : c.stack = (s.pool co).stack) (hstate : (s.pool co).state = .free → c.state = .free) :
    KeepsStacks s s' := by
  intro i
  rw [hpool]
  rcases eq_or_ne i co with rfl | hi
  · rw [Function.update_self]
    exact ⟨hstack, hstate⟩
  · rw [Function.update_of_ne hi]
    exact ⟨rfl, id⟩

/-- What keeps the stacks keeps the failures. -/
theorem noneFailed (h : KeepsStacks s s') : NoneFailed s' ↔ NoneFailed s :=
  forall_congr' fun i => by rw [(h i).1]

/-- And keeps everyone's stack mapped. -/
theorem stacksMapped (h : KeepsStacks s s') (hs : StacksMapped s) : StacksMapped s' := by
  intro i hi
  rw [(h i).1]
  exact hs i fun hfree => hi ((h i).2 hfree)

/-- `co_yield` leaves the stacks. -/
theorem yield (h : SchedInv s.view) (hco : s.control = .running co) :
    KeepsStacks s (coYield s) := by
  have hstate : (s.pool co).state = .running := h.state_of_running hco
  rw [coYield_eq h hco]
  exact of_update co (pool_switchToMain _) rfl (by simp [hstate])

/-- So does a coroutine's end. -/
theorem ret (h : SchedInv s.view) (hco : s.control = .running co) :
    KeepsStacks s (coProxyReturn co s) := by
  have hstate : (s.pool co).state = .running := h.state_of_running hco
  exact of_update co (pool_switchToMain _) rfl (by simp [hstate])

/-- So does a round of `co_run`. -/
theorem loop (h : SchedInv s.view) (hloop : s.control = .loop) : KeepsStacks s (coRunStep s) := by
  unfold coRunStep
  rw [hloop]
  dsimp only
  cases hdeq : s.queue.dequeue with
  | mk first queue =>
    cases first with
    | none => exact of_pool rfl
    | some co =>
      have hready : (s.pool co).state = .ready :=
        (h.toQueueInv.dispatch (congrArg Prod.fst hdeq)).1
      exact of_update co rfl rfl (by simp [hready])

/-- And what it does after a coroutine has come back, which may free the slot. -/
theorem returned (hco : s.control = .returned co) : KeepsStacks s (coRunStep s) := by
  unfold coRunStep
  rw [hco]
  dsimp only
  split
  · exact of_update co rfl rfl fun _ => rfl
  · exact of_pool rfl

/-- So does going on. -/
theorem setPc (s : Sched χ) (co : Slot) (pc : Pc χ) : KeepsStacks s (setPc s co pc) :=
  of_update co rfl rfl id

section Channel

variable [DecidableEq χ]

/-- A wake-up changes a state. -/
theorem wakeReceiver (h : Waiters s) (ch : χ) : KeepsStacks s (wakeReceiver s ch) := by
  cases hw : (s.chans ch).recvWaiter with
  | none => exact of_pool (by rw [wakeReceiver_none hw])
  | some w =>
    have hblocked := (h.recv ch w hw).1
    rw [wakeReceiver_some hw]
    exact of_update w rfl rfl (by simp [hblocked])

/-- On either side. -/
theorem wakeSender (h : Waiters s) (ch : χ) : KeepsStacks s (wakeSender s ch) := by
  cases hw : (s.chans ch).sendWaiter with
  | none => exact of_pool (by rw [wakeSender_none hw])
  | some w =>
    have hblocked := (h.send ch w hw).1
    rw [wakeSender_some hw]
    exact of_update w rfl rfl (by simp [hblocked])

/-- Sending leaves the stacks. -/
theorem send (h : Waiters s) (hinv : SchedInv s.view) (hco : s.control = .running co) (ch : χ)
    (data : List Byte) : KeepsStacks s (coChanSend co ch data s) := by
  have hstate : (s.pool co).state = .running := hinv.state_of_running hco
  rcases Nat.lt_or_ge (s.chans ch).count (s.chans ch).cap with hroom | hfull
  · rw [coChanSend_room hroom]
    have hwake : KeepsStacks (sendElem s ch data) (Kxo.wakeReceiver (sendElem s ch data) ch) :=
      wakeReceiver (h.send_elem ch data) ch
    exact (of_pool rfl : KeepsStacks s (sendElem s ch data)).trans (hwake.trans (setPc _ co _))
  · rw [coChanSend_full (hinv.current co hco) hfull]
    exact of_update co (pool_blockOn ..) rfl (by simp [hstate])

/-- So does receiving. -/
theorem recv (h : Waiters s) (hinv : SchedInv s.view) (hco : s.control = .running co) (ch : χ) :
    KeepsStacks s (coChanRecv co ch s) := by
  have hstate : (s.pool co).state = .running := hinv.state_of_running hco
  rcases Nat.eq_zero_or_pos (s.chans ch).count with hempty | hsome
  · rw [coChanRecv_empty (hinv.current co hco) hempty]
    exact of_update co (pool_blockOn ..) rfl (by simp [hstate])
  · rw [coChanRecv_some hsome.ne']
    have hwake : KeepsStacks (recvElem s ch) (Kxo.wakeSender (recvElem s ch) ch) :=
      wakeSender (h.recv_elem ch) ch
    exact (of_pool rfl : KeepsStacks s (recvElem s ch)).trans (hwake.trans (setPc _ co _))

end Channel

end KeepsStacks

end Keep

section Steps

variable {s s' : Sched χ} {e : CoEvent χ} {co : Slot} {mmap : Bool} {fn : Nat} {args : List U64}

/-! ## `co_start`

The slot's stack is allocated when it is `NULL`. Where the allocation fails the slot is left as it
is, with `MAP_FAILED` in it. -/

/-- Without a free slot nothing happens. -/
theorem coStarted_none (h : freeSlot s = none) : coStarted mmap fn args s = s := by
  simp only [coStarted, h]

/-- A failed allocation leaves `MAP_FAILED` behind. -/
theorem coStarted_failed (fn : Nat) (args : List U64) (h : freeSlot s = some co)
    (hnull : (s.pool co).stack = .null) :
    ∃ c, c.state = .free ∧ c.stack = .mapFailed ∧
      (coStarted false fn args s).pool = Function.update s.pool co c := by
  have hstate := freeSlot_state h
  simp only [coStarted, startIn, h, hnull, and_self, if_true, pool_setCo]
  refine ⟨{ s.pool co with
    stack := .mapFailed, func := fn, argc := args.length, argv := copyArgs (s.pool co).argv args },
    hstate, rfl, rfl⟩

/-- What a `co_start` that takes a slot leaves there: a coroutine that is ready at its entry, with
the function and the arguments of the call, and with the stack of its slot or with a new one if the
slot has none. It goes to the end of the queue, and nothing else of the scheduler changes. -/
theorem coStarted_started (fn : Nat) (args : List U64) (h : freeSlot s = some co)
    (hstack : (s.pool co).stack = .null → mmap = true) :
    (coStarted mmap fn args s).queue = s.queue.enqueue co ∧
    (coStarted mmap fn args s).control = s.control ∧
    (coStarted mmap fn args s).calls = s.calls ∧
    ∃ c, c.func = fn ∧ c.argc = args.length ∧ c.argv = copyArgs (s.pool co).argv args ∧
      c.pc = .entry ∧ c.state = .ready ∧
      c.stack = (if (s.pool co).stack = .null then .mapped else (s.pool co).stack) ∧
      (coStarted mmap fn args s).pool = Function.update s.pool co c := by
  have hnot : ¬ ((s.pool co).stack = .null ∧ mmap = false) := fun hfail => by
    simp [hstack hfail.1] at hfail
  simp only [coStarted, startIn, h, if_neg hnot, pool_enqueue, pool_markReady, pool_setCo,
    Function.update_self, Function.update_idem]
  exact ⟨rfl, rfl, rfl, _, rfl, rfl, rfl, rfl, rfl, rfl, rfl⟩

/-! ## Every step

By the code that a step runs. -/

variable [DecidableEq χ]

/-- Nothing that a running coroutine does changes a stack. -/
theorem coResume_keepsStacks (h : CoInv s) (hres : coResume s = some s') : KeepsStacks s s' := by
  unfold coResume at hres
  split at hres
  next co hcontrol =>
    split at hres
    · obtain rfl := Option.some.inj hres
      exact .of_update co rfl rfl id
    · cases hres
    · obtain rfl := Option.some.inj hres
      exact .send h.waiters h.sched hcontrol _ _
    · obtain rfl := Option.some.inj hres
      exact .recv h.waiters h.sched hcontrol _
  next => cases hres

/-- A `co_start` that does not fault takes a slot whose `mmap` has not failed. -/
theorem coStep_start (h : coStep s (.start mmap fn args) = some s') :
    s' = coStarted mmap fn args s ∧
      ∀ co, freeSlot s = some co → (s.pool co).stack ≠ .mapFailed := by
  simp only [coStep] at h
  split at h
  · exact (coStart_eq_some_iff.mp h).symm
  · obtain ⟨_, _, _, hcall⟩ := userCall_eq_some h
    exact (coStart_eq_some_iff.mp hcall).symm

/-- **A step other than `co_start` changes no stack**, and takes no free slot. -/
theorem coStep_keepsStacks (h : CoInv s) (hstep : coStep s e = some s')
    (hne : ∀ mmap fn args, e ≠ .start mmap fn args) : KeepsStacks s s' := by
  cases e with
  | start mmap fn args => exact absurd rfl (hne mmap fn args)
  -- every operation but a start leaves the stacks and the free slots with theirs
  | yield =>
    obtain ⟨co, hcontrol, _, ⟨⟩⟩ := userCall_eq_some hstep
    exact .yield h.sched hcontrol
  | send ch data =>
    simp only [coStep] at hstep
    split at hstep
    · obtain ⟨co, hcontrol, _, ⟨⟩⟩ := userCall_eq_some hstep
      exact .send h.waiters h.sched hcontrol ch data
    · cases hstep
  | recv ch =>
    obtain ⟨co, hcontrol, _, ⟨⟩⟩ := userCall_eq_some hstep
    exact .recv h.waiters h.sched hcontrol ch
  | ret =>
    obtain ⟨co, hcontrol, _, ⟨⟩⟩ := userCall_eq_some hstep
    exact .ret h.sched hcontrol
  | resume => exact coResume_keepsStacks h hstep
  | run =>
    simp only [coStep] at hstep
    split at hstep
    · obtain rfl := Option.some.inj hstep
      exact .of_pool rfl
    · cases hstep
  | sched =>
    simp only [coStep] at hstep
    split at hstep
    next hloop =>
      obtain rfl := Option.some.inj hstep
      exact .loop h.sched hloop
    next co hcontrol =>
      obtain rfl := Option.some.inj hstep
      exact .returned hcontrol
    next => cases hstep

/-! ## The condition

Each of the two properties is followed along runs: the first needs no condition, the second is lost
with the first allocation that fails. -/

omit [DecidableEq χ] in
/-- One coroutine changes in a pool whose coroutines all have a property. -/
theorem forall_pool_update {P : Coroutine χ → Prop} {c : Coroutine χ}
    (hpool : s'.pool = Function.update s.pool co c) (h : ∀ i, P (s.pool i)) :
    (∀ i, P (s'.pool i)) ↔ P c := by
  rw [hpool, Function.forall_update_iff s.pool fun _ => P]
  exact and_iff_left fun i _ => h i

omit [DecidableEq χ] in

/-- One slot was written: its own stack decides. -/
theorem stacksMapped_update {c : Coroutine χ} (hpool : s'.pool = Function.update s.pool co c)
    (h : StacksMapped s) : StacksMapped s' ↔ (c.state ≠ .free → c.stack = .mapped) :=
  forall_pool_update (P := fun c => c.state ≠ .free → c.stack = .mapped) hpool h

omit [DecidableEq χ] in

/-- The same for the failures. -/
theorem noneFailed_update {c : Coroutine χ} (hpool : s'.pool = Function.update s.pool co c)
    (h : NoneFailed s) : NoneFailed s' ↔ c.stack ≠ .mapFailed :=
  forall_pool_update (P := fun c => c.stack ≠ .mapFailed) hpool h

omit [DecidableEq χ] in

/-- Whoever is ready was started. -/
theorem StacksMapped.readyMapped (h : StacksMapped s) : ReadyMapped s := fun co hready =>
  h co (by simp [hready])

omit [DecidableEq χ] in
/-- A `co_start` that does not fault keeps the stacks of coroutines mapped. -/
theorem stacksMapped_start (fn : Nat) (args : List U64) (h : StacksMapped s)
    (husable : ∀ co, freeSlot s = some co → (s.pool co).stack ≠ .mapFailed) :
    StacksMapped (coStarted mmap fn args s) := by
  cases hfree : freeSlot s with
  | none =>
    rw [coStarted_none hfree]
    exact h
  | some co =>
    have hok := husable co hfree
    by_cases hfail : (s.pool co).stack = .null ∧ mmap = false
    · obtain ⟨hnull, rfl⟩ := hfail
      obtain ⟨c, hc, _, hpool⟩ := coStarted_failed fn args hfree hnull
      rw [stacksMapped_update hpool h]
      exact fun hne => absurd hc hne
    · obtain ⟨-, -, -, c, -, -, -, -, _, hstack, hpool⟩ := coStarted_started fn args hfree
        fun hnull => by simpa [hnull] using hfail
      rw [stacksMapped_update hpool h, hstack]
      intro _
      cases hkept : (s.pool co).stack with
      | null => rfl
      | mapFailed => exact absurd hkept hok
      | mapped => rfl

/-- The step lemma for the stacks of coroutines. -/
theorem stacksMapped_step (hinv : CoInv s) (h : StacksMapped s) (hstep : coStep s e = some s') :
    StacksMapped s' := by
  by_cases hstart : ∃ mmap fn args, e = .start mmap fn args
  · obtain ⟨mmap, fn, args, rfl⟩ := hstart
    obtain ⟨rfl, husable⟩ := coStep_start hstep
    exact stacksMapped_start fn args h husable
  · push Not at hstart
    exact (coStep_keepsStacks hinv hstep hstart).stacksMapped h

omit [DecidableEq χ] in
/-- A `co_start` keeps every slot usable exactly where it needs no `mmap` or its `mmap` succeeds. -/
theorem noneFailed_start (mmap : Bool) (fn : Nat) (args : List U64) (h : NoneFailed s) :
    NoneFailed (coStarted mmap fn args s) ↔ MmapSucceeds s (.start mmap fn args) := by
  cases hfree : freeSlot s with
  | none =>
    rw [coStarted_none hfree]
    exact iff_of_true h fun co hco => by simp [hfree] at hco
  | some co =>
    have hsucceeds : MmapSucceeds s (.start mmap fn args) ↔
        ((s.pool co).stack = .null → mmap = true) := by
      simp [MmapSucceeds, hfree]
    rw [hsucceeds]
    by_cases hfail : (s.pool co).stack = .null ∧ mmap = false
    · obtain ⟨hnull, rfl⟩ := hfail
      obtain ⟨c, _, hstack, hpool⟩ := coStarted_failed fn args hfree hnull
      rw [noneFailed_update hpool h]
      simp [hstack, hnull]
    · have hok : (s.pool co).stack = .null → mmap = true := fun hnull => by
        simpa [hnull] using hfail
      obtain ⟨-, -, -, c, -, -, -, -, _, hstack, hpool⟩ := coStarted_started fn args hfree hok
      have hkept := h co
      rw [noneFailed_update hpool h, hstack]
      refine iff_of_true ?_ hok
      split
      · simp
      · exact hkept

/-- The step lemma for the slots. -/
theorem noneFailed_step (hinv : CoInv s) (h : NoneFailed s) (hstep : coStep s e = some s') :
    NoneFailed s' ↔ MmapSucceeds s e := by
  by_cases hstart : ∃ mmap fn args, e = .start mmap fn args
  · obtain ⟨mmap, fn, args, rfl⟩ := hstart
    obtain ⟨rfl, -⟩ := coStep_start hstep
    exact noneFailed_start mmap fn args h
  · push Not at hstart
    refine iff_of_true ((coStep_keepsStacks hinv hstep hstart).noneFailed.mpr h) ?_
    cases e with
    | start mmap fn args => exact absurd rfl (hstart mmap fn args)
    | _ => trivial

/-- **Stacks after failed allocations.** In a run from `co_sched_init`, whatever `mmap` returns,
every coroutine that becomes ready has a stack of mapped memory; and every slot stays one that
`co_start` allocates, or has allocated, exactly when no `mmap` of the run fails. -/
theorem readyMapped_iff (elemSize cap : χ → Nat) {tr : List (CoEvent χ × Sched χ)}
    (h : (coSystem elemSize cap).Run (coInit elemSize cap) tr) :
    (∀ p ∈ tr, ReadyMapped p.2) ∧
    ((∀ p ∈ tr, NoneFailed p.2) ↔
      ((coSystem elemSize cap).restrict MmapSucceeds).Run (coInit elemSize cap) tr) := by
  have hinv := coInv_invariant elemSize cap
  have hinit := coInit_inv elemSize cap
  have hstacks : ∀ s, (coSystem elemSize cap).init s → StacksMapped s := by
    rintro s rfl co hco
    exact absurd rfl hco
  have hfailed : NoneFailed (coInit elemSize cap) := fun co => by simp [coInit]
  have hmapped := hinv.and hstacks fun _ _ _ hI hP hs => stacksMapped_step hI hP hs
  refine ⟨fun p hp => ?_, h.forall_iff_restrict hinv (fun _ _ _ => noneFailed_step) hinit hfailed⟩
  exact (hmapped.holds_run h (hmapped.init _ rfl) p hp).2.readyMapped

/-- After `co_sched_init`, with one channel. -/
def oneChannel : Sched Unit := coInit (fun _ => 4) fun _ => 1

/-- A coroutine is started in the first slot; the `mmap` of the second `co_start` fails; and
`co_run` goes on with the coroutine there is. -/
def secondFails : List (CoEvent Unit × Sched Unit) :=
  let s₁ := coStarted true 0 [] oneChannel
  let s₂ := coStarted false 0 [] s₁
  let s₃ := { s₂ with control := .loop }
  [(.start true 0 [], s₁), (.start false 0 [], s₂), (.run, s₃), (.sched, coRunStep s₃),
    (.resume, coProxyCall (0 : Fin 16) (coRunStep s₃))]

/-- A run whose second allocation fails: both sides of the equivalence are false, and still whoever
is ready has a stack. -/
theorem readyMapped_iff_second :
    (∀ p ∈ secondFails, ReadyMapped p.2) ∧
    ((∀ p ∈ secondFails, NoneFailed p.2) ↔
      ((coSystem (fun _ : Unit => 4) fun _ => 1).restrict MmapSucceeds).Run oneChannel
        secondFails) :=
  readyMapped_iff _ _ (.cons rfl (.cons rfl (.cons rfl (.cons rfl (.cons rfl (.nil _))))))

/-- A `co_start` whose `mmap` fails, and the next one, whose own would succeed: it finds the slot
free with `MAP_FAILED` for a stack, allocates nothing and faults. -/
theorem failed_stack_faults :
    ∃ s, (coSystem (fun _ : Unit => 4) fun _ => 1).Executes oneChannel [.start false 0 []] s ∧
      freeSlot s = some (0 : Fin 16) ∧ (s.pool (0 : Fin 16)).state = .free ∧
      (s.pool (0 : Fin 16)).stack = .mapFailed ∧ ¬ NoneFailed s ∧
      coStep s (.start true 0 []) = none := by
  refine ⟨_, .cons rfl (.nil _), rfl, rfl, rfl, fun hnone => ?_, rfl⟩
  exact hnone (0 : Fin 16) rfl

end Steps

end Kxo
