import Kxo.Coro.Waiters

/-!
# Kxo — the run queue (`user/coro.c`)

A step of the coroutines runs one operation, which makes one of the scheduler's moves or none; so
the scheduler's invariant holds in every state of every run.
-/

namespace Kxo

variable {χ : Type}

/-! ## Steps

`CoAction` lists the code that a step runs. `AtSend` and `AtRecv` say where a channel's test is
made: at the call, and again after every wake-up. -/

section Steps

/-- The code of a coroutine's function is being run. -/
theorem Pc.isUser_iff {pc : Pc χ} : pc.isUser = true ↔ pc = .user := by
  cases pc <;> simp [Pc.isUser]

variable {s s' : Sched χ} {e : CoEvent χ} {co : Slot} {ch : χ}

/-- The coroutine `co` is at the test of the loop of `co_chan_send`: it has just made the call, or
it was switched away from there. -/
def AtSend (s : Sched χ) (e : CoEvent χ) (co : Slot) (ch : χ) (data : List Byte) : Prop :=
  s.control = .running co ∧
    ((e = .send ch data ∧ (s.pool co).pc = .user ∧ data.length = (s.chans ch).elemSize) ∨
      (e = .resume ∧ (s.pool co).pc = .send ch data))

/-- The same for `co_chan_recv`. -/
def AtRecv (s : Sched χ) (e : CoEvent χ) (co : Slot) (ch : χ) : Prop :=
  s.control = .running co ∧
    ((e = .recv ch ∧ (s.pool co).pc = .user) ∨ (e = .resume ∧ (s.pool co).pc = .recv ch))

/-- A call is made by the running coroutine. -/
theorem userCall_eq_some {call : Slot → Option (Sched χ)} (h : userCall s call = some s') :
    ∃ co, s.control = .running co ∧ (s.pool co).pc = .user ∧ call co = some s' := by
  unfold userCall at h
  cases hcontrol : s.control with
  | running co =>
    simp only [hcontrol] at h
    split at h
    next huser => exact ⟨co, rfl, Pc.isUser_iff.mp huser, h⟩
    next => simp at h
  | main => simp [hcontrol] at h
  | loop => simp [hcontrol] at h
  | returned co => simp [hcontrol] at h

variable [DecidableEq χ]

/-- The code a step runs. -/
inductive CoAction (s : Sched χ) (e : CoEvent χ) : Sched χ → Prop where
  | start (mmap : Bool) (fn : Nat) (args : List U64) : CoAction s e (coStarted mmap fn args s)
  | yield {co : Slot} : s.control = .running co → CoAction s e (coYield s)
  | send {co : Slot} {ch : χ} {data : List Byte} : AtSend s e co ch data →
      CoAction s e (coChanSend co ch data s)
  | recv {co : Slot} {ch : χ} : AtRecv s e co ch → CoAction s e (coChanRecv co ch s)
  | call {co : Slot} : s.control = .running co → CoAction s e (coProxyCall co s)
  | ret {co : Slot} : s.control = .running co → CoAction s e (coProxyReturn co s)
  | run : s.control = .main → CoAction s e { s with control := .loop }
  | loop : s.control = .loop → CoAction s e (coRunStep s)
  | returned {co : Slot} : s.control = .returned co → CoAction s e (coRunStep s)

/-- What a coroutine that is switched to goes on with. -/
theorem coResume_cases (h : coResume s = some s') : CoAction s .resume s' := by
  unfold coResume at h
  cases hcontrol : s.control with
  | running co =>
    simp only [hcontrol] at h
    cases hpc : (s.pool co).pc with
    | entry =>
      obtain rfl : coProxyCall co s = s' := by simpa [hpc] using h
      exact .call hcontrol
    | user => simp [hpc] at h
    | send ch data =>
      obtain rfl : coChanSend co ch data s = s' := by simpa [hpc] using h
      exact .send ⟨hcontrol, .inr ⟨rfl, hpc⟩⟩
    | recv ch =>
      obtain rfl : coChanRecv co ch s = s' := by simpa [hpc] using h
      exact .recv ⟨hcontrol, .inr ⟨rfl, hpc⟩⟩
  | main => simp [hcontrol] at h
  | loop => simp [hcontrol] at h
  | returned co => simp [hcontrol] at h

/-- **What a step can do.** -/
theorem coStep_cases (h : coStep s e = some s') : CoAction s e s' := by
  cases e with
  | start mmap fn args =>
    simp only [coStep] at h
    split at h
    -- `main` starts a coroutine
    · obtain ⟨-, rfl⟩ := coStart_eq_some_iff.mp h
      exact .start mmap fn args
    -- or one that runs does
    · obtain ⟨_, _, _, hcall⟩ := userCall_eq_some h
      obtain ⟨-, rfl⟩ := coStart_eq_some_iff.mp hcall
      exact .start mmap fn args
  | yield =>
    obtain ⟨co, hcontrol, _, ⟨⟩⟩ := userCall_eq_some h
    exact .yield hcontrol
  | send ch data =>
    simp only [coStep] at h
    split at h
    next hlen =>
      obtain ⟨co, hcontrol, huser, ⟨⟩⟩ := userCall_eq_some h
      exact .send ⟨hcontrol, .inl ⟨rfl, huser, hlen⟩⟩
    next => simp at h
  | recv ch =>
    obtain ⟨co, hcontrol, huser, ⟨⟩⟩ := userCall_eq_some h
    exact .recv ⟨hcontrol, .inl ⟨rfl, huser⟩⟩
  | ret =>
    obtain ⟨co, hcontrol, _, ⟨⟩⟩ := userCall_eq_some h
    exact .ret hcontrol
  | resume => exact coResume_cases h
  | run =>
    simp only [coStep] at h
    split at h
    next hmain =>
      obtain rfl := Option.some.inj h
      exact .run hmain
    next => simp at h
  | sched =>
    simp only [coStep] at h
    cases hcontrol : s.control with
    | loop =>
      obtain rfl : coRunStep s = s' := by simpa [hcontrol] using h
      exact .loop hcontrol
    | returned co =>
      obtain rfl : coRunStep s = s' := by simpa [hcontrol] using h
      exact .returned hcontrol
    | main => simp [hcontrol] at h
    | running co => simp [hcontrol] at h

/-- The step of a coroutine at the test of `co_chan_send`. -/
theorem coStep_of_atSend {data : List Byte} (hat : AtSend s e co ch data) :
    coStep s e = some (coChanSend co ch data s) := by
  obtain ⟨hco, ⟨rfl, hpc, hlen⟩ | ⟨rfl, hpc⟩⟩ := hat
  · simp [coStep, userCall, hco, hpc, hlen, Pc.isUser]
  · simp [coStep, coResume, hco, hpc]

/-- The same for `co_chan_recv`. -/
theorem coStep_of_atRecv (hat : AtRecv s e co ch) : coStep s e = some (coChanRecv co ch s) := by
  obtain ⟨hco, ⟨rfl, hpc⟩ | ⟨rfl, hpc⟩⟩ := hat
  · simp [coStep, userCall, hco, hpc, Pc.isUser]
  · simp [coStep, coResume, hco, hpc]

/-- A list of steps from a reachable state. -/
theorem reachable_coSteps {elemSize cap : χ → Nat} {es : List (CoEvent χ)}
    (hr : (coSystem elemSize cap).Reachable s) (hes : coSteps s es = some s') :
    (coSystem elemSize cap).Reachable s' := by
  induction es generalizing s with
  | nil =>
    obtain rfl := Option.some.inj hes
    exact hr
  | cons e es ih =>
    obtain ⟨t, ht, hrest⟩ := Option.bind_eq_some_iff.mp hes
    exact ih (.step hr ht) hrest

/-! ## The run queue in every state

The scheduler's invariant and the waiters' go together: waking needs to know that the waiter is
blocked. -/

/-- What is kept of the whole state: the scheduler's invariant, and who waits on the channels. -/
structure CoInv (s : Sched χ) : Prop where
  sched : SchedInv s.view
  waiters : Waiters s

omit [DecidableEq χ] in

/-- `co_sched_init` leaves an empty queue and free slots. -/
theorem coInit_inv (elemSize cap : χ → Nat) : CoInv (coInit elemSize cap) where
  sched := {
    queue := ⟨[], LinkedQueue.represents_empty, fun co => by simp [Sched.view, coInit],
      List.Pairwise.nil⟩
    stamp := fun co h => by simp [Sched.view, coInit] at h
    running := fun co => by simp [Sched.view, coInit]
    current := fun co h => by simp [Sched.view, coInit] at h
    done := fun co h => by simp [Sched.view, coInit] at h
    leaving := fun co => by simp [Sched.view, coInit]
    vacant := fun co => by simp [Sched.view, coInit] }
  waiters := ⟨fun ch w h => by simp [coInit, coChanMake] at h,
    fun ch w h => by simp [coInit, coChanMake] at h⟩

/-- A step is a move of the scheduler or leaves it alone. -/
theorem CoAction.move (hact : CoAction s e s') (h : CoInv s) :
    s'.view = s.view ∨ CoMove s.view s'.view := by
  obtain ⟨hinv, hw⟩ := h
  cases hact with
  | start mmap fn args => exact coStarted_move mmap fn args s
  | yield hco => exact .inr (coYield_move hinv hco)
  | send hat => exact coChanSend_move hw hinv hat.1 _ _
  | recv hat => exact coChanRecv_move hw hinv hat.1 _
  | call hco => exact .inl (view_setPc s _ _)
  | ret hco => exact .inr (coProxyReturn_move hco)
  | run hmain => exact .inr (.run hmain)
  | loop hloop => exact .inr (coRunStep_loop_move hloop)
  | returned hco => exact .inr (coRunStep_returned_move hinv hco)

/-- A step stays aside of the channels, or is in the loop of `co_chan_send` or `co_chan_recv`. -/
theorem CoAction.aside_or (hact : CoAction s e s') (hinv : SchedInv s.view) :
    Aside s s' ∨ (∃ co ch data, AtSend s e co ch data ∧ s' = coChanSend co ch data s) ∨
      ∃ co ch, AtRecv s e co ch ∧ s' = coChanRecv co ch s := by
  cases hact with
  | start mmap fn args => exact .inl (.start mmap fn args s)
  | yield hco => exact .inl (.yield hinv hco)
  | send hat => exact .inr (.inl ⟨_, _, _, hat, rfl⟩)
  | recv hat => exact .inr (.inr ⟨_, _, hat, rfl⟩)
  | call hco => exact .inl (.call hinv hco)
  | ret hco => exact .inl (.ret hinv hco)
  | run hmain => exact .inl ⟨fun _ _ => rfl, fun _ _ _ h => h, rfl, rfl, rfl⟩
  | loop hloop => exact .inl (.loop hinv hloop)
  | returned hco => exact .inl (.returned hco)

/-- Every step keeps the waiters. -/
theorem CoAction.waiters (hact : CoAction s e s') (h : CoInv s) : Waiters s' := by
  obtain ⟨hinv, hw⟩ := h
  obtain haside | ⟨co, ch, data, hat, rfl⟩ | ⟨co, ch, hat, rfl⟩ := hact.aside_or hinv
  · exact hw.aside haside
  · exact hw.coChanSend hinv hat.1 ch data
  · exact hw.coChanRecv hinv hat.1 ch

/-- **The invariant holds in every run.** -/
theorem coInv_invariant (elemSize cap : χ → Nat) : (coSystem elemSize cap).Invariant CoInv where
  init := by
    rintro s rfl
    exact coInit_inv elemSize cap
  step := by
    intro s e s' h hstep
    have hact := coStep_cases hstep
    refine ⟨?_, hact.waiters h⟩
    obtain hview | hmove := hact.move h
    · rw [hview]
      exact h.sched
    · exact h.sched.move hmove

/-- **The run queue.** In every reachable state the list from `sched.head` is finite, ends at
`sched.tail` and holds the READY coroutines, each once, in the order they became ready; a RUNNING
coroutine is `sched.current`, so there is one at most; and a slot that `co_start` would hand out has
had no coroutine, or one that has returned with control back at the scheduler. -/
theorem run_queue (elemSize cap : χ → Nat) (hr : (coSystem elemSize cap).Reachable s) :
    (∃ l, s.queue.Represents l ∧ (∀ co, co ∈ l ↔ (s.pool co).state = .ready) ∧
      l.Pairwise fun a b => s.readyAt a < s.readyAt b) ∧
    (s.queue.tail = none ↔ s.queue.head = none) ∧
    (∀ co, (s.pool co).state = .running → s.current = some co) ∧
    (∀ a b, (s.pool a).state = .running → (s.pool b).state = .running → a = b) ∧
    ∀ co, freeSlot s = some co → s.occupancy co = .vacant ∧ s.control ≠ .running co := by
  have hinv := ((coInv_invariant elemSize cap).holds hr).sched
  have hcurrent : ∀ co, (s.pool co).state = .running → s.current = some co := fun co hco =>
    hinv.current co ((hinv.running co).mp hco)
  refine ⟨hinv.queue, ?_, hcurrent, fun a b ha hb => ?_, fun co hfree => ?_⟩
  · obtain ⟨l, hrep, _, _⟩ := hinv.queue
    have hhead : s.queue.head = l.head? := hrep.head_eq
    have htail : s.queue.tail = none ↔ l = [] := hrep.tail_eq_none
    rw [htail, hhead, List.head?_eq_none_iff]
  · exact Option.some.inj ((hcurrent a ha).symm.trans (hcurrent b hb))
  · have hstate : (s.pool co).state = .free := freeSlot_state hfree
    refine ⟨(hinv.vacant co).mpr hstate, fun hc => ?_⟩
    have hrun : (s.pool co).state = .running := hinv.state_of_running hc
    simp [hrun] at hstate

/-- A coroutine has blocked on an empty channel and another is in the queue. -/
theorem run_queue_blocked :
    ∃ s, coSteps (coInit (fun _ : Unit => 4) fun _ => 1)
        [.start true 0 [], .start true 0 [], .run, .sched, .resume, .recv ()] = some s ∧
      (∃ l, s.queue.Represents l ∧ (∀ co, co ∈ l ↔ (s.pool co).state = .ready) ∧
        l.Pairwise fun a b => s.readyAt a < s.readyAt b) ∧
      (s.queue.tail = none ↔ s.queue.head = none) ∧
      (∀ co, (s.pool co).state = .running → s.current = some co) ∧
      (∀ a b, (s.pool a).state = .running → (s.pool b).state = .running → a = b) ∧
      ∀ co, freeSlot s = some co → s.occupancy co = .vacant ∧ s.control ≠ .running co := by
  obtain ⟨s, hs⟩ := Option.isSome_iff_exists.mp
    (show (coSteps (coInit (fun _ : Unit => 4) fun _ => 1)
      [.start true 0 [], .start true 0 [], .run, .sched, .resume, .recv ()]).isSome from rfl)
  exact ⟨s, hs, run_queue _ _ (reachable_coSteps (.init rfl) hs)⟩

end Steps

end Kxo
