import Kxo.Coro.Rules
import Kxo.Tui.Rounds

/-!
# Kxo — the client's tasks on the scheduler (`user/xo-user.c` on `user/coro.c`)

The three coroutines of a round run one after another, whatever the driver does between their steps,
and `task_tab` finds in the channel what `task_io` put there. So the steps of a round make up a
round in pieces.

* **`Task`** — a task with its slot, function and arguments. **`TaskAt`** says all that matters of
  the scheduler: whose turn it is, the run queue, the jobs in the slots, the channel. Which task is
  next determines the last three (**`queueFrom`**, **`jobsFrom`**, **`elemsFrom`**).
* **`BeforeTask`**, **`InBody`** — the client's half: how much of the round is drawn and read, as
  `Begun` or `Looked`, before each task and inside their bodies.
* **`Phase`** — the points of a round, each with both halves. It is the invariant:
  **`phase_reachable`** has every state at one of the points.
* **`Phase.driver_step`**, **`Phase.main_step`**, **`Phase.task_step`**, **`Phase.client_step`** —
  the steps. Those of the client apply the rules of the scheduler, one each, and none of them waits.
-/

namespace Kxo

variable {σ : Type}

/-! ## The three tasks

In the order in which `main` starts them, which is the order of the run queue and of the slots. -/

inductive Task where
  | printNow
  | io
  | tab

namespace Task

/-- The slot that `co_start` finds free. -/
def slot : Task → Slot
  | .printNow => ⟨0, by decide⟩
  | .io => ⟨1, by decide⟩
  | .tab => ⟨2, by decide⟩

def next : Task → Option Task
  | .printNow => some .io
  | .io => some .tab
  | .tab => none

def func : Task → Nat
  | .printNow => taskPrintNowFn
  | .io => taskIoFn
  | .tab => taskTabFn

def args (p : ClientPtrs) : Task → List U64
  | .printNow => []
  | .io => [p.chan, p.tobj, p.deviceFd, p.maxFd]
  | .tab => [p.chan]

def job (p : ClientPtrs) (state : CoState) (pc : Pc Unit) (k : Task) : Job Unit :=
  ⟨state, pc, k.func, k.args p⟩

end Task

/-- The jobs in the slots of the three tasks. -/
def taskJobs (printNow io tab : Option (Job Unit)) : Slot → Option (Job Unit) := fun co =>
  if co = Task.slot .printNow then printNow
  else if co = Task.slot .io then io
  else if co = Task.slot .tab then tab
  else none

section Positions

variable (p : ClientPtrs)

/-- Started, and not yet run. -/
def Task.started (k : Task) : Option (Job Unit) := some (k.job p .ready .entry)

/-- The jobs where `k` is the next to run. -/
def jobsFrom : Option Task → Slot → Option (Job Unit)
  | some .printNow => taskJobs (Task.started p .printNow) (Task.started p .io) (Task.started p .tab)
  | some .io => taskJobs none (Task.started p .io) (Task.started p .tab)
  | some .tab => taskJobs none none (Task.started p .tab)
  | none => taskJobs none none none

def queueFrom : Option Task → List Slot
  | some .printNow => [Task.slot .printNow, Task.slot .io, Task.slot .tab]
  | some .io => [Task.slot .io, Task.slot .tab]
  | some .tab => [Task.slot .tab]
  | none => []

/-- The channel: `task_tab` finds there what `task_io` has sent. -/
def elemsFrom : Option Task → List (List Byte)
  | some .tab => [leBytes 8 p.tobj]
  | _ => []

/-- The jobs while `k` runs. -/
def jobsOf (k : Task) (state : CoState) (pc : Pc Unit) : Slot → Option (Job Unit) :=
  Function.update (jobsFrom p (some k)) k.slot (some (k.job p state pc))

abbrev TaskAt (turn : Control) (queue : List Slot) (jobs : Slot → Option (Job Unit))
    (elems : List (List Byte)) (s : Sched Unit) : Prop :=
  SchedAt (fun _ => 8) (fun _ => 0x10) turn queue jobs (fun _ => elems) s

variable {p}

/-- The next task has been started and not run. -/
theorem jobsFrom_slot (k : Task) : jobsFrom p (some k) k.slot = k.started p := by
  cases k <;> rfl

/-- The task that runs, in its slot. -/
theorem jobsOf_slot (k : Task) (state : CoState) (pc : Pc Unit) :
    jobsOf p k state pc k.slot = some (k.job p state pc) := Function.update_self _ _ _

/-- It goes on in its slot. -/
theorem jobsOf_update (k : Task) (state state' : CoState) (pc pc' : Pc Unit) :
    Function.update (jobsOf p k state pc) k.slot (some (k.job p state' pc')) =
      jobsOf p k state' pc' := Function.update_idem _ _ _

/-- The next task is the first of the queue. -/
theorem queueFrom_some (k : Task) : queueFrom (some k) = k.slot :: queueFrom k.next := by
  cases k <;> rfl

/-- A slot whose task has returned is free again. -/
theorem jobsOf_free (k : Task) (state : CoState) (pc : Pc Unit) :
    Function.update (jobsOf p k state pc) k.slot none = jobsFrom p k.next := by
  rw [jobsOf, Function.update_idem]
  funext co
  rcases eq_or_ne co k.slot with rfl | hne
  · rw [Function.update_self]
    cases k <;> rfl
  · rw [Function.update_of_ne hne]
    cases k <;> simp only [jobsFrom, Task.next, taskJobs, if_neg hne]

end Positions

/-! ## Where a round is

`main` starts the tasks, then `co_run` enters, runs and reaps each, and at last `main` flushes and
is at the top of its loop again. -/

section Phases

variable {A : Agents σ} {p : ClientPtrs} {s s' : Tasks σ} {input : RoundInput} {w w' : Watch σ}

/-- What is drawn and read where `k` is the next to run. -/
def BeforeTask (A : Agents σ) (w : Watch σ) : Option Task → Prop
  | some .printNow => Begun A [] w
  | some .io => ∃ input, Begun A (taskPrintNow input) w
  | some .tab => ∃ v input io, Looked A v input io (taskPrintNow input ++ io) w
  | none => ∃ v input io tab, Looked A v input io (taskPrintNow input ++ io ++ tab) w ∧
      taskTab input w.client = some tab

/-- The same inside the bodies of the tasks, and what the channel holds there. -/
inductive InBody (A : Agents σ) (p : ClientPtrs) (w : Watch σ) :
    Task → TaskPc → List (List Byte) → Prop where
  | printNow : Begun A [] w → InBody A p w .printNow .printNow []
  | select {input : RoundInput} : Begun A (taskPrintNow input) w → InBody A p w .io .select []
  | read {input : RoundInput} : Begun A (taskPrintNow input) w → w.client.readAttr = true →
      w.driver.device.rxFifo ≠ [] → InBody A p w .io .read []
  | stopMessage {v : Watch σ} {input : RoundInput} {io : List TuiCall} :
      Looked A v input (io ++ [.stopMessage (!w.client.readAttr)]) (taskPrintNow input ++ io) w →
      InBody A p w .io .stopMessage []
  | send : BeforeTask A w (some .tab) → InBody A p w .io .send []
  | recv : BeforeTask A w (some .tab) → InBody A p w .tab .recv [leBytes 8 p.tobj]
  | updateTab : BeforeTask A w (some .tab) → InBody A p w .tab (.updateTab p.tobj) []
  | ret {k : Task} : BeforeTask A w k.next → InBody A p w k .ret (elemsFrom p k.next)

/-- The points of a round of `main`'s loop. -/
inductive Phase (A : Agents σ) (p : ClientPtrs) (s : Tasks σ) : Prop where
  | top : s.main = .startPrintNow → TaskAt .main [] (jobsFrom p none) [] s.sched →
      (watchSystem A).Reachable s.watch → Phase A p s
  | startIo : s.main = .startIo →
      TaskAt .main [Task.slot .printNow] (taskJobs (Task.started p .printNow) none none) []
        s.sched →
      Begun A [] s.watch → Phase A p s
  | startTab : s.main = .startTab →
      TaskAt .main [Task.slot .printNow, Task.slot .io]
        (taskJobs (Task.started p .printNow) (Task.started p .io) none) [] s.sched →
      Begun A [] s.watch → Phase A p s
  | run : s.main = .run →
      TaskAt .main (queueFrom (some .printNow)) (jobsFrom p (some .printNow)) [] s.sched →
      Begun A [] s.watch → Phase A p s
  | loop (k : Option Task) : s.main = .flush →
      TaskAt .loop (queueFrom k) (jobsFrom p k) (elemsFrom p k) s.sched →
      BeforeTask A s.watch k → Phase A p s
  | entry (k : Task) : s.main = .flush →
      TaskAt (.running k.slot) (queueFrom k.next) (jobsOf p k .running .entry)
        (elemsFrom p (some k)) s.sched →
      BeforeTask A s.watch (some k) → Phase A p s
  | body (k : Task) {elems : List (List Byte)} : s.main = .flush →
      TaskAt (.running k.slot) (queueFrom k.next) (jobsOf p k .running .user) elems s.sched →
      InBody A p s.watch k (s.pc k.slot) elems → Phase A p s
  | returned (k : Task) : s.main = .flush →
      TaskAt (.returned k.slot) (queueFrom k.next) (jobsOf p k .done .user) (elemsFrom p k.next)
        s.sched →
      BeforeTask A s.watch k.next → Phase A p s
  | flush : s.main = .flush → TaskAt .main [] (jobsFrom p none) [] s.sched →
      BeforeTask A s.watch none → Phase A p s

/-! ## The driver's steps

The driver steps between any two steps of the client. It changes nothing the client relies on: what
is drawn, the client's own state, the scheduler, and that there is a record to read. -/

/-- Before a task a step of the driver is one before or after the round. -/
theorem BeforeTask.driver_step {k : Option Task} (h : BeforeTask A w k) {e : Event}
    {driver : Driver σ} (hread : ∀ count, e ≠ .read count)
    (hstep : (driverSystem A).step w.driver e driver) : BeforeTask A { w with driver } k := by
  match k, h with
  | some .printNow, h => exact Begun.driver_step h hread hstep
  | some .io, ⟨input, h⟩ => exact ⟨input, h.driver_step hread hstep⟩
  | some .tab, ⟨v, input, io, h⟩ => exact ⟨v, input, io, h.driver_step hread hstep⟩
  | none, ⟨v, input, io, tab, h, htab⟩ =>
    exact ⟨v, input, io, tab, h.driver_step hread hstep, htab⟩

/-- The driver is in a state that only whole records have been read from. -/
theorem Begun.driver_reachable {drawn : List TuiCall} (h : Begun A drawn w) :
    ((driverSystem A).restrict (Clients WholeRecords fun _ => True)).Reachable w.driver := by
  obtain ⟨v, hr, -, hdrawn⟩ := h
  obtain ⟨tui, out, outbuf, -, -, rfl⟩ := draw_eq_some hdrawn
  exact (watching_reachable Terminal.idle_cleared hr).driver

/-- What waits in the ring is not lost to anyone else. -/
theorem rxFifo_step {d d' : Driver σ} {e : Event} (hr : (driverSystem A).Reachable d)
    (hread : ∀ count, e ≠ .read count) (hstep : (driverSystem A).step d e d') :
    d.device.rxFifo <+: d'.device.rxFifo := by
  have hclients : Clients (fun _ => False) (fun _ => True) d e := by
    cases e with
    | read count => exact absurd rfl (hread count)
    | _ => trivial
  have hsteps := records_step hr hclients hstep
  show d.records.device.rxFifo <+: d'.records.device.rxFifo
  generalize d'.records = v' at hsteps ⊢
  induction hsteps with
  | refl => exact List.prefix_rfl
  | tail _ hlast ih =>
    refine ih.trans ?_
    cases hlast with
    | produce => exact List.prefix_append _ _
    | restart =>
      dsimp only
      split
      · exact List.prefix_append _ _
      · exact List.prefix_rfl
    | read hcount => exact hcount.elim
    | _ => exact List.prefix_rfl

/-- Inside a body too. Where `task_io` is about to read there is still a record. -/
theorem InBody.driver_step {k : Task} {pc : TaskPc} {elems : List (List Byte)}
    (h : InBody A p w k pc elems) {e : Event} {driver : Driver σ}
    (hread : ∀ count, e ≠ .read count) (hstep : (driverSystem A).step w.driver e driver) :
    InBody A p { w with driver } k pc elems := by
  cases h with
  | printNow h => exact .printNow (h.driver_step hread hstep)
  | select h => exact .select (h.driver_step hread hstep)
  | read h hattr hready =>
    have hprefix := rxFifo_step h.driver_reachable.of_restrict hread hstep
    refine .read (h.driver_step hread hstep) hattr fun hnil => hready ?_
    rw [show driver.device.rxFifo = [] from hnil] at hprefix
    exact List.prefix_nil.mp hprefix
  | stopMessage h => exact .stopMessage (h.driver_step hread hstep)
  | send h => exact .send (h.driver_step hread hstep)
  | recv h => exact .recv (h.driver_step hread hstep)
  | updateTab h => exact .updateTab (h.driver_step hread hstep)
  | ret h => exact .ret (h.driver_step hread hstep)

/-- The driver moves on beside the client wherever that is. -/
theorem Phase.driver_step (h : Phase A p s) {e : Event} {driver : Driver σ}
    (hread : ∀ count, e ≠ .read count) (hstep : (driverSystem A).step s.watch.driver e driver) :
    Phase A p { s with watch := { s.watch with driver } } := by
  cases h with
  | top hmain hat hr => exact .top hmain hat (.step (e := .driver e) hr ⟨hread, driver, hstep, rfl⟩)
  | startIo hmain hat h => exact .startIo hmain hat (h.driver_step hread hstep)
  | startTab hmain hat h => exact .startTab hmain hat (h.driver_step hread hstep)
  | run hmain hat h => exact .run hmain hat (h.driver_step hread hstep)
  | loop k hmain hat h => exact .loop k hmain hat (h.driver_step hread hstep)
  | entry k hmain hat h => exact .entry k hmain hat (h.driver_step hread hstep)
  | body k hmain hat h => exact .body k hmain hat (h.driver_step hread hstep)
  | returned k hmain hat h => exact .returned k hmain hat (h.driver_step hread hstep)
  | flush hmain hat h => exact .flush hmain hat (h.driver_step hread hstep)

/-! ## The client's steps

One after another along the points. Where the scheduler is called, its rule gives the new state;
where something is drawn, `Begun` or `Looked` takes it in. -/

/-- What follows a call of the scheduler that succeeds. -/
theorem eq_of_bind {α β : Type*} {x : Option α} {y : α} {z : β} {f : α → β} (hx : x = some y)
    (h : (x.bind fun y => some (f y)) = some z) : z = f y := by
  rw [hx] at h
  exact (Option.some.inj h).symm

/-- There is one channel, so a change of it is the whole of the channels. -/
theorem update_elems {elems elems' : List (List Byte)} :
    Function.update (fun _ : Unit => elems) () elems' = fun _ => elems' :=
  funext fun _ => Function.update_self _ _ _

/-- `co_start` finds the slots of the tasks in their order. -/
theorem taskJobs_start {a b c x : Option (Job Unit)} :
    Function.update (taskJobs a b c) (Task.slot .printNow) x = taskJobs x b c ∧
      Function.update (taskJobs a b c) (Task.slot .io) x = taskJobs a x c ∧
      Function.update (taskJobs a b c) (Task.slot .tab) x = taskJobs a b x := by
  refine ⟨funext fun co => ?_, funext fun co => ?_, funext fun co => ?_⟩ <;>
  · simp only [Function.update_apply, taskJobs]
    split_ifs with h₁ h₂ h₃ <;> simp_all [Task.slot]

section Starts

variable {sched : Sched Unit}

/-- The first task is started, in slot 0, -/
theorem start_printNow (hat : TaskAt .main [] (jobsFrom p none) [] sched) :
    ∃ sched', coStep sched (.start true taskPrintNowFn []) = some sched' ∧
      TaskAt .main [Task.slot .printNow] (taskJobs (Task.started p .printNow) none none) []
        sched' := by
  rw [← (@taskJobs_start none none none (Task.started p .printNow)).1]
  exact hat.start taskPrintNowFn [] rfl (fun i hi => absurd hi (Nat.not_lt_zero _)) (by simp)

/-- the second in slot 1, -/
theorem start_io (hat : TaskAt .main [Task.slot .printNow]
      (taskJobs (Task.started p .printNow) none none) [] sched) :
    ∃ sched', coStep sched
        (.start true taskIoFn [p.chan, p.tobj, p.deviceFd, p.maxFd]) = some sched' ∧
      TaskAt .main [Task.slot .printNow, Task.slot .io]
        (taskJobs (Task.started p .printNow) (Task.started p .io) none) [] sched' := by
  have hbefore : ∀ i < Task.slot .io, ∃ j,
      taskJobs (Task.started p .printNow) none none i = some j ∧ j.state = .ready := by
    intro i hi
    obtain rfl : i = Task.slot .printNow := Fin.ext (Nat.lt_one_iff.mp hi)
    exact ⟨_, rfl, rfl⟩
  rw [← (@taskJobs_start (Task.started p .printNow) none none (Task.started p .io)).2.1]
  exact hat.start taskIoFn _ rfl hbefore (by decide)

/-- and the third in slot 2, which makes all three ready. -/
theorem start_tab (hat : TaskAt .main [Task.slot .printNow, Task.slot .io]
      (taskJobs (Task.started p .printNow) (Task.started p .io) none) [] sched) :
    ∃ sched', coStep sched (.start true taskTabFn [p.chan]) = some sched' ∧
      TaskAt .main (queueFrom (some .printNow)) (jobsFrom p (some .printNow)) [] sched' := by
  have hbefore : ∀ i < Task.slot .tab, ∃ j,
      taskJobs (Task.started p .printNow) (Task.started p .io) none i = some j ∧
        j.state = .ready := by
    intro i hi
    rcases Nat.lt_succ_iff_lt_or_eq.mp hi with hlt | heq
    · obtain rfl : i = Task.slot .printNow := Fin.ext (Nat.lt_one_iff.mp hlt)
      exact ⟨_, rfl, rfl⟩
    · obtain rfl : i = Task.slot .io := Fin.ext heq
      exact ⟨_, rfl, rfl⟩
  rw [jobsFrom, ← (@taskJobs_start (Task.started p .printNow) (Task.started p .io) none
    (Task.started p .tab)).2.2]
  exact hat.start taskTabFn _ rfl hbefore (by decide)

end Starts

/-- **A step of `main`**: it starts a task, enters `co_run`, or flushes. At the flush the round is
complete. -/
theorem Phase.main_step (h : Phase A p s) (hmain : s.sched.control = .main)
    (hstep : mainStep p s = some s') : Phase A p s' := by
  unfold mainStep at hstep
  cases h with
  | top hpc hat hr =>
    simp only [hpc] at hstep
    split at hstep
    case isTrue => cases hstep
    case isFalse hend =>
    obtain ⟨sched, hco, hat'⟩ := start_printNow hat
    obtain rfl := eq_of_bind hco hstep
    -- `main` begins a round: nothing is drawn yet
    exact .startIo rfl hat' ⟨s.watch, hr, by simpa using hend, draw_nil _⟩
  | startIo hpc hat h =>
    simp only [hpc] at hstep
    obtain ⟨sched, hco, hat'⟩ := start_io hat
    obtain rfl := eq_of_bind hco hstep
    exact .startTab rfl hat' h
  | startTab hpc hat h =>
    simp only [hpc] at hstep
    obtain ⟨sched, hco, hat'⟩ := start_tab hat
    obtain rfl := eq_of_bind hco hstep
    exact .run rfl hat' h
  | run hpc hat h =>
    simp only [hpc] at hstep
    obtain ⟨sched, hco, hat'⟩ := hat.run
    obtain rfl := eq_of_bind hco hstep
    exact .loop (some .printNow) rfl hat' h
  | loop k hpc hat h => cases hmain.symm.trans hat.control
  | entry k hpc hat h => cases hmain.symm.trans hat.control
  | body k hpc hat h => cases hmain.symm.trans hat.control
  | returned k hpc hat h => cases hmain.symm.trans hat.control
  | flush hpc hat h =>
    simp only [hpc] at hstep
    obtain ⟨v, input, io, tab, h, htab⟩ := h
    obtain ⟨watch, hdraw, hstep⟩ := Option.bind_eq_some_iff.mp hstep
    obtain rfl := Option.some.inj hstep
    exact .top rfl hat (h.round htab hdraw)

/-- Where the body of a task begins. -/
def Task.begins : Task → TaskPc
  | .printNow => .printNow
  | .io => .select
  | .tab => .recv

/-- A task finds the arguments that it was started with. -/
theorem taskEntry_eq {co : Coroutine Unit} {k : Task} (h : HoldsJob co (k.job p .running .entry)) :
    taskEntry p co = some k.begins := by
  cases k with
  | printNow => exact if_pos h.func
  | io =>
    have hfunc : co.func = taskIoFn := h.func
    have hargv : ∀ i < 4, co.argv i = [p.chan, p.tobj, p.deviceFd, p.maxFd].getD i 0 :=
      fun i hi => h.argv i hi (Nat.lt_trans hi (by decide))
    rw [taskEntry, hfunc, if_neg (by decide), if_pos rfl, hargv 0 (by decide), hargv 1 (by decide),
      hargv 2 (by decide), hargv 3 (by decide)]
    exact if_pos ⟨rfl, rfl, rfl, rfl⟩
  | tab =>
    have hfunc : co.func = taskTabFn := h.func
    have hchan : co.argv 0 = p.chan := h.argv 0 Nat.one_pos (by decide)
    rw [taskEntry, hfunc, if_neg (by decide), if_neg (by decide), if_pos hchan]
    rfl

/-- A task that is entered begins its body, where all is as before it. -/
theorem BeforeTask.begins {k : Task} (h : BeforeTask A w (some k)) :
    InBody A p w k k.begins (elemsFrom p (some k)) := by
  cases k with
  | printNow => exact .printNow h
  | io => exact .select h.choose_spec
  | tab => exact .recv h

/-- On to the next piece of a body. -/
theorem Phase.go {k : Task} {pc : TaskPc} {elems : List (List Byte)} {sched : Sched Unit}
    (hmain : s.main = .flush)
    (hat : TaskAt (.running k.slot) (queueFrom k.next) (jobsOf p k .running .user) elems sched)
    (hbody : InBody A p w k pc elems) :
    Phase A p ⟨sched, s.main, Function.update s.pc k.slot pc, w⟩ := by
  have hbody' : InBody A p w k (Function.update s.pc k.slot pc k.slot) elems := by
    rwa [Function.update_self]
  exact .body k hmain hat hbody'

section Channel

variable {queue : List Slot} {sched : Sched Unit}

/-- `task_io` does not wait for room. -/
theorem send_tobj (hat : TaskAt (.running (Task.slot .io)) queue (jobsOf p .io .running .user) []
      sched) :
    ¬ (sched.chans ()).cap ≤ (sched.chans ()).count ∧
      ∃ sched', coStep sched (.send () (leBytes 8 p.tobj)) = some sched' ∧
        TaskAt (.running (Task.slot .io)) queue (jobsOf p .io .running .user) [leBytes 8 p.tobj]
          sched' := by
  have hlen : (leBytes 8 p.tobj).length = 8 := by simp [leBytes]
  refine ⟨?_, ?_⟩
  · rw [(hat.chans ()).cap, (hat.chans ()).count_eq]
    decide
  · obtain ⟨sched', hco, hat'⟩ := @SchedAt.send _ _ _ _ _ _ _ _ _ _ hat (jobsOf_slot ..) rfl ()
      (leBytes 8 p.tobj) hlen (by decide)
    rw [update_elems] at hat'
    exact ⟨sched', hco, hat'⟩

/-- `task_tab` does not wait for an element: it finds the pointer. -/
theorem recv_tobj (hat : TaskAt (.running (Task.slot .tab)) queue (jobsOf p .tab .running .user)
      [leBytes 8 p.tobj] sched) :
    ofLeBytes 64 (sched.chans ()).front = p.tobj ∧ (sched.chans ()).count ≠ 0 ∧
      ∃ sched', coStep sched (.recv ()) = some sched' ∧
        TaskAt (.running (Task.slot .tab)) queue (jobsOf p .tab .running .user) [] sched' := by
  obtain ⟨hfront, hne, sched', hco, hat'⟩ := @SchedAt.recv _ _ _ _ _ _ _ _ _ _ hat (jobsOf_slot ..)
    rfl () (leBytes 8 p.tobj) [] rfl
  have hptr : ofLeBytes 64 (leBytes 8 p.tobj) = p.tobj := ofLeBytes_leBytes p.tobj rfl
  rw [update_elems] at hat'
  exact ⟨hfront.symm ▸ hptr, hne, sched', hco, hat'⟩

end Channel

/-- A round that has drawn nothing in `task_io` yet. -/
theorem io_nil {v : Watch σ} {call : TuiCall}
    (h : Looked A v input [call] (taskPrintNow input) w) :
    Looked A v input ([] ++ [call]) (taskPrintNow input ++ []) w := by
  rwa [List.append_nil]

/-- A step of a task's body. -/
theorem Phase.task_step {k : Task} {pc : TaskPc} {elems : List (List Byte)}
    (hmain : s.main = .flush)
    (hat : TaskAt (.running k.slot) (queueFrom k.next) (jobsOf p k .running .user) elems s.sched)
    (hpc : s.pc k.slot = pc) (hbody : InBody A p s.watch k pc elems)
    (hready : input.ready = .device → s.watch.driver.device.rxFifo ≠ [])
    (hstep : taskStep p input k.slot s = some s') : Phase A p s' := by
  unfold taskStep at hstep
  cases hbody with
  | printNow h =>
    simp only [hpc] at hstep
    obtain ⟨watch, hdraw, hstep⟩ := Option.bind_eq_some_iff.mp hstep
    obtain rfl := Option.some.inj hstep
    exact .go hmain hat (.ret ⟨input, h.draw hdraw⟩)
  | @select input' h =>
    simp only [hpc] at hstep
    -- a key, a record, or nothing to read: the look decides which
    cases hinput : input.ready with
    | stdin opened key =>
      simp only [hinput] at hstep
      obtain rfl := Option.some.inj hstep
      obtain ⟨v, input'', hlooked⟩ :=
        @Begun.looked _ _ _ _ h (.stdin opened key)
          (listenKeyboardHandler opened key s.watch.client) (fun hr => by cases hr)
          (fun _ hr => by rw [readsDevice, hr])
          fun _ hr _ => by rw [taskIo, hr]; rfl
      exact .go hmain hat (.stopMessage (io_nil hlooked))
    | device =>
      simp only [hinput] at hstep
      obtain rfl := Option.some.inj hstep
      by_cases hattr : s.watch.client.readAttr = true
      · rw [if_pos hattr]
        exact .go hmain hat (.read h hattr (hready hinput))
      · rw [if_neg hattr]
        obtain ⟨v, input'', hlooked⟩ := @Begun.looked _ _ _ _ h .device s.watch.client
          (fun _ => hready hinput) (fun _ hr => by rw [readsDevice, hr]; simpa using hattr)
          fun _ hr _ => by simp only [taskIo, hr, if_neg hattr]; rfl
        exact .go hmain hat (.stopMessage (io_nil hlooked))
  | read h hattr hfifo =>
    simp only [hpc] at hstep
    split at hstep
    case isFalse => cases hstep
    case isTrue hlen =>
      obtain ⟨watch, hdraw, hstep⟩ := Option.bind_eq_some_iff.mp hstep
      obtain rfl := Option.some.inj hstep
      -- the record is drawn in the step that reads it
      obtain ⟨v, input'', hlooked⟩ := h.read hfifo hattr rfl hlen hdraw
      have hio : ∀ call : TuiCall, [call, .stopMessage false] =
          [call] ++ [.stopMessage (!s.watch.client.readAttr)] := fun call => by rw [hattr]; rfl
      rw [hio] at hlooked
      exact .go hmain hat (.stopMessage hlooked)
  | @stopMessage v input' io h =>
    simp only [hpc] at hstep
    obtain ⟨watch, hdraw, hstep⟩ := Option.bind_eq_some_iff.mp hstep
    obtain rfl := Option.some.inj hstep
    have hdone := h.draw hdraw
    rw [List.append_assoc] at hdone
    exact .go hmain hat (.send ⟨v, input', _, hdone⟩)
  | send h =>
    simp only [hpc] at hstep
    -- the channel has room, so `task_io` goes on
    obtain ⟨hroom, sched, hco, hat'⟩ := send_tobj hat
    obtain rfl := eq_of_bind hco hstep
    rw [afterSend, if_neg hroom]
    exact .go hmain hat' (.ret h)
  | recv h =>
    simp only [hpc] at hstep
    -- the channel holds the pointer, so `task_tab` goes on
    obtain ⟨hfront, hne, sched, hco, hat'⟩ := recv_tobj hat
    obtain rfl := eq_of_bind hco hstep
    rw [afterRecv, if_neg hne, hfront]
    exact .go hmain hat' (.updateTab h)
  | updateTab h =>
    simp only [hpc] at hstep
    split at hstep
    case isTrue => cases hstep
    case isFalse =>
      obtain ⟨v, input', io, h⟩ := h
      obtain ⟨tab, htab, hstep⟩ := Option.bind_eq_some_iff.mp hstep
      obtain ⟨watch, hdraw, hstep⟩ := Option.bind_eq_some_iff.mp hstep
      obtain rfl := Option.some.inj hstep
      have hdone := (h.tab input).draw hdraw
      -- drawing leaves the client's own state, so the tab is the one it had
      have hclient : watch.client = s.watch.client := draw_client hdraw
      exact .go hmain hat (.ret ⟨v, _, io, tab, hdone, hclient ▸ htab⟩)
  | ret h =>
    simp only [hpc] at hstep
    obtain ⟨sched, hco, hat'⟩ := hat.ret (jobsOf_slot ..) rfl
    obtain rfl := eq_of_bind hco hstep
    exact .returned k hmain ((jobsOf_update k ..) ▸ hat') h

/-- A step of the client. -/
theorem Phase.client_step (h : Phase A p s)
    (hready : input.ready = .device → s.watch.driver.device.rxFifo ≠ [])
    (hstep : clientStep p input s = some s') : Phase A p s' := by
  have hmain : s.sched.control = .main → Phase A p s' := fun hcontrol => by
    simp only [clientStep, hcontrol] at hstep
    exact h.main_step hcontrol hstep
  cases h with
  | top _ hat => exact hmain hat.control
  | startIo _ hat => exact hmain hat.control
  | startTab _ hat => exact hmain hat.control
  | run _ hat => exact hmain hat.control
  | flush _ hat => exact hmain hat.control
  -- `co_run` takes the next task from the queue, or returns
  | loop k hpc hat h =>
    simp only [clientStep, hat.control] at hstep
    cases k with
    | none =>
      obtain ⟨sched, hco, hat'⟩ := hat.stop
      obtain rfl := eq_of_bind hco hstep
      exact .flush hpc hat' h
    | some k =>
      obtain ⟨sched, hco, hat'⟩ := (queueFrom_some k ▸ hat).dispatch (jobsFrom_slot k)
      obtain rfl := eq_of_bind hco hstep
      exact .entry k hpc hat' h
  | entry k hpc hat h =>
    have hjob := hat.holds (jobsOf_slot ..)
    simp only [clientStep, hat.control, hjob.pc, Task.job, taskEntry_eq hjob] at hstep
    obtain ⟨sched, hco, hat'⟩ := hat.call (jobsOf_slot ..) rfl
    obtain rfl := eq_of_bind hco hstep
    exact .go hpc (jobsOf_update k .. ▸ hat') h.begins
  | body k hpc hat h =>
    have hjob := hat.holds (jobsOf_slot ..)
    simp only [clientStep, hat.control, hjob.pc, Task.job] at hstep
    exact .task_step hpc hat rfl h hready hstep
  -- the slot is free again, and the next task comes
  | returned k hpc hat h =>
    simp only [clientStep, hat.control] at hstep
    obtain ⟨sched, hco, hat'⟩ := hat.reap (jobsOf_slot ..) rfl
    obtain rfl := eq_of_bind hco hstep
    exact .loop k.next hpc (jobsOf_free k .. ▸ hat') h

/-- **Every state is at one of the points.** -/
theorem phase_reachable (h : (taskSystem A p).Reachable s) : Phase A p s := by
  induction h with
  | init hs =>
    obtain ⟨hsched, hmain, hwatch⟩ := hs
    refine .top hmain ?_ (.init hwatch)
    rw [hsched]
    refine ⟨rfl, LinkedQueue.represents_empty, fun co => ?_, fun _ => ⟨rfl, rfl, ?_, rfl, rfl, rfl⟩⟩
    · simp only [jobsFrom, taskJobs, ite_self]
      exact ⟨rfl, StackPtr.noConfusion⟩
    · exact (coInit_chan fun _ => Nat.le_add_left 1 15).ring ()
  | @step s s' e _ hstep ih =>
    cases e with
    | driver e =>
      obtain ⟨hread, driver, hdriver, rfl⟩ := hstep
      exact ih.driver_step hread hdriver
    | round input => exact ih.client_step hstep.1 hstep.2

/-- A slot is free, or its task has been started and not run. -/
def IsStarted (j : Option (Job Unit)) : Prop := ∀ x, j = some x → x.state = .ready

/-- A free slot counts, -/
theorem isStarted_none : IsStarted none := fun _ h => by cases h

/-- and so does a started task. -/
theorem isStarted (k : Task) : IsStarted (k.started p) := fun j h => by
  rw [← Option.some.inj h, Task.job]

/-- All slots count if the three do. -/
theorem taskJobs_started {a b c : Option (Job Unit)} (ha : IsStarted a) (hb : IsStarted b)
    (hc : IsStarted c) (co : Slot) : IsStarted (taskJobs a b c co) := by
  unfold taskJobs
  split_ifs
  · exact ha
  · exact hb
  · exact hc
  · exact isStarted_none

/-- No task after the next one has run. -/
theorem jobsFrom_started : (k : Option Task) → (co : Slot) → IsStarted (jobsFrom p k co)
  | some .printNow => taskJobs_started (isStarted _) (isStarted _) (isStarted _)
  | some .io => taskJobs_started isStarted_none (isStarted _) (isStarted _)
  | some .tab => taskJobs_started isStarted_none isStarted_none (isStarted _)
  | none => taskJobs_started isStarted_none isStarted_none isStarted_none

/-- While a task runs the others are ready. -/
theorem jobsOf_state {k : Task} {state : CoState} {pc : Pc Unit} {co : Slot} {j : Job Unit}
    (h : jobsOf p k state pc co = some j) : j.state = state ∨ j.state = .ready := by
  unfold jobsOf at h
  rcases eq_or_ne co k.slot with rfl | hne
  · rw [Function.update_self] at h
    exact .inl (by rw [← Option.some.inj h, Task.job])
  · rw [Function.update_of_ne hne] at h
    exact .inr (jobsFrom_started _ _ _ h)

/-- No job is blocked, so no coroutine is. -/
theorem not_blocked {turn : Control} {queue : List Slot} {jobs : Slot → Option (Job Unit)}
    {elems : List (List Byte)} {sched : Sched Unit} (h : TaskAt turn queue jobs elems sched)
    (hjobs : ∀ co j, jobs co = some j → j.state ≠ .blocked) (co : Slot) :
    (sched.pool co).state ≠ .blocked := by
  have hco := h.jobs co
  cases hj : jobs co with
  | none =>
    rw [hj] at hco
    rw [hco.1]
    exact CoState.noConfusion
  | some j =>
    rw [(h.holds hj).state]
    exact hjobs co j hj

/-- **No coroutine of the client ever waits.** -/
theorem Phase.not_blocked (h : Phase A p s) (co : Slot) : (s.sched.pool co).state ≠ .blocked := by
  have hready : ∀ {jobs : Slot → Option (Job Unit)}, (∀ co, IsStarted (jobs co)) →
      ∀ co j, jobs co = some j → j.state ≠ .blocked := fun hjobs co j hj => by
    rw [hjobs co j hj]
    exact CoState.noConfusion
  have hof : ∀ k state pc, state ≠ .blocked → ∀ co j, jobsOf p k state pc co = some j →
      j.state ≠ .blocked := fun k state pc hne co j hj => by
    rcases jobsOf_state hj with h | h <;> rw [h]
    · exact hne
    · exact CoState.noConfusion
  cases h with
  | top _ hat => exact Kxo.not_blocked hat (hready (jobsFrom_started _)) co
  | startIo _ hat =>
    exact Kxo.not_blocked hat
      (hready (taskJobs_started (isStarted _) isStarted_none isStarted_none)) co
  | startTab _ hat =>
    exact Kxo.not_blocked hat
      (hready (taskJobs_started (isStarted _) (isStarted _) isStarted_none)) co
  | run _ hat => exact Kxo.not_blocked hat (hready (jobsFrom_started _)) co
  | loop k _ hat => exact Kxo.not_blocked hat (hready (jobsFrom_started _)) co
  | entry k _ hat => exact Kxo.not_blocked hat (hof _ _ _ CoState.noConfusion) co
  | body k _ hat => exact Kxo.not_blocked hat (hof _ _ _ CoState.noConfusion) co
  | returned k _ hat => exact Kxo.not_blocked hat (hof _ _ _ CoState.noConfusion) co
  | flush _ hat => exact Kxo.not_blocked hat (hready (jobsFrom_started _)) co

/-- At the top of `main`'s loop the scheduler is empty, and all is as whole rounds leave it. -/
theorem Phase.at_top (h : Phase A p s) (htop : s.main = .startPrintNow) :
    TaskAt .main [] (jobsFrom p none) [] s.sched ∧ (watchSystem A).Reachable s.watch := by
  cases h with
  | top _ hat hr => exact ⟨hat, hr⟩
  | startIo hpc => cases htop.symm.trans hpc
  | startTab hpc => cases htop.symm.trans hpc
  | run hpc => cases htop.symm.trans hpc
  | loop _ hpc => cases htop.symm.trans hpc
  | entry _ hpc => cases htop.symm.trans hpc
  | body _ hpc => cases htop.symm.trans hpc
  | returned _ hpc => cases htop.symm.trans hpc
  | flush hpc => cases htop.symm.trans hpc

end Phases

end Kxo
