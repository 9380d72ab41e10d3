import Kxo.Tui.Atomic

/-!
# Kxo — the client goes on (`user/xo-user.c`)

Every step of the client has a next one: no call of the scheduler waits, every record read can be
drawn, and `outbuf` has room for every text. What is left out is the end of `main`'s loop, and the
tab of records drawn before the first record is read, from a `struct task_obj` that `main` leaves
uninitialised.

A step of the client fails in the model where the code would read past an array, fault or wait. So
the proof goes through what each step needs:

* **`draw_defined`** — drawing needs room in `outbuf` and records that can be drawn;
* **`coherent_read`**, **`Looked.coherent`** — the records are those of the driver, so their boards
  are valid and they have at most 16 moves;
* **`InBody.progress`**, **`Phase.progress`** — the bodies of the three tasks, and the phases of a
  round, each with the rule of the scheduler for its next step.
-/

namespace Kxo

section Progress

variable {σ : Type} {A : Agents σ} {p : ClientPtrs} {s s' : Tasks σ} {input : RoundInput}
  {w w' : Watch σ}

/-! ## The client goes on

In every reachable state there is a phase, as found for the rounds; here each phase has a next step.
-/

/-- Room is left in `outbuf`, and it is in use. -/
def Buffered (w : Watch σ) : Prop := w.outbuf.disabled = false ∧ w.outbuf.len < flushThreshold

/-- Drawing leaves room in `outbuf`, -/
theorem draw_buffered {calls : List TuiCall} (h : draw calls w = some w') (hw : Buffered w) :
    Buffered w' := by
  obtain ⟨tui, out, outbuf, htui, houtbuf, rfl⟩ := draw_eq_some h
  obtain ⟨b', hb', henabled, hlen, -⟩ := outbufCalls_short (short_tuiCalls htui) hw.1 hw.2
  obtain rfl : b' = outbuf := Option.some.inj (hb'.symm.trans houtbuf)
  exact ⟨henabled, hlen⟩

/-- and succeeds for calls that can be drawn. -/
theorem draw_defined {calls : List TuiCall} (hcalls : ∀ call ∈ calls, call.Drawable)
    (hw : Buffered w) : ∃ w', draw calls w = some w' := by
  obtain ⟨tui, out, htui⟩ := tuiCalls_defined hcalls w.tui
  obtain ⟨outbuf, houtbuf, -⟩ := outbufCalls_short (short_tuiCalls htui) hw.1 hw.2
  refine ⟨{ w with tui, outbuf, calls := w.calls ++ calls }, ?_⟩
  show (tuiCalls w.tui calls).bind _ = _
  rw [htui]
  show (outbufCalls w.outbuf out).bind _ = _
  rw [houtbuf]
  rfl

/-- There is room at the start of a round, -/
theorem Watching.buffered {screen : Terminal} (h : Watching A screen w) : Buffered w :=
  ⟨h.enabled, by rw [h.flushed]; decide⟩

/-- before `task_io` looks, -/
theorem Begun.buffered {drawn : List TuiCall} (h : Begun A drawn w) : Buffered w := by
  obtain ⟨v, hr, -, hdrawn⟩ := h
  exact draw_buffered hdrawn (watching_reachable Terminal.idle_cleared hr).buffered

/-- and after it. -/
theorem Looked.buffered {v : Watch σ} {io drawn : List TuiCall} (h : Looked A v input io drawn w) :
    Buffered w :=
  draw_buffered h.drawn (watching_reachable Terminal.idle_cleared h.reachable).buffered

/-- The next record to read is one that the driver produced. -/
theorem coherent_read {d : Driver σ}
    (hr : ((driverSystem A).restrict (Clients WholeRecords fun _ => True)).Reachable d)
    (hready : d.device.rxFifo ≠ []) :
    ∃ i q, Coherent i (recordOf (d.device.rxFifo.take recordSize)) q := by
  have hkept := recordsKept_reachable hr
  have hnext : ((driverSystem A).restrict (Clients WholeRecords fun _ => True)).Reachable
      { d with device := kxoRead d.device recordSize } :=
    .step (e := .read recordSize) hr ⟨Nat.dvd_refl _, by decide, rfl⟩
  refine (recordsKept_reachable hnext).readCoherent ?_
  show _ ∈ recordsIn (d.device.consumed ++ d.device.rxFifo.take recordSize)
  have haligned : recordSize ∣ d.device.consumed.length := hkept.aligned
  rw [recordsIn_append haligned (length_take_record hkept hready)]
  exact List.mem_append_right _ (List.mem_singleton.mpr rfl)

/-- A record read for the tab is one that the driver produced. -/
theorem Looked.coherent {v : Watch σ} {io drawn : List TuiCall} (h : Looked A v input io drawn w)
    {tlb : XoTable} (htlb : w.client.tlb = some tlb) : ∃ i q, Coherent i tlb q := by
  have hwatch := watching_reachable Terminal.idle_cleared h.reachable
  have hreads := hwatch.reads h.ready
  refine (recordsKept_reachable hreads.reachable).readCoherent ?_
  show tlb ∈ recordsIn (roundRead input v).2.device.consumed
  rw [hreads.read]
  rcases taskIo_eq_some h.io with ⟨hread, -, hclient, -⟩ | ⟨-, hsame, -⟩
  · rw [hclient] at htlb
    rw [if_pos hread, ← Option.some.inj htlb]
    simp
  · exact List.mem_append_left _ (hwatch.tlb tlb (hsame ▸ htlb))

/-- The client draws a record tab with nothing in `tobj`: it has read no record yet. -/
def ShowsNothing (s : Tasks σ) : Prop :=
  s.watch.client.readAttr = true ∧ tabRecord s.watch.client = none ∧
    ∃ co ptr, s.sched.control = .running co ∧ (s.sched.pool co).pc = .user ∧
      s.pc co = .updateTab ptr

/-- `main` has left its loop. -/
def HasLeft (s : Tasks σ) : Prop := s.main = .startPrintNow ∧ s.watch.client.endAttr = true

/-- `task_tab` has something to draw, unless it is to draw a record and there is none. -/
theorem taskTab_defined {c : Client} (h : c.readAttr = true → tabRecord c ≠ none) :
    ∃ calls, taskTab input c = some calls := by
  unfold taskTab
  split
  case isTrue hattr =>
    obtain ⟨tlb, htlb⟩ := Option.ne_none_iff_exists'.mp (h hattr)
    exact ⟨_, by rw [htlb]; rfl⟩
  case isFalse => exact ⟨_, rfl⟩

/-- What the tab shows can be drawn. -/
theorem taskTab_drawable {c : Client} {calls : List TuiCall} (h : taskTab input c = some calls)
    (htlb : ∀ tlb, c.tlb = some tlb → stepsOf tlb ≤ 16) : ∀ call ∈ calls, call.Drawable := by
  intro call hcall
  obtain ⟨hnone, htabs⟩ := taskTab_tabs h
  cases call with
  | updateTable tlb =>
    have hmem : tlb ∈ calls.filterMap TuiCall.drawn := List.mem_filterMap.mpr ⟨_, hcall, rfl⟩
    rw [hnone] at hmem
    cases hmem
  | tuiUpdateTab tab tlb first last xoAvgs =>
    cases tab with
    | record => exact htlb tlb (htabs tlb first last xoAvgs hcall)
    | loadavg => trivial
  | _ => trivial

/-- The body of a task goes on. -/
theorem InBody.progress {k : Task} {pc : TaskPc} {elems : List (List Byte)}
    (hat : TaskAt (.running k.slot) (queueFrom k.next) (jobsOf p k .running .user) elems s.sched)
    (hpc : s.pc k.slot = pc) (h : InBody A p s.watch k pc elems)
    (hshow : ∀ ptr, pc = .updateTab ptr → s.watch.client.readAttr = true →
      tabRecord s.watch.client ≠ none) :
    ∃ s', taskStep p input k.slot s = some s' := by
  unfold taskStep
  cases h with
  | printNow h =>
    obtain ⟨w', hdraw⟩ := @draw_defined _ _ (taskPrintNow input)
      (by simp [taskPrintNow, TuiCall.Drawable]) h.buffered
    simp only [hpc, hdraw]
    exact ⟨_, rfl⟩
  | select h =>
    simp only [hpc]
    cases input.ready <;> exact ⟨_, rfl⟩
  | read h hattr hfifo =>
    have hlen := length_take_record (recordsKept_reachable h.driver_reachable) hfifo
    -- what waits in the ring is a record of the driver's
    obtain ⟨i, q, hrec⟩ := coherent_read h.driver_reachable hfifo
    obtain ⟨w', hdraw⟩ := @draw_defined _ _ [.updateTable (recordOf
      (s.watch.driver.device.rxFifo.take recordSize))]
      (List.forall_mem_singleton.mpr hrec.validBoard) h.buffered
    simp only [hpc, hlen, if_true, hdraw]
    exact ⟨_, rfl⟩
  | stopMessage h =>
    obtain ⟨w', hdraw⟩ := @draw_defined _ _ [.stopMessage (!s.watch.client.readAttr)]
      (by simp [TuiCall.Drawable]) h.buffered
    simp only [hpc, hdraw]
    exact ⟨_, rfl⟩
  | send h =>
    obtain ⟨-, sched, hco, -⟩ := send_tobj hat
    simp only [hpc, hco]
    exact ⟨_, rfl⟩
  | recv h =>
    obtain ⟨-, -, sched, hco, -⟩ := recv_tobj hat
    simp only [hpc, hco]
    exact ⟨_, rfl⟩
  | updateTab h =>
    obtain ⟨v, input', io, h⟩ := h
    obtain ⟨tab, htab⟩ := @taskTab_defined input _ (hshow _ rfl)
    -- the record the tab shows has been read
    have hdrawable := @taskTab_drawable input _ _ htab fun tlb htlb => by
      obtain ⟨i, q, hrec⟩ := h.coherent htlb
      exact hrec.steps_le
    obtain ⟨w', hdraw⟩ := draw_defined hdrawable h.buffered
    simp only [hpc, ne_eq, not_true, and_false, if_false, htab, hdraw, Option.bind_eq_bind,
      Option.bind_some]
    exact ⟨_, rfl⟩
  | ret h =>
    obtain ⟨sched, hco, -⟩ := hat.ret (jobsOf_slot ..) rfl
    simp only [hpc, hco]
    exact ⟨_, rfl⟩

/-- **In every phase of a round there is a next step**, but for the two exceptions. -/
theorem Phase.progress (h : Phase A p s) (hleft : ¬ HasLeft s) (hshow : ¬ ShowsNothing s)
    (input : RoundInput) : ∃ s', clientStep p input s = some s' := by
  cases h with
  | top hpc hat =>
    -- at the top `main` starts a round unless `end_attr` is set
    have hend : ¬ s.watch.client.endAttr = true := fun hend => hleft ⟨hpc, hend⟩
    obtain ⟨sched, hco, -⟩ := start_printNow hat
    simp only [clientStep, hat.control, mainStep, hpc, if_neg hend, hco]
    exact ⟨_, rfl⟩
  | startIo hpc hat =>
    obtain ⟨sched, hco, -⟩ := start_io hat
    simp only [clientStep, hat.control, mainStep, hpc, hco]
    exact ⟨_, rfl⟩
  | startTab hpc hat =>
    obtain ⟨sched, hco, -⟩ := start_tab hat
    simp only [clientStep, hat.control, mainStep, hpc, hco]
    exact ⟨_, rfl⟩
  | run hpc hat =>
    obtain ⟨sched, hco, -⟩ := hat.run
    simp only [clientStep, hat.control, mainStep, hpc, hco]
    exact ⟨_, rfl⟩
  | loop k hpc hat =>
    simp only [clientStep, hat.control]
    cases k with
    | none =>
      obtain ⟨sched, hco, -⟩ := hat.stop
      exact ⟨_, by rw [hco]; rfl⟩
    | some k =>
      obtain ⟨sched, hco, -⟩ := (queueFrom_some k ▸ hat).dispatch (jobsFrom_slot k)
      exact ⟨_, by rw [hco]; rfl⟩
  | entry k hpc hat =>
    have hjob := hat.holds (jobsOf_slot ..)
    obtain ⟨sched, hco, -⟩ := hat.call (jobsOf_slot ..) rfl
    simp only [clientStep, hat.control, hjob.pc, Task.job, taskEntry_eq hjob, hco]
    exact ⟨_, rfl⟩
  | body k hpc hat h =>
    have hjob := hat.holds (jobsOf_slot ..)
    simp only [clientStep, hat.control, hjob.pc, Task.job]
    refine h.progress hat rfl fun ptr hptr hattr hnone => hshow ?_
    exact ⟨hattr, hnone, k.slot, ptr, hat.control, hjob.pc, hptr⟩
  | returned k hpc hat =>
    obtain ⟨sched, hco, -⟩ := hat.reap (jobsOf_slot ..) rfl
    simp only [clientStep, hat.control, hco]
    exact ⟨_, rfl⟩
  | flush hpc hat h =>
    obtain ⟨v, input', io, tab, h, -⟩ := h
    obtain ⟨w', hdraw⟩ := @draw_defined _ _ [.outbufFlush] (by simp [TuiCall.Drawable]) h.buffered
    simp only [clientStep, hat.control, mainStep, hpc, hdraw]
    exact ⟨_, rfl⟩

/-- **The client goes on.** In every state, whatever the driver has done and whatever the next step
learns from outside: there is a next step unless `main` has left its loop or `task_tab` is about to
draw a record before the first one is read. -/
theorem client_progress (A : Agents σ) (p : ClientPtrs) {s : Tasks σ}
    (h : (taskSystem A p).Reachable s) (input : RoundInput) :
    (∃ s', clientStep p input s = some s') ↔ ¬ HasLeft s ∧ ¬ ShowsNothing s := by
  have hphase := phase_reachable h
  refine ⟨fun ⟨s', hstep⟩ => ⟨fun hleft => ?_, fun hshow => ?_⟩,
    fun hgo => hphase.progress hgo.1 hgo.2 input⟩
  · obtain ⟨hpc, hend⟩ := hleft
    simp only [clientStep, (hphase.at_top hpc).1.control, mainStep, hpc, hend, if_true] at hstep
    cases hstep
  · obtain ⟨hattr, hnone, co, ptr, hcontrol, hpc, hptr⟩ := hshow
    simp only [clientStep, hcontrol, hpc, taskStep, hptr, taskTab, if_pos hattr, hnone] at hstep
    split at hstep <;> cases hstep

/-- `task_io` has read and drawn four moves of the first game, and is about to send. -/
theorem client_progress_send : ∃ s : Tasks AgentState,
    s.sched.control = .running (Task.slot .io) ∧ s.pc (Task.slot .io) = .send ∧
      recordsIn s.watch.driver.device.consumed = [fourMovesTable] ∧
      ∃ s', clientStep ⟨1, 2, 3, 4⟩ firstInput s = some s' := by
  obtain ⟨w, w', hw, hrunning, hready, hround, -, hdevice⟩ := fourMoves_round
  obtain ⟨⟨sched, main, pc, w⟩, hs, rfl, rfl⟩ := tasks_reach ⟨1, 2, 3, 4⟩ hw
  obtain ⟨hat, -⟩ := (phase_reachable hs).at_top rfl
  obtain ⟨c, io, tab, v₁, v₂, v₃, hio, -, hdrawNow, hdrawIo, -⟩ := watchRound_pieces hround
  obtain ⟨sched', pc', hruns, hat'⟩ := runs_untilSend (A := concreteAgents) pc hat hrunning
    (fun _ => hready) hio hdrawNow hdrawIo
  have hpc : Function.update pc' (Task.slot .io) .send (Task.slot .io) = .send :=
    Function.update_self _ _ _
  refine ⟨_, hat'.control, hpc, ?_, (client_progress concreteAgents ⟨1, 2, 3, 4⟩
    (hruns.reachable hs) firstInput).mpr ⟨(fun hleft => by cases hleft.1), ?_⟩⟩
  · show recordsIn v₂.driver.device.consumed = _
    rw [draw_driver hdrawIo, draw_driver hdrawNow]
    show recordsIn (roundRead firstInput w).2.device.consumed = _
    rw [hdevice]
    exact recordsIn_fourMovesRead
  · rintro ⟨-, -, co, ptr, hcontrol, -, hptr⟩
    cases hat'.control.symm.trans hcontrol
    cases hpc.symm.trans hptr

end Progress

end Kxo
