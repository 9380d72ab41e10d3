import Kxo.Tui.Tasks

/-!
# Kxo — rounds at a stroke (`user/xo-user.c` on `user/coro.c`)

`Kxo.Tui.Tasks` says where the client can be in a round. Here are the conclusions, for the two
descriptions of the client, by whole rounds (`watchSystem`) and by the steps of its coroutines
(`taskSystem`):

* **`rounds_atomic`** — at the top of `main`'s loop all is as whole rounds leave it, whatever the
  driver did between the steps;
* **`rounds_complete`** — and all that whole rounds can leave is reached so.

For the second the scheduler is run through a round: `main` starts the tasks (`runs_starts`), each
is entered (`runs_entry`), goes through its body (`runs_printNow`, `runs_io`, `runs_tab`) and is
reaped (`runs_exit`). Where a step learns nothing from outside it is given the `quiet` input, on
which nothing is ready: after `task_io` has read, the ring may be empty.
-/

namespace Kxo

variable {σ : Type}

/-! ## Runs of the client -/

/-- From `s` to `s'` by steps of the client. -/
def Runs (A : Agents σ) (p : ClientPtrs) (s s' : Tasks σ) : Prop :=
  ∃ es, (taskSystem A p).Executes s es s'

/-- The same times and averages, and no device to read from. -/
def RoundInput.quiet (input : RoundInput) : RoundInput := { input with ready := .stdin false none }

/-- A quiet input names no device. -/
theorem RoundInput.quiet_ready {q : Prop} (input : RoundInput) (h : input.quiet.ready = .device) :
    q := by cases h

section Runs

variable {A : Agents σ} {p : ClientPtrs} {s s' s'' : Tasks σ} {input : RoundInput} {w w' : Watch σ}
  {sched sched' : Sched Unit}

namespace Runs

/-- Runs follow on one another. -/
theorem trans (h : Runs A p s s') (h' : Runs A p s' s'') : Runs A p s s'' := by
  obtain ⟨es, hes⟩ := h
  obtain ⟨es', hes'⟩ := h'
  exact ⟨es ++ es', hes.append hes'⟩

/-- A run leads from reachable states to reachable ones. -/
theorem reachable (h : Runs A p s s') (hs : (taskSystem A p).Reachable s) :
    (taskSystem A p).Reachable s' := by
  obtain ⟨es, hes⟩ := h
  exact hes.reachable hs

/-- A step of the client is a run. -/
theorem step (input : RoundInput)
    (hready : input.ready = .device → s.watch.driver.device.rxFifo ≠ [])
    (h : clientStep p input s = some s') : Runs A p s s' :=
  ⟨[.round input], .cons ⟨hready, h⟩ (.nil _)⟩

/-- A step of `main`. -/
theorem main (hcontrol : s.sched.control = .main) (h : mainStep p s = some s') : Runs A p s s' := by
  refine .step firstInput.quiet firstInput.quiet_ready ?_
  simp only [clientStep, hcontrol, h]

/-- A pass of the loop of `co_run`. -/
theorem pass (hcontrol : s.sched.control = .loop ∨ ∃ co, s.sched.control = .returned co)
    (h : coStep s.sched .sched = some sched') : Runs A p s { s with sched := sched' } := by
  refine .step firstInput.quiet firstInput.quiet_ready ?_
  rcases hcontrol with hcontrol | ⟨co, hcontrol⟩ <;>
  · simp only [clientStep, hcontrol]
    rw [h]
    rfl

/-- A step of the body of `k`. -/
theorem body (input : RoundInput) {k : Task} {queue : List Slot} {elems : List (List Byte)}
    (hat : TaskAt (.running k.slot) queue (jobsOf p k .running .user) elems s.sched)
    (hready : input.ready = .device → s.watch.driver.device.rxFifo ≠ [])
    (h : taskStep p input k.slot s = some s') : Runs A p s s' := by
  refine .step input hready ?_
  have hjob := hat.holds (jobsOf_slot ..)
  simp only [clientStep, hat.control, hjob.pc, Task.job, h]

end Runs

/-! ## From one task to the next -/

/-- `main` starts the three tasks and calls `co_run`. -/
theorem runs_starts (pc : Slot → TaskPc) (hat : TaskAt .main [] (jobsFrom p none) [] sched)
    (hrunning : w.client.endAttr = false) :
    ∃ sched', Runs A p ⟨sched, .startPrintNow, pc, w⟩ ⟨sched', .flush, pc, w⟩ ∧
      TaskAt .loop (queueFrom (some .printNow)) (jobsFrom p (some .printNow))
        (elemsFrom p (some .printNow)) sched' := by
  have hend : ¬ w.client.endAttr = true := by rw [hrunning]; exact Bool.false_ne_true
  obtain ⟨sched₁, hco₁, hat₁⟩ := start_printNow hat
  obtain ⟨sched₂, hco₂, hat₂⟩ := start_io hat₁
  obtain ⟨sched₃, hco₃, hat₃⟩ := start_tab hat₂
  obtain ⟨sched₄, hco₄, hat₄⟩ := hat₃.run
  have h₁ : Runs A p ⟨sched, .startPrintNow, pc, w⟩ ⟨sched₁, .startIo, pc, w⟩ :=
    .main hat.control (by simp only [mainStep, if_neg hend, hco₁]; rfl)
  have h₂ : Runs A p ⟨sched₁, .startIo, pc, w⟩ ⟨sched₂, .startTab, pc, w⟩ :=
    .main hat₁.control (by simp only [mainStep, hco₂]; rfl)
  have h₃ : Runs A p ⟨sched₂, .startTab, pc, w⟩ ⟨sched₃, .run, pc, w⟩ :=
    .main hat₂.control (by simp only [mainStep, hco₃]; rfl)
  have h₄ : Runs A p ⟨sched₃, .run, pc, w⟩ ⟨sched₄, .flush, pc, w⟩ :=
    .main hat₃.control (by simp only [mainStep, hco₄]; rfl)
  exact ⟨sched₄, h₁.trans (h₂.trans (h₃.trans h₄)), hat₄⟩

/-- `co_run` takes the next task from the queue, and it begins. -/
theorem runs_entry (pc : Slot → TaskPc) {k : Task}
    (hat : TaskAt .loop (queueFrom (some k)) (jobsFrom p (some k))
      (elemsFrom p (some k)) sched) :
    ∃ sched', Runs A p ⟨sched, .flush, pc, w⟩
        ⟨sched', .flush, Function.update pc k.slot k.begins, w⟩ ∧
      TaskAt (.running k.slot) (queueFrom k.next) (jobsOf p k .running .user)
        (elemsFrom p (some k)) sched' := by
  obtain ⟨sched₁, hco₁, hat₁⟩ := (queueFrom_some k ▸ hat).dispatch (jobsFrom_slot k)
  have hentry : TaskAt (.running k.slot) (queueFrom k.next) (jobsOf p k .running .entry)
      (elemsFrom p (some k)) sched₁ := hat₁
  have hjob := hentry.holds (jobsOf_slot ..)
  obtain ⟨sched₂, hco₂, hat₂⟩ := hentry.call (jobsOf_slot ..) rfl
  refine ⟨sched₂, (Runs.pass (.inl hat.control) hco₁).trans ?_, jobsOf_update k .. ▸ hat₂⟩
  refine .step firstInput.quiet firstInput.quiet_ready ?_
  simp only [clientStep, hentry.control, hjob.pc, Task.job, taskEntry_eq hjob, hco₂]
  rfl

/-- It returns, and its slot is free again. -/
theorem runs_exit (pc : Slot → TaskPc) {k : Task}
    (hat : TaskAt (.running k.slot) (queueFrom k.next)
      (jobsOf p k .running .user) (elemsFrom p k.next) sched) :
    ∃ sched', Runs A p ⟨sched, .flush, Function.update pc k.slot .ret, w⟩
        ⟨sched', .flush, Function.update pc k.slot .ret, w⟩ ∧
      TaskAt .loop (queueFrom k.next) (jobsFrom p k.next) (elemsFrom p k.next) sched' := by
  obtain ⟨sched₁, hco₁, hat₁⟩ := hat.ret (jobsOf_slot ..) rfl
  have hdone : TaskAt (.returned k.slot) (queueFrom k.next) (jobsOf p k .done .user)
      (elemsFrom p k.next) sched₁ := jobsOf_update k .. ▸ hat₁
  obtain ⟨sched₂, hco₂, hat₂⟩ := hdone.reap (jobsOf_slot ..) rfl
  have hret : Runs A p ⟨sched, .flush, Function.update pc k.slot .ret, w⟩
      ⟨sched₁, .flush, Function.update pc k.slot .ret, w⟩ := by
    refine .body firstInput.quiet hat firstInput.quiet_ready ?_
    simp only [taskStep, Function.update_self, hco₁]
    rfl
  have hreap : Runs A p ⟨sched₁, .flush, Function.update pc k.slot .ret, w⟩
      ⟨sched₂, .flush, Function.update pc k.slot .ret, w⟩ := .pass (.inr ⟨_, hdone.control⟩) hco₂
  exact ⟨sched₂, hret.trans hreap, jobsOf_free k .. ▸ hat₂⟩

/-! ## The bodies -/

/-- Drawing in pieces. -/
theorem draw_append {calls more : List TuiCall} (h : draw (calls ++ more) w = some w') :
    ∃ v, draw calls w = some v ∧ draw more v = some w' := by
  obtain ⟨tui, out, outbuf, htui, houtbuf, rfl⟩ := draw_eq_some h
  obtain ⟨tui₁, out₁, out₂, htui₁, htui₂, rfl⟩ := tuiCalls_append htui
  rw [outbufCalls_bind] at houtbuf
  obtain ⟨outbuf₁, houtbuf₁, houtbuf₂⟩ := Option.bind_eq_some_iff.mp houtbuf
  refine ⟨{ w with tui := tui₁, outbuf := outbuf₁, calls := w.calls ++ calls }, ?_, ?_⟩
  · show (tuiCalls w.tui calls).bind _ = _
    rw [htui₁]
    show (outbufCalls w.outbuf out₁).bind _ = _
    rw [houtbuf₁]
    rfl
  · show (tuiCalls tui₁ more).bind _ = _
    rw [htui₂]
    show (outbufCalls outbuf₁ out₂).bind _ = _
    rw [houtbuf₂, ← List.append_assoc]
    rfl

/-- `task_print_now`. -/
theorem runs_printNow (pc : Slot → TaskPc)
    (hat : TaskAt (.running (Task.slot .printNow)) (queueFrom (some .io))
      (jobsOf p .printNow .running .user) [] sched)
    (hdraw : draw (taskPrintNow input) w = some w') :
    Runs A p ⟨sched, .flush, Function.update pc (Task.slot .printNow) .printNow, w⟩
      ⟨sched, .flush, Function.update pc (Task.slot .printNow) .ret, w'⟩ := by
  refine .body input.quiet hat input.quiet_ready ?_
  have hquiet : draw (taskPrintNow input.quiet) w = some w' := hdraw
  simp only [taskStep, Function.update_self, hquiet, Function.update_idem]
  rfl

/-- The message about the display, with which `task_io` ends before it sends. -/
theorem runs_stopMessage (pc : Slot → TaskPc)
    (hat : TaskAt (.running (Task.slot .io)) (queueFrom (some .tab))
      (jobsOf p .io .running .user) [] sched)
    (hdraw : draw [.stopMessage (!w.client.readAttr)] w = some w') :
    Runs A p ⟨sched, .flush, Function.update pc (Task.slot .io) .stopMessage, w⟩
      ⟨sched, .flush, Function.update pc (Task.slot .io) .send, w'⟩ := by
  refine .body firstInput.quiet hat firstInput.quiet_ready ?_
  simp only [taskStep, Function.update_self, hdraw, Function.update_idem]
  rfl

/-- The read, and the board drawn. -/
theorem runs_read (pc : Slot → TaskPc)
    (hat : TaskAt (.running (Task.slot .io)) (queueFrom (some .tab))
      (jobsOf p .io .running .user) [] sched) {bytes : List Byte}
    (hbytes : w.driver.device.rxFifo.take recordSize = bytes) (hlen : bytes.length = recordSize)
    (hdraw : draw [.updateTable (recordOf bytes)] { w with
      driver := { w.driver with device := kxoRead w.driver.device recordSize }
      client := { w.client with tlb := some (recordOf bytes) } } = some w') :
    Runs A p ⟨sched, .flush, Function.update pc (Task.slot .io) .read, w⟩
      ⟨sched, .flush, Function.update pc (Task.slot .io) .stopMessage, w'⟩ := by
  refine .body firstInput.quiet hat firstInput.quiet_ready ?_
  have hfirst := draw_congr hdraw w.driver w.client
  obtain ⟨tui, out, outbuf, -, -, rfl⟩ := draw_eq_some hdraw
  simp only [taskStep, Function.update_self, hbytes, if_pos hlen, hfirst, Function.update_idem]
  rfl

/-- `task_io` up to `co_chan_send`: what it does in pieces is what it does in a round. -/
theorem runs_io (pc : Slot → TaskPc)
    (hat : TaskAt (.running (Task.slot .io)) (queueFrom (some .tab))
      (jobsOf p .io .running .user) [] sched)
    (hready : input.ready = .device → w.driver.device.rxFifo ≠ []) {c : Client}
    {calls : List TuiCall} (hio : taskIo input (roundRead input w).1 w.client = some (c, calls))
    (hdraw : draw calls { w with driver := (roundRead input w).2, client := c } = some w') :
    Runs A p ⟨sched, .flush, Function.update pc (Task.slot .io) .select, w⟩
      ⟨sched, .flush, Function.update pc (Task.slot .io) .send, w'⟩ := by
  unfold taskIo at hio
  unfold roundRead readsDevice at hio hdraw
  cases hinput : input.ready with
  | stdin opened key =>
    simp only [hinput, Bool.false_eq_true, if_false] at hio hdraw
    obtain ⟨rfl, rfl⟩ := Prod.mk.inj (Option.some.inj hio)
    refine .trans (.body input hat hready ?_) (runs_stopMessage pc hat hdraw)
    simp only [taskStep, Function.update_self, hinput, Function.update_idem]
  | device =>
    by_cases hread : w.client.readAttr = true
    · simp only [hinput, if_pos hread] at hio hdraw
      generalize hbytes : w.driver.device.rxFifo.take recordSize = bytes at hio
      by_cases hlen : bytes.length = recordSize
      · simp only [if_pos hlen] at hio
        obtain ⟨rfl, rfl⟩ := Prod.mk.inj (Option.some.inj hio)
        obtain ⟨v, hupdate, hstop⟩ := @draw_append _ _ _ [.updateTable (recordOf bytes)] _ hdraw
        have hclient := draw_client hupdate
        have hselect : Runs A p ⟨sched, .flush, Function.update pc (Task.slot .io) .select, w⟩
            ⟨sched, .flush, Function.update pc (Task.slot .io) .read, w⟩ := by
          refine .body input hat hready ?_
          simp only [taskStep, Function.update_self, hinput, if_pos hread, Function.update_idem]
        have hread := runs_read (A := A) pc hat hbytes hlen hupdate
        refine hselect.trans (hread.trans (runs_stopMessage pc hat ?_))
        rw [hclient]
        exact hstop
      · simp only [if_neg hlen] at hio
        cases hio
    · simp only [hinput, if_neg hread] at hio hdraw
      obtain ⟨rfl, rfl⟩ := Prod.mk.inj (Option.some.inj hio)
      refine .trans (.body input hat hready ?_) (runs_stopMessage pc hat hdraw)
      simp only [taskStep, Function.update_self, hinput, if_neg hread, Function.update_idem]

/-- `co_chan_send` finds room. -/
theorem runs_send (pc : Slot → TaskPc)
    (hat : TaskAt (.running (Task.slot .io)) (queueFrom (some .tab))
      (jobsOf p .io .running .user) [] sched) :
    ∃ sched', Runs A p ⟨sched, .flush, Function.update pc (Task.slot .io) .send, w⟩
        ⟨sched', .flush, Function.update pc (Task.slot .io) .ret, w⟩ ∧
      TaskAt (.running (Task.slot .io)) (queueFrom (some .tab)) (jobsOf p .io .running .user)
        (elemsFrom p (some .tab)) sched' := by
  obtain ⟨hroom, sched', hco, hat'⟩ := send_tobj hat
  refine ⟨sched', .body firstInput.quiet hat firstInput.quiet_ready ?_, hat'⟩
  simp only [taskStep, Function.update_self, hco, afterSend, if_neg hroom, Function.update_idem]
  rfl

/-- `task_tab`. -/
theorem runs_tab (pc : Slot → TaskPc) (hat : TaskAt (.running (Task.slot .tab)) (queueFrom none)
      (jobsOf p .tab .running .user) (elemsFrom p (some .tab)) sched) {calls : List TuiCall}
    (htab : taskTab input w.client = some calls) (hdraw : draw calls w = some w') :
    ∃ sched', Runs A p ⟨sched, .flush, Function.update pc (Task.slot .tab) .recv, w⟩
        ⟨sched', .flush, Function.update pc (Task.slot .tab) .ret, w'⟩ ∧
      TaskAt (.running (Task.slot .tab)) (queueFrom none) (jobsOf p .tab .running .user)
        (elemsFrom p none) sched' := by
  obtain ⟨hfront, hne, sched', hco, hat'⟩ := recv_tobj hat
  have hrecv : Runs A p ⟨sched, .flush, Function.update pc (Task.slot .tab) .recv, w⟩
      ⟨sched', .flush, Function.update pc (Task.slot .tab) (.updateTab p.tobj), w⟩ := by
    refine .body firstInput.quiet hat firstInput.quiet_ready ?_
    simp only [taskStep, Function.update_self, hco, afterRecv, if_neg hne, hfront,
      Function.update_idem]
    rfl
  have hquiet : taskTab input.quiet w.client = some calls := htab
  refine ⟨sched', hrecv.trans (.body input.quiet hat' input.quiet_ready ?_), hat'⟩
  simp only [taskStep, Function.update_self, ne_eq, not_true, and_false, if_false, hquiet,
    Option.bind_eq_bind, Option.bind_some, hdraw, Function.update_idem]
  rfl

/-! ## A whole round -/

/-- A round in the pieces that the tasks draw. -/
theorem watchRound_pieces (h : watchRound input w = some w') :
    ∃ c io tab v₁ v₂ v₃, taskIo input (roundRead input w).1 w.client = some (c, io) ∧
      taskTab input c = some tab ∧
      draw (taskPrintNow input) { w with driver := (roundRead input w).2, client := c } = some v₁ ∧
      draw io v₁ = some v₂ ∧ draw tab v₂ = some v₃ ∧ draw [.outbufFlush] v₃ = some w' := by
  rw [watchRound_eq] at h
  obtain ⟨⟨c, calls⟩, hclient, hdraw⟩ := Option.bind_eq_some_iff.mp h
  obtain ⟨⟨c₁, io⟩, hio, hclient⟩ := Option.bind_eq_some_iff.mp hclient
  obtain ⟨tab, htab, hclient⟩ := Option.bind_eq_some_iff.mp hclient
  obtain ⟨rfl, rfl⟩ := Prod.mk.inj (Option.some.inj hclient)
  obtain ⟨v₃, hdraw, hflush⟩ := draw_append hdraw
  obtain ⟨v₂, hdraw, hdrawTab⟩ := draw_append hdraw
  obtain ⟨v₁, hdrawNow, hdrawIo⟩ := draw_append hdraw
  exact ⟨c₁, io, tab, v₁, v₂, v₃, hio, htab, hdrawNow, hdrawIo, hdrawTab, hflush⟩

/-- From the top of the loop until `task_io` is about to send. -/
theorem runs_untilSend (pc : Slot → TaskPc) (hat : TaskAt .main [] (jobsFrom p none) [] sched)
    (hrunning : w.client.endAttr = false)
    (hready : input.ready = .device → w.driver.device.rxFifo ≠ []) {c : Client} {io : List TuiCall}
    (hio : taskIo input (roundRead input w).1 w.client = some (c, io)) {v : Watch σ}
    (hdraw : draw (taskPrintNow input) { w with driver := (roundRead input w).2, client := c } =
      some v) (hdrawIo : draw io v = some w') :
    ∃ sched' pc', Runs A p ⟨sched, .startPrintNow, pc, w⟩
        ⟨sched', .flush, Function.update pc' (Task.slot .io) .send, w'⟩ ∧
      TaskAt (.running (Task.slot .io)) (queueFrom (some .tab)) (jobsOf p .io .running .user) []
        sched' := by
  have hdrawNow := draw_congr hdraw w.driver w.client
  obtain ⟨tui, out, outbuf, -, -, rfl⟩ := draw_eq_some hdraw
  obtain ⟨sched₁, h₁, hat₁⟩ := runs_starts (A := A) pc hat hrunning
  obtain ⟨sched₂, h₂, hat₂⟩ := runs_entry (A := A) pc hat₁
  have h₃ := runs_printNow (A := A) pc hat₂ hdrawNow
  obtain ⟨sched₄, h₄, hat₄⟩ := runs_exit (A := A) pc (k := .printNow) hat₂
  obtain ⟨sched₅, h₅, hat₅⟩ := runs_entry (A := A) _ (k := .io) hat₄
  exact ⟨sched₅, _, h₁.trans (h₂.trans (h₃.trans (h₄.trans (h₅.trans
    (runs_io (w := { w with tui, outbuf, calls := w.calls ++ taskPrintNow input }) _ hat₅ hready hio
      hdrawIo))))), hat₅⟩

/-- **A round at a stroke is made in pieces.** -/
theorem runs_round (pc : Slot → TaskPc) (hat : TaskAt .main [] (jobsFrom p none) [] sched)
    (hrunning : w.client.endAttr = false)
    (hready : input.ready = .device → w.driver.device.rxFifo ≠ [])
    (hround : watchRound input w = some w') :
    ∃ sched' pc', Runs A p ⟨sched, .startPrintNow, pc, w⟩ ⟨sched', .startPrintNow, pc', w'⟩ := by
  obtain ⟨c, io, tab, v₁, v₂, v₃, hio, htab, hdrawNow, hdrawIo, hdrawTab, hflush⟩ :=
    watchRound_pieces hround
  have hclient : v₂.client = c := (draw_client hdrawIo).trans (draw_client hdrawNow)
  rw [← hclient] at htab
  obtain ⟨sched₁, pc₁, h₁, hat₁⟩ :=
    runs_untilSend (A := A) pc hat hrunning hready hio hdrawNow hdrawIo
  let pc₂ := Function.update pc₁ (Task.slot .io) .ret
  obtain ⟨sched₂, h₂, hat₂⟩ := runs_send (A := A) pc₁ hat₁
  obtain ⟨sched₃, h₃, hat₃⟩ := runs_exit (A := A) pc₁ (k := .io) hat₂
  obtain ⟨sched₄, h₄, hat₄⟩ := runs_entry (A := A) pc₂ (k := .tab) hat₃
  obtain ⟨sched₅, h₅, hat₅⟩ := runs_tab (A := A) pc₂ hat₄ htab hdrawTab
  obtain ⟨sched₆, h₆, hat₆⟩ := runs_exit (A := A) pc₂ (k := .tab) hat₅
  obtain ⟨sched₇, hco, hat₇⟩ := hat₆.stop
  let pc₃ := Function.update pc₂ (Task.slot .tab) .ret
  have h₇ : Runs A p ⟨sched₆, .flush, pc₃, v₃⟩ ⟨sched₇, .flush, pc₃, v₃⟩ :=
    .pass (.inl hat₆.control) hco
  have h₈ : Runs A p ⟨sched₇, .flush, pc₃, v₃⟩ ⟨sched₇, .startPrintNow, pc₃, w'⟩ :=
    .main hat₇.control (by simp only [mainStep, hflush]; rfl)
  exact ⟨sched₇, pc₃, h₁.trans (h₂.trans (h₃.trans (h₄.trans (h₅.trans (h₆.trans (h₇.trans h₈))))))⟩

/-! ## Whole rounds and steps of the tasks -/

/-- The start of the client's loop. -/
theorem taskSystem_init (h : (watchSystem A).init w) : (taskSystem A p).init
    ⟨coInit (fun _ => 8) fun _ => 0x10, .startPrintNow, fun _ => .ret, w⟩ := ⟨rfl, rfl, h⟩

/-- What whole rounds leave, the tasks reach. -/
theorem tasks_reach (p : ClientPtrs) (h : (watchSystem A).Reachable w) :
    ∃ s, (taskSystem A p).Reachable s ∧ s.main = .startPrintNow ∧ s.watch = w := by
  induction h with
  | init hw => exact ⟨_, .init (taskSystem_init hw), rfl, rfl⟩
  | @step w w' e _ hstep ih =>
    obtain ⟨⟨sched, main, pc, w⟩, hs, rfl, rfl⟩ := ih
    cases e with
    | driver e =>
      obtain ⟨hread, driver, hdriver, rfl⟩ := hstep
      exact ⟨_, .step (e := .driver e) hs ⟨hread, driver, hdriver, rfl⟩, rfl, rfl⟩
    | round input =>
      obtain ⟨hrunning, hready, hround⟩ := hstep
      obtain ⟨hat, -⟩ := (phase_reachable hs).at_top rfl
      obtain ⟨sched', pc', hruns⟩ := runs_round (A := A) pc hat hrunning hready hround
      exact ⟨_, hruns.reachable hs, rfl, rfl⟩

/-- **A round is atomic.** Whatever the driver does between the steps of the client's coroutines, at
the top of `main`'s loop the client, the driver and the screen are as a run of whole rounds leaves
them; every slot is free again and the channel empty. At no point does a task wait for another. -/
theorem rounds_atomic (A : Agents σ) (p : ClientPtrs) {s : Tasks σ}
    (h : (taskSystem A p).Reachable s) :
    (s.main = .startPrintNow → (watchSystem A).Reachable s.watch ∧
      (∀ co, (s.sched.pool co).state = .free) ∧ (s.sched.chans ()).count = 0) ∧
      ∀ co, (s.sched.pool co).state ≠ .blocked := by
  have hphase := phase_reachable h
  refine ⟨fun htop => ?_, hphase.not_blocked⟩
  obtain ⟨hat, hr⟩ := hphase.at_top htop
  refine ⟨hr, fun co => ?_, (hat.chans ()).count_eq⟩
  have hco : Holds (s.sched.pool co) none := by
    simpa only [jobsFrom, taskJobs, ite_self] using hat.jobs co
  exact hco.1

/-- After a round of the tasks in which four moves of the first game have been read. -/
theorem rounds_atomic_moves : ∃ s : Tasks AgentState, s.main = .startPrintNow ∧
    recordsIn s.watch.driver.device.consumed = [fourMovesTable] ∧
      ((watchSystem concreteAgents).Reachable s.watch ∧
        (∀ co, (s.sched.pool co).state = .free) ∧ (s.sched.chans ()).count = 0) ∧
      ∀ co, (s.sched.pool co).state ≠ .blocked := by
  obtain ⟨w, w', hw, hrunning, hready, hround, hdriver, hdevice⟩ := fourMoves_round
  obtain ⟨s, hs, hmain, hwatch⟩ := tasks_reach ⟨1, 2, 3, 4⟩
    (.step (e := .round firstInput) hw ⟨hrunning, fun _ => hready, hround⟩)
  obtain ⟨htop, hblocked⟩ := rounds_atomic concreteAgents ⟨1, 2, 3, 4⟩ hs
  refine ⟨s, hmain, ?_, htop hmain, hblocked⟩
  rw [hwatch, hdriver, hdevice]
  exact recordsIn_fourMovesRead

/-- **And every round is one of the tasks.** What whole rounds can leave of the client, the driver
and the screen is what there can be at the top of `main`'s loop. -/
theorem rounds_complete (A : Agents σ) (p : ClientPtrs) (w : Watch σ) :
    (watchSystem A).Reachable w ↔
      ∃ s, (taskSystem A p).Reachable s ∧ s.main = .startPrintNow ∧ s.watch = w := by
  refine ⟨tasks_reach p, ?_⟩
  rintro ⟨s, hs, hmain, rfl⟩
  exact ((phase_reachable hs).at_top hmain).2

end Runs

end Kxo
