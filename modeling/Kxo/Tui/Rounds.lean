import Kxo.Spec.Tasks
import Kxo.Tui.Watch

/-!
# Kxo — rounds of the client in pieces (`user/xo-user.c`)

A round made piece by piece, the driver's steps in between, comes out as one at a stroke: its only
dealing with the driver is the read, and what the driver does before and after that it could have
done before and after the round.

* **`Begun`** — before `task_io` looks: a round not begun, but for what is drawn. A step of the
  driver here is one before the round.
* **`Looked`** — from the look on: the round belongs to the state at the look, and the driver has
  done some steps since. They are steps after the round.
* **`Begun.looked`**, **`Begun.read`** — the look, without and with a read, takes one to the other.
* **`Looked.round`** — at the flush the round is complete: made at a stroke at the look and followed
  by the driver's steps it leads to the same state.
-/

namespace Kxo

variable {σ : Type}

/-! ## Drawing

Calls are drawn one after another, and drawing commutes with all that the driver does, since neither
looks at what the other changes. -/

section Drawing

variable {w w' : Watch σ} {calls more : List TuiCall}

/-- A drawing in parts: the bytes of the calls, and the buffer they go through. -/
theorem draw_eq_some (h : draw calls w = some w') :
    ∃ tui out outbuf, tuiCalls w.tui calls = some (tui, out) ∧
      outbufCalls w.outbuf out = some outbuf ∧
      w' = { w with tui, outbuf, calls := w.calls ++ calls } := by
  obtain ⟨⟨tui, out⟩, htui, h⟩ := Option.bind_eq_some_iff.mp h
  obtain ⟨outbuf, houtbuf, h⟩ := Option.bind_eq_some_iff.mp h
  exact ⟨tui, out, outbuf, htui, houtbuf, (Option.some.inj h).symm⟩

/-- No calls, nothing drawn. -/
theorem draw_nil (w : Watch σ) : draw [] w = some w := by
  show some { w with tui := w.tui, outbuf := w.outbuf, calls := w.calls ++ [] } = some w
  rw [List.append_nil]

/-- The bytes of calls after calls. -/
theorem tuiCalls_trans {ui ui' ui'' : TuiState} {out out' : List OutbufCall}
    (h : tuiCalls ui calls = some (ui', out)) (h' : tuiCalls ui' more = some (ui'', out')) :
    tuiCalls ui (calls ++ more) = some (ui'', out ++ out') := by
  induction calls generalizing ui out with
  | nil =>
    obtain ⟨rfl, rfl⟩ := Prod.mk.inj (Option.some.inj h)
    exact h'
  | cons call calls ih =>
    obtain ⟨⟨ui₁, first⟩, hfirst, h⟩ := Option.bind_eq_some_iff.mp h
    obtain ⟨⟨ui₂, rest⟩, hrest, h⟩ := Option.bind_eq_some_iff.mp h
    obtain ⟨rfl, rfl⟩ := Prod.mk.inj (Option.some.inj h)
    rw [List.cons_append, tuiCalls, hfirst]
    show (tuiCalls ui₁ (calls ++ more)).bind _ = _
    rw [ih hrest, List.append_assoc]
    rfl

/-- Drawing leaves the client's own state, -/
theorem draw_client (h : draw calls w = some w') : w'.client = w.client := by
  obtain ⟨tui, out, outbuf, -, -, rfl⟩ := draw_eq_some h
  rfl

/-- and the driver. -/
theorem draw_driver (h : draw calls w = some w') : w'.driver = w.driver := by
  obtain ⟨tui, out, outbuf, -, -, rfl⟩ := draw_eq_some h
  rfl

/-- The calls of a round may be made in pieces. -/
theorem draw_trans {w'' : Watch σ} (h : draw calls w = some w') (h' : draw more w' = some w'') :
    draw (calls ++ more) w = some w'' := by
  obtain ⟨tui, out, outbuf, htui, houtbuf, rfl⟩ := draw_eq_some h
  obtain ⟨tui', out', outbuf', htui', houtbuf', rfl⟩ := draw_eq_some h'
  show (tuiCalls w.tui (calls ++ more)).bind _ = _
  rw [tuiCalls_trans htui htui']
  show (outbufCalls w.outbuf (out ++ out')).bind _ = _
  rw [outbufCalls_append houtbuf, houtbuf', ← List.append_assoc]
  rfl

/-- Drawing does not look at the driver or at the client's own state. -/
theorem draw_congr (h : draw calls w = some w') (driver : Driver σ) (client : Client) :
    draw calls { w with driver, client } = some { w' with driver, client } := by
  obtain ⟨tui, out, outbuf, htui, houtbuf, rfl⟩ := draw_eq_some h
  show (tuiCalls w.tui calls).bind _ = _
  rw [htui]
  show (outbufCalls w.outbuf out).bind _ = _
  rw [houtbuf]
  rfl

end Drawing

/-! ## A round in progress

Drawing and steps of the driver keep the two forms; the flush ends them. -/

section Rounds

variable {A : Agents σ} {p : ClientPtrs} {w s s' : Watch σ} {input : RoundInput}
  {io drawn more : List TuiCall} {driver : Driver σ}

/-- The driver without `read`. -/
def quietSystem (A : Agents σ) : System (Driver σ) Event :=
  (driverSystem A).restrict fun _ e => ∀ count, e ≠ .read count

/-- `task_io` has not looked yet; this much is drawn. -/
def Begun (A : Agents σ) (drawn : List TuiCall) (s : Watch σ) : Prop :=
  ∃ w, (watchSystem A).Reachable w ∧ w.client.endAttr = false ∧ draw drawn w = some s

/-- `task_io` has looked, and read if there was something to read, when all was as in `w`; this much
is drawn, and the driver has gone on. -/
structure Looked (A : Agents σ) (w : Watch σ) (input : RoundInput) (io drawn : List TuiCall)
    (s : Watch σ) : Prop where
  reachable : (watchSystem A).Reachable w
  running : w.client.endAttr = false
  ready : input.ready = .device → w.driver.device.rxFifo ≠ []
  io : taskIo input (roundRead input w).1 w.client = some (s.client, io)
  driver : ∃ es, (quietSystem A).Executes (roundRead input w).2 es s.driver
  drawn : draw drawn { w with driver := s.driver, client := s.client } = some s

/-- More is drawn before the look. -/
theorem Begun.draw (h : Begun A drawn s) (hdraw : Kxo.draw more s = some s') :
    Begun A (drawn ++ more) s' := by
  obtain ⟨w, hr, hrunning, hdrawn⟩ := h
  exact ⟨w, hr, hrunning, draw_trans hdrawn hdraw⟩

/-- The driver goes on before the look: as if the round began later. -/
theorem Begun.driver_step (h : Begun A drawn s) {e : Event} (hread : ∀ count, e ≠ .read count)
    (hstep : (driverSystem A).step s.driver e driver) : Begun A drawn { s with driver } := by
  obtain ⟨w, hr, hrunning, hdrawn⟩ := h
  have hcongr := draw_congr hdrawn driver w.client
  obtain ⟨tui, out, outbuf, -, -, rfl⟩ := draw_eq_some hdrawn
  exact ⟨{ w with driver }, .step (e := .driver e) hr ⟨hread, driver, hstep, rfl⟩, hrunning, hcongr⟩

/-- More is drawn after the look. -/
theorem Looked.draw (h : Looked A w input io drawn s) (hdraw : Kxo.draw more s = some s') :
    Looked A w input io (drawn ++ more) s' := by
  obtain ⟨tui, out, outbuf, htui, houtbuf, rfl⟩ := draw_eq_some hdraw
  exact ⟨h.reachable, h.running, h.ready, h.io, h.driver, draw_trans h.drawn hdraw⟩

/-- The driver goes on after the look: as if the round were over. -/
theorem Looked.driver_step (h : Looked A w input io drawn s) {e : Event}
    (hread : ∀ count, e ≠ .read count) (hstep : (driverSystem A).step s.driver e driver) :
    Looked A w input io drawn { s with driver } := by
  obtain ⟨es, hes⟩ := h.driver
  refine ⟨h.reachable, h.running, h.ready, h.io, ⟨es ++ [e], ?_⟩, ?_⟩
  · exact hes.append (.cons ⟨hread, hstep⟩ (.nil _))
  · exact draw_congr h.drawn driver s.client

/-- What `task_tab` learns from outside comes later. -/
theorem Looked.tab (h : Looked A w input io drawn s) (input' : RoundInput) :
    Looked A w { input with first := input'.first, last := input'.last, xoAvgs := input'.xoAvgs }
      io drawn s := ⟨h.reachable, h.running, h.ready, h.io, h.driver, h.drawn⟩

/-- What the driver does without `read` it does beside the client. -/
theorem reachable_of_executes {es : List Event} {d : Driver σ}
    (h : (quietSystem A).Executes d es driver)
    (hr : (watchSystem A).Reachable { s with driver := d }) :
    (watchSystem A).Reachable { s with driver } := by
  induction h with
  | nil => exact hr
  | @cons d t u e es hstep _ ih =>
    exact ih (.step (e := .driver e) hr ⟨hstep.1, t, hstep.2, rfl⟩)

/-- A round at a stroke is a step of the system. -/
theorem reachable_round (hr : (watchSystem A).Reachable w) (hrunning : w.client.endAttr = false)
    (hready : input.ready = .device → w.driver.device.rxFifo ≠ [])
    (hround : watchRound input w = some s) : (watchSystem A).Reachable s :=
  .step (e := .round input) hr ⟨hrunning, hready, hround⟩

/-- A round draws the clock, what `task_io` and `task_tab` draw, and flushes. -/
theorem clientRound_eq {bytes : List Byte} {c c' : Client} {tab : List TuiCall}
    (hio : taskIo input bytes c = some (c', io)) (htab : taskTab input c' = some tab) :
    clientRound input bytes c =
      some (c', taskPrintNow input ++ io ++ tab ++ [TuiCall.outbufFlush]) := by
  rw [clientRound, hio]
  show (taskTab input c').bind _ = _
  rw [htab]
  rfl

/-- A round is a read, and what the client draws then. -/
theorem watchRound_eq (input : RoundInput) (w : Watch σ) :
    watchRound input w = (clientRound input (roundRead input w).1 w.client).bind fun round =>
      Kxo.draw round.2 { w with driver := (roundRead input w).2, client := round.1 } := rfl

/-- **A round in pieces is a round**, with what the driver did since the read after it. -/
theorem Looked.round {tab : List TuiCall}
    (h : Looked A w input io (taskPrintNow input ++ io ++ tab) s)
    (htab : taskTab input s.client = some tab) (hflush : Kxo.draw [.outbufFlush] s = some s') :
    (watchSystem A).Reachable s' := by
  have hdraw := draw_congr (draw_trans h.drawn hflush) (roundRead input w).2 s.client
  have hround : watchRound input w =
      some { s' with driver := (roundRead input w).2, client := s.client } := by
    rw [watchRound_eq, clientRound_eq h.io htab]
    exact hdraw
  obtain ⟨tui, out, outbuf, -, -, rfl⟩ := draw_eq_some hflush
  obtain ⟨es, hes⟩ := h.driver
  exact reachable_of_executes (s := { s with tui, outbuf, calls := s.calls ++ [.outbufFlush] })
    hes (reachable_round h.reachable h.running h.ready hround)

/-- `task_io` has looked: a key was pressed, or there is nothing to read. -/
theorem Begun.looked (h : Begun A (taskPrintNow input) s) {ready : Ready} {c : Client}
    (hready : ready = .device → s.driver.device.rxFifo ≠ [])
    (hnone : ∀ input : RoundInput, input.ready = ready → readsDevice input s.client = false)
    (hio : ∀ input : RoundInput, input.ready = ready → ∀ bytes,
      taskIo input bytes s.client = some (c, [.stopMessage (!c.readAttr)])) :
    ∃ w input', Looked A w input' [.stopMessage (!c.readAttr)] (taskPrintNow input')
      { s with client := c } := by
  obtain ⟨w, hr, hrunning, hdrawn⟩ := h
  have hcongr := draw_congr hdrawn s.driver c
  obtain ⟨tui, out, outbuf, -, -, rfl⟩ := draw_eq_some hdrawn
  have hread : roundRead { input with ready } w = ([], w.driver) := by
    rw [roundRead, hnone { input with ready } rfl]
    rfl
  refine ⟨w, { input with ready }, hr, hrunning, hready, ?_, ⟨[], ?_⟩, hcongr⟩
  · exact hio { input with ready } rfl _
  · rw [hread]
    exact .nil _

/-- It has read a record. -/
theorem Begun.read (h : Begun A (taskPrintNow input) s) (hready : s.driver.device.rxFifo ≠ [])
    (hread : s.client.readAttr = true) {bytes : List Byte}
    (hbytes : s.driver.device.rxFifo.take recordSize = bytes) (hlen : bytes.length = recordSize)
    (hdraw : Kxo.draw [.updateTable (recordOf bytes)] s = some s') :
    ∃ w input', Looked A w input' [.updateTable (recordOf bytes), .stopMessage false]
      (taskPrintNow input' ++ [.updateTable (recordOf bytes)])
      { s' with
        driver := { s'.driver with device := kxoRead s.driver.device recordSize }
        client := { s.client with tlb := some (recordOf bytes) } } := by
  obtain ⟨w, hr, hrunning, hdrawn⟩ := h
  have hcongr := draw_congr (draw_trans hdrawn hdraw)
    { s.driver with device := kxoRead s.driver.device recordSize }
    { s.client with tlb := some (recordOf bytes) }
  obtain ⟨tui, out, outbuf, -, -, rfl⟩ := draw_eq_some hdrawn
  obtain ⟨tui', out', outbuf', -, -, rfl⟩ := draw_eq_some hdraw
  have hround : roundRead { input with ready := .device } w =
      (bytes, { w.driver with device := kxoRead w.driver.device recordSize }) := by
    rw [← hbytes]
    exact if_pos hread
  refine ⟨w, { input with ready := .device }, hr, hrunning, fun _ => hready, ?_, ⟨[], ?_⟩, hcongr⟩
  · rw [hround]
    show taskIo _ bytes w.client = _
    have hread : w.client.readAttr = true := hread
    simp only [taskIo, hread, if_true, hlen]
    rfl
  · rw [hround]
    exact .nil _

end Rounds

end Kxo
