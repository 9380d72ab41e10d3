import Kxo.Driver.Records
import Kxo.Tui.Records

/-!
# Kxo — what the client shows of the driver (`user/xo-user.c`)

The driver, the ring, the client, `outbuf` and the terminal put together. A client alone with the
device reads whole records and draws each as it reads it, so between its rounds the screen shows,
for every game, the last record read of it: a board of the driver's that its own moves lead to. No
round goes past `cell_tlb`, shifts `moves` too far or reads half a record.

The system `watchSystem` has two kinds of steps, any step of the driver other than `read` and a
whole round of the client. The invariant **`Watching`** ties its parts:

* the driver is as its own reads of whole records leave it, so `RecordsKept` holds of it;
* what was drawn is what was read, record by record (`drawn`), and `tobj` is one of these (`tlb`);
* all bytes have gone out (`flushed`), and the screen is that of the calls (`boards`, `records`).

**`RoundDone`** says what a round draws, **`Watching.round`** is the step, **`watching_reachable`**
the run. From them follow **`watch_defined`**, every round goes through, and **`watch_shown`**, what
is on the screen.
-/

namespace Kxo

variable {σ : Type}

/-! ## The calls of a round

A round draws the clock, then a record if it read one or nothing, the stop message, the tab if it is
shown, and flushes. -/

/-- The record a call draws. -/
def TuiCall.drawn : TuiCall → Option XoTable
  | .updateTable tlb => some tlb
  | _ => none

/-- A call draws in a game's box if the record it draws is of that game. -/
theorem TuiCall.board_eq_drawn (id : Nat) (call : TuiCall) :
    call.board id = call.drawn.filter fun tlb => (xoAttrId tlb.attr).toNat = id := by
  cases call with
  | updateTable tlb =>
    simp only [TuiCall.board, TuiCall.drawn, Option.filter_some, decide_eq_true_eq]
  | _ => rfl

/-- The last board of a game is that of the last record drawn of it. -/
theorem lastBoard_eq_drawn (id : Nat) (calls : List TuiCall) :
    lastBoard id calls =
      ((calls.filterMap TuiCall.drawn).filter fun tlb =>
        (xoAttrId tlb.attr).toNat = id).getLast? := by
  rw [lastBoard, List.filter_filterMap]
  congr 1
  refine List.filterMap_congr fun call _ => ?_
  exact TuiCall.board_eq_drawn id call

/-- Later calls count first. -/
theorem lastBoard_append (id : Nat) (calls more : List TuiCall) :
    lastBoard id (calls ++ more) = (lastBoard id more).or (lastBoard id calls) := by
  rw [lastBoard, List.filterMap_append, List.getLast?_append]
  rfl

/-- What a round has drawn and where it leaves the client's record. -/
structure RoundDone (input : RoundInput) (bytes : List Byte) (c c' : Client)
    (calls : List TuiCall) : Prop where
  drawn : calls.filterMap TuiCall.drawn =
    if readsDevice input c then [recordOf bytes] else []
  size : readsDevice input c = true → bytes.length = recordSize
  tlb : c'.tlb = if readsDevice input c then some (recordOf bytes) else c.tlb
  tabs : ∀ tlb first last xoAvgs, .tuiUpdateTab .record tlb first last xoAvgs ∈ calls →
    c'.tlb = some tlb
  flushed : ∃ before, calls = before ++ [.outbufFlush]

/-- No key changes the record read last. -/
theorem listenKeyboardHandler_tlb (opened : Bool) (key : Option Byte) (c : Client) :
    (listenKeyboardHandler opened key c).tlb = c.tlb := by
  simp only [listenKeyboardHandler]
  split_ifs <;> rfl

/-- `task_io` reads a record and draws it, or handles a key. -/
theorem taskIo_eq_some {input : RoundInput} {bytes : List Byte} {c c' : Client}
    {calls : List TuiCall} (h : taskIo input bytes c = some (c', calls)) :
    (readsDevice input c = true ∧ bytes.length = recordSize ∧
        c' = { c with tlb := some (recordOf bytes) } ∧
        calls = [.updateTable (recordOf bytes), .stopMessage (!c'.readAttr)]) ∨
      (readsDevice input c = false ∧ c'.tlb = c.tlb ∧ calls = [.stopMessage (!c'.readAttr)]) := by
  unfold taskIo at h
  cases hready : input.ready with
  | stdin opened key =>
    rw [hready] at h
    obtain ⟨rfl, rfl⟩ := Prod.mk.inj (Option.some.inj h)
    exact .inr ⟨by rw [readsDevice, hready], listenKeyboardHandler_tlb opened key c, rfl⟩
  | device =>
    rw [hready] at h
    by_cases hread : c.readAttr = true
    · by_cases hlen : bytes.length = recordSize
      · simp only [if_pos hread, if_pos hlen] at h
        obtain ⟨rfl, rfl⟩ := Prod.mk.inj (Option.some.inj h)
        exact .inl ⟨by rw [readsDevice, hready]; exact hread, hlen, rfl, rfl⟩
      · simp only [if_pos hread, if_neg hlen] at h
        cases h
    · simp only [if_neg hread] at h
      obtain ⟨rfl, rfl⟩ := Prod.mk.inj (Option.some.inj h)
      exact .inr ⟨by rw [readsDevice, hready]; simpa using hread, rfl, rfl⟩

/-- `task_tab` draws no board, and a tab of records only of the record read last. -/
theorem taskTab_tabs {input : RoundInput} {c : Client} {calls : List TuiCall}
    (h : taskTab input c = some calls) :
    calls.filterMap TuiCall.drawn = [] ∧
      ∀ tlb first last xoAvgs, .tuiUpdateTab .record tlb first last xoAvgs ∈ calls →
        c.tlb = some tlb := by
  unfold taskTab at h
  split at h
  case isTrue =>
    obtain ⟨tlb, htlb, h⟩ := Option.bind_eq_some_iff.mp h
    obtain rfl := Option.some.inj h
    refine ⟨rfl, fun tlb' first last xoAvgs hmem => ?_⟩
    obtain ⟨htab, rfl, -⟩ := TuiCall.tuiUpdateTab.inj (List.mem_singleton.mp hmem)
    rwa [tabRecord, ← htab] at htlb
  case isFalse =>
    obtain rfl := Option.some.inj h
    exact ⟨rfl, by simp⟩

/-- What `RoundDone` says of the three tasks together. -/
theorem clientRound_done {input : RoundInput} {bytes : List Byte} {c c' : Client}
    {calls : List TuiCall} (h : clientRound input bytes c = some (c', calls)) :
    RoundDone input bytes c c' calls := by
  obtain ⟨⟨c₁, ioCalls⟩, hio, h⟩ := Option.bind_eq_some_iff.mp h
  obtain ⟨tabCalls, htab, h⟩ := Option.bind_eq_some_iff.mp h
  obtain ⟨rfl, rfl⟩ := Prod.mk.inj (Option.some.inj h)
  obtain ⟨hnone, htabs⟩ := taskTab_tabs htab
  -- only `task_io` draws a record
  have hdrawn : (taskPrintNow input ++ ioCalls ++ tabCalls ++ [TuiCall.outbufFlush]).filterMap
      TuiCall.drawn = ioCalls.filterMap TuiCall.drawn := by
    rw [List.filterMap_append, List.filterMap_append, List.filterMap_append, hnone,
      List.append_nil]
    exact List.append_nil _
  -- and only `task_tab` draws a tab
  have hmem : ∀ tlb first last xoAvgs,
      .tuiUpdateTab .record tlb first last xoAvgs ∈ ioCalls → c₁.tlb = some tlb := by
    intro tlb first last xoAvgs hmem
    rcases taskIo_eq_some hio with ⟨-, -, -, rfl⟩ | ⟨-, -, rfl⟩ <;> simp at hmem
  refine ⟨?_, ?_, ?_, ?_, ⟨_, rfl⟩⟩
  · rw [hdrawn]
    rcases taskIo_eq_some hio with ⟨hread, -, -, rfl⟩ | ⟨hread, -, rfl⟩ <;> rw [hread] <;> rfl
  · intro hread
    rcases taskIo_eq_some hio with ⟨-, hlen, -⟩ | ⟨hnot, -⟩
    · exact hlen
    · rw [hread] at hnot
      cases hnot
  · rcases taskIo_eq_some hio with ⟨hread, -, rfl, -⟩ | ⟨hread, htlb, -⟩
    · rw [hread]
      rfl
    · rw [hread]
      exact htlb
  · intro tlb first last xoAvgs h
    simp only [taskPrintNow, List.mem_append, List.mem_singleton, reduceCtorEq, false_or,
      or_false] at h
    rcases h with h | h
    · exact hmem tlb first last xoAvgs h
    · exact htabs tlb first last xoAvgs h

/-! ## Between two rounds

The bytes read so far are cut into records. As reads are of whole records, one more read is one more
record. -/

/-- One more record read. -/
theorem recordsIn_append {bytes more : List Byte} (haligned : recordSize ∣ bytes.length)
    (hmore : more.length = recordSize) :
    recordsIn (bytes ++ more) = recordsIn bytes ++ [recordOf more] := by
  obtain ⟨n, hn⟩ := haligned
  have hdiv : bytes.length / recordSize = n := by
    rw [hn, Nat.mul_div_cancel_left _ (by decide)]
  have hdiv' : (bytes ++ more).length / recordSize = n + 1 := by
    rw [List.length_append, hmore, hn, ← Nat.mul_succ, Nat.mul_div_cancel_left _ (by decide)]
  rw [recordsIn, recordsIn, hdiv, hdiv', List.range_succ, List.map_append, List.map_singleton]
  refine congrArg₂ (· ++ ·) (List.map_congr_left fun k hk => ?_) ?_
  · -- an earlier record lies in the bytes before
    rw [List.mem_range] at hk
    have hle : recordSize * k + recordSize ≤ bytes.length := by
      rw [hn, ← Nat.mul_succ]
      exact Nat.mul_le_mul_left _ hk
    rw [List.drop_append_of_le_length (by omega), List.take_append_of_le_length (by
      rw [List.length_drop]; omega)]
  · rw [← hn, List.drop_left, ← hmore, List.take_length]

/-- Between two rounds: the driver as its reads of whole records leave it, nothing buffered, and the
screen as `BoardsShown` and `RecordsShown` say for the calls so far. -/
structure Watching (A : Agents σ) (screen : Terminal) (s : Watch σ) : Prop where
  driver : ((driverSystem A).restrict (Clients WholeRecords fun _ => True)).Reachable s.driver
  enabled : s.outbuf.disabled = false
  flushed : s.outbuf.len = 0
  idle : (screen.feed s.outbuf.written).Idle 0
  drawn : s.calls.filterMap TuiCall.drawn = recordsIn s.driver.device.consumed
  tlb : ∀ x, s.client.tlb = some x → x ∈ recordsIn s.driver.device.consumed
  boards : BoardsShown (fun id => lastBoard id s.calls) screen.cell
    (screen.feed s.outbuf.written).cell
  records : RecordsShown s.tui (fun id => lastRecord id s.calls)
    (fun id => lastFullRecord id s.calls) (screen.feed s.outbuf.written).cell

/-! ## The first record

A state of the system that the theorems below are applied at: the driver has produced a record, and
the client has done nothing yet. -/

/-- The first game queued by the first tick, its player told to give up, and its board produced. -/
def firstQueued : Driver AgentState :=
  gameTaskletFunc (timerHandler (kxoOpen (driverInit concreteAgents fun _ => 0)))

def firstGivenUp : Driver AgentState :=
  aiOneWorkCommit firstGame (firstQueued.games firstGame).xoTlb (-1) firstQueued.agents
    (aiOneWorkStart firstGame firstQueued)

def firstProduced : Watch AgentState :=
  ⟨drawboardWorkFunc firstGame firstGivenUp, clientStart, tuiStart, outbufInit, []⟩

/-- The driver goes on by itself: its steps that read nothing are steps of the watched system. -/
theorem reachable_drive {A : Agents σ} {s : Watch σ} {es : List Event} {d : Driver σ}
    (hs : (watchSystem A).Reachable s) (hexec : (driverSystem A).Executes s.driver es d)
    (hread : ∀ e ∈ es, ∀ count, e ≠ .read count) :
    (watchSystem A).Reachable { s with driver := d } := by
  generalize hd : s.driver = d₀ at hexec
  induction hexec generalizing s with
  | nil =>
    subst hd
    exact hs
  | @cons d₀ d₁ d e es hstep _ ih =>
    subst hd
    rw [List.forall_mem_cons] at hread
    exact ih (s := { s with driver := d₁ })
      (.step (e := .driver e) hs ⟨hread.1, d₁, hstep, rfl⟩) hread.2 rfl

/-- So is what the driver reaches before the client's first round. -/
theorem reachable_waiting {rnd : Fin nGames → U32} {es : List Event} {d : Driver AgentState}
    (hexec : (driverSystem concreteAgents).Executes (driverInit concreteAgents rnd) es d)
    (hread : ∀ e ∈ es, ∀ count, e ≠ .read count) :
    (watchSystem concreteAgents).Reachable ⟨d, clientStart, tuiStart, outbufInit, []⟩ := by
  have hinit : (watchSystem concreteAgents).Reachable
      ⟨driverInit concreteAgents rnd, clientStart, tuiStart, outbufInit, []⟩ :=
    .init ⟨⟨rnd, rfl⟩, rfl, rfl, rfl, rfl, rfl, rfl⟩
  exact reachable_drive hinit hexec hread

/-- It is reached in six steps of the driver. -/
theorem firstProduced_reachable : (watchSystem concreteAgents).Reachable firstProduced := by
  have hqueued : (driverSystem concreteAgents).Executes (driverInit concreteAgents fun _ => 0)
      [.open, .timer, .tasklet] firstQueued :=
    .cons rfl (.cons ⟨rfl, rfl⟩ (.cons ⟨by decide +kernel, rfl⟩ (.nil _)))
  have hgivenUp : (driverSystem concreteAgents).Executes firstQueued
      [.work (.aiStart .o firstGame), .work (.aiCommit .o firstGame (-1))] firstGivenUp :=
    .cons ⟨by decide +kernel, by decide +kernel, rfl⟩
      (.cons ⟨_, _, by decide +kernel, .inl ⟨rfl, rfl⟩, rfl⟩ (.nil _))
  have hproduced : (driverSystem concreteAgents).Executes firstGivenUp
      [.work (.drawboard firstGame)] (drawboardWorkFunc firstGame firstGivenUp) :=
    .cons ⟨by decide +kernel, rfl⟩ (.nil _)
  exact reachable_waiting (hqueued.append (hgivenUp.append hproduced)) (by simp)

/-- Midnight, and the device is ready. -/
def firstInput : RoundInput :=
  ⟨⟨0, 0, 0, by decide, by decide, by decide⟩, .device, ⟨0, 0⟩, ⟨0, 0⟩, fun _ => ⟨0, 0⟩⟩

section Rounds

variable {A : Agents σ} {screen : Terminal} {s s' : Watch σ}

/-- Of the driver all that its records promise holds. -/
theorem Watching.kept (h : Watching A screen s) : RecordsKept s.driver.records :=
  recordsKept_reachable h.driver

/-- What a round reads, and where it leaves the driver. -/
structure RoundReads (A : Agents σ) (input : RoundInput) (s : Watch σ) (bytes : List Byte)
    (driver : Driver σ) : Prop where
  reachable : ((driverSystem A).restrict (Clients WholeRecords fun _ => True)).Reachable driver
  size : readsDevice input s.client = true → bytes.length = recordSize
  read : recordsIn driver.device.consumed = recordsIn s.driver.device.consumed ++
    if readsDevice input s.client then [recordOf bytes] else []

/-- **Reads are of whole records**: when there is something to read there is a record. -/
theorem length_take_record {d : Driver σ} (hkept : RecordsKept d.records)
    (hready : d.device.rxFifo ≠ []) : (d.device.rxFifo.take recordSize).length = recordSize := by
  obtain ⟨n, hn⟩ := hkept.fifo
  have hpos := List.length_pos_iff.mpr hready
  have hn : d.device.rxFifo.length = recordSize * n := hn
  rw [List.length_take, Nat.min_eq_left]
  rw [recordSize] at hn ⊢
  omega

/-- A round reads one record or nothing, as the client's flags and the ready device say. -/
theorem Watching.reads (h : Watching A screen s) {input : RoundInput}
    (hready : input.ready = .device → s.driver.device.rxFifo ≠ []) :
    RoundReads A input s (roundRead input s).1 (roundRead input s).2 := by
  have hkept := h.kept
  unfold roundRead
  by_cases hread : readsDevice input s.client = true
  · rw [if_pos hread]
    have hdevice : input.ready = .device := by
      revert hread
      unfold readsDevice
      cases input.ready <;> simp
    have hsize := length_take_record hkept (hready hdevice)
    refine ⟨?_, fun _ => hsize, ?_⟩
    · exact .step (e := .read recordSize) h.driver ⟨Nat.dvd_refl _, by decide, rfl⟩
    · rw [if_pos hread]
      exact recordsIn_append hkept.aligned hsize
  · rw [if_neg hread]
    exact ⟨h.driver, fun hnot => absurd hnot hread, by rw [if_neg hread, List.append_nil]⟩

/-- Later calls go on from what earlier ones left in a row. -/
theorem lastRecord_append (id : Nat) (calls more : List TuiCall) :
    lastRecord id (calls ++ more) = more.foldl (TuiCall.record id) (lastRecord id calls) :=
  List.foldl_append

/-- The same of the last full record. -/
theorem lastFullRecord_append (id : Nat) (calls more : List TuiCall) :
    lastFullRecord id (calls ++ more) =
      more.foldl (TuiCall.fullRecord id) (lastFullRecord id calls) :=
  List.foldl_append

/-- A record of the driver names its game by number. -/
theorem Coherent.id_lt {i : Fin nGames} {x : XoTable} {p : Player} (h : Coherent i x p) :
    (xoAttrId x.attr).toNat = i := by
  have hi : (i : Nat) < 9 := i.isLt
  rw [h.id, BitVec.toNat_ofNat]
  omega

/-- **A round keeps it.** -/
theorem Watching.round (h : Watching A screen s) {input : RoundInput}
    (hready : input.ready = .device → s.driver.device.rxFifo ≠ [])
    (hround : watchRound input s = some s') : Watching A screen s' := by
  have hreads := h.reads hready
  unfold watchRound at hround
  generalize roundRead input s = read at hreads hround
  obtain ⟨bytes, driver⟩ := read
  obtain ⟨⟨client, calls⟩, hclient, hround⟩ := Option.bind_eq_some_iff.mp hround
  obtain ⟨⟨tui, out⟩, htui, hround⟩ := Option.bind_eq_some_iff.mp hround
  obtain ⟨outbuf, houtbuf, hround⟩ := Option.bind_eq_some_iff.mp hround
  obtain rfl := Option.some.inj hround
  have hdone := clientRound_done hclient
  obtain ⟨before, rfl⟩ := hdone.flushed
  -- nothing is buffered before a round, and nothing after its flush
  have houtput : s.outbuf.output = s.outbuf.written := by
    rw [Outbuf.output, Outbuf.buffered_eq_nil h.flushed, List.append_nil]
  obtain ⟨drawn, b', hdrawn, hb', henabled, hflushed, hwritten⟩ :=
    tuiCalls_flushed htui h.enabled (by rw [h.flushed]; decide)
  obtain rfl : b' = outbuf := Option.some.inj (hb'.symm.trans houtbuf)
  rw [houtput] at hwritten
  have hread : recordsIn driver.device.consumed = recordsIn s.driver.device.consumed ++
      (before ++ [TuiCall.outbufFlush]).filterMap TuiCall.drawn :=
    hreads.read.trans (by rw [hdone.drawn])
  -- a record drawn has just been read, so its number is that of a game
  have hids : ∀ tlb, .updateTable tlb ∈ before → (xoAttrId tlb.attr).toNat < nGames := by
    intro tlb hmem
    have hin : tlb ∈ recordsIn driver.device.consumed := by
      rw [hread]
      refine List.mem_append_right _ (List.mem_filterMap.mpr ⟨.updateTable tlb, ?_, rfl⟩)
      exact List.mem_append_left _ hmem
    obtain ⟨i, p, hrec⟩ := (recordsKept_reachable hreads.reachable).readCoherent hin
    rw [hrec.id_lt]
    exact i.isLt
  -- what the round's own calls do to the screen
  obtain ⟨hidle, hboards⟩ := tuiCalls_spec hdrawn h.idle
  have hrecords := recordsShown_tuiCalls hdrawn hids h.idle h.records
  have hscreen :
      screen.feed b'.written = (screen.feed s.outbuf.written).feed (callBytes drawn) := by
    rw [hwritten, Terminal.feed_append]
  refine ⟨hreads.reachable, henabled, hflushed, ?_, ?_, ?_, ?_, ?_⟩
  · rw [hscreen]
    exact hidle
  · show (s.calls ++ (before ++ [TuiCall.outbufFlush])).filterMap TuiCall.drawn =
      recordsIn driver.device.consumed
    rw [List.filterMap_append, h.drawn, hread]
  · intro x hx
    rw [hdone.tlb] at hx
    show x ∈ recordsIn driver.device.consumed
    rw [hreads.read]
    split at hx
    case isTrue hreading =>
      rw [if_pos hreading, ← Option.some.inj hx]
      simp
    case isFalse => exact List.mem_append_left _ (h.tlb x hx)
  · dsimp only
    rw [hscreen]
    -- the round's records come after those of earlier rounds
    have hlast : ∀ id, lastBoard id (s.calls ++ (before ++ [TuiCall.outbufFlush])) =
        (lastBoard id before).or (lastBoard id s.calls) := by
      intro id
      rw [lastBoard_append, lastBoard_append]
      rfl
    simp only [hlast]
    exact h.boards.trans (fun _ _ => lastBoard_id) (fun _ _ => lastBoard_id) hboards
  · dsimp only
    rw [hscreen]
    simpa only [lastRecord_append, lastFullRecord_append, List.foldl_append, List.foldl_cons,
      List.foldl_nil, TuiCall.record, TuiCall.fullRecord] using hrecords

/-- A step of the driver that is no `read` leaves what has been read. -/
theorem consumed_step {s s' : Driver σ} {e : Event} (hr : (driverSystem A).Reachable s)
    (hread : ∀ count, e ≠ .read count) (hstep : (driverSystem A).step s e s') :
    s'.device.consumed = s.device.consumed := by
  have hclients : Clients (fun _ => False) (fun _ => True) s e := by
    cases e with
    | read count => exact absurd rfl (hread count)
    | _ => trivial
  have hsteps := records_step hr hclients hstep
  show s'.records.device.consumed = s.records.device.consumed
  generalize s'.records = v' at hsteps ⊢
  induction hsteps with
  | refl => rfl
  | tail _ hlast ih =>
    rw [← ih]
    cases hlast with
    | restart => dsimp only; split <;> rfl
    | read hcount => exact hcount.elim
    | _ => rfl

/-- **Between any two rounds**, whatever the driver does meanwhile. -/
theorem watching_reachable (hscreen : screen.Idle 0) (h : (watchSystem A).Reachable s) :
    Watching A screen s := by
  induction h with
  | @init s hs =>
    obtain ⟨hdriver, hclient, htui, henabled, hlen, hwritten, hcalls⟩ := hs
    have hconsumed : recordsIn s.driver.device.consumed = [] := by
      obtain ⟨rnd, hinit⟩ := hdriver
      rw [hinit]
      show recordsIn [] = []
      simp [recordsIn]
    refine ⟨.init hdriver, henabled, hlen, ?_, ?_, ?_, ?_, ?_⟩
    · rw [hwritten]
      exact hscreen
    · rw [hcalls, hconsumed]
      rfl
    · intro x hx
      rw [hclient] at hx
      cases hx
    · rw [hwritten, hcalls]
      exact BoardsShown.refl _
    · rw [htui, hcalls]
      exact recordsShown_start _
  | @step s s' e _ hstep ih =>
    cases e with
    | driver e =>
      obtain ⟨hread, driver, hdriver, rfl⟩ := hstep
      -- a step of the driver reads nothing, so all that is shown stays true
      have hconsumed := consumed_step ih.driver.of_restrict hread hdriver
      have hclients : Clients WholeRecords (fun _ => True) s.driver e := by
        cases e with
        | read count => exact absurd rfl (hread count)
        | _ => trivial
      refine ⟨.step ih.driver ⟨hclients, hdriver⟩, ih.enabled, ih.flushed, ih.idle, ?_, ?_,
        ih.boards, ih.records⟩
      · exact ih.drawn.trans (congrArg recordsIn hconsumed.symm)
      · intro x hx
        show x ∈ recordsIn driver.device.consumed
        rw [hconsumed]
        exact ih.tlb x hx
    | round input =>
      obtain ⟨_, hready, hround⟩ := hstep
      exact ih.round hready hround

/-! ## Every round is defined

The model of a round has no value where the code would read past an array. No round comes to that:
every record drawn is one that the driver produced. -/

/-- The records of a call are drawable. -/
def TuiCall.Drawable : TuiCall → Prop
  | .updateTable tlb => ValidBoard tlb.table
  | .tuiUpdateTab .record tlb _ _ _ => stepsOf tlb ≤ 16
  | _ => True

/-- A drawable call is drawn. -/
theorem tuiCall_defined {call : TuiCall} (h : call.Drawable) (ui : TuiState) :
    ∃ ui' out, tuiCall ui call = some (ui', out) := by
  cases call with
  | updateTable tlb =>
    obtain ⟨calls, hcalls⟩ := updateTable_defined h
    exact ⟨ui, saveXy :: calls ++ [restoreXy], by rw [tuiCall, hcalls]; rfl⟩
  | tuiUpdateTab tab tlb first last xoAvgs =>
    cases tab with
    | record =>
      have hsteps : ¬ 16 < (xoAttrSteps tlb.attr).toNat := Nat.not_lt.mpr h
      exact ⟨_, _, by rw [tuiCall, tuiUpdateTab, TuiTab.render, xoRecord, if_neg hsteps]; rfl⟩
    | loadavg => exact ⟨_, _, rfl⟩
  | stopMessage stop => exact ⟨_, _, rfl⟩
  | printNow tm => exact ⟨_, _, rfl⟩
  | outbufFlush => exact ⟨_, _, rfl⟩

/-- So are drawable calls, one after another. -/
theorem tuiCalls_defined {calls : List TuiCall} (h : ∀ call ∈ calls, call.Drawable)
    (ui : TuiState) : ∃ ui' out, tuiCalls ui calls = some (ui', out) := by
  induction calls generalizing ui with
  | nil => exact ⟨ui, [], rfl⟩
  | cons call calls ih =>
    rw [List.forall_mem_cons] at h
    obtain ⟨ui₁, first, hfirst⟩ := tuiCall_defined h.1 ui
    obtain ⟨ui', rest, hrest⟩ := ih h.2 ui₁
    refine ⟨ui', first ++ rest, ?_⟩
    rw [tuiCalls, hfirst]
    show (tuiCalls ui₁ calls).bind _ = _
    rw [hrest]
    rfl

/-- With a record where one is needed, the three tasks run. -/
theorem clientRound_defined {input : RoundInput} {bytes : List Byte} {c : Client}
    (hsize : readsDevice input c = true → bytes.length = recordSize)
    (hrecord : c.tlb ≠ none ∨ readsDevice input c = true) :
    ∃ c' calls, clientRound input bytes c = some (c', calls) := by
  -- after `task_io` there is a record, read now or before
  obtain ⟨c₁, ioCalls, hio, htlb⟩ : ∃ c₁ ioCalls,
      taskIo input bytes c = some (c₁, ioCalls) ∧ c₁.tlb ≠ none := by
    unfold taskIo
    cases hready : input.ready with
    | stdin opened key =>
      refine ⟨_, _, rfl, ?_⟩
      rw [listenKeyboardHandler_tlb]
      refine hrecord.resolve_right ?_
      rw [readsDevice, hready]
      exact Bool.false_ne_true
    | device =>
      have hreads : readsDevice input c = c.readAttr := by rw [readsDevice, hready]
      rw [hreads] at hsize hrecord
      by_cases hread : c.readAttr = true
      · simp only [if_pos hread, if_pos (hsize hread)]
        exact ⟨_, _, rfl, by simp⟩
      · simp only [if_neg hread]
        exact ⟨_, _, rfl, hrecord.resolve_right hread⟩
  -- which is all that `task_tab` needs
  obtain ⟨tabCalls, htab⟩ : ∃ tabCalls, taskTab input c₁ = some tabCalls := by
    obtain ⟨tlb, hsome⟩ := Option.ne_none_iff_exists'.mp htlb
    have hrec : ∃ x, tabRecord c₁ = some x := by
      rw [tabRecord, hsome]
      cases c₁.tab <;> exact ⟨_, rfl⟩
    obtain ⟨x, hx⟩ := hrec
    unfold taskTab
    split
    · exact ⟨_, by rw [hx]; rfl⟩
    · exact ⟨_, rfl⟩
  exact ⟨_, _, by rw [clientRound, hio]; show (taskTab input c₁).bind _ = _; rw [htab]; rfl⟩

/-- A round is defined, and leaves the driver as its read does. -/
theorem Watching.round_defined (h : Watching A screen s) {input : RoundInput}
    (hready : input.ready = .device → s.driver.device.rxFifo ≠ [])
    (hrecord : s.client.tlb ≠ none ∨ readsDevice input s.client = true) :
    ∃ s', watchRound input s = some s' ∧ s'.driver = (roundRead input s).2 ∧
      s'.outbuf.disabled = false := by
  have hreads := h.reads hready
  unfold watchRound
  generalize roundRead input s = read at hreads
  obtain ⟨bytes, driver⟩ := read
  obtain ⟨client, calls, hclient⟩ := clientRound_defined hreads.size hrecord
  have hdone := clientRound_done hclient
  -- every record drawn or listed has been read
  have hkept := recordsKept_reachable hreads.reachable
  have hdraw : ∀ tlb, .updateTable tlb ∈ calls → tlb ∈ recordsIn driver.device.consumed := by
    intro tlb hmem
    rw [hreads.read, ← hdone.drawn]
    exact List.mem_append_right _ (List.mem_filterMap.mpr ⟨.updateTable tlb, hmem, rfl⟩)
  have hlisted : ∀ tlb, client.tlb = some tlb → tlb ∈ recordsIn driver.device.consumed := by
    intro tlb htlb
    rw [hdone.tlb] at htlb
    rw [hreads.read]
    split at htlb
    case isTrue hread =>
      rw [if_pos hread, ← Option.some.inj htlb]
      simp
    case isFalse => exact List.mem_append_left _ (h.tlb tlb htlb)
  have hdrawable : ∀ call ∈ calls, call.Drawable := by
    intro call hcall
    cases call with
    | updateTable tlb =>
      obtain ⟨i, p, hrec⟩ := hkept.readCoherent (hdraw tlb hcall)
      exact hrec.validBoard
    | tuiUpdateTab tab tlb first last xoAvgs =>
      cases tab with
      | record =>
        obtain ⟨i, p, hrec⟩ := hkept.readCoherent
          (hlisted tlb (hdone.tabs tlb first last xoAvgs hcall))
        exact hrec.steps_le
      | loadavg => trivial
    | _ => trivial
  obtain ⟨tui, out, htui⟩ := tuiCalls_defined hdrawable s.tui
  obtain ⟨outbuf, houtbuf, henabled, -⟩ := outbufCalls_short (short_tuiCalls htui) h.enabled
    (by rw [h.flushed]; decide)
  refine ⟨⟨driver, client, tui, outbuf, s.calls ++ calls⟩, ?_, rfl, henabled⟩
  show (clientRound input bytes s.client).bind _ = _
  rw [hclient]
  show (tuiCalls s.tui calls).bind _ = _
  rw [htui]
  show (outbufCalls s.outbuf out).bind _ = _
  rw [houtbuf]
  rfl

/-- **No round goes wrong.** Whatever the client has read so far: once `tobj` holds a record, or as
the round reads one, a round takes a whole record from the ring, finds every square in `cell_tlb`
and every move in `moves`, and gives `outbuf` no text too long for it. -/
theorem watch_defined (A : Agents σ) {s : Watch σ} (h : (watchSystem A).Reachable s)
    {input : RoundInput} (hready : input.ready = .device → s.driver.device.rxFifo ≠ [])
    (hrecord : s.client.tlb ≠ none ∨ readsDevice input s.client = true) :
    ∃ s', watchRound input s = some s' ∧ s'.outbuf.disabled = false := by
  have hwatch := watching_reachable Terminal.idle_cleared h
  obtain ⟨s', hround, -, henabled⟩ := hwatch.round_defined hready hrecord
  exact ⟨s', hround, henabled⟩

/-- The round that reads the first record. -/
theorem watch_defined_first :
    ∃ s', watchRound firstInput firstProduced = some s' ∧ s'.outbuf.disabled = false :=
  watch_defined concreteAgents firstProduced_reachable
    (fun _ => List.ne_nil_of_length_pos (by decide +kernel)) (.inr rfl)

/-! ## What is on the screen

The boards of the invariant, in terms of what has been read of each game. -/

/-- The records of a game that the client has read. -/
def readOf (i : Fin nGames) (d : Device) : List XoTable :=
  (recordsIn d.consumed).filter fun x => xoAttrId x.attr = BitVec.ofNat 32 i

/-- The attribute word names a game as a word or as a number. -/
theorem xoAttrId_eq_iff (x : XoTable) (i : Fin nGames) :
    xoAttrId x.attr = BitVec.ofNat 32 i ↔ (xoAttrId x.attr).toNat = i := by
  have hi : (i : Nat) < 9 := i.isLt
  rw [← BitVec.toNat_inj, BitVec.toNat_ofNat, Nat.mod_eq_of_lt (by omega)]

/-- The last board drawn of a game is the last record read of it. -/
theorem Watching.lastBoard (h : Watching A screen s) (i : Fin nGames) :
    Kxo.lastBoard i s.calls = (readOf i s.driver.device).getLast? := by
  rw [lastBoard_eq_drawn, h.drawn, readOf]
  simp only [xoAttrId_eq_iff]

/-- **The client shows the driver's games.** Between any two of its rounds, and whatever the driver
does meanwhile: the records read are among those produced, in order; for each game the screen shows
the last of them, which is coherent, with every square as its moves leave it; the box of a game of
which none has been read is as it was, and so is the frame. -/
theorem watch_shown (A : Agents σ) {screen : Terminal} (hscreen : screen.Idle 0) {s : Watch σ}
    (h : (watchSystem A).Reachable s) :
    (recordsIn s.driver.device.consumed).Sublist s.driver.device.produced ∧
      (∀ i : Fin nGames, ∀ x, (readOf i s.driver.device).getLast? = some x →
        ∃ p, Coherent i x p ∧ ∀ k < nGrids,
          (screen.feed s.outbuf.written).cell (cellRow i k) (cellCol i k) =
            cellGlyph (tableGetCell (replay x.moves (stepsOf x)) k)) ∧
      (∀ i : Fin nGames, readOf i s.driver.device = [] → ∀ r c, boardBox i r c →
        (screen.feed s.outbuf.written).cell r c = screen.cell r c) ∧
      ∀ r c, ¬ OffFrame r → (∀ id < nGames, ¬ boardBox id r c) →
        (screen.feed s.outbuf.written).cell r c = screen.cell r c := by
  have hwatch := watching_reachable hscreen h
  have hkept := hwatch.kept
  refine ⟨hkept.read.2, fun i x hx => ?_, fun i hnone r c hbox => ?_, hwatch.boards.lines⟩
  · obtain ⟨hmem, hid⟩ := List.mem_filter.mp (List.mem_of_getLast? hx)
    obtain ⟨j, p, hrec⟩ := hkept.readCoherent hmem
    obtain rfl : i = j := (gameId_inj i j).mp (hrec.id.symm.trans (of_decide_eq_true hid))
    refine ⟨p, hrec, fun k hk => ?_⟩
    have hlast := (hwatch.lastBoard i).trans hx
    have hbox : boardBox i (cellRow i k) (cellCol i k) := cell_in_boardBox i hk
    rw [hwatch.boards.boards i i.isLt _ _ hbox, hlast, hrec.replay, ← hrec.id_lt]
    exact boardPicture_cell x _ hk
  · rw [hwatch.boards.boards i i.isLt _ _ hbox, hwatch.lastBoard i, hnone]
    rfl

/-- The ring once four moves of the first game have been produced and read. -/
def fourMovesRead : Device := kxoRead (produceBoard deviceInit fourMovesTable) recordSize

/-- It is one record. -/
theorem recordsIn_fourMovesRead : recordsIn fourMovesRead.consumed = [fourMovesTable] := by
  decide +kernel

/-- A client's first round may read four moves of the first game. -/
theorem fourMoves_round : ∃ s s' : Watch AgentState, (watchSystem concreteAgents).Reachable s ∧
    s.client.endAttr = false ∧ s.driver.device.rxFifo ≠ [] ∧ watchRound firstInput s = some s' ∧
      s'.driver = (roundRead firstInput s).2 ∧
      (roundRead firstInput s).2.device = fourMovesRead := by
  obtain ⟨d, _, hexec, -, -, hdevice, -⟩ := fourMoves_produced
  have hwaiting := reachable_waiting hexec
    (by simp [fourMovesEvents, gameEvents, roundEvents, turnEvents])
  have hready : d.device.rxFifo ≠ [] := by
    rw [hdevice]
    exact List.ne_nil_of_length_pos (by decide)
  have hready' : firstInput.ready = .device → d.device.rxFifo ≠ [] := fun _ => hready
  obtain ⟨s, hround, hdriver, -⟩ :=
    (watching_reachable Terminal.idle_cleared hwaiting).round_defined hready' (.inr rfl)
  refine ⟨_, s, hwaiting, rfl, hready, hround, hdriver, ?_⟩
  rw [fourMovesRead, ← hdevice]
  rfl

/-- The client's first round, on a cleared screen, after four moves of the first game: their squares
are shown, and the box of the second game, of which nothing has been read, is as it was. -/
theorem watch_shown_moves : ∃ s : Watch AgentState,
    readOf firstGame s.driver.device = [fourMovesTable] ∧
      (recordsIn s.driver.device.consumed).Sublist s.driver.device.produced ∧
      (Terminal.cleared.feed s.outbuf.written).cell (cellRow 0 5) (cellCol 0 5) = ⟨[0x4f], 32⟩ ∧
      (Terminal.cleared.feed s.outbuf.written).cell (cellRow 0 6) (cellCol 0 6) = ⟨[0x58], 31⟩ ∧
      (∀ r c, boardBox 1 r c →
        (Terminal.cleared.feed s.outbuf.written).cell r c = Terminal.cleared.cell r c) ∧
      ∀ r c, ¬ OffFrame r → (∀ id < nGames, ¬ boardBox id r c) →
        (Terminal.cleared.feed s.outbuf.written).cell r c = Terminal.cleared.cell r c := by
  obtain ⟨s₀, s, hwaiting, hrunning, hready, hround, hdriver, hdevice⟩ := fourMoves_round
  rw [← hdriver] at hdevice
  obtain ⟨hsub, hcells, hboxes, hlines⟩ := watch_shown concreteAgents Terminal.idle_cleared
    (.step (e := .round firstInput) hwaiting ⟨hrunning, fun _ => hready, hround⟩)
  have hread : readOf firstGame s.driver.device = [fourMovesTable] := by
    rw [hdevice, readOf, recordsIn_fourMovesRead]
    decide +kernel
  obtain ⟨_, _, hcell⟩ := hcells firstGame fourMovesTable (by rw [hread]; rfl)
  refine ⟨s, hread, hsub, ?_, ?_, hboxes ⟨1, by decide⟩ ?_, hlines⟩
  · exact (hcell 5 (by decide)).trans (by decide +kernel)
  · exact (hcell 6 (by decide)).trans (by decide +kernel)
  · rw [hdevice, readOf, recordsIn_fourMovesRead]
    decide +kernel

end Rounds

end Kxo
