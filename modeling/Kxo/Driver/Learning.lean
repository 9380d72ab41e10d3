import Kxo.Driver.Episodes
import Kxo.Driver.Records
import Kxo.Rl.Forgetting
import Kxo.Rl.Range

/-!
# Kxo — learning in the running driver (`src/main.c`, `src/rl.c`, `src/rl-state.c`)

`find_rl_state` relies on what its callers never check: a board with no reserved cell, rewards
between a loss and a win, a store whose four structures agree. The driver provides it. Its agents'
state changes only where an AI item plays on a board of its game and where a finish item teaches the
game's log; the store is sound after any of these.
-/

namespace Kxo

variable {σ : Type}

/-! ## What the driver does with its agents

The driver holds the agents' globals and passes them along. The only calls are `play`, by AI items,
and `update_state_value`, by finish items. -/

section Agents

variable {A : Agents σ} {s s' : Driver σ}

/-- A call that a work item makes: `play` on a board, or `update_state_value` with a game's log. -/
inductive AgentsCall (A : Agents σ) (a a' : σ) : Prop where
  | play {who : XoAi} {table : U32} {p : Player} {move : Int} :
      ValidBoard table → A.Plays who a table p move a' → AgentsCall A a a'
  | teach (l : GameLog) (p : Player) :
      l.Matches → a' = A.updateStateValue a l.moves l.reward (stepsOf l.record) p →
      AgentsCall A a a'

/-- Starting an AI item makes no call. -/
theorem agents_aiWorkStart (p : Player) (i : Fin nGames) :
    (aiWorkStart p i s).agents = s.agents := by
  unfold aiWorkStart
  split <;> rfl

/-- Ending it stores the globals that its `play` has left. -/
theorem agents_aiWorkCommit (p : Player) (i : Fin nGames) (copy : XoTable) (move : Int)
    (agents : σ) : (aiWorkCommit p i copy move agents s).agents = agents := by
  simp only [aiWorkCommit]
  split
  · split <;> rfl
  · rfl

/-- Producing a record makes no call. -/
theorem agents_drawboardWorkFunc (i : Fin nGames) :
    (drawboardWorkFunc i s).agents = s.agents := by
  simp only [drawboardWorkFunc]
  split
  · rfl
  · split <;> rfl

/-- Nor does the timer. -/
theorem agents_timerHandler : (timerHandler s).agents = s.agents := by
  simp only [timerHandler]
  split
  · rfl
  · split <;> rfl

/-- Nor a release. -/
theorem agents_releaseStop : (releaseStop s).agents = s.agents := by
  simp only [releaseStop]
  split <;> rfl

/-- A work item leaves the agents alone or makes one call. -/
theorem agents_workStep {w : WorkEvent} (hpass : Passes A s) (hstep : workStep A s w s') :
    s'.agents = s.agents ∨ AgentsCall A s.agents s'.agents := by
  cases w with
  | aiStart p i =>
    obtain ⟨_, _, hs'⟩ := hstep
    obtain rfl : s' = aiWorkStart p i s := by cases p <;> exact hs'
    exact .inl (agents_aiWorkStart p i)
  | drawboard i =>
    obtain ⟨_, rfl⟩ := hstep
    exact .inl (agents_drawboardWorkFunc i)
  | aiCommit p i move =>
    obtain ⟨copy, agents, hrunning, hmove, hs'⟩ := hstep
    obtain rfl : s' = aiWorkCommit p i copy move agents s := by cases p <;> exact hs'
    obtain ⟨_, rfl, rfl, _⟩ := (hpass.owned i).of_running hrunning
    rw [agents_aiWorkCommit]
    have hrec := hpass.coherentInv i
    exact hmove.imp And.right (.play hrec.validBoard)
  | finish i rnd =>
    obtain ⟨hpending, rfl⟩ := hstep
    obtain ⟨_, _, hidx, _⟩ := (hpass.owned i).of_finish hpending
    refine (agents_finishGameWorkFunc i rnd hidx).imp_right ?_
    rintro ⟨p, _, hagents⟩
    exact .teach (s.gameLog i) p (hpass.logged i) hagents

/-- **The rule for the agents' state**: true at module load and kept by each call, it holds in every
state the driver passes through. -/
theorem Passes.agents {P : σ → Prop} (hinit : P A.init)
    (hcall : ∀ a a', AgentsCall A a a' → P a → P a') (h : Passes A s) : P s.agents := by
  -- a work item: it calls the agents, or leaves them
  have hwork : ∀ {s s' : Driver σ} {w : WorkEvent}, Passes A s → P s.agents →
      workStep A s w s' → P s'.agents := by
    intro s s' w hpass hP hstep
    rcases agents_workStep hpass hstep with heq | hcalled
    · rw [heq]
      exact hP
    · exact hcall _ _ hcalled hP
  -- within the last release work items run, and nothing else does
  have hflush : ∀ {s t : Driver σ}, (driverSystem A).Reachable s → s.openCnt = 1 →
      P s.agents → Relation.ReflTransGen (fun s s' => ∃ w, workStep A s w s') (releaseStop s) t →
      P t.agents := by
    intro s t hr hlast hP hrun
    induction hrun with
    | refl =>
      rw [agents_releaseStop]
      exact hP
    | tail hrun hstep ih =>
      obtain ⟨w, hstep⟩ := hstep
      exact hwork (.flushing hr hlast hrun) ih hstep
  -- between two events
  have hreach : ∀ t, (driverSystem A).Reachable t → P t.agents := by
    intro t ht
    induction ht with
    | init hs =>
      obtain ⟨rnd, rfl⟩ := hs
      exact hinit
    | @step s s' e hr hstep ih =>
      cases e with
      | timer => obtain ⟨_, rfl⟩ := hstep; rw [agents_timerHandler]; exact ih
      | tasklet => obtain ⟨_, rfl⟩ := hstep; exact ih
      | work w => exact hwork (.reached hr) ih hstep
      | store d r e => obtain rfl := hstep; exact ih
      | «open» =>
        obtain rfl := hstep
        simp only [kxoOpen]
        split <;> exact ih
      | read count => obtain ⟨_, rfl⟩ := hstep; exact ih
      | release =>
        obtain ⟨hlast, t, hrun, rfl⟩ | ⟨-, rfl⟩ := releaseStep_cases hstep
        · have ht : P t.agents := hflush hr hlast ih hrun.1
          exact ht
        · exact ih
  cases h with
  | reached hr => exact hreach s hr
  | flushing hr hlast hrun => exact hflush hr hlast (hreach _ hr) hrun

end Agents

/-! ## The store stays sound

The operations of the agent keep the store sound when their boards are boards of a game; that is
what the driver provides. -/

section Store

variable {bucket : U32 → Nat} {s : RlStore}

/-- The structures of the store agree, and what it holds are boards after a move. -/
structure RlKept (bucket : U32 → Nat) (s : RlStore) : Prop where
  store : StoreInv bucket s
  chains : ChainsNodup s
  boards : ∀ t ∈ orderTables s, ValidBoard t ∧ t ≠ 0

/-- At module load the store is empty and sound. -/
theorem rlKept_initRlAgent (bucket : U32 → Nat) : RlKept bucket initRlAgent where
  store := initRlAgent_storeInv bucket
  chains _ := List.nodup_nil
  boards _ ht := nomatch ht

/-- A look-up stores no table but its own. -/
theorem mem_findOrder {tables : List U32} {table t : U32} (h : t ∈ findOrder tables table) :
    t = table ∨ t ∈ tables := by
  unfold findOrder at h
  split at h
  · rcases List.mem_append.mp h with hkept | hmoved
    · exact .inr (List.mem_filter.mp hkept).1
    · exact .inl (List.mem_singleton.mp hmoved)
  · split at h
    · exact (List.mem_cons.mp h).imp_right List.mem_of_mem_drop
    · exact List.mem_cons.mp h

/-- A write of a score stores no table. -/
theorem orderTables_setScore (pos : Nat) (p : Player) (v : Int) :
    orderTables (s.setScore pos p v) = orderTables s := by
  simp only [orderTables, table_setScore]
  rfl

/-- An operation on a board of a game keeps the structures. -/
theorem RlKept.run {op : RlOp} (h : RlKept bucket s) (hop : ValidBoard op.table ∧ op.table ≠ 0) :
    RlKept bucket (op.run bucket s) := by
  have hfound := h.chains.findRlState h.store op.table
  obtain ⟨_, horder⟩ := findRlState_refines h.store op.table
  have hboards : ∀ t ∈ orderTables (findRlState bucket op.table s).2, ValidBoard t ∧ t ≠ 0 := by
    intro t ht
    rw [horder] at ht
    rcases mem_findOrder ht with rfl | ht
    · exact hop
    · exact h.boards t ht
  cases op with
  | lookup => exact ⟨h.store.run _, hfound, hboards⟩
  | write hash p score =>
    refine ⟨h.store.run _, hfound, ?_⟩
    simp only [RlOp.run, orderTables_setScore]
    exact hboards

/-- A sequence of operations on boards of a game. Induction on the operations. -/
theorem RlKept.runAll {ops : List RlOp} (h : RlKept bucket s)
    (hops : ∀ op ∈ ops, ValidBoard op.table ∧ op.table ≠ 0) :
    RlKept bucket (ops.foldl (RlOp.run bucket) s) := by
  induction ops generalizing s with
  | nil => exact h
  | cons op rest ih =>
    rw [List.forall_mem_cons] at hops
    exact ih (h.run hops.1) hops.2

/-- The board after a move is not empty. -/
theorem valSetCell_ne_zero {table : U32} {m : Nat} (p : Player) (hm : m ∈ availableMoves table) :
    valSetCell table m p.cell ≠ 0 := by
  intro hzero
  have hcell := tableGetCell_valSetCell_same table (lt_of_mem_availableMoves hm) p.fits_cell
  rw [hzero, tableGetCell_zero] at hcell
  exact p.cell_ne_empty hcell.symm

/-- `play_rl` on a board of a game. -/
theorem RlKept.playRl {table : U32} (h : RlKept bucket s) (hvalid : ValidBoard table)
    (rnd : Nat → Nat) (p : Player) : RlKept bucket (Kxo.playRl bucket rnd table p s).2 := by
  rw [playRl_ops]
  refine h.runAll fun op hop => ?_
  obtain ⟨m, hm, rfl⟩ := List.mem_map.mp hop
  exact ⟨hvalid.valSetCell m p, valSetCell_ne_zero p hm⟩

/-- A logged reward is that of an outcome, or zero. -/
theorem GameLog.Matches.reward_mem {l : GameLog} (h : l.Matches) (j : Nat) :
    l.reward j ∈ rewards := by
  by_cases hj : Learnt l.record j
  · rw [h.value j hj, calculateWinValue]
    split
    · decide
    · split <;> decide
  · rw [(h.nothingElse j hj).2]
    decide

/-- `update_state_value` with the log of a game. -/
theorem RlKept.updateStateValue {l : GameLog} (h : RlKept bucket s) (hlog : l.Matches)
    (steps : Nat) (p : Player) :
    RlKept bucket (Kxo.updateStateValue bucket l.moves l.reward steps p s) := by
  obtain ⟨ops, hrun, hops⟩ := updateStateValue_ops bucket l.moves l.reward steps p s
  rw [hrun]
  refine h.runAll fun op hop => ?_
  obtain ⟨j, score, _, hlogged, rfl⟩ := hops op hop
  show ValidBoard (tableOfInt (intOfTable (l.moves j))) ∧ tableOfInt (intOfTable (l.moves j)) ≠ 0
  rw [tableOfInt_intOfTable]
  have hj : Learnt l.record j := by
    by_contra hnot
    exact hlogged (hlog.nothingElse j hnot).1
  exact ⟨hlog.board j hj ▸ validBoard_replay _, hlogged⟩

end Store

/-! ## In the driver

The invariants of the log, of the record and of the store, put together. -/

section Driver

variable {sort : KernelSort} {zobristTable : ZobristWords} {bucket : U32 → Nat}

/-- A call of the driver keeps the learning agent's globals. -/
theorem rlKept_call {a a' : AgentState}
    (hcall : AgentsCall (kxoAgents sort zobristTable bucket) a a')
    (h : RlKept bucket a.rl ∧ ValuesBounded a.rl) : RlKept bucket a'.rl ∧ ValuesBounded a'.rl := by
  cases hcall with
  | teach l p hlog hteach =>
    obtain rfl := hteach
    exact ⟨h.1.updateStateValue hlog _ p,
      h.2.updateStateValue bucket _ (fun j => rewards_le (hlog.reward_mem j)) _ p⟩
  | @play who table p move hvalid hplays =>
    cases who with
    | mcts => obtain ⟨_, _, _, rfl⟩ := hplays; exact h
    | negamax => obtain ⟨_, rfl⟩ := hplays; exact h
    | rl =>
      obtain ⟨rnd, _, rfl⟩ := hplays
      exact ⟨h.1.playRl hvalid rnd p, h.2.playRl bucket rnd table p⟩

/-- In every state the driver passes through the store is sound and its values are bounded. -/
theorem rlKept_passes {s : Driver AgentState}
    (h : Passes (kxoAgents sort zobristTable bucket) s) :
    RlKept bucket s.agents.rl ∧ ValuesBounded s.agents.rl :=
  h.agents (P := fun a => RlKept bucket a.rl ∧ ValuesBounded a.rl)
    ⟨rlKept_initRlAgent bucket, initRlAgent_valuesBounded⟩ fun _ _ => rlKept_call

/-- **Learning is sound in the running driver.** Whatever the clients do and the agents play: the
structures of the store agree slot by slot, what it holds are boards of games with scores within
`2^23`, an update of any game's log would be exact in every operation, and on an open board the
agent has a move. -/
theorem driver_learning (sort : KernelSort) (zobristTable : ZobristWords) (bucket : U32 → Nat)
    {s : Driver AgentState} (h : Passes (kxoAgents sort zobristTable bucket) s) :
    Represented bucket s.agents.rl ∧
    (∀ pos, s.agents.rl.stMap pos = true →
      ValidBoard (s.agents.rl.stBuff pos).table ∧ (s.agents.rl.stBuff pos).table ≠ 0 ∧
        ∀ p, |(s.agents.rl.stBuff pos).scores p| ≤ 2 ^ 23) ∧
    (∀ (i : Fin nGames) (p : Player), ∀ u ∈ updatesOf bucket (s.episodeMoves i) (s.reward i) p
        (stepsOf (s.games i).xoTlb) 0 s.agents.rl,
      |u.curr| ≤ 2 ^ 23 ∧ ∀ x ∈ u.results, |x| ≤ 2 ^ 23 ∧ toS32 x = x) ∧
    ∀ (i : Fin nGames) (p : Player) (rnd : Nat → Nat),
      checkWin (s.games i).xoTlb.table = cellEmpty →
        (playRl bucket rnd (s.games i).xoTlb.table p s.agents.rl).1 ≠ -1 := by
  obtain ⟨hkept, hvalues⟩ := rlKept_passes h
  refine ⟨hkept.store.represented hkept.chains, fun pos hpos => ?_, fun i p u hu => ?_,
    fun i p rnd hopen => ?_⟩
  · have hmem := List.mem_map_of_mem (f := fun pos => (s.agents.rl.stBuff pos).table)
      ((hkept.store.map pos).mp hpos)
    obtain ⟨hvalid, hne⟩ := hkept.boards _ hmem
    exact ⟨hvalid, hne, hvalues pos⟩
  · have hlog : (s.gameLog i).Matches := h.logged i
    obtain ⟨hold, hnext, hreward⟩ :=
      hvalues.updatesOf bucket (s.episodeMoves i) hlog.reward_mem p _ (by decide) u hu
    exact ⟨(RlUpdate.curr_eq hnext (rewards_le hreward)).2,
      RlUpdate.results_le hold hnext (rewards_le hreward)⟩
  · exact playRl_ne_neg_one bucket rnd p hvalues (availableMoves_ne_nil hopen)

end Driver

/-- An update of a log that is not empty leaves a board in the store. -/
theorem orders_updateStateValue_ne_nil (bucket : U32 → Nat) {moves : Nat → U32} (reward : Nat → Int)
    {steps j : Nat} (hj : j < steps) (hmove : moves j ≠ 0) (p : Player) (s : RlStore) :
    (updateStateValue bucket moves reward steps p s).orders ≠ [] := by
  have hfind : ∀ (table : U32) (s : RlStore), (findRlState bucket table s).2.orders ≠ [] := by
    intro table s
    unfold findRlState
    split <;> simp [RlStore.moveTail, RlStore.insert]
  -- from a step on, the store is not empty, or a board is still to come
  have hloop : ∀ n next s, s.orders ≠ [] ∨ j < n →
      (updateLoop bucket moves reward p n next s).orders ≠ [] := by
    intro n
    induction n with
    | zero => exact fun _ _ h => h.resolve_right (Nat.not_lt_zero j)
    | succ n ih =>
      intro next s h
      rw [updateLoop]
      split
      case isTrue => exact ih _ _ (.inl (hfind (moves n) s))
      case isFalse hnone =>
        refine ih _ _ (h.imp_right fun hlt => ?_)
        have hne : j ≠ n := fun heq => hnone (heq ▸ hmove)
        omega
  exact hloop steps 0 s (.inr hj)

/-- The finish item of the game that O won has taught the learning agent. -/
theorem driver_learning_taught :
    ∃ s t : Driver AgentState,
      s.reward firstGame 4 = rlFixedOne ∧
      t.agents = concreteAgents.updateStateValue s.agents (s.episodeMoves firstGame)
        (s.reward firstGame) 5 .o ∧
      (∃ pos, t.agents.rl.stMap pos = true) ∧
      Represented hashBucket t.agents.rl ∧
      (∀ pos, t.agents.rl.stMap pos = true →
        ValidBoard (t.agents.rl.stBuff pos).table ∧ (t.agents.rl.stBuff pos).table ≠ 0 ∧
          ∀ p, |(t.agents.rl.stBuff pos).scores p| ≤ 2 ^ 23) ∧
      (∀ (i : Fin nGames) (p : Player), ∀ u ∈ updatesOf hashBucket (t.episodeMoves i) (t.reward i) p
          (stepsOf (t.games i).xoTlb) 0 t.agents.rl,
        |u.curr| ≤ 2 ^ 23 ∧ ∀ x ∈ u.results, |x| ≤ 2 ^ 23 ∧ toS32 x = x) ∧
      ∀ (i : Fin nGames) (p : Player) (rnd : Nat → Nat),
        checkWin (t.games i).xoTlb.table = cellEmpty →
          (playRl hashBucket rnd (t.games i).xoTlb.table p t.agents.rl).1 ≠ -1 := by
  obtain ⟨s, a, hexec, h, hfinish, _⟩ := learners_finished
  have hreached : Passes concreteAgents s :=
    .reached (hexec.of_restrict.reachable (.init ⟨_, rfl⟩))
  rw [← wonTable_win] at hfinish
  obtain ⟨hstep, hafter, _⟩ := h.restart (A := concreteAgents) hfinish 0
  have hpass := hreached.work hstep
  -- the rows of the game just won: its last step carries the reward of a win
  have hlog : (s.gameLog firstGame).Matches := hreached.logged firstGame
  have hlearnt : ∀ j, j < 5 → Learnt (s.gameLog firstGame).record j := by
    show ∀ j, j < 5 → Learnt (s.games firstGame).xoTlb j
    rw [h.game]
    exact learnt_wonTable
  have hreward : s.reward firstGame 4 = _ := hlog.value 4 (hlearnt 4 (by decide))
  have hmove : s.episodeMoves firstGame 4 = _ := hlog.board 4 (hlearnt 4 (by decide))
  have hagents : (finishGameWorkFunc concreteAgents firstGame 0 s).agents = _ := hafter.agents
  have htaught : Playing.taught concreteAgents s firstGame wonTable a =
      concreteAgents.updateStateValue s.agents (s.episodeMoves firstGame) (s.reward firstGame) 5
        .o := by
    have hlearner : learner wonTable.attr (checkWin wonTable.table) = some .o := by decide +kernel
    have hsteps : (xoAttrSteps wonTable.attr).toNat = 5 := by decide +kernel
    simp only [Playing.taught, hlearner, hsteps, h.agents]
  refine ⟨s, _, ?_, hagents.trans htaught, ?_,
    driver_learning stableSort bitWords hashBucket hpass⟩
  · rw [hreward]
    show (calculateWinValue (checkWin (replay (s.games firstGame).xoTlb.moves 5)) (playerAt 4) :
      Int) = rlFixedOne
    rw [h.game]
    decide +kernel
  · have hkept := (rlKept_passes hpass).1
    have hne : (finishGameWorkFunc concreteAgents firstGame 0 s).agents.rl.orders ≠ [] := by
      rw [hagents, htaught]
      refine orders_updateStateValue_ne_nil hashBucket _ (by decide : 4 < 5) ?_ .o _
      rw [hmove]
      exact replay_succ_ne_zero _ (by decide)
    obtain ⟨pos, rest, horders⟩ := List.exists_cons_of_ne_nil hne
    exact ⟨pos, (hkept.store.map pos).mpr (by rw [horders]; exact List.mem_cons_self)⟩

end Kxo
