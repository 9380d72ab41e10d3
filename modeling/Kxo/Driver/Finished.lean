import Kxo.Driver.Rounds

/-!
# Kxo — finished boards (`src/main.c`)

The timer looks for a finished board, but it is the tasklet that queues the next move, from a mask
that may be older than the board. MCTS and negamax answer `-1` on a finished board; the learning
agent plays on. `MayPlay` is what an AI item needs so that it writes onto an unfinished board only.
-/

namespace Kxo

variable {σ : Type}

/-! ## The agents on a finished board

What the driver has in place of a check of its own: an agent that answers `-1` writes nothing. The
learning agent looks at the empty cells only. -/

/-- The agents that do not learn answer `-1` on a finished board. -/
def Agents.QuitFinished (A : Agents σ) : Prop :=
  ∀ {ai s table p move s'}, A.Plays ai s table p move s' → ai ≠ .rl →
    checkWin table ≠ cellEmpty → move = -1

/-- MCTS and negamax return `-1` on a finished board. -/
theorem kxoAgents_quitFinished (sort : KernelSort) (zobristTable : ZobristWords)
    (bucket : U32 → Nat) : (kxoAgents sort zobristTable bucket).QuitFinished := by
  intro ai s table p move s' hplays hne hfin
  cases ai with
  | mcts =>
    obtain ⟨stop, info', hmcts, _⟩ := hplays
    obtain ⟨info'', hquit⟩ := mcts_finished stop p s.mctsObj hfin
    rw [hquit] at hmcts
    exact (Prod.mk.inj (Option.some.inj hmcts)).1.symm
  | negamax =>
    obtain ⟨rfl, _⟩ := hplays
    exact negamaxPredict_finished sort zobristTable p s.search hfin
  | rl => exact absurd rfl hne

/-- An item of `p` cannot write onto a finished board: the board is unfinished, or its agent gives
up there, or it is full. -/
def MayPlay (x : XoTable) (p : Player) : Prop :=
  checkWin x.table = cellEmpty ∨ who x.attr p ≠ .rl ∨ availableMoves x.table = []

/-- Where an item may play, a move is one on an unfinished board. -/
theorem MayPlay.of_move {A : Agents σ} (hA : A.QuitFinished) {x : XoTable} {p : Player}
    (h : MayPlay x p) {a a' : σ} {move : Int} (hplays : A.Plays (who x.attr p) a x.table p move a')
    (hne : move ≠ -1) : checkWin x.table = cellEmpty ∧ ∃ m, m < nGrids ∧ move = (m : Int) := by
  obtain ⟨m, hm, rfl⟩ := (A.legal hplays).resolve_left hne
  refine ⟨?_, m, lt_of_mem_availableMoves hm, rfl⟩
  -- on a finished board the agent quits, or finds no cell
  by_contra hfin
  rcases h with hopen | hquit | hfull
  · exact hfin hopen
  · exact hne (hA hplays hquit hfin)
  · rw [hfull] at hm
    exact absurd hm (List.not_mem_nil)

/-! ## The invariant

An item is safe from the moment it is queued: the game is then READY and unfinished, or its agent
quits. Nothing happens to the board until the item has run, since it owns the game. -/

/-- The items of a game, queued or running, may play, and its board has no lines of both players.
Under a stop request a queued item will bail out, so it may be for any board. -/
structure GameSafe (stop : Bool) (v : GameView) : Prop where
  pending : ∀ p, (v.work p).pending = true → stop = true ∨ MayPlay v.game.xoTlb p
  running : ∀ p copy, (v.work p).running = some copy → MayPlay copy p
  lines : ¬ BothLines v.game.xoTlb.table

/-- A game without items is safe if it is not won by both players. -/
theorem GameSafe.of_idle {stop : Bool} {v : GameView} (h : ∀ p, v.work p = .idle)
    (hlines : ¬ BothLines v.game.xoTlb.table) : GameSafe stop v where
  pending p hp := by
    rw [h p] at hp
    exact absurd hp (by decide)
  running p copy hp := by
    rw [h p] at hp
    exact absurd hp (by simp [AiWork.idle])
  lines := hlines

/-- Neither the state word nor the finish item matters. -/
theorem GameSafe.of_eq {stop : Bool} {v v' : GameView} (h : GameSafe stop v)
    (hgame : v'.game.xoTlb = v.game.xoTlb) (hwork : v'.work = v.work) : GameSafe stop v' where
  pending p hp := by
    rw [hgame]
    exact h.pending p (by rwa [hwork] at hp)
  running p copy hp := h.running p copy (by rwa [hwork] at hp)
  lines := by
    rw [hgame]
    exact h.lines

/-- Nobody has a line on the empty board. -/
theorem not_bothLines_zero : ¬ BothLines 0 := fun h => checkWin_of_completes h.1 rfl

/-- Every game is safe, and the boards written onto so far were unfinished. -/
structure BoardsSafe (s : Driver σ) : Prop where
  games : ∀ k, GameSafe s.kxoStopWork (s.view k)
  writes : ∀ t ∈ s.writes, checkWin t = cellEmpty

section Steps

variable {A : Agents σ} {s s' : Driver σ}

/-- An item that starts may play: it was queued so, or it bails out. -/
theorem BoardsSafe.aiStart (h : BoardsSafe s) (hown : AllOwned s) {p : Player} {i : Fin nGames}
    (hpending : (s.aiWork i p).pending = true) : BoardsSafe (aiWorkStart p i s) := by
  have hstop : (aiWorkStart p i s).kxoStopWork = s.kxoStopWork :=
    congrArg Controls.kxoStopWork (frame_aiWorkStart p i s).1
  refine ⟨fun k => ?_, by rw [(frame_aiWorkStart p i s).2.2]; exact h.writes⟩
  rw [hstop, view_aiWorkStart]
  by_cases hk : k = i
  · subst hk
    obtain ⟨_, _, hother, _⟩ := (hown k).of_pending hpending
    rw [if_pos rfl]
    split
    case isTrue => exact .of_idle (Owned.idle_update hother) (h.games k).lines
    case isFalse hgoing =>
      -- it was queued for this board, and the driver is not stopping
      have hmay : MayPlay (s.games k).xoTlb p := by
        refine ((h.games k).pending p hpending).resolve_left fun hstop => hgoing ?_
        simp [kxoShuttingDown, hstop]
      refine ⟨fun q hq => ?_, fun q copy hq => ?_, (h.games k).lines⟩
      · rcases Player.eq_or_eq_opp p q with rfl | rfl
        · simp at hq
        · dsimp only at hq
          rw [Function.update_of_ne p.opp_ne, show s.aiWork k p.opp = .idle from hother] at hq
          exact absurd hq (by decide)
      · rcases Player.eq_or_eq_opp p q with rfl | rfl
        · dsimp only at hq
          rw [Function.update_self] at hq
          rw [← Option.some.inj hq]
          exact hmay
        · dsimp only at hq
          rw [Function.update_of_ne p.opp_ne, show s.aiWork k p.opp = .idle from hother] at hq
          exact absurd hq (by simp [AiWork.idle])
  · rw [if_neg hk]
    exact h.games k

/-- An item that ends writes, if at all, onto an unfinished board. -/
theorem BoardsSafe.aiCommit (hA : A.QuitFinished) (h : BoardsSafe s) (hown : AllOwned s)
    {p : Player} {i : Fin nGames} {copy : XoTable} {move : Int} {agents : σ}
    (hrunning : (s.aiWork i p).running = some copy)
    (hmove : move = -1 ∨ A.Plays (who copy.attr p) s.agents copy.table p move agents) :
    BoardsSafe (aiWorkCommit p i copy move agents s) := by
  obtain ⟨_, _, hcopy, hother, _⟩ := (hown i).of_running hrunning
  -- an agent that moves has found the board unfinished
  have hopen : move ≠ -1 →
      checkWin (s.games i).xoTlb.table = cellEmpty ∧ ∃ m, m < nGrids ∧ move = (m : Int) := by
    intro hne
    have hmay := (h.games i).running p copy hrunning
    have hmoved := hmay.of_move hA (hmove.resolve_left hne) hne
    rw [hcopy] at hmoved
    exact hmoved
  have hstop : (aiWorkCommit p i copy move agents s).kxoStopWork = s.kxoStopWork :=
    congrArg Controls.kxoStopWork (frame_aiWorkCommit p i copy move agents s).1
  refine ⟨fun k => ?_, ?_⟩
  · rw [hstop, view_aiWorkCommit]
    by_cases hk : k = i
    · subst hk
      rw [if_pos rfl]
      refine .of_idle (Owned.idle_update hother) ?_
      split
      case isTrue hne =>
        obtain ⟨hunfinished, m, hm, rfl⟩ := hopen hne
        rw [hcopy]
        exact not_bothLines_valSetCell p hm hunfinished
      case isFalse => exact (h.games k).lines
    · rw [if_neg hk]
      exact h.games k
  · rw [(frame_aiWorkCommit p i copy move agents s).2.2]
    split
    case isTrue hne =>
      intro t ht
      rcases List.mem_cons.mp ht with rfl | ht
      · exact (hopen hne).1
      · exact h.writes t ht
    case isFalse => exact h.writes

/-- A finish item starts a new game or leaves things alone. -/
theorem BoardsSafe.finish (h : BoardsSafe s) (hown : AllOwned s) {i : Fin nGames}
    (hpending : (s.finishWorks i).pending = true) (rnd : U32) :
    BoardsSafe (finishGameWorkFunc A i rnd s) := by
  obtain ⟨_, hidle, hidx, _⟩ := (hown i).of_finish hpending
  have hstop : (finishGameWorkFunc A i rnd s).kxoStopWork = s.kxoStopWork :=
    congrArg Controls.kxoStopWork (frame_finishGameWorkFunc A i rnd s).1
  refine ⟨fun k => ?_, by rw [(frame_finishGameWorkFunc A i rnd s).2.2]; exact h.writes⟩
  rw [hstop, view_finishGameWorkFunc s A i rnd hidx]
  by_cases hk : k = i
  · subst hk
    rw [if_pos rfl]
    refine .of_idle hidle ?_
    split
    case isTrue => exact not_bothLines_zero
    case isFalse => exact (h.games k).lines
  · rw [if_neg hk]
    exact h.games k

/-- Every work item keeps the boards safe. -/
theorem BoardsSafe.workStep (hA : A.QuitFinished) (h : BoardsSafe s) (hown : AllOwned s)
    {w : WorkEvent} (hstep : workStep A s w s') : BoardsSafe s' := by
  cases workStep_cases hstep with
  | aiStart hpending _ => exact h.aiStart hown hpending
  | aiCommit hrunning hmove => exact h.aiCommit hA hown hrunning hmove
  | @drawboard i =>
    have hstop : (drawboardWorkFunc i s).kxoStopWork = s.kxoStopWork :=
      congrArg Controls.kxoStopWork (frame_drawboardWorkFunc i s).1
    refine ⟨fun k => ?_, by rw [(frame_drawboardWorkFunc i s).2.2]; exact h.writes⟩
    rw [hstop, view_drawboardWorkFunc]
    exact h.games k
  | finish hpending => exact h.finish hown hpending _

/-- The tasklet queues an item that may play, unless the driver is stopping. -/
theorem BoardsSafe.tasklet (h : BoardsSafe s) (hown : AllOwned s)
    (hmay : s.kxoStopWork = true ∨ ∀ i, s.gameTaskletData i = true →
      (s.games i).state = .ready → MayPlay (s.games i).xoTlb (s.games i).turn) :
    BoardsSafe (gameTaskletFunc s) := by
  refine ⟨fun k => ?_, h.writes⟩
  change GameSafe s.kxoStopWork _
  rw [view_gameTaskletFunc]
  split
  case isTrue hk =>
    have hidle := ((hown k).of_ready hk.2).1
    refine ⟨fun q hq => ?_, fun q copy hq => ?_, (h.games k).lines⟩
    · dsimp only at hq ⊢
      rcases Player.eq_or_eq_opp (s.games k).turn q with rfl | rfl
      · exact hmay.imp_right fun hmay => hmay k hk.1 hk.2
      · rw [Function.update_of_ne (Player.opp_ne _)] at hq
        exact (h.games k).pending _ hq
    · dsimp only at hq
      rcases Player.eq_or_eq_opp (s.games k).turn q with rfl | rfl
      · rw [Function.update_self] at hq
        exact (h.games k).running _ copy hq
      · rw [Function.update_of_ne (Player.opp_ne _)] at hq
        exact (h.games k).running _ copy hq
  case isFalse => exact h.games k

/-- The timer writes no board. What it finds finished has no item queued. -/
theorem BoardsSafe.timer (h : BoardsSafe s) : BoardsSafe (timerHandler s) := by
  have hstop : (timerHandler s).kxoStopWork = s.kxoStopWork :=
    congrArg Controls.kxoStopWork (frame_timerHandler s).1
  refine ⟨fun k => ?_, by rw [(frame_timerHandler s).2.2]; exact h.writes⟩
  rw [hstop, view_timerHandler]
  split
  · exact (h.games k).of_eq rfl rfl
  · exact h.games k

/-- The last release: what its tasklet queues bails out, and the flush leaves no item. -/
theorem BoardsSafe.release (hA : A.QuitFinished) (h : BoardsSafe s) (hown : AllOwned s)
    (hstep : releaseStep A s s') : BoardsSafe s' := by
  obtain ⟨-, t, hflush, rfl⟩ | ⟨-, rfl⟩ := releaseStep_cases hstep
  · have hstopped : BoardsSafe (releaseStop s) := by
      -- with the stop flag raised, a queued item asks for nothing
      have hraised : BoardsSafe { s with openCnt := 0, kxoStopWork := true, timer := false } :=
        ⟨fun k => ⟨fun _ _ => .inl rfl, (h.games k).running, (h.games k).lines⟩, h.writes⟩
      simp only [releaseStop]
      split
      · exact hraised.tasklet hown (.inl rfl)
      · exact hraised
    have hflushed : BoardsSafe t := (hflush.keeps (hown.of_steps view_releaseStop) hstopped
      fun _ _ _ hown' ht hwork => ht.workStep hA hown' hwork).2
    refine ⟨fun k => ?_, hflushed.writes⟩
    show GameSafe false ((releaseDone t).view k)
    have hidle : ∀ p, (t.view k).work p = .idle := (hflush.2 k).2.2
    rw [view_releaseDone]
    split
    · exact .of_idle hidle (hflushed.games k).lines
    · exact .of_idle hidle (hflushed.games k).lines
  · exact ⟨h.games, h.writes⟩

end Steps

/-! ## The window

The tasklet queues items from a mask that the timer has written. If a game was finished in between,
and is READY, the item is queued for a finished board. -/

/-- A step is not a tasklet that finds in its mask a READY game whose board is finished and has an
empty cell while a learning agent is to move. -/
def MaskCurrent (s : Driver σ) : Event → Prop
  | .tasklet => ∀ i, s.gameTaskletData i = true → (s.games i).state = .ready →
      MayPlay (s.games i).xoTlb (s.games i).turn
  | _ => True

/-- While masks are current, every step keeps the boards safe. -/
theorem boardsSafe_invariant {A : Agents σ} (hA : A.QuitFinished) :
    ((driverSystem A).restrict MaskCurrent).Invariant fun s => AllOwned s ∧ BoardsSafe s := by
  refine ((allOwned_invariant A).restrict MaskCurrent).and ?_ ?_
  · rintro s ⟨rnd, rfl⟩
    exact ⟨fun k => .of_idle (fun _ => rfl) not_bothLines_zero,
      fun t ht => absurd ht (List.not_mem_nil)⟩
  · rintro s e s' hown h ⟨hmask, hstep⟩
    cases e with
    | timer => obtain ⟨_, rfl⟩ := hstep; exact h.timer
    | tasklet => obtain ⟨_, rfl⟩ := hstep; exact h.tasklet hown (.inr hmask)
    | work w => exact h.workStep hA hown hstep
    | store d r e => obtain rfl := hstep; exact ⟨h.games, h.writes⟩
    | «open» =>
      obtain rfl := hstep
      simp only [kxoOpen]
      split <;> exact ⟨h.games, h.writes⟩
    | release => exact h.release hA hown hstep
    | read count => obtain ⟨_, rfl⟩ := hstep; exact ⟨h.games, h.writes⟩

/-- **No move is played on a finished board**, and no board has lines of both players, in every
state of every run whose tasklets never queue a learning agent for a finished board that is not
full. -/
theorem no_move_on_finished (sort : KernelSort) (zobristTable : ZobristWords) (bucket : U32 → Nat)
    {s : Driver AgentState}
    (h : ((driverSystem (kxoAgents sort zobristTable bucket)).restrict MaskCurrent).Reachable s) :
    (∀ t ∈ s.writes, checkWin t = cellEmpty) ∧ ∀ i, ¬ BothLines (s.games i).xoTlb.table := by
  obtain ⟨_, hsafe⟩ :=
    (boardsSafe_invariant (kxoAgents_quitFinished sort zobristTable bucket)).holds h
  exact ⟨hsafe.writes, fun i => (hsafe.games i).lines⟩

/-- A fresh mask is current. -/
theorem MaskFresh.current {s : Driver σ} {e : Event} (h : MaskFresh s e) : MaskCurrent s e := by
  cases e with
  | tasklet => exact fun i hi hready => .inl (h i hi hready)
  | _ => trivial

/-- Five moves between learning agents, the last of which wins the first game for O. -/
theorem no_move_on_finished_won :
    ∃ s : Driver AgentState,
      s.writes.length = 5 ∧ checkWin (s.games firstGame).xoTlb.table = cellO ∧
      (∀ t ∈ s.writes, checkWin t = cellEmpty) ∧ ∀ i, ¬ BothLines (s.games i).xoTlb.table := by
  obtain ⟨s, _, hexec, h, _, hwrites⟩ := learners_finished
  have hcurrent := hexec.weaken (D := MaskCurrent) fun _ _ => MaskFresh.current
  refine ⟨s, hwrites, by rw [h.game]; exact wonTable_win,
    no_move_on_finished stableSort bitWords hashBucket (hcurrent.reachable (.init ⟨_, rfl⟩))⟩

/-- Four rounds between learning agents, and a fifth in which a tick overtakes the move that ends
the game. -/
def staleMaskEvents : List Event :=
  .open :: (gameEvents firstGame .o [5, 6, 9, 10] ++ lateRoundEvents .o firstGame 1 2)

/-- The agent of X writes onto the board O has won, and completes a line of its own. -/
theorem staleMask_finished :
    ∃ s, (driverSystem concreteAgents).Executes
        (driverInit concreteAgents fun _ => learnersRnd) staleMaskEvents s ∧
      (∃ t ∈ s.writes, checkWin t ≠ cellEmpty) ∧ ∃ i, BothLines (s.games i).xoTlb.table := by
  obtain ⟨s₁, a₁, _, hexec₁, h₁, ha₁, _, _⟩ := learners_run [5, 6, 9, 10] (by decide +kernel)
  let x := fourMovesTable
  let y := playedTable .o x x.moves 1
  have h₂ : Playing s₁ firstGame ⟨x, .o, .ready⟩ idleItems a₁ := h₁
  -- both agents still choose by the line evaluation
  obtain ⟨a₂, hplays₂, ha₂⟩ := plays_of_unlearnt stableSort bitWords hashBucket ha₁ (fun _ => 1)
    (show who x.attr .o = .rl by decide +kernel)
    (show evalMove (fun _ => 1) x.table .o = (1 : Nat) by decide +kernel)
  obtain ⟨a₃, hplays₃, _⟩ := plays_of_unlearnt stableSort bitWords hashBucket ha₂ (fun _ => 1)
    (show who y.attr .x = .rl by decide +kernel)
    (show evalMove (fun _ => 1) y.table .x = (2 : Nat) by decide +kernel)
  obtain ⟨s', hexec, h', hwrites⟩ :=
    h₂.lateRound (show checkWin x.table = cellEmpty by decide +kernel) hplays₂ rfl hplays₃
  refine ⟨s', hexec₁.of_restrict.append hexec, ⟨y.table, ?_, by decide +kernel⟩, firstGame, ?_⟩
  · rw [hwrites]
    exact List.mem_cons_self
  · rw [h'.game]
    exact ⟨⟨genOWinmask [1, 5, 9], by decide, by decide +kernel⟩,
      ⟨genOWinmask [2, 6, 10], by decide, by decide +kernel⟩⟩

end Kxo
