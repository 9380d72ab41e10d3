import Kxo.Driver.Coherence

/-!
# Kxo — the training log (`src/main.c`)

`episode_moves` and `reward` hold, for each game, what its learning agents are taught from: the
boards their moves led to and the rewards. The AI items write a row entry by entry, the finish item
hands it to `update_state_value` and clears it. The rows follow the record of their game: `GameLog`
is the two together, and of all handlers only these two change it.

* **`GameLog.Matches`** — an entry is written exactly for the steps that a learning agent played:
  the board after the step, and the reward of that board.
* **`GameLog.Matches.play`** — a move keeps this: the entry it writes is the one of its step, and
  the entries before it do not change (`GameLog.play_of_ne`).
* **`gameLog_aiWorkCommit`**, **`gameLog_finishGameWorkFunc`** — the two handlers that touch a log;
  the others are frames.
* **`training_log`** — in every state the driver passes through the logs match, and a finish item
  that teaches hands over the whole row of its game, to the agent of the player that has won.
-/

namespace Kxo

variable {σ : Type}

/-! ## A game's log

`Learnt` tells the steps that leave an entry. Everything else in a row is zero, and zero is no board
that a move leads to (`replay_succ_ne_zero`), so a row can be read without the record. -/

/-- The record of a game and its rows of `episode_moves` and `reward`. -/
structure GameLog where
  record : XoTable
  moves : Nat → U32
  reward : Nat → Int

/-- What the driver holds for game `k`. -/
def Driver.gameLog (s : Driver σ) (k : Fin nGames) : GameLog :=
  ⟨(s.games k).xoTlb, s.episodeMoves k, s.reward k⟩

/-- Step `j` has been played, by a learning agent. -/
def Learnt (x : XoTable) (j : Nat) : Prop := j < stepsOf x ∧ who x.attr (playerAt j) = .rl

/-- The rows hold the boards and the rewards of the learning agents' steps, and nothing else. -/
structure GameLog.Matches (l : GameLog) : Prop where
  board : ∀ j, Learnt l.record j → l.moves j = replay l.record.moves (j + 1)
  value : ∀ j, Learnt l.record j →
    l.reward j = calculateWinValue (checkWin (replay l.record.moves (j + 1))) (playerAt j)
  nothingElse : ∀ j, ¬ Learnt l.record j → l.moves j = 0 ∧ l.reward j = 0

instance (x : XoTable) (j : Nat) : Decidable (Learnt x j) := by
  unfold Learnt
  infer_instance

/-- Learning agents played all five moves of the game that O won. -/
theorem learnt_wonTable : ∀ j, j < 5 → Learnt wonTable j := by
  decide +kernel

/-- The log of a new game. -/
def emptyLog (attr : U32) : GameLog := ⟨⟨attr, 0, 0⟩, fun _ => 0, fun _ => 0⟩

/-- The log after a move. -/
def GameLog.play (l : GameLog) (p : Player) (m : Nat) : GameLog :=
  let xoTlb := playedTable p l.record l.record.moves m
  if who l.record.attr p = .rl then
    ⟨xoTlb, Function.update l.moves (stepsOf l.record) xoTlb.table,
      Function.update l.reward (stepsOf l.record) (moveReward xoTlb.table p)⟩
  else ⟨xoTlb, l.moves, l.reward⟩

/-- The tradeoff leaves the line evaluation out of the reward. -/
theorem moveReward_eq (table : U32) (p : Player) :
    moveReward table p = calculateWinValue (checkWin table) p := by
  have hwin : calculateWinValue (checkWin table) p ≤ 65536 := by
    unfold calculateWinValue
    split
    · decide
    · split <;> decide
  have hweight : fixedMulS32 (rlFixedOne - rewardTradeoff) (getScore table p) = 0 := by
    simp [fixedMulS32, fixedMul, rewardTradeoff, toS32]
  rw [moveReward, hweight, Int.zero_add]
  exact toS32_of_bounds (by omega) (by omega)

/-- A recorded move leaves a board that is not empty. -/
theorem replay_succ_ne_zero (moves : U64) {n : Nat} (hn : n < 16) :
    replay moves (n + 1) ≠ 0 := by
  intro hzero
  have hcell := tableGetCell_valSetCell_same (replay moves n) (getRecordCell_lt moves hn)
    (playerAt n).fits_cell
  rw [← replay_succ, hzero] at hcell
  have hempty : tableGetCell 0 (getRecordCell moves n).toNat = cellEmpty := by
    simp [tableGetCell, getBits, BitField.get, cellEmpty]
  exact (playerAt n).cell_ne_empty (hcell.symm.trans hempty)

/-- A new game has an empty log. -/
theorem matches_emptyLog (i : Fin nGames) (rnd : U32) : (emptyLog (newAttr i rnd)).Matches := by
  have hnone : ∀ j, ¬ Learnt (emptyLog (newAttr i rnd)).record j := by
    rintro j ⟨hj, _⟩
    have hsteps : stepsOf (emptyLog (newAttr i rnd)).record = 0 := by
      show (xoAttrSteps (newAttr i rnd)).toNat = 0
      rw [xoAttrSteps_newAttr]
      rfl
    omega
  exact ⟨fun j hj => absurd hj (hnone j), fun j hj => absurd hj (hnone j), fun _ _ => ⟨rfl, rfl⟩⟩

section Play

variable {i : Fin nGames} {l : GameLog} {p : Player} {m : Nat}

/-- The record after a move is the one that the AI item writes. -/
theorem GameLog.record_play (l : GameLog) (p : Player) (m : Nat) :
    (l.play p m).record = playedTable p l.record l.record.moves m := by
  unfold GameLog.play
  split <;> rfl

/-- A move writes the entries of its own step and no others. -/
theorem GameLog.play_of_ne (l : GameLog) (p : Player) (m : Nat) {j : Nat}
    (hj : j ≠ stepsOf l.record) :
    (l.play p m).moves j = l.moves j ∧ (l.play p m).reward j = l.reward j := by
  unfold GameLog.play
  split
  · exact ⟨Function.update_of_ne hj _ _, Function.update_of_ne hj _ _⟩
  · exact ⟨rfl, rfl⟩

/-- The learnt steps after a move are the earlier ones, and its own if the agent learns. -/
theorem CoherentInv.learnt_play (hrec : CoherentInv i l.record p)
    (hm : m ∈ availableMoves l.record.table) (j : Nat) :
    Learnt (l.play p m).record j ↔
      Learnt l.record j ∨ (j = stepsOf l.record ∧ who l.record.attr p = .rl) := by
  rw [l.record_play, Learnt, Learnt, hrec.stepsOf_playedTable hm, hrec.who_playedTable hm]
  constructor
  · rintro ⟨hj, hrl⟩
    rcases Nat.lt_succ_iff_lt_or_eq.mp hj with hlt | rfl
    · exact .inl ⟨hlt, hrl⟩
    · exact .inr ⟨rfl, by rw [hrec.turn_eq]; exact hrl⟩
  · rintro (⟨hj, hrl⟩ | ⟨rfl, hrl⟩)
    · exact ⟨by omega, hrl⟩
    · exact ⟨by omega, by rw [← hrec.turn_eq]; exact hrl⟩

/-- The boards of the earlier steps are the old ones. -/
theorem CoherentInv.replay_play (hrec : CoherentInv i l.record p)
    (hm : m ∈ availableMoves l.record.table) {j : Nat} (hj : j < stepsOf l.record) :
    replay (l.play p m).record.moves (j + 1) = replay l.record.moves (j + 1) := by
  rw [l.record_play]
  exact hrec.replay_playedTable_of_le hm (by omega)

/-- What a learning agent's move writes is its board and its reward. -/
theorem CoherentInv.play_last (hrec : CoherentInv i l.record p)
    (hm : m ∈ availableMoves l.record.table) (hrl : who l.record.attr p = .rl) :
    (l.play p m).moves (stepsOf l.record) =
      replay (l.play p m).record.moves (stepsOf l.record + 1) ∧
    (l.play p m).reward (stepsOf l.record) = calculateWinValue
      (checkWin (replay (l.play p m).record.moves (stepsOf l.record + 1)))
        (playerAt (stepsOf l.record)) := by
  rw [l.record_play, hrec.replay_playedTable hm, ← hrec.turn_eq, ← moveReward_eq, GameLog.play,
    if_pos hrl]
  exact ⟨Function.update_self _ _ _, Function.update_self _ _ _⟩

/-- **A move keeps the log in step with the record.** -/
theorem GameLog.Matches.play (h : l.Matches) (hrec : CoherentInv i l.record p)
    (hm : m ∈ availableMoves l.record.table) : (l.play p m).Matches := by
  refine ⟨fun j hj => ?_, fun j hj => ?_, fun j hj => ?_⟩
  · rcases (hrec.learnt_play hm j).mp hj with hbefore | ⟨rfl, hrl⟩
    · rw [(l.play_of_ne p m (Nat.ne_of_lt hbefore.1)).1, hrec.replay_play hm hbefore.1]
      exact h.board j hbefore
    · exact (hrec.play_last hm hrl).1
  · rcases (hrec.learnt_play hm j).mp hj with hbefore | ⟨rfl, hrl⟩
    · rw [(l.play_of_ne p m (Nat.ne_of_lt hbefore.1)).2, hrec.replay_play hm hbefore.1]
      exact h.value j hbefore
    · exact (hrec.play_last hm hrl).2
  · rw [hrec.learnt_play hm, not_or] at hj
    by_cases hlast : j = stepsOf l.record
    · -- the entry of a step that another agent has just played
      have hnot : who l.record.attr p ≠ .rl := fun hrl => hj.2 ⟨hlast, hrl⟩
      rw [GameLog.play, if_neg hnot]
      exact h.nothingElse j hj.1
    · rw [(l.play_of_ne p m hlast).1, (l.play_of_ne p m hlast).2]
      exact h.nothingElse j hj.1

end Play

/-! ## What the handlers do to a log

One lemma a handler; those that write are at the end. -/

section Handlers

variable (s : Driver σ)

/-- A handler that changes a game's state word only leaves the logs alone. -/
theorem gameLog_setGame {i : Fin nGames} {g : AiGame} (hg : g.xoTlb = (s.games i).xoTlb) :
    (setGame s i g).gameLog = s.gameLog := by
  funext k
  rcases eq_or_ne k i with rfl | hk
  · simp [Driver.gameLog, setGame, hg]
  · simp [Driver.gameLog, setGame, hk]

/-- Starting an AI item touches no log. -/
theorem gameLog_aiWorkStart (p : Player) (i : Fin nGames) :
    (aiWorkStart p i s).gameLog = s.gameLog := by
  unfold aiWorkStart
  split
  · exact gameLog_setGame (setAiWork s i p .idle) rfl
  · rfl

/-- Nor does producing a record. -/
theorem gameLog_drawboardWorkFunc (i : Fin nGames) :
    (drawboardWorkFunc i s).gameLog = s.gameLog := by
  simp only [drawboardWorkFunc]
  split
  · rfl
  · split <;> rfl

/-- Nor the tasklet. -/
theorem gameLog_gameTaskletFunc : (gameTaskletFunc s).gameLog = s.gameLog := by
  funext k
  simp only [Driver.gameLog, gameTaskletFunc]
  split <;> rfl

/-- Nor the timer. -/
theorem gameLog_timerHandler : (timerHandler s).gameLog = s.gameLog := by
  have hgames : (timerGames s).gameLog = s.gameLog := by
    funext k
    simp only [Driver.gameLog, timerGames]
    split <;> rfl
  rw [← hgames]
  simp only [timerHandler]
  split
  · rfl
  · split <;> rfl

/-- Nor the first half of a release. -/
theorem gameLog_releaseStop : (releaseStop s).gameLog = s.gameLog := by
  simp only [releaseStop]
  split
  · exact gameLog_gameTaskletFunc _
  · rfl

/-- Nor the second. -/
theorem gameLog_releaseDone : (releaseDone s).gameLog = s.gameLog := by
  funext k
  simp only [Driver.gameLog, releaseDone]
  split <;> rfl

/-- A move is logged in the row of its own game. -/
theorem gameLog_aiWorkCommit (p : Player) (i : Fin nGames) (move : Int) (agents : σ)
    (hid : (xoAttrId (s.games i).xoTlb.attr).toNat = i) (k : Fin nGames) :
    (aiWorkCommit p i (s.games i).xoTlb move agents s).gameLog k =
      if k = i ∧ move ≠ -1 then (s.gameLog i).play p move.toNat else s.gameLog k := by
  by_cases hmove : move = -1
  · subst hmove
    rw [if_neg fun hk => hk.2 rfl]
    have hkeep := gameLog_setGame { setAiWork s i p .idle with agents }
      (i := i) (g := { s.games i with state := .ready }) rfl
    exact congrFun hkeep k
  · rcases eq_or_ne k i with rfl | hk
    · rw [if_pos ⟨rfl, hmove⟩]
      simp only [aiWorkCommit, if_pos hmove, hid]
      by_cases hrl : who (s.games k).xoTlb.attr p = .rl
      · simp [GameLog.play, Driver.gameLog, hrl, setGame, setAiWork, recordEpisode, stepsOf]
      · simp [GameLog.play, Driver.gameLog, hrl, setGame, setAiWork]
    · rw [if_neg fun h => hk h.1]
      have hne : (k : Nat) ≠ i := fun heq => hk (Fin.ext heq)
      simp only [aiWorkCommit, if_pos hmove, hid]
      by_cases hrl : who (s.games i).xoTlb.attr p = .rl
      · simp [Driver.gameLog, hrl, setGame, setAiWork, recordEpisode, hk, hne]
      · simp [Driver.gameLog, hrl, setGame, setAiWork, hk]

/-- A new game clears the log of its own game only. -/
theorem gameLog_restartGame (A : Agents σ) (j : Fin nGames) (win rnd : U32) (k : Fin nGames) :
    (restartGame A j win rnd s).gameLog k =
      if k = j then emptyLog (newAttr j rnd) else s.gameLog k := by
  rcases eq_or_ne k j with rfl | hk
  · rw [if_pos rfl]
    simp only [restartGame, Driver.gameLog]
    split <;> simp [clearEpisode, setGame, emptyLog]
  · rw [if_neg hk]
    have hne : (k : Nat) ≠ j := fun heq => hk (Fin.ext heq)
    simp only [restartGame, Driver.gameLog]
    split <;> simp [clearEpisode, setGame, hk, hne]

/-- A finish item clears the log of its game, if it starts the next one. -/
theorem gameLog_finishGameWorkFunc (A : Agents σ) (i : Fin nGames) (rnd : U32)
    (hidx : (s.finishWorks i).gameIdx = i) (k : Fin nGames) :
    (finishGameWorkFunc A i rnd s).gameLog k =
      if k = i ∧ s.endFlag = '0' then emptyLog (newAttr i rnd) else s.gameLog k := by
  simp only [finishGameWorkFunc, hidx]
  by_cases hend : s.endFlag = '0'
  · split
    all_goals
      simp only [hend, and_true]
      rw [gameLog_restartGame]
      rfl
  · split
    all_goals
      simp only [hend, and_false, if_false]
      rfl

end Handlers

/-! ## Runs

The invariant along runs, with the states inside a last release, in which work items run too. -/

section Runs

variable {A : Agents σ} {s s' : Driver σ}

/-- Every game's log follows its record. -/
def Driver.Logged (s : Driver σ) : Prop := ∀ k, (s.gameLog k).Matches

/-- Untouched logs match still. -/
theorem Driver.Logged.of_eq (h : s.Logged) (heq : s'.gameLog = s.gameLog) : s'.Logged := by
  intro k
  rw [heq]
  exact h k

/-- In every state passed through each game is owned as its state says. -/
theorem Passes.owned (h : Passes A s) (i : Fin nGames) : Owned i (s.view i) :=
  (h.game (P := fun _ _ => True) (fun _ _ => trivial) (fun _ _ _ _ _ _ => trivial) i).1

/-- The states the driver passes through are closed under the work items. -/
theorem Passes.work (h : Passes A s) {w : WorkEvent} (hstep : workStep A s w s') :
    Passes A s' := by
  cases h with
  | reached hr => exact .reached (.step (e := .work w) hr hstep)
  | flushing hr hlast hrun => exact .flushing hr hlast (.tail hrun ⟨w, hstep⟩)

/-- A work item's step. -/
theorem Driver.Logged.workStep {w : WorkEvent} (h : s.Logged) (hpass : Passes A s)
    (hstep : workStep A s w s') : s'.Logged := by
  cases workStep_cases hstep with
  | aiStart => exact h.of_eq (gameLog_aiWorkStart s _ _)
  | drawboard => exact h.of_eq (gameLog_drawboardWorkFunc s _)
  | @aiCommit p i copy move agents hrunning hmove =>
    obtain ⟨_, rfl, rfl, _⟩ := (hpass.owned i).of_running hrunning
    have hrec := hpass.coherentInv i
    -- the row of the log is found by the number in the attribute word
    have hid : (xoAttrId (s.games i).xoTlb.attr).toNat = i := by
      have hi : (i : Nat) < 9 := i.isLt
      rw [hrec.id, BitVec.toNat_ofNat]
      omega
    intro k
    show ((aiWorkCommit _ i (s.games i).xoTlb move agents s).gameLog k).Matches
    rw [gameLog_aiWorkCommit s _ i move agents hid]
    split
    case isTrue hk =>
      have hlegal : ∃ m, m ∈ availableMoves (s.games i).xoTlb.table ∧ move = (m : Int) := by
        rcases hmove with hgiveUp | hplays
        · exact absurd hgiveUp hk.2
        · exact (A.legal hplays).resolve_left hk.2
      obtain ⟨m, hm, rfl⟩ := hlegal
      exact (h i).play hrec hm
    case isFalse => exact h k
  | @finish i rnd hpending =>
    obtain ⟨_, _, hidx, _⟩ := (hpass.owned i).of_finish hpending
    intro k
    rw [gameLog_finishGameWorkFunc s A i rnd hidx]
    split
    · exact matches_emptyLog i rnd
    · exact h k

/-- The flush before the last close. -/
theorem Driver.Logged.flush (h : (releaseStop s).Logged) (hr : (driverSystem A).Reachable s)
    (hlast : s.openCnt = 1)
    (hrun : Relation.ReflTransGen (fun s s' => ∃ w, Kxo.workStep A s w s') (releaseStop s) s') :
    s'.Logged := by
  induction hrun with
  | refl => exact h
  | tail hrun hstep ih =>
    obtain ⟨w, hstep⟩ := hstep
    exact ih.workStep (.flushing hr hlast hrun) hstep

/-- In every reachable state the logs match. -/
theorem logged_reachable (h : (driverSystem A).Reachable s) : s.Logged := by
  induction h with
  | init hs =>
    obtain ⟨rnd, rfl⟩ := hs
    exact fun k => matches_emptyLog k (rnd k)
  | @step s s' e hr hstep ih =>
    cases e with
    | timer => obtain ⟨_, rfl⟩ := hstep; exact ih.of_eq (gameLog_timerHandler s)
    | tasklet => obtain ⟨_, rfl⟩ := hstep; exact ih.of_eq (gameLog_gameTaskletFunc s)
    | work w => exact ih.workStep (.reached hr) hstep
    | store d r e => obtain rfl := hstep; exact ih
    | «open» =>
      obtain rfl := hstep
      refine ih.of_eq ?_
      simp only [kxoOpen]
      split <;> rfl
    | read count => obtain ⟨_, rfl⟩ := hstep; exact ih
    | release =>
      obtain ⟨hlast, t, hflush, rfl⟩ | ⟨-, rfl⟩ := releaseStep_cases hstep
      -- work items run while the last release waits
      · have ht : t.Logged :=
          (ih.of_eq (gameLog_releaseStop s)).flush hr hlast hflush.1
        exact ht.of_eq (gameLog_releaseDone t)
      · exact ih

/-- And in the states within a last release. -/
theorem Passes.logged (h : Passes A s) : s.Logged := by
  cases h with
  | reached hr => exact logged_reachable hr
  | flushing hr hlast hrun =>
    exact ((logged_reachable hr).of_eq (gameLog_releaseStop _)).flush hr hlast hrun

/-! ## What is taught

What a finish item passes to `update_state_value`. -/

/-- A player learns from a game it has won, with the learning agent. -/
theorem learner_eq_some {attr win : U32} {p : Player} (h : learner attr win = some p) :
    win = p.cell ∧ who attr p = .rl := by
  unfold learner at h
  split at h
  case isTrue ho =>
    obtain rfl := Option.some.inj h
    exact ho
  case isFalse =>
    split at h
    case isTrue hx =>
      obtain rfl := Option.some.inj h
      exact hx
    case isFalse => cases h

/-- A finish item that starts the next game teaches its winner, if that is a learning agent, from
the rows of the game as they stand. -/
theorem agents_finishGameWorkFunc (i : Fin nGames) (rnd : U32)
    (hidx : (s.finishWorks i).gameIdx = i) :
    (finishGameWorkFunc A i rnd s).agents = s.agents ∨
      ∃ p, learner (s.games i).xoTlb.attr (s.finishWorks i).win = some p ∧
        (finishGameWorkFunc A i rnd s).agents =
          A.updateStateValue s.agents (s.episodeMoves i) (s.reward i)
            (stepsOf (s.games i).xoTlb) p := by
  -- the board is produced first, or not; that leaves the agents and the rows alone
  have hrestart : ∀ t : Driver σ, t.games = s.games → t.agents = s.agents →
      t.episodeMoves = s.episodeMoves → t.reward = s.reward →
      (restartGame A i (s.finishWorks i).win rnd t).agents = s.agents ∨
        ∃ p, learner (s.games i).xoTlb.attr (s.finishWorks i).win = some p ∧
          (restartGame A i (s.finishWorks i).win rnd t).agents =
            A.updateStateValue s.agents (s.episodeMoves i) (s.reward i)
              (stepsOf (s.games i).xoTlb) p := by
    intro t hgames hagents hmoves hreward
    simp only [restartGame, hgames]
    cases hlearner : learner (s.games i).xoTlb.attr (s.finishWorks i).win with
    | none => exact .inl hagents
    | some p =>
      refine .inr ⟨p, rfl, ?_⟩
      simp only [clearEpisode, setGame, hagents, hmoves, hreward, stepsOf]
  simp only [finishGameWorkFunc, hidx]
  by_cases hend : s.endFlag = '0'
  · split <;> simp only [hend] <;> exact hrestart _ rfl rfl rfl rfl
  · left
    split <;> rfl

/-- **The training log matches the game record.** In every state the driver passes through, the rows
of every game hold exactly the boards and the rewards of its learning agents' steps; so what a
finish item hands to `update_state_value` is the game just finished, for the player who won it. -/
theorem training_log (A : Agents σ) {s : Driver σ} (h : Passes A s) (i : Fin nGames) :
    (∀ j, j < nGrids →
      (s.episodeMoves i j ≠ 0 ↔ Learnt (s.games i).xoTlb j) ∧
      (Learnt (s.games i).xoTlb j →
        s.episodeMoves i j = replay (s.games i).xoTlb.moves (j + 1) ∧
        s.reward i j = calculateWinValue (checkWin (replay (s.games i).xoTlb.moves (j + 1)))
          (playerAt j)) ∧
      (¬ Learnt (s.games i).xoTlb j → s.episodeMoves i j = 0 ∧ s.reward i j = 0)) ∧
    ∀ rnd s', workStep A s (.finish i rnd) s' →
      s'.agents = s.agents ∨
        ∃ p, checkWin (s.games i).xoTlb.table = p.cell ∧ who (s.games i).xoTlb.attr p = .rl ∧
          s'.agents = A.updateStateValue s.agents (s.episodeMoves i) (s.reward i)
            (stepsOf (s.games i).xoTlb) p := by
  have hlog : (s.gameLog i).Matches := h.logged i
  refine ⟨fun j hlt => ⟨⟨fun hne => ?_, fun hj => ?_⟩, fun hj => ⟨hlog.board j hj, hlog.value j hj⟩,
    hlog.nothingElse j⟩, ?_⟩
  · by_contra hnot
    exact hne (hlog.nothingElse j hnot).1
  · have hboard : s.episodeMoves i j = _ := hlog.board j hj
    rw [hboard]
    exact replay_succ_ne_zero _ hlt
  · rintro rnd s' ⟨hpending, rfl⟩
    obtain ⟨_, _, hidx, hwin, _⟩ := (h.owned i).of_finish hpending
    refine (agents_finishGameWorkFunc i rnd hidx).imp_right ?_
    rintro ⟨p, hlearner, hagents⟩
    obtain ⟨hcell, hrl⟩ := learner_eq_some hlearner
    exact ⟨p, hwin.symm.trans hcell, hrl, hagents⟩

end Runs

/-- The first game is won after five moves of learning agents, and its finish item can run, which
teaches O. -/
theorem training_log_won :
    ∃ s : Driver AgentState,
      (∀ j, j < 5 → Learnt (s.games firstGame).xoTlb j) ∧
      checkWin (s.games firstGame).xoTlb.table = cellO ∧
      (∀ rnd, ∃ s', workStep concreteAgents s (.finish firstGame rnd) s') ∧
      (∀ j, j < nGrids →
        (s.episodeMoves firstGame j ≠ 0 ↔ Learnt (s.games firstGame).xoTlb j) ∧
        (Learnt (s.games firstGame).xoTlb j →
          s.episodeMoves firstGame j = replay (s.games firstGame).xoTlb.moves (j + 1) ∧
          s.reward firstGame j = calculateWinValue
            (checkWin (replay (s.games firstGame).xoTlb.moves (j + 1))) (playerAt j)) ∧
        (¬ Learnt (s.games firstGame).xoTlb j →
          s.episodeMoves firstGame j = 0 ∧ s.reward firstGame j = 0)) ∧
      ∀ rnd s', workStep concreteAgents s (.finish firstGame rnd) s' →
        s'.agents = s.agents ∨
          ∃ p, checkWin (s.games firstGame).xoTlb.table = p.cell ∧
            who (s.games firstGame).xoTlb.attr p = .rl ∧
            s'.agents = concreteAgents.updateStateValue s.agents (s.episodeMoves firstGame)
              (s.reward firstGame) (stepsOf (s.games firstGame).xoTlb) p := by
  obtain ⟨s, _, hexec, h, hfinish, _⟩ := learners_finished
  have hpending : (s.finishWorks firstGame).pending = true := congrArg FinishWork.pending hfinish
  refine ⟨s, ?_, ?_, fun rnd => ⟨_, hpending, rfl⟩, training_log concreteAgents
    (.reached (hexec.of_restrict.reachable (.init ⟨_, rfl⟩))) firstGame⟩
  · rw [h.game]
    exact learnt_wonTable
  · rw [h.game]
    exact wonTable_win

end Kxo
