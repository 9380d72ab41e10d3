import Kxo.Spec.Driver

/-!
# Kxo — one game of the driver (`src/main.c`)

Seen from one game, the handlers do nine things: queue an AI item, start it or let it bail out,
write its move or give up, find the game finished, run its finish item with or without starting the
next game, and put a finished game back at the last release. `GameStep` lists them. Every step of
the driver is, for every game, a sequence of these, so an invariant of a game is checked once
against each.

## The architecture

* **`GameView`**, **`Driver.view`** — one game, its AI items and its finish item, out of the driver.
* **`GameStep`** — the nine things, with what guards them.
* **`Owned`** — who owns a game: nobody (READY), one AI item of the player to move (BUSY), or the
  finish item (DONE). `Owned.step` is the case analysis over the nine.
* **`view_aiWorkStart`** and its neighbours — what each handler does to the view of each game.
* **`view_step`** — every step of the driver is a sequence of `GameStep`s of every game. The last
  release is one step that contains others: it waits for the work items.
* **`Passes`**, **`Passes.game`** — the states inside a last release included, an invariant of
  `GameStep` holds of every game. All later modules on single games use this rule.
-/

namespace Kxo

variable {σ : Type}

/-! ## The view

Games do not touch each other: each handler works on one game, or on all of them independently. -/

/-- A game, its AI items and its finish item. -/
structure GameView where
  game : AiGame
  work : Player → AiWork
  finish : FinishWork

/-- What the driver holds for game `k`. -/
def Driver.view (s : Driver σ) (k : Fin nGames) : GameView :=
  ⟨s.games k, s.aiWork k, s.finishWorks k⟩

/-- What the handlers do to game `i`. -/
inductive GameStep (i : Fin nGames) : GameView → GameView → Prop where
  /-- The tasklet queues the AI item of the player to move. -/
  | queue {v : GameView} : v.game.state = .ready →
      GameStep i v ⟨{ v.game with state := .busy },
        Function.update v.work v.game.turn { v.work v.game.turn with pending := true }, v.finish⟩
  /-- An AI item starts under shutdown. -/
  | bail {v : GameView} {p : Player} : (v.work p).pending = true → (v.work p).running = none →
      GameStep i v ⟨{ v.game with state := .ready }, Function.update v.work p .idle, v.finish⟩
  /-- An AI item starts. -/
  | start {v : GameView} {p : Player} : (v.work p).pending = true → (v.work p).running = none →
      GameStep i v ⟨v.game, Function.update v.work p ⟨false, some v.game.xoTlb⟩, v.finish⟩
  /-- An AI item ends without a move. -/
  | giveUp {v : GameView} {p : Player} {copy : XoTable} : (v.work p).running = some copy →
      GameStep i v ⟨{ v.game with state := .ready }, Function.update v.work p .idle, v.finish⟩
  /-- An AI item writes a move. -/
  | play {v : GameView} {p : Player} {copy : XoTable} {m : Nat} :
      (v.work p).running = some copy → m ∈ availableMoves copy.table →
      GameStep i v ⟨⟨playedTable p copy v.game.xoTlb.moves m, p.opp, .ready⟩,
        Function.update v.work p .idle, v.finish⟩
  /-- The timer finds the game finished. -/
  | finished {v : GameView} : v.game.state = .ready → checkWin v.game.xoTlb.table ≠ cellEmpty →
      GameStep i v ⟨{ v.game with state := .done }, v.work,
        ⟨true, i, checkWin v.game.xoTlb.table⟩⟩
  /-- The finish item starts the next game. -/
  | restart {v : GameView} (rnd : U32) : v.finish.pending = true →
      GameStep i v ⟨⟨⟨newAttr i rnd, 0, 0⟩, .o, .ready⟩, v.work, { v.finish with pending := false }⟩
  /-- The finish item runs with `end` raised. -/
  | skip {v : GameView} : v.finish.pending = true →
      GameStep i v ⟨v.game, v.work, { v.finish with pending := false }⟩
  /-- The last release puts the game back. -/
  | reopen {v : GameView} : v.game.state = .done → v.finish.pending = false →
      GameStep i v ⟨{ v.game with state := .ready }, v.work, v.finish⟩

abbrev GameSteps (i : Fin nGames) : GameView → GameView → Prop :=
  Relation.ReflTransGen (GameStep i)

/-! ## Ownership

`READY`, `BUSY` and `DONE` are a lock. The inductive type has one rule for each state, so a case
analysis on `Owned` gives the queues at once. -/

/-- Who owns a game. A READY game has no item queued; a BUSY one has exactly the AI item of the
player to move, pending, or running on a copy that is still current; a DONE one has at most its
finish item, with the outcome of its board. -/
inductive Owned (i : Fin nGames) (v : GameView) : Prop where
  | ready : v.game.state = .ready → (∀ p, v.work p = .idle) → v.finish.pending = false → Owned i v
  | busy : v.game.state = .busy →
      v.work v.game.turn = ⟨true, none⟩ ∨ v.work v.game.turn = ⟨false, some v.game.xoTlb⟩ →
      v.work v.game.turn.opp = .idle → v.finish.pending = false → Owned i v
  | done : v.game.state = .done → (∀ p, v.work p = .idle) →
      (v.finish.pending = true → v.finish.gameIdx = i ∧
        v.finish.win = checkWin v.game.xoTlb.table ∧ v.finish.win ≠ cellEmpty) → Owned i v

/-- A player is one or the other. -/
theorem Player.eq_or_eq_opp (p q : Player) : q = p ∨ q = p.opp := by
  cases p <;> cases q <;> simp [Player.opp]

namespace Owned

variable {i : Fin nGames} {v v' : GameView}

/-- An AI item that is not idle is the one of the player to move of a BUSY game. -/
theorem of_work (h : Owned i v) {p : Player} (hp : v.work p ≠ .idle) :
    v.game.state = .busy ∧ p = v.game.turn ∧
      (v.work p = ⟨true, none⟩ ∨ v.work p = ⟨false, some v.game.xoTlb⟩) ∧
      v.work p.opp = .idle ∧ v.finish.pending = false := by
  cases h with
  | ready _ hidle _ => exact absurd (hidle p) hp
  | done _ hidle _ => exact absurd (hidle p) hp
  | busy hstate hmine hother hfinish =>
    rcases Player.eq_or_eq_opp v.game.turn p with rfl | rfl
    · exact ⟨hstate, rfl, hmine, hother, hfinish⟩
    · exact absurd hother hp

/-- A running item owns the game: it is BUSY, the item is of the player to move, its copy of the
record is current, and nothing else is queued. -/
theorem of_running (h : Owned i v) {p : Player} {copy : XoTable}
    (hp : (v.work p).running = some copy) :
    v.game.state = .busy ∧ p = v.game.turn ∧ copy = v.game.xoTlb ∧
      v.work p.opp = .idle ∧ v.finish.pending = false := by
  have hne : v.work p ≠ .idle := by
    intro heq
    rw [heq] at hp
    simp [AiWork.idle] at hp
  obtain ⟨hstate, hturn, hwork | hwork, hother, hfinish⟩ := h.of_work hne
  · rw [hwork] at hp
    simp at hp
  · rw [hwork] at hp
    exact ⟨hstate, hturn, (Option.some.inj hp).symm, hother, hfinish⟩

/-- A queued AI item owns the game too. -/
theorem of_pending (h : Owned i v) {p : Player} (hp : (v.work p).pending = true) :
    v.game.state = .busy ∧ p = v.game.turn ∧ v.work p.opp = .idle ∧ v.finish.pending = false := by
  have hne : v.work p ≠ .idle := by
    intro heq
    rw [heq] at hp
    simp [AiWork.idle] at hp
  obtain ⟨hstate, hturn, _, hother, hfinish⟩ := h.of_work hne
  exact ⟨hstate, hturn, hother, hfinish⟩

/-- A queued finish item belongs to a DONE game. -/
theorem of_finish (h : Owned i v) (hf : v.finish.pending = true) :
    v.game.state = .done ∧ (∀ p, v.work p = .idle) ∧ v.finish.gameIdx = i ∧
      v.finish.win = checkWin v.game.xoTlb.table ∧ v.finish.win ≠ cellEmpty := by
  cases h with
  | ready _ _ hfinish => rw [hfinish] at hf; simp at hf
  | busy _ _ _ hfinish => rw [hfinish] at hf; simp at hf
  | done hstate hidle hdone => exact ⟨hstate, hidle, hdone hf⟩

/-- A READY game has nothing queued. -/
theorem of_ready (h : Owned i v) (hstate : v.game.state = .ready) :
    (∀ p, v.work p = .idle) ∧ v.finish.pending = false := by
  cases h with
  | ready _ hidle hfinish => exact ⟨hidle, hfinish⟩
  | busy h _ _ _ => rw [h] at hstate; simp at hstate
  | done h _ _ => rw [h] at hstate; simp at hstate

/-- A DONE game has no AI item. -/
theorem of_done (h : Owned i v) (hstate : v.game.state = .done) :
    ∀ p, v.work p = .idle := by
  cases h with
  | ready h _ _ => rw [h] at hstate; simp at hstate
  | busy h _ _ _ => rw [h] at hstate; simp at hstate
  | done _ hidle _ => exact hidle

/-- When the item of one player goes idle and the other's is, none is left. -/
theorem idle_update {w : Player → AiWork} {p : Player} (h : w p.opp = .idle) (q : Player) :
    Function.update w p .idle q = .idle := by
  rcases Player.eq_or_eq_opp p q with rfl | rfl
  · exact Function.update_self _ _ _
  · rw [Function.update_of_ne p.opp_ne, h]

/-- **Ownership is kept by every step of a game.** -/
theorem step (h : Owned i v) (hstep : GameStep i v v') : Owned i v' := by
  cases hstep with
  -- the tasklet takes the only way from ready to busy
  | queue hready =>
    obtain ⟨hidle, hfinish⟩ := h.of_ready hready
    refine .busy rfl (.inl ?_) ?_ hfinish
    · dsimp only
      rw [Function.update_self, hidle]
      rfl
    · dsimp only
      rw [Function.update_of_ne (Player.opp_ne _), hidle]
  | bail hp _ =>
    obtain ⟨_, _, hother, hfinish⟩ := h.of_pending hp
    exact .ready rfl (idle_update hother) hfinish
  | start hp _ =>
    obtain ⟨hstate, rfl, hother, hfinish⟩ := h.of_pending hp
    refine .busy hstate (.inr (Function.update_self _ _ _)) ?_ hfinish
    dsimp only
    rw [Function.update_of_ne (Player.opp_ne _), hother]
  | giveUp hp =>
    obtain ⟨_, _, _, hother, hfinish⟩ := h.of_running hp
    exact .ready rfl (idle_update hother) hfinish
  | play hp _ =>
    obtain ⟨_, _, _, hother, hfinish⟩ := h.of_running hp
    exact .ready rfl (idle_update hother) hfinish
  | finished hready hwin =>
    exact .done rfl (h.of_ready hready).1 fun _ => ⟨rfl, rfl, hwin⟩
  | restart _ hf => exact .ready rfl (h.of_finish hf).2.1 rfl
  | skip hf =>
    obtain ⟨hstate, hidle, _⟩ := h.of_finish hf
    exact .done hstate hidle fun hpending => absurd hpending (by simp)
  | reopen hdone hfinish => exact .ready rfl (h.of_done hdone) hfinish

/-- Any number of steps keeps a game owned. -/
theorem steps (h : Owned i v) (hsteps : GameSteps i v v') : Owned i v' := by
  induction hsteps with
  | refl => exact h
  | tail _ hstep ih => exact ih.step hstep

end Owned

/-- Every game is owned as its state says. -/
def AllOwned (s : Driver σ) : Prop := ∀ k, Owned k (s.view k)

/-! ## The handlers, seen from one game

One equation a handler, for every game `k`. -/

section Views

variable (s : Driver σ)

/-- One game is replaced. -/
theorem view_setGame (i : Fin nGames) (g : AiGame) (k : Fin nGames) :
    (setGame s i g).view k = if k = i then { s.view i with game := g } else s.view k := by
  by_cases hk : k = i
  · subst hk
    simp [Driver.view, setGame]
  · simp [Driver.view, setGame, hk]

/-- One AI item is replaced. -/
theorem view_setAiWork (i : Fin nGames) (p : Player) (w : AiWork) (k : Fin nGames) :
    (setAiWork s i p w).view k =
      if k = i then { s.view i with work := Function.update (s.aiWork i) p w } else s.view k := by
  by_cases hk : k = i
  · subst hk
    simp [Driver.view, setAiWork]
  · simp [Driver.view, setAiWork, hk]

/-- Producing a record touches no game. -/
theorem view_drawboardWorkFunc (i k : Fin nGames) : (drawboardWorkFunc i s).view k = s.view k := by
  simp only [drawboardWorkFunc]
  split
  · rfl
  · split <;> rfl

/-- Starting an AI item: it copies the record, or bails out and frees the game. -/
theorem view_aiWorkStart (p : Player) (i k : Fin nGames) :
    (aiWorkStart p i s).view k =
      if k = i then
        if kxoShuttingDown s then
          ⟨{ s.games i with state := .ready }, Function.update (s.aiWork i) p .idle,
            s.finishWorks i⟩
        else ⟨s.games i, Function.update (s.aiWork i) p ⟨false, some (s.games i).xoTlb⟩,
            s.finishWorks i⟩
      else s.view k := by
  unfold aiWorkStart
  split
  · rw [view_setGame, view_setAiWork, view_setAiWork]
    by_cases hk : k = i <;> simp [hk, Driver.view]
  · rw [view_setAiWork]
    by_cases hk : k = i <;> simp [hk, Driver.view]

/-- Ending an AI item: the move is written, if there is one, and the game is free. -/
theorem view_aiWorkCommit (p : Player) (i : Fin nGames) (copy : XoTable) (move : Int)
    (agents : σ) (k : Fin nGames) :
    (aiWorkCommit p i copy move agents s).view k =
      if k = i then
        ⟨if move ≠ -1 then
            ⟨playedTable p copy (s.games i).xoTlb.moves move.toNat, p.opp, .ready⟩
          else { s.games i with state := .ready },
          Function.update (s.aiWork i) p .idle, s.finishWorks i⟩
      else s.view k := by
  simp only [aiWorkCommit]
  by_cases hmove : move = -1
  · simp only [hmove, ne_eq, not_true_eq_false, if_false]
    rw [view_setGame]
    by_cases hk : k = i
    · subst hk
      simp [Driver.view, setAiWork]
    · simp [Driver.view, setAiWork, hk]
  · simp only [ne_eq, hmove, not_false_eq_true, if_true]
    rw [view_setGame]
    by_cases hk : k = i
    · subst hk
      by_cases hrl : who copy.attr p = .rl
      · simp [Driver.view, setAiWork, recordEpisode, hrl]
      · simp [Driver.view, setAiWork, hrl]
    · by_cases hrl : who copy.attr p = .rl
      · simp [Driver.view, setAiWork, recordEpisode, hrl, hk]
      · simp [Driver.view, setAiWork, hrl, hk]

/-- The next game starts READY, with O to move. -/
theorem view_restartGame (A : Agents σ) (j : Fin nGames) (win rnd : U32) (k : Fin nGames) :
    (restartGame A j win rnd s).view k =
      if k = j then { s.view j with game := ⟨⟨newAttr j rnd, 0, 0⟩, .o, .ready⟩ }
      else s.view k := by
  rw [← view_setGame]
  simp only [restartGame, clearEpisode]
  split <;> rfl

/-- A finish item starts the next game unless `end` is raised. -/
theorem view_finishGameWorkFunc (A : Agents σ) (i : Fin nGames) (rnd : U32)
    (hidx : (s.finishWorks i).gameIdx = i) (k : Fin nGames) :
    (finishGameWorkFunc A i rnd s).view k =
      if k = i then
        ⟨if s.endFlag = '0' then ⟨⟨newAttr i rnd, 0, 0⟩, .o, .ready⟩ else s.games i,
          s.aiWork i, { s.finishWorks i with pending := false }⟩
      else s.view k := by
  simp only [finishGameWorkFunc, hidx]
  by_cases hend : s.endFlag = '0'
  · split
    all_goals
      simp only [hend]
      rw [view_restartGame]
      by_cases hk : k = i
      · subst hk
        simp [Driver.view]
      · simp [Driver.view, hk]
  · split
    all_goals
      by_cases hk : k = i
      · subst hk
        simp [Driver.view]
      · simp [Driver.view, hk]

/-- The tasklet takes the READY games of its mask and queues an item for each. -/
theorem view_gameTaskletFunc (k : Fin nGames) :
    (gameTaskletFunc s).view k =
      if s.gameTaskletData k ∧ (s.games k).state = .ready then
        ⟨{ s.games k with state := .busy }, Function.update (s.aiWork k) (s.games k).turn
          { s.aiWork k (s.games k).turn with pending := true }, s.finishWorks k⟩
      else s.view k := by
  by_cases hk : s.gameTaskletData k ∧ (s.games k).state = .ready
  · rw [if_pos hk]
    simp only [Driver.view, gameTaskletFunc, if_pos hk, GameView.mk.injEq, and_true, true_and]
    funext p
    by_cases hp : (s.games k).turn = p
    · subst hp
      simp [hk]
    · simp [hp, Ne.symm hp]
  · rw [if_neg hk]
    simp only [Driver.view, gameTaskletFunc, if_neg hk, GameView.mk.injEq, and_true, true_and]
    funext p
    rw [if_neg fun h => hk h.1]

/-- The timer takes the READY games that are finished and queues their finish item. -/
theorem view_timerHandler (k : Fin nGames) :
    (timerHandler s).view k =
      if timerFinishes (s.games k) then
        ⟨{ s.games k with state := .done }, s.aiWork k,
          ⟨true, k, checkWin (s.games k).xoTlb.table⟩⟩
      else s.view k := by
  have hgames : (timerGames s).view k =
      if timerFinishes (s.games k) then
        ⟨{ s.games k with state := .done }, s.aiWork k,
          ⟨true, k, checkWin (s.games k).xoTlb.table⟩⟩
      else s.view k := by
    simp only [Driver.view, timerGames]
    split <;> rfl
  rw [← hgames]
  simp only [timerHandler]
  split
  · rfl
  · split <;> rfl

/-- The last release frees DONE games. -/
theorem view_releaseDone (k : Fin nGames) :
    (releaseDone s).view k =
      if (s.games k).state = .done then
        ⟨{ s.games k with state := .ready }, s.aiWork k, s.finishWorks k⟩
      else s.view k := by
  simp only [Driver.view, releaseDone]
  split <;> rfl

end Views

/-! ## The driver's steps are steps of each game

The projection. A step of the driver is one or several game steps of the game it is about, and none
of the others. -/

section Projection

variable {A : Agents σ} {s s' : Driver σ}

/-- What a work item's step is, with one handler for the items of both players. -/
inductive WorkCase (A : Agents σ) (s : Driver σ) : WorkEvent → Driver σ → Prop where
  | aiStart {p : Player} {i : Fin nGames} : (s.aiWork i p).pending = true →
      (s.aiWork i p).running = none → WorkCase A s (.aiStart p i) (aiWorkStart p i s)
  | aiCommit {p : Player} {i : Fin nGames} {copy : XoTable} {move : Int} {agents : σ} :
      (s.aiWork i p).running = some copy →
      move = -1 ∨ A.Plays (who copy.attr p) s.agents copy.table p move agents →
      WorkCase A s (.aiCommit p i move) (aiWorkCommit p i copy move agents s)
  | drawboard {i : Fin nGames} : WorkCase A s (.drawboard i) (drawboardWorkFunc i s)
  | finish {i : Fin nGames} {rnd : U32} : (s.finishWorks i).pending = true →
      WorkCase A s (.finish i rnd) (finishGameWorkFunc A i rnd s)

/-- A step of a work item, by the item. -/
theorem workStep_cases {w : WorkEvent} (h : workStep A s w s') : WorkCase A s w s' := by
  cases w with
  | aiStart p i =>
    obtain ⟨hpending, hrunning, hs'⟩ := h
    obtain rfl : s' = aiWorkStart p i s := by cases p <;> exact hs'
    exact .aiStart hpending hrunning
  | aiCommit p i move =>
    obtain ⟨copy, agents, hrunning, hmove, hs'⟩ := h
    obtain rfl : s' = aiWorkCommit p i copy move agents s := by cases p <;> exact hs'
    exact .aiCommit hrunning (hmove.imp_left And.left)
  | drawboard i => obtain ⟨_, rfl⟩ := h; exact .drawboard
  | finish i rnd => obtain ⟨hpending, rfl⟩ := h; exact .finish hpending

/-- A work item's step. The agents' answers are legal, so a move written is an empty cell. -/
theorem view_workStep {w : WorkEvent} (h : AllOwned s) (hstep : workStep A s w s')
    (k : Fin nGames) : GameSteps k (s.view k) (s'.view k) := by
  cases workStep_cases hstep with
  | @aiStart p i hpending hrunning =>
    rw [view_aiWorkStart]
    split
    case isTrue hk =>
      subst hk
      split
      · exact .single (.bail hpending hrunning)
      · exact .single (.start hpending hrunning)
    case isFalse => exact .refl
  | @aiCommit p i copy move agents hrunning hmove =>
    rw [view_aiWorkCommit]
    split
    case isTrue hk =>
      subst hk
      split
      case isTrue hne =>
        -- the agents promise legal moves
        have hlegal : ∃ m, m ∈ availableMoves copy.table ∧ move = (m : Int) := by
          rcases hmove with hgiveUp | hplays
          · exact absurd hgiveUp hne
          · exact (A.legal hplays).resolve_left hne
        obtain ⟨m, hm, rfl⟩ := hlegal
        exact .single (.play hrunning hm)
      case isFalse => exact .single (.giveUp hrunning)
    case isFalse => exact .refl
  -- producing a board changes no game
  | drawboard => rw [view_drawboardWorkFunc]
  | @finish i rnd hpending =>
    obtain ⟨_, _, hidx, _⟩ := (h i).of_finish hpending
    rw [view_finishGameWorkFunc s A i rnd hidx]
    split
    case isTrue hk =>
      subst hk
      split
      · exact .single (.restart rnd hpending)
      · exact .single (.skip hpending)
    case isFalse => exact .refl

/-- Games that only make game steps stay owned. -/
theorem AllOwned.of_steps (h : AllOwned s)
    (hsteps : ∀ k, GameSteps k (s.view k) (s'.view k)) : AllOwned s' :=
  fun k => (h k).steps (hsteps k)

/-- **The flush rule**: what every work item's step keeps, the flush keeps. -/
theorem Flush.keeps {P : Driver σ → Prop} (hflush : Flush A s s') (h : AllOwned s) (hP : P s)
    (hstep : ∀ t w t', AllOwned t → P t → workStep A t w t' → P t') : AllOwned s' ∧ P s' := by
  have hrun := hflush.1
  clear hflush
  induction hrun with
  | refl => exact ⟨h, hP⟩
  | tail _ hlast ih =>
    obtain ⟨w, hlast⟩ := hlast
    exact ⟨ih.1.of_steps (view_workStep ih.1 hlast), hstep _ w _ ih.1 ih.2 hlast⟩

/-- The work items that a release waits for make game steps. -/
theorem view_flush (h : AllOwned s) (hflush : Flush A s s') (k : Fin nGames) :
    GameSteps k (s.view k) (s'.view k) :=
  (hflush.keeps (P := fun t => GameSteps k (s.view k) (t.view k)) h .refl
    fun _ _ _ hown ht hstep => ht.trans (view_workStep hown hstep k)).2

/-- The tasklet makes one game step of each game it takes. -/
theorem view_tasklet (k : Fin nGames) :
    GameSteps k (s.view k) ((gameTaskletFunc s).view k) := by
  rw [view_gameTaskletFunc]
  split
  case isTrue hk => exact .single (.queue hk.2)
  case isFalse => exact .refl

/-- So does the timer. -/
theorem view_timer (k : Fin nGames) : GameSteps k (s.view k) ((timerHandler s).view k) := by
  rw [view_timerHandler]
  split
  case isTrue hk =>
    obtain ⟨hready, hwin⟩ := of_decide_eq_true hk
    exact .single (.finished hready hwin)
  case isFalse => exact .refl

/-- The first half of a release touches no game. -/
theorem view_releaseStop (k : Fin nGames) :
    GameSteps k (s.view k) ((releaseStop s).view k) := by
  simp only [releaseStop]
  split
  · exact view_tasklet k
  · exact .refl

/-- What a release can do: the last client's release flushes the work queue and puts the DONE games
back, another one counts down. Both lower the flags. -/
theorem releaseStep_cases (h : releaseStep A s s') :
    (s.openCnt = 1 ∧ ∃ t, Flush A (releaseStop s) t ∧ s' = releaseFlags (releaseDone t)) ∨
      1 < s.openCnt ∧ s' = releaseFlags { s with openCnt := s.openCnt - 1 } := by
  unfold releaseStep at h
  split at h
  case isTrue hlast => exact .inl ⟨hlast, h⟩
  case isFalse => exact .inr h

/-- A release makes game steps. -/
theorem view_release (h : AllOwned s) (hstep : releaseStep A s s') (k : Fin nGames) :
    GameSteps k (s.view k) (s'.view k) := by
  obtain ⟨-, t, hflush, rfl⟩ | ⟨-, rfl⟩ := releaseStep_cases hstep
  · -- the tasklet, the work items, and then the DONE games put back
    have hempty := (hflush.2 k).2.1
    refine (view_releaseStop k).trans ((view_flush (h.of_steps view_releaseStop) hflush k).trans ?_)
    show GameSteps k (t.view k) ((releaseDone t).view k)
    rw [view_releaseDone]
    split
    case isTrue hdone => exact .single (.reopen hdone hempty)
    case isFalse => exact .refl
  · exact .refl

/-- **Every step of the driver is, for every game, a sequence of that game's steps.** -/
theorem view_step {e : Event} (h : AllOwned s) (hstep : (driverSystem A).step s e s')
    (k : Fin nGames) : GameSteps k (s.view k) (s'.view k) := by
  cases e with
  | timer => obtain ⟨_, rfl⟩ := hstep; exact view_timer k
  | tasklet => obtain ⟨_, rfl⟩ := hstep; exact view_tasklet k
  | work w => exact view_workStep h hstep k
  | store d r e => obtain rfl := hstep; exact .refl
  | «open» =>
    obtain rfl := hstep
    have hview : (kxoOpen s).view k = s.view k := by
      simp only [kxoOpen]
      split <;> rfl
    rw [hview]
  | release => exact view_release h hstep k
  | read count => obtain ⟨_, rfl⟩ := hstep; exact .refl

end Projection

/-- A game as `kxo_init` leaves it. -/
def initView (k : Fin nGames) (rnd : U32) : GameView :=
  ⟨⟨⟨newAttr k rnd, 0, 0⟩, .o, .ready⟩, fun _ => .idle, ⟨false, firstGame, 0⟩⟩

/-- A new game is owned by nobody. -/
theorem owned_initView (k : Fin nGames) (rnd : U32) : Owned k (initView k rnd) :=
  .ready rfl (fun _ => rfl) rfl

/-- **Every game is owned as its state says**, in every reachable state. -/
theorem allOwned_invariant (A : Agents σ) : (driverSystem A).Invariant AllOwned where
  init s hs k := by
    obtain ⟨rnd, rfl⟩ := hs
    exact owned_initView k (rnd k)
  step _ _ _ h hs := h.of_steps (view_step h hs)

/-- The states of the driver: those between its steps, and those a last release passes through
while the workqueue is flushed. -/
inductive Passes (A : Agents σ) : Driver σ → Prop where
  | reached {s : Driver σ} : (driverSystem A).Reachable s → Passes A s
  | flushing {s t : Driver σ} : (driverSystem A).Reachable s → s.openCnt = 1 →
      Relation.ReflTransGen (fun s s' => ∃ w, workStep A s w s') (releaseStop s) t → Passes A t

/-- **The rule for invariants of a game**: true of a new game and kept by each of its steps while
the game is owned, it holds of every game in every state the driver passes through. -/
theorem Passes.game {A : Agents σ} {P : Fin nGames → GameView → Prop}
    (hinit : ∀ k rnd, P k (initView k rnd))
    (hstep : ∀ k v v', Owned k v → P k v → GameStep k v v' → P k v') {s : Driver σ}
    (h : Passes A s) (k : Fin nGames) : Owned k (s.view k) ∧ P k (s.view k) := by
  -- one step of the driver is several of a game, and each keeps both
  have hsteps : ∀ v v', GameSteps k v v' → Owned k v ∧ P k v → Owned k v' ∧ P k v' := by
    intro v v' hrun hv
    induction hrun with
    | refl => exact hv
    | tail _ hgame ih => exact ⟨ih.1.step hgame, hstep k _ _ ih.1 ih.2 hgame⟩
  have hreach : ∀ t, (driverSystem A).Reachable t → Owned k (t.view k) ∧ P k (t.view k) := by
    intro t ht
    induction ht with
    | init hs =>
      obtain ⟨rnd, rfl⟩ := hs
      exact ⟨owned_initView k (rnd k), hinit k (rnd k)⟩
    | step ht hst ih => exact hsteps _ _ (view_step ((allOwned_invariant A).holds ht) hst k) ih
  cases h with
  | reached hr => exact hreach _ hr
  -- a state within a last release, reached by work items from the stop
  | @flushing r _ hr _ hflush =>
    have hstart := ((allOwned_invariant A).holds hr).of_steps view_releaseStop
    have hboth : AllOwned s ∧ (Owned k (s.view k) ∧ P k (s.view k)) := by
      induction hflush with
      | refl => exact ⟨hstart, hsteps _ _ (view_releaseStop k) (hreach _ hr)⟩
      | tail _ hlast ih =>
        obtain ⟨w, hlast⟩ := hlast
        have hview := view_workStep ih.1 hlast
        exact ⟨ih.1.of_steps hview, hsteps _ _ (hview k) ih.2⟩
    exact hboth.2

end Kxo
