import Kxo.Driver.CodeAgents
import Kxo.Driver.Controls

/-!
# Kxo — rounds (`src/main.c`)

The other modules of this directory say what every run of the driver keeps. This one runs it: it
says which boards are reached, and so that the conditions those results ask for can be met.

A move of a game takes four steps: the timer finds the game unfinished, the tasklet queues the item
of the player to move, the item starts, and it writes the agent's move. What they do to the game is
stated for any agents and any state of the other games:

* **`Playing.round`** — one round moves the game on by the agent's move, and its tasklet goes by a
  mask that is up to date (`MaskFresh`);
* **`Playing.lateRound`** — a round whose item a tick of the timer overtakes: the opponent's item is
  queued on whatever board the move has left;
* **`Playing.finished`** and **`Playing.restart`** — the end of a game: the timer finds it won, and
  its finish item teaches the winner and starts the next one;
* **`Playing.evalGame`** — any number of rounds between learning agents, which choose by the line
  evaluation while nothing is learnt; **`learners_run`** is such a run from module load.

`Wrote` is what the rounds leave alone, with the boards they wrote onto.
-/

namespace Kxo

variable {σ : Type} {A : Agents σ} {s : Driver σ} {i : Fin nGames} {g : AiGame}
  {w : Player → AiWork} {a a' : σ} {x : XoTable} {p : Player} {m : Nat}

/-- Game `i` is `g` with the AI items `w`, the agents keep `a`, and the driver is going. -/
structure Playing (s : Driver σ) (i : Fin nGames) (g : AiGame) (w : Player → AiWork) (a : σ) :
    Prop where
  game : s.games i = g
  work : s.aiWork i = w
  agents : s.agents = a
  stop : s.kxoStopWork = false
  endFlag : s.endFlag = '0'
  timer : s.timer = true

/-- From `s` to `s'` AI items wrote onto `boards`, most recent first. Nothing was produced or read,
and if anything was written, or it already was, the drawboard item of game `i` is queued. -/
structure Wrote (i : Fin nGames) (boards : List U32) (s s' : Driver σ) : Prop where
  writes : s'.writes = boards ++ s.writes
  device : s'.device = s.device
  display : s'.display = s.display
  drawboard : boards ≠ [] ∨ s.drawboardWork i = true → s'.drawboardWork i = true

/-- One piece of a run after another. -/
theorem Wrote.trans {boards boards' : List U32} {s s' s'' : Driver σ} (h : Wrote i boards s s')
    (h' : Wrote i boards' s' s'') : Wrote i (boards' ++ boards) s s'' where
  writes := by rw [h'.writes, h.writes, List.append_assoc]
  device := h'.device.trans h.device
  display := h'.display.trans h.display
  drawboard hany := by
    refine h'.drawboard (or_iff_not_imp_left.mpr fun hnone => h.drawboard ?_)
    rw [not_not.mp hnone, List.nil_append] at hany
    exact hany

/-- A step that writes onto no board. -/
theorem Wrote.of_eq {s s' : Driver σ} (hwrites : s'.writes = s.writes)
    (hdevice : s'.device = s.device) (hdisplay : s'.display = s.display)
    (hdraw : s'.drawboardWork = s.drawboardWork) :
    Wrote i [] s s' :=
  ⟨hwrites, hdevice, hdisplay, fun hany => by
    rw [hdraw]
    exact hany.resolve_left fun hne => hne rfl⟩

/-- A step is not a tasklet whose mask has a READY game with a finished board. -/
def MaskFresh (s : Driver σ) : Event → Prop
  | .tasklet => ∀ i, s.gameTaskletData i = true → (s.games i).state = .ready →
      checkWin (s.games i).xoTlb.table = cellEmpty
  | _ => True

/-- The tasklet is scheduled, with the bit of game `i`. -/
def Scheduled (s : Driver σ) (i : Fin nGames) : Prop :=
  s.gameTasklet = true ∧ s.gameTaskletData i = true

def idleItems : Player → AiWork := fun _ => .idle

def queuedItems (p : Player) : Player → AiWork := Function.update idleItems p ⟨true, none⟩

def runningItems (p : Player) (x : XoTable) : Player → AiWork :=
  Function.update idleItems p ⟨false, some x⟩

/-- The steps of the item of `p` once it is queued. -/
def turnEvents (p : Player) (i : Fin nGames) (m : Nat) : List Event :=
  [.work (.aiStart p i), .work (.aiCommit p i m)]

/-- The steps of a round in which `p` plays `m`. -/
def roundEvents (p : Player) (i : Fin nGames) (m : Nat) : List Event :=
  .timer :: .tasklet :: turnEvents p i m

/-- The steps of a round whose item is overtaken by a tick of the timer: the tasklet of that tick
runs after the move. -/
def lateRoundEvents (p : Player) (i : Fin nGames) (m m' : Nat) : List Event :=
  [.timer, .tasklet, .timer] ++ (turnEvents p i m ++ .tasklet :: turnEvents p.opp i m')

namespace Playing

/-- While a game is played nothing shuts the driver down. -/
theorem going (h : Playing s i g w a) : kxoShuttingDown s = false := by
  simp [kxoShuttingDown, h.stop, h.endFlag]

/-! ## The four steps of a round

One lemma a step, from the state of the game before it to the state after it. The agents' answer is
a hypothesis of the last. -/

/-- The timer writes onto no board. -/
theorem wrote_timerHandler (s : Driver σ) : Wrote i [] s (timerHandler s) := by
  simp only [timerHandler]
  split
  · exact .of_eq rfl rfl rfl rfl
  · split <;> exact .of_eq rfl rfl rfl rfl

/-- The callback arms the timer again, and leaves the agents and the flags alone. -/
theorem timer_controls (h : Playing s i g w a) :
    (timerHandler s).agents = a ∧ (timerHandler s).kxoStopWork = false ∧
      (timerHandler s).endFlag = '0' ∧ (timerHandler s).timer = true := by
  have hcontrols := (frame_timerHandler s).1
  have hagents : (timerHandler s).agents = s.agents := by
    simp only [timerHandler]
    split
    · rfl
    · split <;> rfl
  refine ⟨hagents.trans h.agents, (congrArg Controls.kxoStopWork hcontrols).trans h.stop,
    (congrArg Controls.endFlag hcontrols).trans h.endFlag,
    (congrArg Controls.timer hcontrols).trans ?_⟩
  show (!kxoShuttingDown s) = true
  rw [h.going]
  rfl

/-- While the driver is going and a game is unfinished, the timer schedules the tasklet with the
bits of all games as it finds them. -/
theorem timer_mask (h : Playing s i g w a) (hbit : unfiniBit g = true) :
    (timerHandler s).gameTasklet = true ∧
      (timerHandler s).gameTaskletData = fun j => unfiniBit (s.games j) := by
  have hsome : ∃ j, unfiniBit (s.games j) = true := ⟨i, by rw [h.game]; exact hbit⟩
  have hgo : kxoShuttingDown { timerGames s with
      timer := false, timerLost := s.timerLost || kxoShuttingDown s } = false := h.going
  simp only [timerHandler]
  rw [if_pos ⟨hsome, by rw [Bool.not_eq_true]; exact hgo⟩]
  exact ⟨rfl, rfl⟩

/-- The timer schedules the tasklet with the bit of an unfinished game. -/
theorem tick (h : Playing s i g w a) (hbit : unfiniBit g = true) :
    Playing (timerHandler s) i g w a ∧ Scheduled (timerHandler s) i := by
  obtain ⟨hsched, hmask⟩ := h.timer_mask hbit
  obtain ⟨hagents, hstop, hend, htimer⟩ := h.timer_controls
  have hnot : ¬ timerFinishes g = true := by
    intro hfin
    obtain ⟨hready, hwin⟩ := of_decide_eq_true hfin
    simp [unfiniBit, hready] at hbit
    exact hwin hbit
  have hview := view_timerHandler s i
  rw [h.game, if_neg hnot] at hview
  refine ⟨⟨(congrArg GameView.game hview).trans h.game, (congrArg GameView.work hview).trans h.work,
    hagents, hstop, hend, htimer⟩, hsched, ?_⟩
  rw [hmask]
  show unfiniBit (s.games i) = true
  rw [h.game]
  exact hbit

/-- Right after the callback the mask is fresh: the games it found unfinished still are. -/
theorem maskFresh (h : Playing s i g w a) (hbit : unfiniBit g = true) :
    MaskFresh (timerHandler s) .tasklet := by
  intro j hj hready
  rw [(h.timer_mask hbit).2] at hj
  have hview := congrArg GameView.game (view_timerHandler s j)
  change (timerHandler s).games j = _ at hview
  rw [hview] at hready ⊢
  split at hready
  · exact absurd hready (by simp)
  case isFalse hnot =>
    rw [if_neg hnot]
    have hstate : (s.games j).state = .ready := hready
    show checkWin (s.games j).xoTlb.table = cellEmpty
    simpa [unfiniBit, hstate] using hj

/-- The tasklet queues the item of the player to move of a READY game, and its drawboard item. -/
theorem tasklet (h : Playing s i ⟨x, p, .ready⟩ idleItems a) (hmask : s.gameTaskletData i = true) :
    Playing (gameTaskletFunc s) i ⟨x, p, .busy⟩ (queuedItems p) a ∧
      (gameTaskletFunc s).drawboardWork i = true := by
  have hview := view_gameTaskletFunc s i
  rw [h.game, h.work, if_pos ⟨hmask, rfl⟩] at hview
  refine ⟨⟨congrArg GameView.game hview, congrArg GameView.work hview, h.agents, h.stop, h.endFlag,
    h.timer⟩, ?_⟩
  show (s.gameTaskletData i || s.drawboardWork i) = true
  rw [hmask]
  rfl

/-- A queued item starts on the board as it is. -/
theorem start (h : Playing s i ⟨x, p, .busy⟩ (queuedItems p) a) :
    workStep A s (.aiStart p i) (aiWorkStart p i s) ∧
      Playing (aiWorkStart p i s) i ⟨x, p, .busy⟩ (runningItems p x) a ∧
      (Scheduled s i → Scheduled (aiWorkStart p i s) i) ∧ Wrote i [] s (aiWorkStart p i s) := by
  have hitem : s.aiWork i p = ⟨true, none⟩ := by
    rw [h.work]
    exact Function.update_self _ _ _
  have hs' : aiWorkStart p i s = setAiWork s i p ⟨false, some x⟩ := by
    rw [aiWorkStart, h.going, h.game]
    simp
  refine ⟨⟨by rw [hitem], by rw [hitem], by cases p <;> rfl⟩, ?_⟩
  rw [hs']
  refine ⟨⟨h.game, ?_, h.agents, h.stop, h.endFlag, h.timer⟩, id, .of_eq rfl rfl rfl rfl⟩
  simp [setAiWork, h.work, queuedItems, runningItems]

/-- A running item writes the agent's move onto the board it copied. -/
theorem commit (h : Playing s i ⟨x, p, .busy⟩ (runningItems p x) a)
    (hplays : A.Plays (who x.attr p) a x.table p (m : Int) a') :
    workStep A s (.aiCommit p i m) (aiWorkCommit p i x m a' s) ∧
      Playing (aiWorkCommit p i x m a' s) i ⟨playedTable p x x.moves m, p.opp, .ready⟩ idleItems
        a' ∧
      (Scheduled s i → Scheduled (aiWorkCommit p i x m a' s) i) ∧
      (s.drawboardWork i = true → Wrote i [x.table] s (aiWorkCommit p i x m a' s)) := by
  have hitem : (s.aiWork i p).running = some x := by
    rw [h.work, runningItems, Function.update_self]
  have hne : (m : Int) ≠ -1 := by omega
  have hview := view_aiWorkCommit s p i x m a' i
  rw [if_pos rfl, if_pos hne, h.work, h.game, Int.toNat_natCast] at hview
  refine ⟨⟨x, a', hitem, .inr (by rw [h.agents]; exact hplays), by cases p <;> rfl⟩,
    ⟨congrArg GameView.game hview, (congrArg GameView.work hview).trans ?_, ?_, ?_, ?_, ?_⟩, ?_,
    fun hdraw => ⟨?_, ?_, ?_, fun _ => ?_⟩⟩
  · simp [idleItems, runningItems]
  all_goals
    simp only [aiWorkCommit, if_pos hne]
    split
    all_goals
      simp [setGame, setAiWork, recordEpisode, h.stop, h.endFlag, h.timer, h.game, Scheduled, *]

/-- **A turn**: a queued item plays. -/
theorem turn (h : Playing s i ⟨x, p, .busy⟩ (queuedItems p) a)
    (hplays : A.Plays (who x.attr p) a x.table p (m : Int) a') (hdraw : s.drawboardWork i = true) :
    ∃ s', ((driverSystem A).restrict MaskFresh).Executes s (turnEvents p i m) s' ∧
      Playing s' i ⟨playedTable p x x.moves m, p.opp, .ready⟩ idleItems a' ∧
      (Scheduled s i → Scheduled s' i) ∧ Wrote i [x.table] s s' := by
  obtain ⟨hstart, h₁, hsched₁, hwrote₁⟩ := h.start (A := A)
  obtain ⟨hcommit, h₂, hsched₂, hwrote₂⟩ := h₁.commit hplays
  exact ⟨_, .cons ⟨trivial, hstart⟩ (.cons ⟨trivial, hcommit⟩ (.nil _)), h₂, hsched₂ ∘ hsched₁,
    hwrote₁.trans (hwrote₂ (hwrote₁.drawboard (.inr hdraw)))⟩

/-! ## Rounds

The four in a row. In between the game is queued or running, which other modules look at. -/

/-- The timer and its tasklet queue the item of the player to move of an unfinished game. -/
theorem queued (h : Playing s i ⟨x, p, .ready⟩ idleItems a) (hopen : checkWin x.table = cellEmpty) :
    ((driverSystem A).restrict MaskFresh).Executes s [.timer, .tasklet]
        (gameTaskletFunc (timerHandler s)) ∧
      Playing (gameTaskletFunc (timerHandler s)) i ⟨x, p, .busy⟩ (queuedItems p) a ∧
      (gameTaskletFunc (timerHandler s)).drawboardWork i = true ∧
      Wrote i [] s (gameTaskletFunc (timerHandler s)) := by
  have hbit : unfiniBit ⟨x, p, .ready⟩ = true := decide_eq_true hopen
  obtain ⟨h₁, hsched⟩ := h.tick hbit
  obtain ⟨h₂, hdraw⟩ := h₁.tasklet hsched.2
  have hwrote := wrote_timerHandler (i := i) s
  exact ⟨.cons ⟨trivial, h.timer, rfl⟩ (.cons ⟨h.maskFresh hbit, hsched.1, rfl⟩ (.nil _)), h₂,
      hdraw,
    hwrote.writes, hwrote.device, hwrote.display, fun _ => hdraw⟩

/-- The first three steps of a round leave the item of the player to move running. -/
theorem running (h : Playing s i ⟨x, p, .ready⟩ idleItems a)
    (hopen : checkWin x.table = cellEmpty) :
    ∃ s', ((driverSystem A).restrict MaskFresh).Executes s
        [.timer, .tasklet, .work (.aiStart p i)] s' ∧
      Playing s' i ⟨x, p, .busy⟩ (runningItems p x) a := by
  obtain ⟨hexec, h₁, _, _⟩ := h.queued (A := A) hopen
  obtain ⟨hstart, h₂, _, _⟩ := h₁.start (A := A)
  exact ⟨_, hexec.append (.cons ⟨trivial, hstart⟩ (.nil _)), h₂⟩

/-- **A round**: an unfinished READY game moves on by the agent's move. -/
theorem round (h : Playing s i ⟨x, p, .ready⟩ idleItems a) (hopen : checkWin x.table = cellEmpty)
    (hplays : A.Plays (who x.attr p) a x.table p (m : Int) a') :
    ∃ s', ((driverSystem A).restrict MaskFresh).Executes s (roundEvents p i m) s' ∧
      Playing s' i ⟨playedTable p x x.moves m, p.opp, .ready⟩ idleItems a' ∧
      Wrote i [x.table] s s' := by
  obtain ⟨hexec₁, h₁, hdraw, hwrote₁⟩ := h.queued (A := A) hopen
  obtain ⟨s', hexec, h', _, hwrote⟩ := h₁.turn hplays hdraw
  exact ⟨s', hexec₁.append hexec, h', hwrote₁.trans hwrote⟩

/-- **A late tasklet** queues the opponent's item on whatever board the move has left. -/
theorem lateRound {y : XoTable} {a'' : σ} {m' : Nat} (h : Playing s i ⟨x, p, .ready⟩ idleItems a)
    (hopen : checkWin x.table = cellEmpty)
    (hplays : A.Plays (who x.attr p) a x.table p (m : Int) a')
    (hy : playedTable p x x.moves m = y)
    (hplays' : A.Plays (who y.attr p.opp) a' y.table p.opp (m' : Int) a'') :
    ∃ s', (driverSystem A).Executes s (lateRoundEvents p i m m') s' ∧
      Playing s' i ⟨playedTable p.opp y y.moves m', p.opp.opp, .ready⟩ idleItems a'' ∧
      s'.writes = y.table :: x.table :: s.writes := by
  subst hy
  obtain ⟨hexec₁, h₁, hdraw₁, hwrote₁⟩ := h.queued (A := A) hopen
  -- the second tick finds the game BUSY
  obtain ⟨h₂, hsched₂⟩ := h₁.tick rfl
  have hwrote₂ := wrote_timerHandler (i := i) (gameTaskletFunc (timerHandler s))
  obtain ⟨s₃, hexec₃, h₃, hsched₃, hwrote₃⟩ := h₂.turn hplays (hwrote₂.drawboard (.inr hdraw₁))
  obtain ⟨h₄, hdraw₄⟩ := h₃.tasklet (hsched₃ hsched₂).2
  obtain ⟨s', hexec, h', _, hwrote⟩ := h₄.turn hplays' hdraw₄
  refine ⟨s', hexec₁.of_restrict.append (.cons ⟨h₁.timer, rfl⟩ (hexec₃.of_restrict.append
    (.cons ⟨(hsched₃ hsched₂).1, rfl⟩ hexec.of_restrict))), h', hwrote.writes.trans ?_⟩
  show _ :: s₃.writes = _
  rw [(hwrote₁.trans (hwrote₂.trans hwrote₃)).writes]
  rfl

/-! ## The end of a game

The timer's tick on a won board, and the finish item. -/

/-- The timer finds the game won: it is DONE, with its finish item queued for the outcome. -/
theorem finished (h : Playing s i ⟨x, p, .ready⟩ idleItems a)
    (hwin : checkWin x.table ≠ cellEmpty) :
    ((driverSystem A).restrict MaskFresh).Executes s [.timer] (timerHandler s) ∧
      Playing (timerHandler s) i ⟨x, p, .done⟩ idleItems a ∧
      (timerHandler s).finishWorks i = ⟨true, i, checkWin x.table⟩ ∧
      Wrote i [] s (timerHandler s) := by
  obtain ⟨hagents, hstop, hend, htimer⟩ := h.timer_controls
  have hfin : timerFinishes ⟨x, p, .ready⟩ = true := decide_eq_true ⟨rfl, hwin⟩
  have hview := view_timerHandler s i
  rw [h.game, h.work, if_pos hfin] at hview
  exact ⟨.cons ⟨trivial, h.timer, rfl⟩ (.nil _), ⟨congrArg GameView.game hview,
    congrArg GameView.work hview, hagents, hstop, hend, htimer⟩, congrArg GameView.finish hview,
    wrote_timerHandler s⟩

/-- What the finish item of a DONE game leaves to its agents: the winner, if it learns, is taught
the game's rows. -/
def taught (A : Agents σ) (s : Driver σ) (i : Fin nGames) (x : XoTable) (a : σ) : σ :=
  match learner x.attr (checkWin x.table) with
  | some p => A.updateStateValue a (s.episodeMoves i) (s.reward i) (xoAttrSteps x.attr).toNat p
  | none => a

/-- The finish item produces the board if it is displayed, teaches the winner and starts the next
game. -/
theorem restart (h : Playing s i ⟨x, p, .done⟩ idleItems a)
    (hfinish : s.finishWorks i = ⟨true, i, checkWin x.table⟩) (rnd : U32) :
    workStep A s (.finish i rnd) (finishGameWorkFunc A i rnd s) ∧
      Playing (finishGameWorkFunc A i rnd s) i ⟨⟨newAttr i rnd, 0, 0⟩, .o, .ready⟩ idleItems
        (taught A s i x a) ∧
      (finishGameWorkFunc A i rnd s).drawboardWork = s.drawboardWork ∧
      (finishGameWorkFunc A i rnd s).display = s.display ∧
      (finishGameWorkFunc A i rnd s).device =
        if s.display = '1' then produceBoard s.device x else s.device := by
  have hidx : (s.finishWorks i).gameIdx = i := by rw [hfinish]
  have hwin : (s.finishWorks i).win = checkWin x.table := by rw [hfinish]
  have hview := view_finishGameWorkFunc s A i rnd hidx i
  rw [if_pos rfl, if_pos h.endFlag, h.work] at hview
  have hcontrols := (frame_finishGameWorkFunc A i rnd s).1
  refine ⟨⟨by rw [hfinish], rfl⟩, ⟨congrArg GameView.game hview, congrArg GameView.work hview, ?_,
    (congrArg Controls.kxoStopWork hcontrols).trans h.stop,
    (congrArg Controls.endFlag hcontrols).trans h.endFlag,
    (congrArg Controls.timer hcontrols).trans h.timer⟩, ?_⟩
  all_goals
    simp only [finishGameWorkFunc, hidx, hwin, taught, restartGame, clearEpisode, setGame]
    by_cases hdisplay : s.display = '1'
    all_goals
      cases hlearner : learner x.attr (checkWin x.table)
      all_goals
        simp [hdisplay, hlearner, h.endFlag, h.game, h.agents]

/-- The drawboard item of a displayed game that is not BUSY produces its record. -/
theorem drawboard (h : Playing s i g w a) (hidle : g.state ≠ .busy) (hdisplay : s.display = '1') :
    Playing (drawboardWorkFunc i s) i g w a ∧
      (drawboardWorkFunc i s).device = produceBoard s.device g.xoTlb ∧
      (drawboardWorkFunc i s).display = '1' := by
  have hs' : drawboardWorkFunc i s = { s with
      drawboardWork := Function.update s.drawboardWork i false
      device := produceBoard s.device g.xoTlb } := by
    have hshown : ¬ s.display = '0' := by rw [hdisplay]; decide
    simp only [drawboardWorkFunc, if_neg hshown, h.game, if_neg hidle]
  rw [hs']
  exact ⟨⟨h.game, h.work, h.agents, h.stop, h.endFlag, h.timer⟩, rfl, hdisplay⟩

end Playing

/-- The first client's `open` sets the games going. -/
theorem playing_open (A : Agents σ) (rnd : Fin nGames → U32) (i : Fin nGames) :
    Playing (kxoOpen (driverInit A rnd)) i ⟨⟨newAttr i (rnd i), 0, 0⟩, .o, .ready⟩ idleItems
      A.init :=
  ⟨rfl, rfl, rfl, rfl, rfl, rfl⟩

/-! ## Games between learning agents

`evalGame` decides, for a list of moves, whether learning agents choose them, so a run is given by
its moves and checked by evaluation. -/

/-- The record and the player to move after some moves. -/
def playMoves : XoTable → Player → List Nat → XoTable × Player
  | x, p, [] => (x, p)
  | x, p, m :: ms => playMoves (playedTable p x x.moves m) p.opp ms

/-- The moves that learning agents choose from a record on, as long as the game is unfinished, while
nothing is learnt. -/
def evalGame (rnd : Nat → Nat) : XoTable → Player → List Nat → Bool
  | _, _, [] => true
  | x, p, m :: ms =>
      checkWin x.table = cellEmpty && who x.attr p = .rl && evalMove rnd x.table p = m &&
        evalGame rnd (playedTable p x x.moves m) p.opp ms

/-- Their rounds. -/
def gameEvents (i : Fin nGames) : Player → List Nat → List Event
  | _, [] => []
  | p, m :: ms => roundEvents p i m ++ gameEvents i p.opp ms

section Learners

variable (sort : KernelSort) (zobristTable : ZobristWords) (bucket : U32 → Nat)

/-- A learning agent plays by the line evaluation while nothing is learnt. -/
theorem plays_of_unlearnt {a : AgentState} (h : Unlearnt a.rl) (rnd : Nat → Nat) {attr table : U32}
    {p : Player} {m : Nat} (hwho : who attr p = .rl) (hmove : evalMove rnd table p = m) :
    ∃ a', (kxoAgents sort zobristTable bucket).Plays (who attr p) a table p m a' ∧
      Unlearnt a'.rl := by
  obtain ⟨hchoice, hunlearnt⟩ := h.playRl bucket rnd table p
  refine ⟨{ a with rl := (playRl bucket rnd table p a.rl).2 }, ?_, hunlearnt⟩
  rw [hwho]
  exact ⟨rnd, (hchoice.trans hmove).symm, rfl⟩

/-- **Learning agents play by the line evaluation** until something is learnt. -/
theorem Playing.evalGame (rnd : Nat → Nat) (ms : List Nat) {s : Driver AgentState} {i : Fin nGames}
    {x : XoTable} {p : Player} {a : AgentState} (h : Playing s i ⟨x, p, .ready⟩ idleItems a)
    (ha : Unlearnt a.rl) (hgame : Kxo.evalGame rnd x p ms = true) :
    ∃ s' a' boards,
      ((driverSystem (kxoAgents sort zobristTable bucket)).restrict MaskFresh).Executes
        s (gameEvents i p ms) s' ∧
      Playing s' i ⟨(playMoves x p ms).1, (playMoves x p ms).2, .ready⟩ idleItems a' ∧
      Unlearnt a'.rl ∧ Wrote i boards s s' ∧ boards.length = ms.length := by
  induction ms generalizing s x p a with
  | nil => exact ⟨s, a, [], .nil s, h, ha, .of_eq rfl rfl rfl rfl, rfl⟩
  | cons m ms ih =>
    simp only [Kxo.evalGame, Bool.and_eq_true, decide_eq_true_eq] at hgame
    obtain ⟨⟨⟨hopen, hwho⟩, hmove⟩, hrest⟩ := hgame
    obtain ⟨a₁, hplays, ha₁⟩ := plays_of_unlearnt sort zobristTable bucket ha rnd hwho hmove
    obtain ⟨s₁, hexec₁, h₁, hwrote₁⟩ := h.round hopen hplays
    obtain ⟨s', a', boards, hexec, h', ha', hwrote, hlen⟩ := ih h₁ ha₁ hrest
    exact ⟨s', a', boards ++ [x.table], hexec₁.append hexec, h', ha', hwrote₁.trans hwrote,
      by simp [hlen]⟩

end Learners

/-- A random number that gives both players of a game the learning agent. -/
def learnersRnd : U32 := 0x20001

/-- The record of the first game with it. -/
def learnersTable : XoTable := ⟨newAttr firstGame learnersRnd, 0, 0⟩

/-- **A game from module load**: a client opens the device, and the learning agents of the first
game make the moves that the line evaluation chooses. -/
theorem learners_run (ms : List Nat)
    (hgame : evalGame (fun _ => 1) learnersTable .o ms = true) :
    ∃ s a boards, ((driverSystem concreteAgents).restrict MaskFresh).Executes
        (driverInit concreteAgents fun _ => learnersRnd) (.open :: gameEvents firstGame .o ms) s ∧
      Playing s firstGame ⟨(playMoves learnersTable .o ms).1, (playMoves learnersTable .o ms).2,
        .ready⟩ idleItems a ∧
      Unlearnt a.rl ∧
      Wrote firstGame boards (driverInit concreteAgents fun _ => learnersRnd) s ∧
      boards.length = ms.length := by
  have hopened := playing_open concreteAgents (fun _ => learnersRnd) firstGame
  obtain ⟨s, a, boards, hexec, h, ha, hwrote, hlen⟩ := hopened.evalGame stableSort bitWords
    hashBucket (fun _ => 1) ms initRlAgent_unlearnt hgame
  have hwrote₀ : Wrote firstGame [] (driverInit concreteAgents fun _ => learnersRnd)
      (kxoOpen (driverInit concreteAgents fun _ => learnersRnd)) := .of_eq rfl rfl rfl rfl
  exact ⟨s, a, boards ++ [], .cons ⟨trivial, rfl⟩ hexec, h, ha, hwrote₀.trans hwrote,
    by rw [List.append_nil, hlen]⟩

/-- The record of the game after four moves: O has taken cells 5 and 9, X 6 and 10. -/
def fourMovesTable : XoTable := (playMoves learnersTable .o [5, 6, 9, 10]).1

/-- Its record after the fifth, cell 1, with which O wins. -/
def wonTable : XoTable := playedTable .o fourMovesTable fourMovesTable.moves 1

/-- The second column is O's. -/
theorem wonTable_win : checkWin wonTable.table = cellO := by decide +kernel

/-- Four rounds, and the item of O runs that is about to win the game. -/
theorem learners_running :
    ∃ s a a', ((driverSystem concreteAgents).restrict MaskFresh).Reachable s ∧
      Playing s firstGame ⟨fourMovesTable, .o, .busy⟩ (runningItems .o fourMovesTable) a ∧
      concreteAgents.Plays (who fourMovesTable.attr .o) a fourMovesTable.table .o (1 : Nat) a' := by
  obtain ⟨s₁, a, _, hexec₁, h₁, ha, _, _⟩ := learners_run [5, 6, 9, 10] (by decide +kernel)
  obtain ⟨s, hexec, h⟩ := h₁.running (A := concreteAgents) (by decide +kernel)
  obtain ⟨a', hplays, _⟩ := plays_of_unlearnt stableSort bitWords hashBucket ha (fun _ => 1)
    (show who fourMovesTable.attr .o = .rl by decide +kernel)
    (show evalMove (fun _ => 1) fourMovesTable.table .o = (1 : Nat) by decide +kernel)
  exact ⟨s, a, a', (hexec₁.append hexec).reachable (.init ⟨_, rfl⟩), h, hplays⟩

/-- Five rounds, and the timer finds that O has won. -/
def wonEvents : List Event := .open :: (gameEvents firstGame .o [5, 6, 9, 10, 1] ++ [.timer])

/-- The first game is DONE, with its finish item queued. -/
theorem learners_finished :
    ∃ s a, ((driverSystem concreteAgents).restrict MaskFresh).Executes
        (driverInit concreteAgents fun _ => learnersRnd) wonEvents s ∧
      Playing s firstGame ⟨wonTable, .x, .done⟩ idleItems a ∧
      s.finishWorks firstGame = ⟨true, firstGame, cellO⟩ ∧ s.writes.length = 5 := by
  obtain ⟨s, a, boards, hexec, h, _, hwrote, hlen⟩ :=
    learners_run [5, 6, 9, 10, 1] (by decide +kernel)
  have hwon : Playing s firstGame ⟨wonTable, .x, .ready⟩ idleItems a := h
  obtain ⟨htimer, hdone, hfinish, hwrote'⟩ :=
    hwon.finished (A := concreteAgents) (by rw [wonTable_win]; decide)
  rw [wonTable_win] at hfinish
  refine ⟨_, a, hexec.append htimer, hdone, hfinish, ?_⟩
  rw [(hwrote.trans hwrote').writes, List.nil_append]
  simp [hlen, driverInit]

end Kxo
