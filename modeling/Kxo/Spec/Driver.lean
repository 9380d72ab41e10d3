import Kxo.Game.Board
import Kxo.Spec.Device
import Kxo.Spec.Rl
import Mathlib.Logic.Relation

/-!
# Kxo — the driver (`src/main.c`)

Nine games, each with its board words, the READY/BUSY/DONE word and its work items; the timer, the
tasklet and the workqueue that move them; the control flags of `kxo_state`; and the clients that
open and release the device.

A handler is one step, except the AI items, which copy the board at their start and write it back
when the agent returns. A work item is pending from `queue_work` until it starts; queueing a pending
item does nothing, and an item does not start again while it runs. The agents are a parameter. The
load average and the log messages are left out: no other part reads them.
-/

namespace Kxo

/-! ## The agents -/

/-- `agents[]`: what the agents keep between calls, the calls of `play` and `update_state_value`.
`Plays who s table player move s'` says that `play` may return `move` and leave `s'`. -/
structure Agents (σ : Type) where
  init : σ
  Plays : XoAi → σ → U32 → Player → Int → σ → Prop
  updateStateValue : σ → (Nat → U32) → (Nat → Int) → Nat → Player → σ
  legal : ∀ {who s table player move s'}, Plays who s table player move s' → LegalMove table move

/-! ## State -/

inductive AiGameState where
  | busy
  | ready
  | done
  deriving DecidableEq, Repr

/-- `struct ai_game` without its lock and work items. `turn` is `'O'` or `'X'`. -/
structure AiGame where
  xoTlb : XoTable
  turn : Player
  state : AiGameState
  deriving DecidableEq, Repr

/-- An AI work item. `running` is the copy of `xo_tlb` a running item took at its start; of its
`moves` the code takes no copy, and nothing reads it. -/
structure AiWork where
  pending : Bool
  running : Option XoTable
  deriving DecidableEq, Repr

/-- An item neither pending nor running. -/
def AiWork.idle : AiWork := ⟨false, none⟩

/-- `struct finish_work`, and whether the item is pending. -/
structure FinishWork where
  pending : Bool
  gameIdx : Fin nGames
  win : U32
  deriving DecidableEq, Repr

/-- The globals of `main.c`. `aiWork i .o` is the `ai_one_work` of game `i`, `aiWork i .x` its
`ai_two_work`; `gameTaskletData` are the bits of the tasklet's argument. The last three fields are
history variables, read by no step: the boards AI items wrote onto, most recent first; whether a
finish item of the game ran with `end` raised since the last full release; whether the timer
callback did since the device was last opened by a first client. -/
structure Driver (σ : Type) where
  games : Fin nGames → AiGame
  aiWork : Fin nGames → Player → AiWork
  drawboardWork : Fin nGames → Bool
  finishWorks : Fin nGames → FinishWork
  episodeMoves : Nat → Nat → U32
  reward : Nat → Nat → Int
  display : Char
  resume : Char
  endFlag : Char
  kxoStopWork : Bool
  timer : Bool
  gameTasklet : Bool
  gameTaskletData : Fin nGames → Bool
  openCnt : Nat
  device : Device
  agents : σ
  writes : List U32
  finishSkipped : Fin nGames → Bool
  timerLost : Bool

section Handlers

variable {σ : Type}

def setGame (s : Driver σ) (i : Fin nGames) (g : AiGame) : Driver σ :=
  { s with games := Function.update s.games i g }

def setAiWork (s : Driver σ) (i : Fin nGames) (p : Player) (w : AiWork) : Driver σ :=
  { s with aiWork := Function.update s.aiWork i (Function.update (s.aiWork i) p w) }

def kxoShuttingDown (s : Driver σ) : Bool := s.kxoStopWork || s.endFlag ≠ '0'

/-! ## The AI work items -/

/-- `XO_ATTR_AI_ALG(attr) % XO_AI_TOT` for O, `(XO_ATTR_AI_ALG(attr) >> 2) % XO_AI_TOT` for X. -/
def who (attr : U32) : Player → XoAi
  | .o => xoAi ((xoAttrAiAlg attr).toNat % xoAiTot)
  | .x => xoAi ((xoAttrAiAlg attr >>> 2).toNat % xoAiTot)

/-- The beginning of an AI item: the copy of `attr` and `table`, and the bail-out. -/
def aiWorkStart (p : Player) (i : Fin nGames) (s : Driver σ) : Driver σ :=
  if kxoShuttingDown s then
    setGame (setAiWork s i p .idle) i { s.games i with state := .ready }
  else setAiWork s i p ⟨false, some (s.games i).xoTlb⟩

/-- The reward of a move of a learning agent. -/
def moveReward (table : U32) (p : Player) : Int :=
  toS32 (fixedMulS32 (rlFixedOne - rewardTradeoff) (getScore table p) +
    calculateWinValue (checkWin table) p)

/-- `episode_moves[id][steps]` and `reward[id][steps]` of a learning agent's move. -/
def recordEpisode (id steps : Nat) (table : U32) (p : Player) (s : Driver σ) : Driver σ :=
  { s with
    episodeMoves := Function.update s.episodeMoves id
      (Function.update (s.episodeMoves id) steps table)
    reward := Function.update s.reward id
      (Function.update (s.reward id) steps (moveReward table p)) }

/-- The words an AI item writes for a move, from its copy and the current `moves`. -/
def playedTable (p : Player) (copy : XoTable) (moves : U64) (move : Nat) : XoTable where
  attr := xoSetAttrSteps copy.attr (BitVec.ofNat 32 ((xoAttrSteps copy.attr).toNat + 1))
  table := valSetCell copy.table move p.cell
  moves := setRecordCell moves (BitVec.ofNat 64 move) (xoAttrSteps copy.attr).toNat

/-- The end of an AI item: what it does with the agent's answer `move`. -/
def aiWorkCommit (p : Player) (i : Fin nGames) (copy : XoTable) (move : Int) (agents : σ)
    (s : Driver σ) : Driver σ :=
  let s := { setAiWork s i p .idle with agents }
  let g := s.games i
  if move ≠ -1 then
    let xoTlb := playedTable p copy g.xoTlb.moves move.toNat
    let s := if who copy.attr p = .rl then
        recordEpisode (xoAttrId copy.attr).toNat (xoAttrSteps copy.attr).toNat xoTlb.table p s
      else s
    setGame { s with writes := g.xoTlb.table :: s.writes } i ⟨xoTlb, p.opp, .ready⟩
  else setGame s i { g with state := .ready }

/-- `ai_one_work_func` up to the agent's call. -/
def aiOneWorkStart (i : Fin nGames) (s : Driver σ) : Driver σ := aiWorkStart .o i s

/-- `ai_one_work_func` from the agent's answer on. -/
def aiOneWorkCommit (i : Fin nGames) (copy : XoTable) (move : Int) (agents : σ)
    (s : Driver σ) : Driver σ :=
  aiWorkCommit .o i copy move agents s

/-- `ai_two_work_func` up to the agent's call. -/
def aiTwoWorkStart (i : Fin nGames) (s : Driver σ) : Driver σ := aiWorkStart .x i s

/-- `ai_two_work_func` from the agent's answer on. -/
def aiTwoWorkCommit (i : Fin nGames) (copy : XoTable) (move : Int) (agents : σ)
    (s : Driver σ) : Driver σ :=
  aiWorkCommit .x i copy move agents s

/-! ## The other work items -/

def drawboardWorkFunc (i : Fin nGames) (s : Driver σ) : Driver σ :=
  let s := { s with drawboardWork := Function.update s.drawboardWork i false }
  if s.display = '0' then s
  else if (s.games i).state = .busy then s
  else { s with device := produceBoard s.device (s.games i).xoTlb }

def clearEpisode (id : Nat) (s : Driver σ) : Driver σ :=
  { s with
    episodeMoves := Function.update s.episodeMoves id fun _ => 0
    reward := Function.update s.reward id fun _ => 0 }

/-- The attribute word of a new game: its id, and two agents drawn from a random number. -/
def newAttr (i : Fin nGames) (rnd : U32) : U32 :=
  xoSetAttrAiAlg (BitVec.ofNat 32 i) (rnd % 3) ((rnd >>> 16) % 3)

/-- The player whose learning agent is credited with the game: the winner, when RL played. -/
def learner (attr win : U32) : Option Player :=
  if win = cellO ∧ who attr .o = .rl then some .o
  else if win = cellX ∧ who attr .x = .rl then some .x
  else none

/-- The branch of `finish_game_work_func` that starts the next game. -/
def restartGame (A : Agents σ) (j : Fin nGames) (win rnd : U32) (s : Driver σ) : Driver σ :=
  let attr := (s.games j).xoTlb.attr
  let s := setGame s j ⟨⟨newAttr j rnd, 0, 0⟩, .o, .ready⟩
  let s := match learner attr win with
    | some p =>
        { s with
          agents := A.updateStateValue s.agents (s.episodeMoves j) (s.reward j)
            (xoAttrSteps attr).toNat p }
    | none => s
  clearEpisode j s

/-- `finish_game_work_func` for the item of game `i`; `rnd` is its random number. -/
def finishGameWorkFunc (A : Agents σ) (i : Fin nGames) (rnd : U32) (s : Driver σ) : Driver σ :=
  let fw := s.finishWorks i
  let s := { s with finishWorks := Function.update s.finishWorks i { fw with pending := false } }
  let s := if s.display = '1' then
      { s with device := produceBoard s.device (s.games fw.gameIdx).xoTlb }
    else s
  if s.endFlag = '0' then restartGame A fw.gameIdx fw.win rnd s
  else { s with finishSkipped := Function.update s.finishSkipped fw.gameIdx true }

/-! ## The tasklet and the timer -/

def gameTaskletFunc (s : Driver σ) : Driver σ :=
  let ready := fun i => s.gameTaskletData i ∧ (s.games i).state = .ready
  { s with
    gameTasklet := false
    games := fun i => if ready i then { s.games i with state := .busy } else s.games i
    aiWork := fun i p =>
      if ready i ∧ (s.games i).turn = p then { s.aiWork i p with pending := true }
      else s.aiWork i p
    drawboardWork := fun i => s.gameTaskletData i || s.drawboardWork i }

/-- The bit of `unfini` that `timer_handler` computes for a game. -/
def unfiniBit (g : AiGame) : Bool :=
  match g.state with
  | .busy => true
  | .done => false
  | .ready => checkWin g.xoTlb.table = cellEmpty

/-- `timer_handler` finds the game finished and defers to its finish item. -/
def timerFinishes (g : AiGame) : Bool := g.state = .ready ∧ checkWin g.xoTlb.table ≠ cellEmpty

def timerGames (s : Driver σ) : Driver σ :=
  { s with
    games := fun i =>
      if timerFinishes (s.games i) then { s.games i with state := .done } else s.games i
    finishWorks := fun i =>
      if timerFinishes (s.games i) then ⟨true, i, checkWin (s.games i).xoTlb.table⟩
      else s.finishWorks i }

/-- `timer_handler`. The timer is no longer armed when its callback runs. -/
def timerHandler (s : Driver σ) : Driver σ :=
  let unfini := fun i => unfiniBit (s.games i)
  let s := { timerGames s with timer := false, timerLost := s.timerLost || kxoShuttingDown s }
  if (∃ i, unfini i) ∧ ¬ kxoShuttingDown s then
    { s with gameTaskletData := unfini, gameTasklet := true, timer := true }
  else if ¬ kxoShuttingDown s ∧ ∃ i, ¬ unfini i then { s with timer := true }
  else s

/-! ## Clients -/

def kxoStateStore (d r e : Char) (s : Driver σ) : Driver σ :=
  { s with display := d, resume := r, endFlag := e }

def kxoOpen (s : Driver σ) : Driver σ :=
  let s := { s with openCnt := s.openCnt + 1 }
  if s.openCnt = 1 then { s with timer := true, timerLost := false } else s

/-- The end of `kxo_release`, for every client. -/
def releaseFlags (s : Driver σ) : Driver σ := { s with endFlag := '0', display := '1' }

/-- The last client's release before the flush: raise the stop flag, delete the timers, and let a
scheduled tasklet run, which `tasklet_kill` waits for. -/
def releaseStop (s : Driver σ) : Driver σ :=
  let s := { s with openCnt := 0, kxoStopWork := true, timer := false }
  if s.gameTasklet then gameTaskletFunc s else s

/-- The last client's release after the flush. -/
def releaseDone (s : Driver σ) : Driver σ :=
  { s with
    games := fun i =>
      if (s.games i).state = .done then { s.games i with state := .ready } else s.games i
    finishSkipped := fun _ => false
    kxoStopWork := false }

end Handlers

/-! ## Steps -/

/-- A work item's step. -/
inductive WorkEvent where
  | aiStart (p : Player) (i : Fin nGames)
  | aiCommit (p : Player) (i : Fin nGames) (move : Int)
  | drawboard (i : Fin nGames)
  | finish (i : Fin nGames) (rnd : U32)

/-- A step of the driver. -/
inductive Event where
  | timer
  | tasklet
  | work (w : WorkEvent)
  | store (d r e : Char)
  | «open»
  | release
  | read (count : Nat)

section Steps

variable {σ : Type}

/-- The steps of the workqueue. An agent not called, or told to stop, answers `-1`: the flags that
`play_agent_move` reads may have been raised and cleared again since the item started. -/
def workStep (A : Agents σ) (s : Driver σ) : WorkEvent → Driver σ → Prop
  | .aiStart p i, s' =>
      (s.aiWork i p).pending = true ∧ (s.aiWork i p).running = none ∧
        s' = match p with
          | .o => aiOneWorkStart i s
          | .x => aiTwoWorkStart i s
  | .aiCommit p i move, s' =>
      ∃ copy agents, (s.aiWork i p).running = some copy ∧
        (move = -1 ∧ agents = s.agents ∨
          A.Plays (who copy.attr p) s.agents copy.table p move agents) ∧
        s' = match p with
          | .o => aiOneWorkCommit i copy move agents s
          | .x => aiTwoWorkCommit i copy move agents s
  | .drawboard i, s' => s.drawboardWork i = true ∧ s' = drawboardWorkFunc i s
  | .finish i rnd, s' => (s.finishWorks i).pending = true ∧ s' = finishGameWorkFunc A i rnd s

/-- No work item is pending or running. -/
def WorkqueueEmpty (s : Driver σ) : Prop :=
  ∀ i, s.drawboardWork i = false ∧ (s.finishWorks i).pending = false ∧ ∀ p, s.aiWork i p = .idle

/-- `flush_workqueue`: the items run, in any order, until none is left. -/
def Flush (A : Agents σ) (s s' : Driver σ) : Prop :=
  Relation.ReflTransGen (fun s s' => ∃ w, workStep A s w s') s s' ∧ WorkqueueEmpty s'

/-- `kxo_release`. -/
def releaseStep (A : Agents σ) (s s' : Driver σ) : Prop :=
  if s.openCnt = 1 then ∃ t, Flush A (releaseStop s) t ∧ s' = releaseFlags (releaseDone t)
  else 1 < s.openCnt ∧ s' = releaseFlags { s with openCnt := s.openCnt - 1 }

/-- Game `0`: what `game_idx` holds before the first finish. -/
def firstGame : Fin nGames := ⟨0, by decide⟩

/-- `kxo_init`, for any random numbers. -/
def driverInit (A : Agents σ) (rnd : Fin nGames → U32) : Driver σ where
  games i := ⟨⟨newAttr i (rnd i), 0, 0⟩, .o, .ready⟩
  aiWork _ _ := .idle
  drawboardWork _ := false
  finishWorks _ := ⟨false, firstGame, 0⟩
  episodeMoves _ _ := 0
  reward _ _ := 0
  display := '1'
  resume := '1'
  endFlag := '0'
  kxoStopWork := false
  timer := false
  gameTasklet := false
  gameTaskletData _ := false
  openCnt := 0
  device := deviceInit
  agents := A.init
  writes := []
  finishSkipped _ := false
  timerLost := false

/-- The driver from `kxo_init` on. -/
def driverSystem (A : Agents σ) : System (Driver σ) Event where
  init s := ∃ rnd, s = driverInit A rnd
  step s e s' :=
    match e with
    | .timer => s.timer = true ∧ s' = timerHandler s
    | .tasklet => s.gameTasklet = true ∧ s' = gameTaskletFunc s
    | .work w => workStep A s w s'
    | .store d r e => s' = kxoStateStore d r e s
    | .open => s' = kxoOpen s
    | .release => releaseStep A s s'
    | .read count => 0 < count ∧ s' = { s with device := kxoRead s.device count }

end Steps

end Kxo
