import Kxo.Lib.TransitionSystem
import Kxo.Spec.Game

/-!
# Kxo — the load averages (`src/main.c`, `user/tui.c`)

The AI work items add the time a move took to their player's counter, and `loadavg_handler` turns
the counters of a period into averages. The macros of the kernel's load average are the documented
ones: `FIXED_1` is `1 << 11`, `EXP_1` is 1884, and `calc_load` rounds up a growing load.
-/

namespace Kxo

abbrev U16 := BitVec 16

/-! ## `linux/sched/loadavg.h` -/

def fShift : Nat := 11

def fixed1 : U64 := 1 <<< fShift

def exp1 : U64 := 1884

def calcLoad (load exp active : U64) : U64 :=
  let newload := load * exp + active * (fixed1 - exp)
  (if load ≤ active then newload + (fixed1 - 1) else newload) / fixed1

def loadInt (x : U64) : U64 := x >>> fShift

def loadFrac (x : U64) : U64 := loadInt ((x &&& (fixed1 - 1)) * 100)

/-! ## `main.c` -/

/-- `struct ai_avg`. -/
structure AiAvg where
  nsecsO : U64
  nsecsX : U64
  loadAvgO : U64
  loadAvgX : U64
  deriving DecidableEq

def AiAvg.nsecs (avg : AiAvg) : Player → U64
  | .o => avg.nsecsO
  | .x => avg.nsecsX

def AiAvg.loadAvg (avg : AiAvg) : Player → U64
  | .o => avg.loadAvgO
  | .x => avg.loadAvgX

/-- `struct xo_avg`. -/
structure XoAvg where
  avgX : U16
  avgO : U16
  deriving DecidableEq

def XoAvg.avg (avg : XoAvg) : Player → U16
  | .o => avg.avgO
  | .x => avg.avgX

/-- `ai_avgs`, `xo_avgs` and the handler's static `tv_end`. -/
structure LoadAvg where
  tvEnd : Nat
  aiAvgs : Fin nGames → AiAvg
  xoAvgs : Fin nGames → XoAvg

/-- All zero, as `kxo_init` leaves them. -/
def loadAvgInit : LoadAvg := ⟨0, fun _ => ⟨0, 0, 0, 0⟩, fun _ => ⟨0, 0⟩⟩

/-- `nsecs_o += nsecs`, or the same for X. -/
def AiAvg.addNsecs (avg : AiAvg) (nsecs : Nat) : Player → AiAvg
  | .o => { avg with nsecsO := avg.nsecsO + BitVec.ofNat 64 nsecs }
  | .x => { avg with nsecsX := avg.nsecsX + BitVec.ofNat 64 nsecs }

/-- The end of an AI work item that took `nsecs`. -/
def aiDone (i : Fin nGames) (p : Player) (nsecs : Nat) (s : LoadAvg) : LoadAvg :=
  { s with aiAvgs := Function.update s.aiAvgs i ((s.aiAvgs i).addNsecs nsecs p) }

/-- `div64_u64(nsecs * FIXED_1, delta)`. -/
def loadRatio (nsecs : U64) (delta : Nat) : U64 := nsecs * fixed1 / BitVec.ofNat 64 delta

/-- The block of one player in `loadavg_handler`: the new average. -/
def chargeLoad (delta : Nat) (nsecs loadAvg : U64) : U64 :=
  if nsecs ≠ 0 then calcLoad loadAvg exp1 (loadRatio nsecs delta) else loadAvg

/-- The two blocks for a game; each empties the counter it has charged. -/
def updateAvg (delta : Nat) (avg : AiAvg) : AiAvg where
  nsecsO := if avg.nsecsO ≠ 0 then 0 else avg.nsecsO
  nsecsX := if avg.nsecsX ≠ 0 then 0 else avg.nsecsX
  loadAvgO := chargeLoad delta avg.nsecsO avg.loadAvgO
  loadAvgX := chargeLoad delta avg.nsecsX avg.loadAvgX

/-- `(x_int << 7) + (x_frac & 0x7f)`, from `u16` variables and into one. -/
def packLoad (loadAvg : U64) : U16 :=
  let xInt := ((loadInt loadAvg).setWidth 16).setWidth 32
  let xFrac := ((loadFrac loadAvg).setWidth 16).setWidth 32
  ((xInt <<< 7) + (xFrac &&& 0x7f)).setWidth 16

def packAvg (avg : AiAvg) : XoAvg := ⟨packLoad avg.loadAvgX, packLoad avg.loadAvgO⟩

/-- `loadavg_handler`, called at the time `now`. -/
def loadavgHandler (now : Nat) (s : LoadAvg) : LoadAvg :=
  if s.tvEnd = 0 then { s with tvEnd := now }
  else
    let delta := now - s.tvEnd
    { tvEnd := now
      aiAvgs := fun i => updateAvg delta (s.aiAvgs i)
      xoAvgs := fun i => packAvg (updateAvg delta (s.aiAvgs i)) }

/-- What happens to the averages. -/
inductive LoadEvent where
  | aiDone (i : Fin nGames) (p : Player) (nsecs : Nat)
  | loadavgHandler (now : Nat)
  deriving DecidableEq

/-- Moves end at any time and may have taken any time. The clock has advanced from each callback to
the next, and since boot to the first one; `ktime_t` is signed. -/
def loadSystem : System LoadAvg LoadEvent where
  init s := s = loadAvgInit
  step s e s' :=
    match e with
    | .aiDone i p nsecs => s' = aiDone i p nsecs s
    | .loadavgHandler now => s.tvEnd < now ∧ now < 2 ^ 63 ∧ s' = loadavgHandler now s

/-! ## `render_loadavg` -/

/-- `(avg & 0x780) >> 7`. -/
def shownInt (avg : U16) : U16 := (avg &&& 0x780) >>> 7

/-- `avg & 0x7f`. -/
def shownFrac (avg : U16) : U16 := avg &&& 0x7f

end Kxo
