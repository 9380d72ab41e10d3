import Kxo.Lib.TransitionSystem
import Mathlib.Data.Finset.Card

/-!
# Kxo — module initialisation (`src/main.c`)

`kxo_init` from `cdev_add` to its return, call by call, its error path included, with the opens and
releases of clients in between: the device can be opened as soon as `cdev_add` has returned. Of
`kxo_open` the increment and the two `mod_timer` calls are steps of their own; of `kxo_release` only
the decrement matters here. `Spec.Driver` starts where this ends.
-/

namespace Kxo

def enomem : Int := 12

/-- The next call of `kxo_init`, or the error label it has jumped to; `returned` says whether the
end was reached. -/
inductive InitPc where
  | cdevAdd
  | classCreate
  | deviceCreate
  | deviceCreateFile
  | vmallocFastBuf
  | allocWorkqueue
  | initAgents
  | initGames
  | initAttr
  | setupTimer
  | setupLoadavgTimer
  | setOpenCnt
  | errorWorkqueue
  | errorVmalloc
  | errorDevice
  | errorCdev
  | errorRegion
  | errorAlloc
  | returned (ok : Bool)
  deriving DecidableEq, Repr

/-- How far the `kxo_open` of a file is. -/
inductive FileState where
  | closed
  | armTimer
  | armLoadavgTimer
  | opened
  deriving DecidableEq, Repr

/-- What `kxo_init` shares with the clients. `cdev` says whether an open finds the device. The last
two fields are history variables: the files that are open, from the increment of the open count to
its decrement, and whether some `mod_timer` ran on a timer that was not set up. -/
structure KxoInit where
  pc : InitPc
  ret : Int
  cdev : Bool
  timerSetup : Bool
  loadavgTimerSetup : Bool
  openCnt : Int
  file : Nat → FileState
  files : Finset Nat
  armedEarly : Bool

/-- The next call of `kxo_init`; `res` is what it returns, a negative number where it fails. -/
def kxoInitStep (res : Int) (s : KxoInit) : Option KxoInit :=
  match s.pc with
  | .cdevAdd =>
      some (if res ≠ 0 then { s with ret := res, pc := .errorRegion }
        else { s with ret := res, cdev := true, pc := .classCreate })
  | .classCreate =>
      some (if res < 0 then { s with ret := res, pc := .errorCdev }
        else { s with pc := .deviceCreate })
  | .deviceCreate => some { s with pc := .deviceCreateFile }
  | .deviceCreateFile =>
      some (if res < 0 then { s with ret := res, pc := .errorDevice }
        else { s with ret := res, pc := .vmallocFastBuf })
  | .vmallocFastBuf =>
      some (if res < 0 then { s with ret := -enomem, pc := .errorVmalloc }
        else { s with pc := .allocWorkqueue })
  | .allocWorkqueue =>
      some (if res < 0 then { s with ret := -enomem, pc := .errorWorkqueue }
        else { s with pc := .initAgents })
  | .initAgents => some { s with pc := .initGames }
  | .initGames => some { s with pc := .initAttr }
  | .initAttr => some { s with pc := .setupTimer }
  | .setupTimer => some { s with timerSetup := true, pc := .setupLoadavgTimer }
  | .setupLoadavgTimer => some { s with loadavgTimerSetup := true, pc := .setOpenCnt }
  | .setOpenCnt => some { s with openCnt := 0, pc := .returned true }
  | .errorWorkqueue => some { s with pc := .errorVmalloc }
  | .errorVmalloc => some { s with pc := .errorDevice }
  | .errorDevice => some { s with pc := .errorCdev }
  | .errorCdev => some { s with cdev := false, pc := .errorRegion }
  | .errorRegion => some { s with pc := .errorAlloc }
  | .errorAlloc => some { s with pc := .returned false }
  | .returned _ => none

def setFile (s : KxoInit) (f : Nat) (state : FileState) : KxoInit :=
  { s with file := Function.update s.file f state }

/-- `kxo_open` of the file `f` up to the test of `atomic_inc_return`. -/
def openFile (f : Nat) (s : KxoInit) : Option KxoInit :=
  if s.cdev = true ∧ s.file f = .closed then
    let s := { s with openCnt := s.openCnt + 1, files := insert f s.files }
    some (setFile s f (if s.openCnt = 1 then .armTimer else .opened))
  else none

/-- The next `mod_timer` of the `kxo_open` of `f`. -/
def armFile (f : Nat) (s : KxoInit) : Option KxoInit :=
  match s.file f with
  | .armTimer =>
      some (setFile { s with armedEarly := s.armedEarly || !s.timerSetup } f .armLoadavgTimer)
  | .armLoadavgTimer =>
      some (setFile { s with armedEarly := s.armedEarly || !s.loadavgTimerSetup } f .opened)
  | _ => none

/-- `kxo_release` of `f`. -/
def releaseFile (f : Nat) (s : KxoInit) : Option KxoInit :=
  if s.file f = .opened then
    some (setFile { s with openCnt := s.openCnt - 1, files := s.files.erase f } f .closed)
  else none

/-! ## Steps -/

inductive InitEvent where
  | init (res : Int)
  | «open» (f : Nat)
  | arm (f : Nat)
  | release (f : Nat)

def initEventStep (s : KxoInit) : InitEvent → Option KxoInit
  | .init res => kxoInitStep res s
  | .open f => openFile f s
  | .arm f => armFile f s
  | .release f => releaseFile f s

/-- Before `cdev_add`; `open_cnt` is a global without an initializer. -/
def kxoInitStart : KxoInit where
  pc := .cdevAdd
  ret := 0
  cdev := false
  timerSetup := false
  loadavgTimerSetup := false
  openCnt := 0
  file _ := .closed
  files := ∅
  armedEarly := false

def initSystem : System KxoInit InitEvent where
  init s := s = kxoInitStart
  step s e s' := initEventStep s e = some s'

end Kxo
