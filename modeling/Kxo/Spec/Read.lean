import Kxo.Spec.Device

/-!
# Kxo — a reader at the device (`src/main.c`)

`kxo_read` statement by statement, while boards go on being produced. `read_lock` lets in one reader
at a time, so only its own copies take bytes out of the ring. `kfifo_to_user` does not fault;
`wait_event_interruptible` returns at once when there are bytes, and otherwise waits for them or for
a signal.
-/

namespace Kxo

def eAgain : Int := 11

def eFault : Int := 14

def eRestartSys : Int := 512

/-- Where a call of `kxo_read` is: at `access_ok`, at the lock, at one of the three statements of
its loop, or back with a result. -/
inductive ReadPc where
  | entry
  | lock
  | copy
  | test
  | wait
  | returned (ret : Int)
  deriving DecidableEq, Repr

/-- The arguments of `kxo_read` it goes by: the requested count and whether `O_NONBLOCK` is set. -/
structure ReadArgs where
  count : Nat
  nonblock : Bool

/-- The ring and a call of `kxo_read`, with what the call has copied last. The last two fields are
history variables: the bytes there were at the last copy, and the number of copies, which is that of
the iterations begun. -/
structure Reader where
  rxFifo : List Byte
  pc : ReadPc
  buf : List Byte
  read : Nat
  found : Nat
  copies : Nat
  deriving DecidableEq

/-- A board is produced, or the call goes on. `ok` is the outcome of `access_ok` and of the lock,
and whether a wait is not interrupted. -/
inductive ReadEvent where
  | produceBoard (xoTlb : XoTable)
  | reader (ok : Bool)

def ReadEvent.isReader : ReadEvent → Bool
  | .reader _ => true
  | .produceBoard _ => false

/-- `ret ? ret : read`, whose type is `unsigned int`. -/
def readResult (ret : Int) (read : Nat) : Int := if ret ≠ 0 then ret % 2 ^ 32 else read

/-- The next statement of `kxo_read`. -/
def readNext (args : ReadArgs) (ok : Bool) (s : Reader) : Option Reader :=
  match s.pc with
  | .entry => some { s with pc := if ok then .lock else .returned (-eFault) }
  | .lock => some { s with pc := if ok then .copy else .returned (-eRestartSys) }
  | .copy =>
      -- `kfifo_to_user`
      some { s with
        rxFifo := s.rxFifo.drop args.count
        buf := s.rxFifo.take args.count
        read := (s.rxFifo.take args.count).length
        found := s.rxFifo.length
        copies := s.copies + 1
        pc := .test }
  | .test =>
      if s.read ≠ 0 then some { s with pc := .returned (readResult 0 s.read) }
      else if args.nonblock then some { s with pc := .returned (readResult (-eAgain) s.read) }
      else some { s with pc := .wait }
  | .wait =>
      if s.rxFifo ≠ [] then some { s with pc := .copy }
      else if ok then none
      else some { s with pc := .returned (readResult (-eRestartSys) s.read) }
  | .returned _ => none

def readStep (args : ReadArgs) (s : Reader) : ReadEvent → Option Reader
  | .produceBoard xoTlb => some { s with rxFifo := kfifoIn s.rxFifo (recordBytes xoTlb) }
  | .reader ok => readNext args ok s

/-- A call that begins, with anything in the ring. -/
def readSystem (args : ReadArgs) : System Reader ReadEvent where
  init s := s.pc = .entry
  step s e s' := readStep args s e = some s'

end Kxo
