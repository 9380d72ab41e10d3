import Kxo.Lib.ReadModifyWrite
import Kxo.Spec.Driver

/-!
# Kxo — key presses (`user/xo-user.c`)

`listen_keyboard_handler` for Ctrl-P and Ctrl-Q: a read of the whole `kxo_state` record through
sysfs, an edit of one of its fields, and a write of the record. `kxo_state_show` and
`kxo_state_store` of `main.c` each hold the lock of the record, so a read and a write are a step
each, and those of several clients interleave. The flags the client keeps for itself and the other
two keys, which leave the record alone, are left out.
-/

namespace Kxo

/-! ## The record -/

/-- `attr_obj` without its lock. -/
structure KxoAttr where
  display : Char
  resume : Char
  endFlag : Char
  deriving DecidableEq, Repr

def Driver.attrObj {σ : Type} (s : Driver σ) : KxoAttr := ⟨s.display, s.resume, s.endFlag⟩

/-- `isspace` of the kernel. -/
def isspace (c : Char) : Bool := (9 ≤ c.toNat ∧ c.toNat ≤ 13) ∨ c.toNat = 32 ∨ c.toNat = 160

/-- `%c`: the next character, unless the string ends. -/
def scanChar : List Char → Option (Char × List Char)
  | [] => none
  | c :: buf => if c.toNat = 0 then none else some (c, buf)

/-- `sscanf(buf, "%c %c %c", &d, &r, &e)`, where it returns 3. -/
def scanRecord (buf : List Char) : Option (Char × Char × Char) := do
  let (d, buf) ← scanChar buf
  let (r, buf) ← scanChar (buf.dropWhile isspace)
  let (e, _) ← scanChar (buf.dropWhile isspace)
  return (d, r, e)

namespace KxoAttr

/-- `kxo_state_show`: the six characters of `"%c %c %c\n"`. -/
def kxoStateShow (a : KxoAttr) : List Char := [a.display, ' ', a.resume, ' ', a.endFlag, '\n']

/-- `kxo_state_store`; a record that is not understood is refused. -/
def kxoStateStore (buf : List Char) (a : KxoAttr) : KxoAttr :=
  match scanRecord buf with
  | none => a
  | some (d, r, e) => ⟨d, r, e⟩

end KxoAttr

/-- The same on the globals of `main.c`. -/
def kxoStateWrite {σ : Type} (buf : List Char) (s : Driver σ) : Driver σ :=
  match scanRecord buf with
  | none => s
  | some (d, r, e) => kxoStateStore d r e s

/-! ## The handler -/

inductive Key where
  | ctrlP
  | ctrlQ
  deriving DecidableEq, Repr

/-- What the handler does to the characters it has read. -/
def Key.edit : Key → List Char → List Char
  | .ctrlP, buf => buf.modify 0 fun c => Char.ofNat (c.toNat ^^^ '0'.toNat ^^^ '1'.toNat)
  | .ctrlQ, buf => buf.set 4 '1'

/-- The record, and the buffer of every call of the handler. -/
structure Keyboard where
  attr : KxoAttr
  buf : Nat → List Char

/-- A step of the call numbered `i`, which handles `keys i`. -/
def listenKeyboardStep (keys : Nat → Key) (s : Keyboard) : Rmw.Step Nat → Keyboard
  | .read i => { s with buf := Function.update s.buf i s.attr.kxoStateShow }
  | .write i => { s with attr := s.attr.kxoStateStore ((keys i).edit (s.buf i)) }

def listenKeyboard (keys : Nat → Key) (s : Keyboard) (steps : List (Rmw.Step Nat)) : Keyboard :=
  steps.foldl (listenKeyboardStep keys) s

/-- A schedule of `n` calls: each reads and then writes. -/
def Interleaving (n : Nat) (steps : List (Rmw.Step Nat)) : Prop :=
  ∀ i, steps.filter (fun st => st.id = i) = if i < n then [.read i, .write i] else []

/-- One call of the handler with no other in between. -/
def pressKey (key : Key) (a : KxoAttr) : KxoAttr := a.kxoStateStore (key.edit a.kxoStateShow)

/-- Calls one after another. -/
def pressInOrder (keys : Nat → Key) (order : List Nat) (a : KxoAttr) : KxoAttr :=
  order.foldl (fun a i => pressKey (keys i) a) a

end Kxo
