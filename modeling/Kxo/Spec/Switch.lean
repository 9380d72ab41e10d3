import Kxo.Lib.ContextSwitch
import Kxo.Spec.Game

/-!
# Kxo — the context switch (`user/coro.c`)

The assembly of `co_switch` and `co_entry_trampoline` for both processors, with as much of a
processor as it uses: the registers it names, the memory, and where execution goes on after its last
instruction. Every access is of an aligned word; memory is kept as its words, by their addresses.

* A processor is a record of registers and memory; `exec` is one instruction, `run` a list of them,
  and `coSwitchCode` and `coEntryTrampoline` are the two pieces of assembly.
* `CoView` is what a context can tell of the processor. Of the registers it has the general-purpose
  ones that a call preserves; the link register of AArch64 is in it only as where the context goes
  on. The floating-point registers that a call preserves there, `d8` to `d15`, are not saved by the
  code and are in no view.
* `Frame` is what a suspended context has left on its stack; `coStackInit` lays the first one down.
* `X86.switcher` and `A64.switcher` make the two a `Switcher`; `Kxo.Coro.Switch` shows that both are
  correct.
-/

namespace Kxo

/-- Memory, and where a word of it is overwritten. -/
abbrev Memory := U64 → U64

/-- The words from an address upwards. -/
def wordsAt (mem : Memory) (a : U64) (n : Nat) : List U64 :=
  (List.range n).map fun k => mem (a + BitVec.ofNat 64 (8 * k))

/-- Where the stacks and the `struct co_ctx` of the contexts are. -/
structure Contexts (κ : Type) where
  stack : κ → Set U64
  ctx : κ → U64

/-- No two contexts share memory, and no `struct co_ctx` is on a stack. -/
structure Contexts.Separate {κ : Type} (L : Contexts κ) : Prop where
  stack_disjoint : ∀ c d, c ≠ d → ∀ a ∈ L.stack c, a ∉ L.stack d
  ctx_inj : ∀ c d, L.ctx c = L.ctx d → c = d
  ctx_stack : ∀ c d, L.ctx c ∉ L.stack d

/-- What a context owns: its stack and its `struct co_ctx`. -/
def Contexts.owned {κ : Type} (L : Contexts κ) (c : κ) : Set U64 := insert (L.ctx c) (L.stack c)

/-- What a context can tell of the processor: the general-purpose registers a call preserves, its
stack pointer, where it goes on, and the words of its stack from the stack pointer up. -/
structure CoView where
  saved : List U64
  sp : U64
  pc : U64
  kept : Set (U64 × U64)

/-- The words in use of a stack. -/
def keptWords (stack : Set U64) (mem : Memory) (sp : U64) : Set (U64 × U64) :=
  {w | w.1 ∈ stack ∧ sp.toNat ≤ w.1.toNat ∧ mem w.1 = w.2}

/-- A suspended context: from the saved stack pointer up its frame, the words of `v` in the order of
the processor, and above them the words of its stack. -/
structure Frame {κ : Type} (L : Contexts κ) (n : Nat) (frameWords : CoView → List U64) (c : κ)
    (v : CoView) (mem : Memory) : Prop where
  saved : frameWords v = wordsAt mem (mem (L.ctx c)) n
  sp : v.sp = mem (L.ctx c) + BitVec.ofNat 64 (8 * n)
  onStack : ∀ k < n, mem (L.ctx c) + BitVec.ofNat 64 (8 * k) ∈ L.stack c
  kept : v.kept = keptWords (L.stack c) mem v.sp

/-! ## x86-64 -/

inductive X86Reg where
  | rsp
  | rbp
  | rbx
  | r12
  | r13
  | r14
  | r15
  | rcx
  | rdi
  | rsi
  deriving DecidableEq, Repr

structure X86 where
  reg : X86Reg → U64
  mem : Memory
  pc : U64

/-- The instructions used. `call` pushes the address behind it. -/
inductive X86Instr where
  | push (r : X86Reg)
  | pop (r : X86Reg)
  | store (src base : X86Reg)
  | load (base dst : X86Reg)
  | jmp (r : X86Reg)
  | call (next : U64) (r : X86Reg)

namespace X86

def setReg (m : X86) (r : X86Reg) (w : U64) : X86 := { m with reg := Function.update m.reg r w }

def setMem (m : X86) (a w : U64) : X86 := { m with mem := Function.update m.mem a w }

def push (m : X86) (w : U64) : X86 :=
  (m.setMem (m.reg .rsp - 8) w).setReg .rsp (m.reg .rsp - 8)

def exec (m : X86) : X86Instr → X86
  | .push r => m.push (m.reg r)
  | .pop r => (m.setReg r (m.mem (m.reg .rsp))).setReg .rsp (m.reg .rsp + 8)
  | .store src base => m.setMem (m.reg base) (m.reg src)
  | .load base dst => m.setReg dst (m.mem (m.reg base))
  | .jmp r => { m with pc := m.reg r }
  | .call next r => { m.push next with pc := m.reg r }

def run (m : X86) (code : List X86Instr) : X86 := code.foldl exec m

/-- The general-purpose registers a call preserves, in the order they are pushed. -/
def calleeSaved : List X86Reg := [.rbp, .rbx, .r12, .r13, .r14, .r15]

def coSwitchCode : List X86Instr :=
  [.push .rbp, .push .rbx, .push .r12, .push .r13, .push .r14, .push .r15,
    .store .rsp .rdi, .load .rsi .rsp,
    .pop .r15, .pop .r14, .pop .r13, .pop .r12, .pop .rbx, .pop .rbp, .pop .rcx, .jmp .rcx]

/-- `co_entry_trampoline`; `next` is the address behind its `call`. -/
def coEntryTrampoline (next : U64) : List X86Instr := [.pop .rdi, .pop .rcx, .call next .rcx]

def numSaved : Nat := 6

@[irreducible]
def coSwitch (m : X86) : X86 := m.run coSwitchCode

variable {κ : Type} (L : Contexts κ)

def view (c : κ) (m : X86) : CoView :=
  ⟨calleeSaved.map m.reg, m.reg .rsp, m.pc, keptWords (L.stack c) m.mem (m.reg .rsp)⟩

/-- What the caller of `co_switch` sees once it returns: the return address is on top of the
stack. -/
def returned (c : κ) (m : X86) : CoView :=
  ⟨calleeSaved.map m.reg, m.reg .rsp + 8, m.mem (m.reg .rsp),
    keptWords (L.stack c) m.mem (m.reg .rsp + 8)⟩

/-- The arguments of the call, and room on the stack for what is pushed. -/
structure Ready (c d : κ) (m : X86) : Prop where
  argFrom : m.reg .rdi = L.ctx c
  argTo : m.reg .rsi = L.ctx d
  room : ∀ k ≤ numSaved, m.reg .rsp - BitVec.ofNat 64 (8 * k) ∈ L.stack c
  low : 8 * numSaved ≤ (m.reg .rsp).toNat
  high : (m.reg .rsp).toNat + 8 < 2 ^ 64

/-- The frame: what was pushed, and above it the return address. -/
def frameWords (v : CoView) : List U64 := v.saved.reverse ++ [v.pc]

def switcher : Switcher κ X86 U64 U64 CoView where
  mem := X86.mem
  owned := L.owned
  view := view L
  returned := returned L
  Ready := Ready L
  coSwitch _ _ := coSwitch
  Frame := Frame L (numSaved + 1) frameWords

end X86

/-! ## AArch64 -/

inductive A64Reg where
  | sp
  | x0
  | x1
  | x8
  | x9
  | x19
  | x20
  | x21
  | x22
  | x23
  | x24
  | x25
  | x26
  | x27
  | x28
  | x29
  | lr
  deriving DecidableEq, Repr

structure A64 where
  reg : A64Reg → U64
  mem : Memory
  pc : U64

/-- The instructions used; `stp` and `ldp` are post-indexed by 16. -/
inductive A64Instr where
  | subImm (dst src : A64Reg) (imm : U64)
  | mov (dst src : A64Reg)
  | stp (a b base : A64Reg)
  | ldp (a b base : A64Reg)
  | str (src base : A64Reg)
  | ldr (dst base : A64Reg)
  | br (r : A64Reg)
  | blr (next : U64) (r : A64Reg)

namespace A64

def setReg (m : A64) (r : A64Reg) (w : U64) : A64 := { m with reg := Function.update m.reg r w }

def setMem (m : A64) (a w : U64) : A64 := { m with mem := Function.update m.mem a w }

def exec (m : A64) : A64Instr → A64
  | .subImm dst src imm => m.setReg dst (m.reg src - imm)
  | .mov dst src => m.setReg dst (m.reg src)
  | .stp a b base =>
      ((m.setMem (m.reg base) (m.reg a)).setMem (m.reg base + 8) (m.reg b)).setReg base
        (m.reg base + 16)
  | .ldp a b base =>
      ((m.setReg a (m.mem (m.reg base))).setReg b (m.mem (m.reg base + 8))).setReg base
        (m.reg base + 16)
  | .str src base => m.setMem (m.reg base) (m.reg src)
  | .ldr dst base => m.setReg dst (m.mem (m.reg base))
  | .br r => { m with pc := m.reg r }
  | .blr next r => { m.setReg .lr next with pc := m.reg r }

def run (m : A64) (code : List A64Instr) : A64 := code.foldl exec m

/-- The general-purpose registers a call preserves, in the order they are stored; `lr` is stored
behind them. -/
def calleeSaved : List A64Reg :=
  [.x19, .x20, .x21, .x22, .x23, .x24, .x25, .x26, .x27, .x28, .x29]

def coSwitchCode : List A64Instr :=
  [.subImm .sp .sp 96, .mov .x8 .sp,
    .stp .x19 .x20 .x8, .stp .x21 .x22 .x8, .stp .x23 .x24 .x8, .stp .x25 .x26 .x8,
    .stp .x27 .x28 .x8, .stp .x29 .lr .x8,
    .mov .x8 .sp, .str .x8 .x0, .ldr .x8 .x1, .mov .sp .x8,
    .ldp .x19 .x20 .x8, .ldp .x21 .x22 .x8, .ldp .x23 .x24 .x8, .ldp .x25 .x26 .x8,
    .ldp .x27 .x28 .x8, .ldp .x29 .lr .x8,
    .mov .sp .x8, .br .lr]

def coEntryTrampoline (next : U64) : List A64Instr :=
  [.mov .x8 .sp, .ldp .x0 .x9 .x8, .mov .sp .x8, .blr next .x9]

def numSaved : Nat := 11

@[irreducible]
def coSwitch (m : A64) : A64 := m.run coSwitchCode

variable {κ : Type} (L : Contexts κ)

/-- The link register is not in it: a context that goes on has it from its own return address. -/
def view (c : κ) (m : A64) : CoView :=
  ⟨calleeSaved.map m.reg, m.reg .sp, m.pc, keptWords (L.stack c) m.mem (m.reg .sp)⟩

/-- What the caller of `co_switch` sees once it returns: the return address is in `lr`. -/
def returned (c : κ) (m : A64) : CoView :=
  ⟨calleeSaved.map m.reg, m.reg .sp, m.reg .lr, keptWords (L.stack c) m.mem (m.reg .sp)⟩

structure Ready (c d : κ) (m : A64) : Prop where
  argFrom : m.reg .x0 = L.ctx c
  argTo : m.reg .x1 = L.ctx d
  room : ∀ k < numSaved + 1, m.reg .sp - BitVec.ofNat 64 (8 * (k + 1)) ∈ L.stack c
  low : 8 * (numSaved + 1) ≤ (m.reg .sp).toNat

/-- The frame: what was stored, the link register last. -/
def frameWords (v : CoView) : List U64 := v.saved ++ [v.pc]

def switcher : Switcher κ A64 U64 U64 CoView where
  mem := A64.mem
  owned := L.owned
  view := view L
  returned := returned L
  Ready := Ready L
  coSwitch _ _ := coSwitch
  Frame := Frame L (numSaved + 1) frameWords

end A64

/-! ## A new context -/

/-- `co_stack_init`: from the top of a stack down, the routine, its argument and the trampoline, and
below them `NUM_SAVED` words that keep what they hold. -/
def coStackInit (numSaved : Nat) (ctx top routine args trampoline : U64) (mem : Memory) : Memory :=
  let mem := Function.update mem (top - 8) routine
  let mem := Function.update mem (top - 16) args
  let mem := Function.update mem (top - 24) trampoline
  Function.update mem ctx (top - 24 - BitVec.ofNat 64 (8 * numSaved))

end Kxo
