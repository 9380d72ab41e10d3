import Kxo.Spec.Switch
import Mathlib.Data.BitVec

/-!
# Kxo — contexts get their registers and stacks back (`user/coro.c`)

`co_switch` saves only general-purpose registers that a call preserves, on the stack of the context
it leaves, and keeps nothing but the stack pointer elsewhere. That is enough for these: on both
processors it is a correct switch in the sense of `Switcher`, so a context goes on as if its call of
`co_switch` had returned, and a new one at its routine.

* **Words in memory** — `storeWords` and `pushWords`, and what is read back of them.
* **Frames** — a frame lies in what its context owns (`Frame.congr`), storing its words makes it
  (`Frame.of_storeWords`), and `co_stack_init` makes the first one (`exists_frame_coStackInit`).
* **`SwitchesFrame`** — what both processors do to the stacks, and that it is all that a switch
  needs: `leaves`, `keeps` and `resumes`.
* **`X86`, `A64`** — each processor's instructions do that (`Ready.switches`), so both are correct
  (`switcher_correct`).
* **`coSwitch_resumes`**, **`coSwitch_enters`** — every run of many contexts, on both.
-/

namespace Kxo

/-! ## Words in memory

Memory is a map from addresses to words. Stores of several words go upwards or downwards; both are
`storeWords`. -/

/-- As many words as were asked for. -/
@[simp] theorem length_wordsAt (mem : Memory) (a : U64) (n : Nat) :
    (wordsAt mem a n).length = n := by
  simp [wordsAt]

/-- What is read depends on nothing but these words. -/
theorem wordsAt_congr {mem mem' : Memory} {a : U64} {n : Nat}
    (h : ∀ k < n, mem (a + BitVec.ofNat 64 (8 * k)) = mem' (a + BitVec.ofNat 64 (8 * k))) :
    wordsAt mem a n = wordsAt mem' a n := by
  refine List.map_congr_left fun k hk => ?_
  exact h k (List.mem_range.mp hk)

/-- Addresses of words, one further. -/
theorem add_words_succ (a : U64) (k : Nat) :
    a + 8 + BitVec.ofNat 64 (8 * k) = a + BitVec.ofNat 64 (8 * (k + 1)) := by
  rw [BitVec.add_assoc, Nat.mul_succ, Nat.add_comm, BitVec.ofNat_add]
  rfl

/-- The first word and the others. -/
theorem wordsAt_succ (mem : Memory) (a : U64) (n : Nat) :
    wordsAt mem a (n + 1) = mem a :: wordsAt mem (a + 8) n := by
  rw [wordsAt, wordsAt, List.range_succ_eq_map, List.map_cons, List.map_map]
  congr 1
  · simp
  · refine List.map_congr_left fun k _ => ?_
    rw [add_words_succ]
    rfl

/-- The words kept on a stack depend on that part of the stack only. -/
theorem keptWords_congr {stack : Set U64} {mem mem' : Memory} {sp : U64}
    (h : ∀ a ∈ stack, sp.toNat ≤ a.toNat → mem a = mem' a) :
    keptWords stack mem sp = keptWords stack mem' sp := by
  ext ⟨a, w⟩
  simp only [keptWords, Set.mem_ofPred_eq]
  exact and_congr_right fun ha => and_congr_right fun hsp => by rw [h a ha hsp]

/-- Words stored upwards from an address. -/
def storeWords (mem : Memory) (a : U64) : List U64 → Memory
  | [] => mem
  | w :: ws => storeWords (Function.update mem a w) (a + 8) ws

/-- Other words are as they were. -/
theorem storeWords_other {ws : List U64} {a b : U64} (mem : Memory)
    (h : ∀ k < ws.length, b ≠ a + BitVec.ofNat 64 (8 * k)) : storeWords mem a ws b = mem b := by
  induction ws generalizing mem a with
  | nil => rfl
  | cons w ws ih =>
    have hhead : b ≠ a := by simpa using h 0 (by simp)
    rw [storeWords, ih, Function.update_of_ne hhead]
    intro k hk
    rw [add_words_succ]
    exact h (k + 1) (by simpa using hk)

/-- What was stored is read back, unless it wraps around. -/
theorem wordsAt_storeWords {ws : List U64} {a : U64} (mem : Memory)
    (h : 8 * ws.length < 2 ^ 64) : wordsAt (storeWords mem a ws) a ws.length = ws := by
  induction ws generalizing mem a with
  | nil => rfl
  | cons w ws ih =>
    rw [List.length_cons] at h
    have htail := ih (a := a + 8) (Function.update mem a w) (by omega)
    have hhead : storeWords (Function.update mem a w) (a + 8) ws a = w := by
      rw [storeWords_other, Function.update_self]
      intro k hk
      rw [add_words_succ]
      bv_omega
    rw [List.length_cons, wordsAt_succ, storeWords, htail, hhead]

/-- A word stored elsewhere may be stored last. -/
theorem storeWords_update {ws : List U64} {a b : U64} (mem : Memory) (w : U64)
    (h : ∀ k < ws.length, b ≠ a + BitVec.ofNat 64 (8 * k)) :
    storeWords (Function.update mem b w) a ws = Function.update (storeWords mem a ws) b w := by
  induction ws generalizing mem a with
  | nil => rfl
  | cons v ws ih =>
    have hhead : b ≠ a := by simpa using h 0 (by simp)
    rw [storeWords, storeWords, Function.update_comm hhead]
    refine ih _ fun k hk => ?_
    rw [add_words_succ]
    exact h (k + 1) (by simpa using hk)

/-- The last word is stored last. -/
theorem storeWords_append (mem : Memory) (a w : U64) (ws : List U64) :
    storeWords mem a (ws ++ [w]) =
      Function.update (storeWords mem a ws) (a + BitVec.ofNat 64 (8 * ws.length)) w := by
  induction ws generalizing mem a with
  | nil => simp [storeWords]
  | cons v ws ih =>
    rw [List.cons_append, storeWords, ih, storeWords, add_words_succ]
    rfl

/-- A last word that is there already need not be stored. -/
theorem storeWords_append_self {mem : Memory} {a w : U64} {ws : List U64}
    (hlen : 8 * ws.length < 2 ^ 64) (h : mem (a + BitVec.ofNat 64 (8 * ws.length)) = w) :
    storeWords mem a (ws ++ [w]) = storeWords mem a ws := by
  have hself : storeWords mem a ws (a + BitVec.ofNat 64 (8 * ws.length)) = w := by
    rw [storeWords_other, h]
    intro k hk
    bv_omega
  rw [storeWords_append]
  conv_lhs => rw [← hself]
  exact Function.update_eq_self _ _

/-- The memory after words were pushed, the stack pointer at `sp` before. -/
def pushWords (mem : Memory) (sp : U64) : List U64 → Memory
  | [] => mem
  | w :: ws => pushWords (Function.update mem (sp - 8) w) (sp - 8) ws

/-- The last word pushed is the lowest. -/
theorem pushWords_eq_storeWords {ws : List U64} {sp : U64} (mem : Memory)
    (h : 8 * ws.length ≤ sp.toNat) :
    pushWords mem sp ws = storeWords mem (sp - BitVec.ofNat 64 (8 * ws.length)) ws.reverse := by
  induction ws generalizing mem sp with
  | nil => rfl
  | cons w ws ih =>
    rw [List.length_cons] at h
    have hsp : 8 * ws.length ≤ (sp - 8).toNat := by bv_omega
    have hlow : sp - 8 - BitVec.ofNat 64 (8 * ws.length) =
        sp - BitVec.ofNat 64 (8 * (ws.length + 1)) := by bv_omega
    have htop : sp - BitVec.ofNat 64 (8 * (ws.length + 1)) +
        BitVec.ofNat 64 (8 * ws.length) = sp - 8 := by bv_omega
    rw [pushWords, ih _ hsp, hlow, List.reverse_cons, storeWords_append, List.length_reverse,
      List.length_cons, htop, storeWords_update]
    intro k hk
    rw [List.length_reverse] at hk
    bv_omega

/-! ## Frames

A frame is the words that stand for a view, on the stack of its context, with its address in the
context's `struct co_ctx`. Everything a suspended context needs is there. -/

section Layout

variable {κ : Type} {L : Contexts κ} {n : Nat} {frameWords : CoView → List U64} {c : κ} {v : CoView}
  {mem mem' : Memory}

/-- Contexts own different words. -/
theorem Contexts.Separate.owned_disjoint (hL : L.Separate) {c d : κ} (h : c ≠ d) :
    ∀ a ∈ L.owned c, a ∉ L.owned d := by
  rintro a (rfl | hc) (hd | hd)
  · exact h (hL.ctx_inj c d hd)
  · exact hL.ctx_stack c d hd
  · exact hL.ctx_stack d c (hd ▸ hc)
  · exact hL.stack_disjoint c d h a hc hd

/-- A frame is on the memory its context owns. -/
theorem Frame.congr (h : Frame L n frameWords c v mem) (hmem : ∀ a ∈ L.owned c, mem a = mem' a) :
    Frame L n frameWords c v mem' := by
  have hctx : mem (L.ctx c) = mem' (L.ctx c) := hmem _ (Set.mem_insert _ _)
  have hstack : ∀ a ∈ L.stack c, mem a = mem' a := fun a ha => hmem a (Set.mem_insert_of_mem _ ha)
  constructor
  · rw [h.saved, hctx]
    exact wordsAt_congr fun k hk => hstack _ (hctx ▸ h.onStack k hk)
  · rw [h.sp, hctx]
  · rw [← hctx]
    exact h.onStack
  · rw [h.kept]
    exact keptWords_congr fun a ha _ => hstack a ha

/-- Storing the words of a frame on the stack and its address in the `struct co_ctx` makes it. -/
theorem Frame.of_storeWords (hL : L.Separate) {a : U64} {ws : List U64} (hn : ws.length = n)
    (hws : frameWords v = ws) (hlen : 8 * n < 2 ^ 64)
    (hstack : ∀ k < n, a + BitVec.ofNat 64 (8 * k) ∈ L.stack c)
    (hsp : v.sp = a + BitVec.ofNat 64 (8 * n)) (hwrap : a.toNat + 8 * n < 2 ^ 64)
    (hkept : v.kept = keptWords (L.stack c) mem v.sp) :
    Frame L n frameWords c v (Function.update (storeWords mem a ws) (L.ctx c) a) := by
  subst hn
  have hoff : ∀ b ∈ L.stack c, b ≠ L.ctx c := fun b hb heq => hL.ctx_stack c c (heq ▸ hb)
  constructor
  · rw [hws, Function.update_self]
    conv_lhs => rw [← wordsAt_storeWords mem hlen (a := a)]
    exact wordsAt_congr fun k hk => (Function.update_of_ne (hoff _ (hstack k hk)) _ _).symm
  · rw [hsp, Function.update_self]
  · rw [Function.update_self]
    exact hstack
  · rw [hkept]
    refine keptWords_congr fun b hb hbsp => ?_
    rw [Function.update_of_ne (hoff b hb), storeWords_other]
    intro k hk
    rw [hsp] at hbsp
    bv_omega

/-! ## A new context

`co_stack_init` writes a frame by hand, so that the first switch to a context looks like a return
into the trampoline. -/

section StackInit

variable {top routine args trampoline : U64} {numSaved : Nat}

/-- What `co_stack_init` leaves of a stack: the words below the trampoline as they were. -/
theorem coStackInit_spec (hL : L.Separate)
    (hroom : ∀ k < numSaved + 3, top - BitVec.ofNat 64 (8 * (k + 1)) ∈ L.stack c) :
    let mem' := coStackInit numSaved (L.ctx c) top routine args trampoline mem
    mem' (L.ctx c) = top - BitVec.ofNat 64 (8 * (numSaved + 3)) ∧
      mem' (top - 24) = trampoline ∧ mem' (top - 16) = args ∧ mem' (top - 8) = routine := by
  have hoff : ∀ k < numSaved + 3, top - BitVec.ofNat 64 (8 * (k + 1)) ≠ L.ctx c :=
    fun k hk heq => hL.ctx_stack c c (heq ▸ hroom k hk)
  have h8 : top - 8 ≠ L.ctx c := hoff 0 (by omega)
  have h16 : top - 16 ≠ L.ctx c := hoff 1 (by omega)
  have h24 : top - 24 ≠ L.ctx c := hoff 2 (by omega)
  have h24' : top - 16 ≠ top - 24 := by bv_omega
  have h16' : top - 8 ≠ top - 16 := by bv_omega
  have h8' : top - 8 ≠ top - 24 := by bv_omega
  refine ⟨?_, ?_, ?_, ?_⟩
  · rw [coStackInit, Function.update_self]
    bv_omega
  · rw [coStackInit, Function.update_of_ne h24, Function.update_self]
  · rw [coStackInit, Function.update_of_ne h16, Function.update_of_ne h24', Function.update_self]
  · rw [coStackInit, Function.update_of_ne h8, Function.update_of_ne h8',
      Function.update_of_ne h16', Function.update_self]

/-- It is a frame, whatever the words below the trampoline are. -/
theorem exists_frame_coStackInit (hL : L.Separate)
    (hroom : ∀ k < numSaved + 3, top - BitVec.ofNat 64 (8 * (k + 1)) ∈ L.stack c)
    (hwords : ∀ ws : List U64, ws.length = numSaved + 1 →
      ∃ saved pc, ∀ sp kept, frameWords ⟨saved, sp, pc, kept⟩ = ws) :
    ∃ v, Frame L (numSaved + 1) frameWords c v
      (coStackInit numSaved (L.ctx c) top routine args trampoline mem) := by
  obtain ⟨hctx, _⟩ := @coStackInit_spec κ L c mem top routine args trampoline numSaved hL hroom
  set mem' := coStackInit numSaved (L.ctx c) top routine args trampoline mem with hmem'
  obtain ⟨saved, pc, hframe⟩ := hwords (wordsAt mem' (mem' (L.ctx c)) (numSaved + 1))
    (length_wordsAt _ _ _)
  refine ⟨⟨saved, _, pc, keptWords (L.stack c) mem' _⟩, hframe _ _, rfl, fun k hk => ?_, rfl⟩
  have haddr : top - BitVec.ofNat 64 (8 * (numSaved + 3)) + BitVec.ofNat 64 (8 * k) =
      top - BitVec.ofNat 64 (8 * (numSaved + 2 - k + 1)) := by
    have hsplit : 8 * (numSaved + 3) = 8 * (numSaved + 2 - k + 1) + 8 * k := by omega
    rw [hsplit, BitVec.ofNat_add]
    bv_omega
  rw [hctx, haddr]
  exact hroom _ (by omega)

/-- A view whose frame `co_stack_init` laid down goes on at the trampoline, with the argument and
the routine on top of its stack. -/
theorem Frame.of_coStackInit (hL : L.Separate) (hlow : 8 * (numSaved + 3) ≤ top.toNat)
    (hroom : ∀ k < numSaved + 3, top - BitVec.ofNat 64 (8 * (k + 1)) ∈ L.stack c)
    (h : Frame L (numSaved + 1) frameWords c v
      (coStackInit numSaved (L.ctx c) top routine args trampoline mem)) :
    (frameWords v).getLast? = some trampoline ∧ v.sp = top - 16 ∧ (top - 16, args) ∈ v.kept ∧
      (top - 8, routine) ∈ v.kept := by
  obtain ⟨hctx, htrampoline, hargs, hroutine⟩ := @coStackInit_spec κ L c mem top routine args
    trampoline numSaved hL hroom
  have h8 : top - 8 ∈ L.stack c := hroom 0 (by omega)
  have h16 : top - 16 ∈ L.stack c := hroom 1 (by omega)
  have hsp : v.sp = top - 16 := by
    rw [h.sp, hctx]
    bv_omega
  refine ⟨?_, hsp, ?_, ?_⟩
  · rw [h.saved, hctx, wordsAt, List.range_succ, List.map_append, List.map_singleton,
      List.getLast?_append]
    have haddr : top - BitVec.ofNat 64 (8 * (numSaved + 3)) + BitVec.ofNat 64 (8 * numSaved) =
        top - 24 := by bv_omega
    rw [haddr, htrampoline]
    rfl
  · rw [h.kept, hsp]
    exact ⟨h16, le_refl _, hargs⟩
  · rw [h.kept, hsp]
    refine ⟨h8, ?_, hroutine⟩
    show (top - 16).toNat ≤ (top - 8).toNat
    bv_omega

/-- A processor that shows such a view is at the trampoline, and finds the argument and the routine
at its stack pointer. -/
theorem Frame.enters (hL : L.Separate) (hlow : 8 * (numSaved + 3) ≤ top.toNat)
    (hroom : ∀ k < numSaved + 3, top - BitVec.ofNat 64 (8 * (k + 1)) ∈ L.stack c)
    (h : Frame L (numSaved + 1) frameWords c v
      (coStackInit numSaved (L.ctx c) top routine args trampoline mem))
    (hlast : (frameWords v).getLast? = some v.pc)
    (hkept : v.kept = keptWords (L.stack c) mem' v.sp) :
    v.pc = trampoline ∧ v.sp = top - 16 ∧ mem' v.sp = args ∧ mem' (v.sp + 8) = routine := by
  obtain ⟨hpc, hsp, hargs, hroutine⟩ := h.of_coStackInit hL hlow hroom
  rw [hkept] at hargs hroutine
  have htop : top - 16 + 8 = top - 8 := by bv_omega
  refine ⟨Option.some.inj (hlast.symm.trans hpc), hsp, ?_, ?_⟩
  · rw [hsp]
    exact hargs.2.2
  · rw [hsp, htop]
    exact hroutine.2.2

end StackInit

/-! ## A switch of stacks

What both processors do: they store the frame of the context that leaves on its stack and its
address in the `struct co_ctx`, and load the frame whose address the other context's has. Where that
is so (`SwitchesFrame`), the context that leaves has its frame, the other is shown its own, and
nothing else is written. -/

/-- From `mem` to `mem'` the frame of `c`, which stands for `left`, is stored from `a` up, and
`shown` is loaded from the frame of `d`. -/
structure SwitchesFrame (L : Contexts κ) (n : Nat) (frameWords : CoView → List U64) (c d : κ)
    (a : U64) (mem mem' : Memory) (left shown : CoView) : Prop where
  stored : mem' = Function.update (storeWords mem a (frameWords left)) (L.ctx c) a
  length : (frameWords left).length = n
  onStack : ∀ k < n, a + BitVec.ofNat 64 (8 * k) ∈ L.stack c
  wrap : a.toNat + 8 * n < 2 ^ 64
  sp : left.sp = a + BitVec.ofNat 64 (8 * n)
  kept : left.kept = keptWords (L.stack c) mem left.sp
  loaded : frameWords shown = wordsAt mem' (mem' (L.ctx d)) n
  shownSp : shown.sp = mem' (L.ctx d) + BitVec.ofNat 64 (8 * n)
  shownKept : shown.kept = keptWords (L.stack d) mem' shown.sp

namespace SwitchesFrame

variable {d : κ} {a : U64} {left shown : CoView}

/-- The context that leaves has its frame. -/
theorem leaves (hL : L.Separate) (h : SwitchesFrame L n frameWords c d a mem mem' left shown) :
    Frame L n frameWords c left mem' := by
  rw [h.stored]
  exact .of_storeWords hL h.length rfl (by have := h.wrap; omega) h.onStack h.sp h.wrap h.kept

/-- It writes to what the context that leaves owns. -/
theorem keeps (h : SwitchesFrame L n frameWords c d a mem mem' left shown) {b : U64}
    (hb : b ∉ L.owned c) : mem' b = mem b := by
  have hctx : b ≠ L.ctx c := fun heq => hb (heq ▸ Set.mem_insert _ _)
  rw [h.stored, Function.update_of_ne hctx, storeWords_other]
  rintro k hk rfl
  exact hb (Set.mem_insert_of_mem _ (h.onStack k (h.length ▸ hk)))

/-- A suspended context is shown what its frame stands for, if the words of a frame tell its
registers and where it goes on. -/
theorem resumes (hL : L.Separate) (h : SwitchesFrame L n frameWords c d a mem mem' left shown)
    (hne : c ≠ d) (hwords : ∀ v w, frameWords v = frameWords w → v.saved = w.saved ∧ v.pc = w.pc)
    (hframe : Frame L n frameWords d v mem) : shown = v := by
  have hframe' := hframe.congr fun b hb =>
    (h.keeps fun hc => hL.owned_disjoint hne b hc hb).symm
  obtain ⟨hsaved, hpc⟩ := hwords _ _ (h.loaded.trans hframe'.saved.symm)
  have hsp : shown.sp = v.sp := h.shownSp.trans hframe'.sp.symm
  have hkept : shown.kept = v.kept := by rw [h.shownKept, hframe'.kept, hsp]
  obtain ⟨saved, sp, pc, kept⟩ := v
  obtain ⟨saved', sp', pc', kept'⟩ := shown
  dsimp only at hsaved hpc hsp hkept
  rw [hsaved, hpc, hsp, hkept]

end SwitchesFrame

end Layout

/-! ## x86-64

Six pushes and the return address that the call has pushed already. The instructions are run one by
one; what they do to memory is one `pushWords`. -/

namespace X86

variable {κ : Type} {L : Contexts κ} {c d : κ} {m : X86}

/-- `co_switch` up to the load of the other stack pointer. -/
def switched (m : X86) : X86 := m.run (coSwitchCode.take 8)

/-- The registers loaded, in the order they are popped. -/
def loaded : List X86Reg := [.r15, .r14, .r13, .r12, .rbx, .rbp, .rcx]

/-- `co_switch` in three parts: save, change stacks; load; jump to the return address. -/
theorem coSwitch_eq (m : X86) :
    coSwitch m = ((switched m).run (loaded.map .pop)).exec (.jmp .rcx) := by
  unfold coSwitch
  rfl

/-- The registers are pushed, and the stack pointer stored in the context's `struct co_ctx`. -/
theorem switched_mem (m : X86) :
    (switched m).mem = Function.update (pushWords m.mem (m.reg .rsp) (calleeSaved.map m.reg))
      (m.reg .rdi) (m.reg .rsp - 48) := by
  have hsp : m.reg .rsp - 8 - 8 - 8 - 8 - 8 - 8 = m.reg .rsp - 48 := by bv_omega
  rw [← hsp]
  rfl

/-- The other stack pointer is loaded from the other context's. -/
theorem switched_rsp (m : X86) : (switched m).reg .rsp = (switched m).mem (m.reg .rsi) := by
  simp only [switched, coSwitchCode, run, List.take_succ_cons, List.take_zero, List.foldl_cons,
    List.foldl_nil, exec, push, setReg, setMem, Function.update_self, Function.update_of_ne, ne_eq,
    reduceCtorEq, not_false_eq_true]

/-- Popping registers loads them with the words from the stack pointer up. -/
theorem run_pops {rs : List X86Reg} (m : X86) (hnodup : rs.Nodup) (hrsp : .rsp ∉ rs) :
    rs.map (m.run (rs.map .pop)).reg = wordsAt m.mem (m.reg .rsp) rs.length ∧
      (m.run (rs.map .pop)).reg .rsp = m.reg .rsp + BitVec.ofNat 64 (8 * rs.length) ∧
      (m.run (rs.map .pop)).mem = m.mem ∧
      ∀ r ∉ rs, r ≠ .rsp → (m.run (rs.map .pop)).reg r = m.reg r := by
  induction rs generalizing m with
  | nil => exact ⟨rfl, by simp [run], rfl, fun _ _ _ => rfl⟩
  | cons r rs ih =>
    rw [List.nodup_cons] at hnodup
    rw [List.mem_cons, not_or] at hrsp
    obtain ⟨hregs, hsp, hmem, hother⟩ := ih (m.exec (.pop r)) hnodup.2 hrsp.2
    have hsp' : (m.exec (.pop r)).reg .rsp = m.reg .rsp + 8 := by simp [exec, setReg]
    have hr : (m.exec (.pop r)).reg r = m.mem (m.reg .rsp) := by
      simp [exec, setReg, Function.update_of_ne (Ne.symm hrsp.1)]
    have hrun : m.run ((r :: rs).map .pop) = (m.exec (.pop r)).run (rs.map .pop) := rfl
    rw [hrun]
    refine ⟨?_, ?_, hmem, fun q hq hne => ?_⟩
    · rw [List.map_cons, hregs, hother r hnodup.1 (Ne.symm hrsp.1), hr, hsp', List.length_cons,
        wordsAt_succ]
      rfl
    · rw [hsp, hsp', List.length_cons, add_words_succ]
    · rw [List.mem_cons, not_or] at hq
      rw [hother q hq.2 hne]
      simp [exec, setReg, Function.update_of_ne hne, Function.update_of_ne hq.1]

/-- `co_switch` leaves the memory as it is before its loads. -/
theorem coSwitch_mem (m : X86) : (coSwitch m).mem = (switched m).mem := by
  obtain ⟨_, _, hmem, _⟩ := @run_pops loaded (switched m) (by decide) (by decide)
  rw [coSwitch_eq]
  generalize (switched m).run (loaded.map .pop) = p at hmem ⊢
  exact hmem

/-- What `co_switch` loads, from the memory it leaves: a frame. -/
theorem coSwitch_loads (m : X86) :
    (calleeSaved.map (coSwitch m).reg).reverse ++ [(coSwitch m).pc] =
        wordsAt (coSwitch m).mem ((coSwitch m).mem (m.reg .rsi)) (numSaved + 1) ∧
      (coSwitch m).reg .rsp =
        (coSwitch m).mem (m.reg .rsi) + BitVec.ofNat 64 (8 * (numSaved + 1)) := by
  obtain ⟨hregs, hsp, _, _⟩ := @run_pops loaded (switched m) (by decide) (by decide)
  rw [coSwitch_mem, ← switched_rsp, coSwitch_eq]
  generalize (switched m).run (loaded.map .pop) = p at hregs hsp ⊢
  generalize switched m = n at hregs hsp ⊢
  exact ⟨hregs, hsp⟩

/-- The frame of a caller: its callee-saved registers and its return address. -/
theorem frameWords_returned (c : κ) (m : X86) :
    frameWords (returned L c m) =
      (calleeSaved.map m.reg).reverse ++ [m.mem (m.reg .rsp)] := rfl

/-- Where the frame of the context that leaves is. -/
theorem Ready.onStack (h : Ready L c d m) {k : Nat} (hk : k < 7) :
    m.reg .rsp - 48 + BitVec.ofNat 64 (8 * k) ∈ L.stack c := by
  have hlow : 48 ≤ (m.reg .rsp).toNat := h.low
  have hroom := h.room (6 - k) (by simp only [numSaved]; omega)
  have haddr : m.reg .rsp - BitVec.ofNat 64 (8 * (6 - k)) =
      m.reg .rsp - 48 + BitVec.ofNat 64 (8 * k) := by bv_omega
  rwa [haddr] at hroom

/-- With the return address that is on the stack already, the words pushed are a frame. -/
theorem Ready.coSwitch_mem (h : Ready L c d m) :
    (coSwitch m).mem =
      Function.update (storeWords m.mem (m.reg .rsp - 48) (frameWords (returned L c m)))
        (L.ctx c) (m.reg .rsp - 48) := by
  have hlow : 48 ≤ (m.reg .rsp).toNat := h.low
  have hlen : (calleeSaved.map m.reg).length = 6 := rfl
  have hpush : pushWords m.mem (m.reg .rsp) (calleeSaved.map m.reg) =
      storeWords m.mem (m.reg .rsp - 48) (calleeSaved.map m.reg).reverse :=
    pushWords_eq_storeWords _ hlow
  have hret : m.reg .rsp - 48 + BitVec.ofNat 64 (8 * (calleeSaved.map m.reg).reverse.length) =
      m.reg .rsp := by
    rw [List.length_reverse, hlen]
    bv_omega
  rw [X86.coSwitch_mem, switched_mem, h.argFrom, hpush, frameWords_returned,
    storeWords_append_self (by rw [List.length_reverse, hlen]; decide) (by rw [hret])]

/-- What `co_switch` does to the stacks on x86-64. -/
theorem Ready.switches (h : Ready L c d m) :
    SwitchesFrame L (numSaved + 1) frameWords c d (m.reg .rsp - 48) m.mem (coSwitch m).mem
      (returned L c m) (view L d (coSwitch m)) := by
  have hlow : 48 ≤ (m.reg .rsp).toNat := h.low
  have hhigh := h.high
  obtain ⟨hloads, hrsp⟩ := coSwitch_loads m
  rw [h.argTo] at hloads hrsp
  refine ⟨h.coSwitch_mem, rfl, fun k hk => h.onStack hk, ?_, ?_, rfl, hloads, hrsp, rfl⟩
  · simp only [numSaved]
    bv_omega
  · show m.reg .rsp + 8 = m.reg .rsp - 48 + BitVec.ofNat 64 (8 * 7)
    bv_omega

/-- A frame determines the view it stands for. -/
theorem frameWords_inj (v w : CoView) (h : frameWords v = frameWords w) :
    v.saved = w.saved ∧ v.pc = w.pc := by
  obtain ⟨hsaved, hpc⟩ := List.append_inj' h rfl
  exact ⟨List.reverse_injective hsaved, List.singleton_inj.mp hpc⟩

/-- The trampoline calls the routine with its argument. -/
theorem run_coEntryTrampoline (m : X86) (next : U64) :
    (m.run (coEntryTrampoline next)).pc = m.mem (m.reg .rsp + 8) ∧
      (m.run (coEntryTrampoline next)).reg .rdi = m.mem (m.reg .rsp) ∧
      (m.run (coEntryTrampoline next)).reg .rsp = m.reg .rsp + 8 := by
  refine ⟨?_, ?_, ?_⟩ <;> simp [run, coEntryTrampoline, exec, push, setReg, setMem]

/-- **The switch is correct on x86-64.** -/
theorem switcher_correct (hL : L.Separate) : (switcher L).Correct where
  frame_congr h hmem := h.congr hmem
  leaves h := h.switches.leaves hL
  resumes h hne hframe := h.switches.resumes hL hne frameWords_inj hframe
  keeps h _ ha := h.switches.keeps ha

/-- A new context of an x86-64 processor. -/
theorem enters (hL : L.Separate) {top routine args trampoline : U64} {mem : Memory}
    (hroom : ∀ k < numSaved + 3, top - BitVec.ofNat 64 (8 * (k + 1)) ∈ L.stack d)
    (hlow : 8 * (numSaved + 3) ≤ top.toNat) (halign : top.toNat % 16 = 0)
    (hv : Frame L (numSaved + 1) frameWords d (view L d m)
      (coStackInit numSaved (L.ctx d) top routine args trampoline mem)) (next : U64) :
    let m' := m.run (coEntryTrampoline next)
    m.pc = trampoline ∧ m'.pc = routine ∧ m'.reg .rdi = args ∧ m'.reg .rsp = top - 8 ∧
      ((m'.reg .rsp).toNat + 8) % 16 = 0 := by
  obtain ⟨hpc, hsp, hargs, hroutine⟩ :=
    hv.enters hL hlow hroom (by simp [frameWords, view]) rfl
  obtain ⟨hcall, hrdi, hrsp⟩ := run_coEntryTrampoline m next
  have hsp' : m.reg .rsp = top - 16 := hsp
  have htop : m.reg .rsp + 8 = top - 8 := by bv_omega
  refine ⟨hpc, hcall.trans hroutine, hrdi.trans hargs, hrsp.trans htop, ?_⟩
  simp only [numSaved] at hlow
  rw [hrsp, htop]
  bv_omega

/-- Any words are a frame's. -/
theorem exists_frameWords {ws : List U64} {n : Nat} (h : ws.length = n + 1) :
    ∃ saved pc, ∀ sp kept, frameWords ⟨saved, sp, pc, kept⟩ = ws := by
  have hne : ws ≠ [] := by
    rintro rfl
    simp at h
  refine ⟨ws.dropLast.reverse, ws.getLast hne, fun _ _ => ?_⟩
  rw [frameWords, List.reverse_reverse, List.dropLast_append_getLast]

end X86

/-! ## AArch64

Six pairs of stores into room made beforehand. Only the order of the registers and the place of the
return address differ from the other processor. -/

namespace A64

variable {κ : Type} {L : Contexts κ} {c d : κ} {m : A64}

/-- The registers stored and loaded, two at a time. -/
def pairs : List (A64Reg × A64Reg) :=
  [(.x19, .x20), (.x21, .x22), (.x23, .x24), (.x25, .x26), (.x27, .x28), (.x29, .lr)]

def stps (ps : List (A64Reg × A64Reg)) : List A64Instr := ps.map fun p => .stp p.1 p.2 .x8

def ldps (ps : List (A64Reg × A64Reg)) : List A64Instr := ps.map fun p => .ldp p.1 p.2 .x8

/-- Storing pairs stores their words from `x8` up. -/
theorem run_stps {ps : List (A64Reg × A64Reg)} (m : A64) (h : ∀ p ∈ ps, p.1 ≠ .x8 ∧ p.2 ≠ .x8) :
    (m.run (stps ps)).mem =
        storeWords m.mem (m.reg .x8) (ps.flatMap fun p => [m.reg p.1, m.reg p.2]) ∧
      ∀ r ≠ .x8, (m.run (stps ps)).reg r = m.reg r := by
  induction ps generalizing m with
  | nil => exact ⟨rfl, fun _ _ => rfl⟩
  | cons p ps ih =>
    obtain ⟨a, b⟩ := p
    rw [List.forall_mem_cons] at h
    obtain ⟨hmem, hreg⟩ := ih (m.exec (.stp a b .x8)) h.2
    have hrun : m.run (stps ((a, b) :: ps)) = (m.exec (.stp a b .x8)).run (stps ps) := rfl
    have hx8 : (m.exec (.stp a b .x8)).reg .x8 = m.reg .x8 + 8 + 8 := by
      simp only [exec, setReg, Function.update_self]
      bv_omega
    have hsame : ∀ r ≠ .x8, (m.exec (.stp a b .x8)).reg r = m.reg r := fun r hr => by
      simp [exec, setReg, setMem, Function.update_of_ne hr]
    have hwords : (ps.flatMap fun p => [(m.exec (.stp a b .x8)).reg p.1,
        (m.exec (.stp a b .x8)).reg p.2]) = ps.flatMap fun p => [m.reg p.1, m.reg p.2] :=
      List.flatMap_congr fun p hp => by rw [hsame _ (h.2 p hp).1, hsame _ (h.2 p hp).2]
    rw [hrun]
    refine ⟨?_, fun r hr => by rw [hreg r hr, hsame r hr]⟩
    rw [hmem, hx8, hwords]
    rfl

/-- Loading pairs loads their registers with the words from `x8` up. -/
theorem run_ldps {ps : List (A64Reg × A64Reg)} (m : A64)
    (hnodup : (ps.flatMap fun p => [p.1, p.2]).Nodup)
    (hx8 : .x8 ∉ ps.flatMap fun p => [p.1, p.2]) :
    (ps.flatMap fun p => [p.1, p.2]).map (m.run (ldps ps)).reg =
        wordsAt m.mem (m.reg .x8) (2 * ps.length) ∧
      (m.run (ldps ps)).reg .x8 = m.reg .x8 + BitVec.ofNat 64 (8 * (2 * ps.length)) ∧
      (m.run (ldps ps)).mem = m.mem ∧
      ∀ r ∉ ps.flatMap fun p => [p.1, p.2], r ≠ .x8 → (m.run (ldps ps)).reg r = m.reg r := by
  induction ps generalizing m with
  | nil => exact ⟨rfl, by simp [run, ldps], rfl, fun _ _ _ => rfl⟩
  | cons p ps ih =>
    obtain ⟨a, b⟩ := p
    simp only [List.flatMap_cons, List.cons_append, List.nil_append, List.nodup_cons,
      List.mem_cons, not_or] at hnodup hx8 ⊢
    obtain ⟨⟨hab, ha⟩, hb, hps⟩ := hnodup
    obtain ⟨hx8a, hx8b, hx8⟩ := hx8
    obtain ⟨hregs, hx8', hmem, hother⟩ := ih (m.exec (.ldp a b .x8)) hps hx8
    have hrun : m.run (ldps ((a, b) :: ps)) = (m.exec (.ldp a b .x8)).run (ldps ps) := rfl
    have hstep : (m.exec (.ldp a b .x8)).reg .x8 = m.reg .x8 + 8 + 8 := by
      simp only [exec, setReg, Function.update_self]
      bv_omega
    have hloada : (m.exec (.ldp a b .x8)).reg a = m.mem (m.reg .x8) := by
      simp [exec, setReg, Function.update_of_ne hab, Function.update_of_ne (Ne.symm hx8a)]
    have hloadb : (m.exec (.ldp a b .x8)).reg b = m.mem (m.reg .x8 + 8) := by
      simp [exec, setReg, Function.update_of_ne (Ne.symm hx8b)]
    -- one load changes its two registers and the address, and the induction has the others
    have hkeep : ∀ r, r ≠ a → r ≠ b → r ≠ .x8 → (m.exec (.ldp a b .x8)).reg r = m.reg r :=
      fun r hra hrb hr => by
        simp [exec, setReg, Function.update_of_ne hr, Function.update_of_ne hra,
          Function.update_of_ne hrb]
    rw [hrun]
    refine ⟨?_, ?_, hmem, fun r hr hne => ?_⟩
    · rw [List.map_cons, List.map_cons, hregs, hother a ha (Ne.symm hx8a),
        hother b hb (Ne.symm hx8b), hloada, hloadb, hstep, List.length_cons, Nat.mul_succ,
        wordsAt_succ, wordsAt_succ]
      rfl
    · rw [hx8', hstep, List.length_cons, Nat.mul_succ, add_words_succ, add_words_succ]
    · rw [hother r hr.2.2 hne, hkeep r hr.1 hr.2.1 hne]

/-- Code in two parts. -/
theorem run_append (m : A64) (code code' : List A64Instr) :
    m.run (code ++ code') = (m.run code).run code' :=
  List.foldl_append

/-- The frame of a caller: its callee-saved registers and the link register. -/
theorem frameWords_returned (c : κ) (m : A64) :
    frameWords (returned L c m) = calleeSaved.map m.reg ++ [m.reg .lr] := rfl

/-- The stack pointer lowered by a frame. -/
def lowered (m : A64) : A64 := m.run [.subImm .sp .sp 96, .mov .x8 .sp]

/-- The other registers are as they were. -/
theorem lowered_reg (m : A64) {r : A64Reg} (hsp : r ≠ .sp) (hx8 : r ≠ .x8) :
    (lowered m).reg r = m.reg r := by
  simp [lowered, run, exec, setReg, Function.update_of_ne hsp, Function.update_of_ne hx8]

/-- Room for twelve words. -/
theorem lowered_sp (m : A64) : (lowered m).reg .sp = m.reg .sp - 96 := by
  simp [lowered, run, exec, setReg]

/-- And their address. -/
theorem lowered_x8 (m : A64) : (lowered m).reg .x8 = m.reg .sp - 96 := by
  simp [lowered, run, exec, setReg]

/-- `co_switch` up to the load of the other stack pointer into `x8`. -/
def switched (m : A64) : A64 :=
  ((lowered m).run (stps pairs)).run [.mov .x8 .sp, .str .x8 .x0, .ldr .x8 .x1]

/-- `co_switch` in four parts: save, change stacks, load, and branch to the link register. -/
theorem coSwitch_eq (m : A64) :
    coSwitch m =
      (((switched m).exec (.mov .sp .x8)).run (ldps pairs)).run [.mov .sp .x8, .br .lr] := by
  have hcode : coSwitchCode = [.subImm .sp .sp 96, .mov .x8 .sp] ++ (stps pairs ++
      ([.mov .x8 .sp, .str .x8 .x0, .ldr .x8 .x1] ++ ([.mov .sp .x8] ++ (ldps pairs ++
        [.mov .sp .x8, .br .lr])))) := rfl
  unfold coSwitch
  rw [hcode, run_append, run_append, run_append, run_append, run_append, ← lowered, ← switched]
  congr 1

/-- The memory `co_switch` leaves, and the stack pointer it takes from there. -/
theorem switched_spec (c : κ) (m : A64) :
    (switched m).mem =
        Function.update (storeWords m.mem (m.reg .sp - 96) (frameWords (returned L c m)))
          (m.reg .x0) (m.reg .sp - 96) ∧
      (switched m).reg .x8 = (switched m).mem (m.reg .x1) := by
  obtain ⟨hmem, hreg⟩ := @run_stps pairs (lowered m) (by decide)
  have hsp := (hreg .sp (by decide)).trans (lowered_sp m)
  have hx0 := (hreg .x0 (by decide)).trans (lowered_reg m (by decide) (by decide))
  have hx1 := (hreg .x1 (by decide)).trans (lowered_reg m (by decide) (by decide))
  have hwords : (pairs.flatMap fun p => [(lowered m).reg p.1, (lowered m).reg p.2]) =
      frameWords (returned L c m) := by
    simp [pairs, frameWords_returned, calleeSaved, lowered_reg]
  rw [lowered_x8, hwords] at hmem
  have hstart : (lowered m).mem = m.mem := rfl
  rw [hstart] at hmem
  rw [switched]
  generalize (lowered m).run (stps pairs) = n at hmem hsp hx0 hx1 ⊢
  rw [← hmem, ← hsp, ← hx0, ← hx1]
  constructor <;> simp [run, exec, setReg, setMem]

/-- The pairs are the callee-saved registers and the link register. -/
theorem pairs_eq : (pairs.flatMap fun p => [p.1, p.2]) = calleeSaved ++ [.lr] := rfl

/-- What `co_switch` loads, from the memory it leaves: a frame. -/
theorem coSwitch_loads (m : A64) :
    (coSwitch m).mem = (switched m).mem ∧
      calleeSaved.map (coSwitch m).reg ++ [(coSwitch m).pc] =
        wordsAt (switched m).mem ((switched m).reg .x8) (numSaved + 1) ∧
      (coSwitch m).reg .sp = (switched m).reg .x8 + BitVec.ofNat 64 (8 * (numSaved + 1)) := by
  obtain ⟨hregs, hx8, hmem, _⟩ := @run_ldps pairs ((switched m).exec (.mov .sp .x8)) (by decide)
    (by decide)
  have hmem' : ((switched m).exec (.mov .sp .x8)).mem = (switched m).mem := rfl
  have hx8' : ((switched m).exec (.mov .sp .x8)).reg .x8 = (switched m).reg .x8 := by
    simp [exec, setReg]
  rw [hmem', hx8', pairs_eq] at hregs
  rw [hx8'] at hx8
  rw [hmem'] at hmem
  rw [coSwitch_eq]
  generalize ((switched m).exec (.mov .sp .x8)).run (ldps pairs) = q at hregs hx8 hmem ⊢
  generalize switched m = n at hregs hx8 hmem ⊢
  refine ⟨hmem, ?_, ?_⟩
  · have hlast : (q.run [.mov .sp .x8, .br .lr]).pc = q.reg .lr := by simp [run, exec, setReg]
    have hsame : calleeSaved.map (q.run [.mov .sp .x8, .br .lr]).reg = calleeSaved.map q.reg := by
      simp [run, exec, setReg, calleeSaved]
    rw [hlast, hsame, ← List.map_singleton, ← List.map_append]
    exact hregs
  · have hsp : (q.run [.mov .sp .x8, .br .lr]).reg .sp = q.reg .x8 := by simp [run, exec, setReg]
    rw [hsp]
    exact hx8

/-- Where the frame of the context that leaves is. -/
theorem Ready.onStack (h : Ready L c d m) {k : Nat} (hk : k < 12) :
    m.reg .sp - 96 + BitVec.ofNat 64 (8 * k) ∈ L.stack c := by
  have hlow : 96 ≤ (m.reg .sp).toNat := h.low
  have hroom := h.room (11 - k) (by simp only [numSaved]; omega)
  have haddr : m.reg .sp - BitVec.ofNat 64 (8 * (11 - k + 1)) =
      m.reg .sp - 96 + BitVec.ofNat 64 (8 * k) := by bv_omega
  rwa [haddr] at hroom

/-- What a switch writes: the frame, and its address. -/
theorem Ready.coSwitch_mem (h : Ready L c d m) :
    (coSwitch m).mem =
      Function.update (storeWords m.mem (m.reg .sp - 96) (frameWords (returned L c m)))
        (L.ctx c) (m.reg .sp - 96) := by
  rw [(coSwitch_loads m).1, (switched_spec c m).1, h.argFrom]

/-- What `co_switch` does to the stacks on AArch64. -/
theorem Ready.switches (h : Ready L c d m) :
    SwitchesFrame L (numSaved + 1) frameWords c d (m.reg .sp - 96) m.mem (coSwitch m).mem
      (returned L c m) (view L d (coSwitch m)) := by
  have hlow : 96 ≤ (m.reg .sp).toNat := h.low
  obtain ⟨hmem, hloads, hsp⟩ := coSwitch_loads m
  rw [(@switched_spec κ L c m).2, h.argTo, ← hmem] at hloads hsp
  refine ⟨h.coSwitch_mem, rfl, fun k hk => h.onStack hk, ?_, ?_, rfl, hloads, hsp, rfl⟩
  · simp only [numSaved]
    bv_omega
  · show m.reg .sp = m.reg .sp - 96 + BitVec.ofNat 64 (8 * 12)
    bv_omega

/-- A frame determines the view it stands for. -/
theorem frameWords_inj (v w : CoView) (h : frameWords v = frameWords w) :
    v.saved = w.saved ∧ v.pc = w.pc := by
  obtain ⟨hsaved, hpc⟩ := List.append_inj' h rfl
  exact ⟨hsaved, List.singleton_inj.mp hpc⟩

/-- The trampoline calls the routine with its argument. -/
theorem run_coEntryTrampoline (m : A64) (next : U64) :
    (m.run (coEntryTrampoline next)).pc = m.mem (m.reg .sp + 8) ∧
      (m.run (coEntryTrampoline next)).reg .x0 = m.mem (m.reg .sp) ∧
      (m.run (coEntryTrampoline next)).reg .sp = m.reg .sp + 16 := by
  refine ⟨?_, ?_, ?_⟩ <;> simp [run, coEntryTrampoline, exec, setReg]

/-- **The switch is correct on AArch64.** -/
theorem switcher_correct (hL : L.Separate) : (switcher L).Correct where
  frame_congr h hmem := h.congr hmem
  leaves h := h.switches.leaves hL
  resumes h hne hframe := h.switches.resumes hL hne frameWords_inj hframe
  keeps h _ ha := h.switches.keeps ha

/-- A new context of an AArch64 processor. -/
theorem enters (hL : L.Separate) {top routine args trampoline : U64} {mem : Memory}
    (hroom : ∀ k < numSaved + 3, top - BitVec.ofNat 64 (8 * (k + 1)) ∈ L.stack d)
    (hlow : 8 * (numSaved + 3) ≤ top.toNat)
    (hv : Frame L (numSaved + 1) frameWords d (view L d m)
      (coStackInit numSaved (L.ctx d) top routine args trampoline mem)) (next : U64) :
    let m' := m.run (coEntryTrampoline next)
    m.pc = trampoline ∧ m'.pc = routine ∧ m'.reg .x0 = args ∧ m'.reg .sp = top := by
  obtain ⟨hpc, hsp, hargs, hroutine⟩ :=
    hv.enters hL hlow hroom (by simp [frameWords, view]) rfl
  obtain ⟨hcall, hx0, hsp16⟩ := run_coEntryTrampoline m next
  have hsp' : m.reg .sp = top - 16 := hsp
  have htop : m.reg .sp + 16 = top := by bv_omega
  exact ⟨hpc, hcall.trans hroutine, hx0.trans hargs, hsp16.trans htop⟩

end A64

/-! ## Runs of many contexts

`Switcher` turns a correct switch into correct runs, so nothing is left to do for either processor
but to name its lemma. -/

section Runs

variable {κ : Type} [DecidableEq κ] {L : Contexts κ}

/-- **A context gets back what it left.** On both processors, in every run of switches between any
contexts, computations of the running one and starts of new ones: a switch to a context restores the
general-purpose registers a call preserves, the stack pointer, the return address and the words of
the stack that it had when it switched away, or was started with. -/
theorem coSwitch_resumes (hL : L.Separate) :
    (∀ s s' d, (X86.switcher L).system.Reachable s →
        (X86.switcher L).system.step s (.switch d) s' →
        s'.current = d ∧ s.suspended d = some (X86.view L d s'.machine)) ∧
      ∀ s s' d, (A64.switcher L).system.Reachable s →
        (A64.switcher L).system.step s (.switch d) s' →
        s'.current = d ∧ s.suspended d = some (A64.view L d s'.machine) :=
  ⟨fun _ _ _ hs hstep => Switcher.resumes_suspended (X86.switcher_correct hL)
      (fun _ _ h => hL.owned_disjoint h) hs hstep,
    fun _ _ _ hs hstep => Switcher.resumes_suspended (A64.switcher_correct hL)
      (fun _ _ h => hL.owned_disjoint h) hs hstep⟩

/-- **A new context begins at its routine.** A context whose frame `co_stack_init` laid down at the
top of its stack: on both processors the first switch to it goes to the trampoline, which calls the
routine with the argument, the stack aligned as at any call. -/
theorem coSwitch_enters (hL : L.Separate) {top routine args trampoline : U64} {mem : Memory} {d : κ}
    (hroom : ∀ k < A64.numSaved + 3, top - BitVec.ofNat 64 (8 * (k + 1)) ∈ L.stack d)
    (hlow : 8 * (A64.numSaved + 3) ≤ top.toNat) (halign : top.toNat % 16 = 0) (next : U64) :
    (∀ s s' v, (X86.switcher L).system.Reachable s →
        (X86.switcher L).system.step s (.switch d) s' → s.suspended d = some v →
        Frame L (X86.numSaved + 1) X86.frameWords d v
          (coStackInit X86.numSaved (L.ctx d) top routine args trampoline mem) →
        let m := s'.machine.run (X86.coEntryTrampoline next)
        s'.machine.pc = trampoline ∧ m.pc = routine ∧ m.reg .rdi = args ∧ m.reg .rsp = top - 8 ∧
          ((m.reg .rsp).toNat + 8) % 16 = 0) ∧
      ∀ s s' v, (A64.switcher L).system.Reachable s →
        (A64.switcher L).system.step s (.switch d) s' → s.suspended d = some v →
        Frame L (A64.numSaved + 1) A64.frameWords d v
          (coStackInit A64.numSaved (L.ctx d) top routine args trampoline mem) →
        let m := s'.machine.run (A64.coEntryTrampoline next)
        s'.machine.pc = trampoline ∧ m.pc = routine ∧ m.reg .x0 = args ∧ m.reg .sp = top := by
  constructor
  · intro s s' v hs hstep hv hframe
    have hview := (Switcher.resumes_suspended (X86.switcher_correct hL)
      (fun _ _ h => hL.owned_disjoint h) hs hstep).2
    obtain rfl := Option.some.inj (hv.symm.trans hview)
    simp only [A64.numSaved] at hroom hlow
    exact X86.enters hL (fun k hk => hroom k (by simp only [X86.numSaved] at hk; omega))
      (by simp only [X86.numSaved]; omega) halign hframe next
  · intro s s' v hs hstep hv hframe
    have hview := (Switcher.resumes_suspended (A64.switcher_correct hL)
      (fun _ _ h => hL.owned_disjoint h) hs hstep).2
    obtain rfl := Option.some.inj (hv.symm.trans hview)
    exact A64.enters hL hroom hlow hframe next

end Runs

/-! ## Two contexts

Contexts apart from each other exist, so the results speak of something. -/

/-- The main program and one coroutine, a page of stack each. -/
def twoContexts : Contexts Bool where
  stack c := {a | (if c then 0x2000 else 0x1000) ≤ a.toNat ∧
    a.toNat < if c then 0x3000 else 0x2000}
  ctx c := if c then 0x4008 else 0x4000

/-- A page each, apart from each other. -/
theorem twoContexts_separate : twoContexts.Separate where
  stack_disjoint c d h := by
    rintro a ⟨hc, hc'⟩ ⟨hd, hd'⟩
    cases c <;> cases d <;> simp at h hc hc' hd hd' <;> omega
  ctx_inj c d h := by
    cases c <;> cases d <;> simp [twoContexts] at h ⊢
  ctx_stack c d := by
    rintro ⟨_, h⟩
    revert h
    cases c <;> cases d <;> decide

/-- Two contexts. -/
theorem coSwitch_resumes_two :
    (∀ s s' d, (X86.switcher twoContexts).system.Reachable s →
        (X86.switcher twoContexts).system.step s (.switch d) s' →
        s'.current = d ∧ s.suspended d = some (X86.view twoContexts d s'.machine)) ∧
      ∀ s s' d, (A64.switcher twoContexts).system.Reachable s →
        (A64.switcher twoContexts).system.step s (.switch d) s' →
        s'.current = d ∧ s.suspended d = some (A64.view twoContexts d s'.machine) :=
  coSwitch_resumes twoContexts_separate

/-- The registers of the main program when it calls `co_switch` for the first time. -/
def mainRegs : X86Reg → U64
  | .rsp => 0x1800
  | .rdi => 0x4000
  | .rsi => 0x4008
  | _ => 0

/-- Memory with the coroutine's stack laid down. -/
def startedMem : Memory := coStackInit X86.numSaved 0x4008 0x3000 0x501 0x502 0x503 fun _ => 0

/-- The first coroutine: routine `0x501` is called with the argument `0x502`. -/
theorem coSwitch_enters_first :
    ∃ s' : Switcher.Multiplexed Bool X86 CoView,
      (X86.switcher twoContexts).system.Reachable s' ∧
        s'.current = true ∧ s'.machine.pc = 0x503 ∧
        (s'.machine.run (X86.coEntryTrampoline 0x504)).pc = 0x501 ∧
        (s'.machine.run (X86.coEntryTrampoline 0x504)).reg .rdi = 0x502 := by
  -- the slots that `co_stack_init` fills are on the new stack
  have hroom : ∀ k < A64.numSaved + 3,
      (0x3000 : U64) - BitVec.ofNat 64 (8 * (k + 1)) ∈ twoContexts.stack true := by
    intro k hk
    simp only [A64.numSaved] at hk
    show 0x2000 ≤ _ ∧ _ < 0x3000
    bv_omega
  obtain ⟨v, hv⟩ := @exists_frame_coStackInit Bool twoContexts X86.frameWords true (fun _ => 0)
    0x3000 0x501 0x502 0x503 X86.numSaved twoContexts_separate
    (fun k hk => hroom k (by simp only [X86.numSaved, A64.numSaved] at *; omega))
    (fun _ => X86.exists_frameWords)
  let s : Switcher.Multiplexed Bool X86 CoView :=
    ⟨⟨mainRegs, startedMem, 0⟩, false, Function.update (fun _ => none) true (some v)⟩
  have hstart : (X86.switcher twoContexts).system.Reachable s := by
    refine .step (s := ⟨⟨mainRegs, fun _ => 0, 0⟩, false, fun _ => none⟩) (e := .start true)
      (.init fun _ => rfl) ⟨v, by simp, hv, rfl, rfl, fun j hj hne => ?_⟩
    cases j
    · exact absurd rfl hne
    · exact absurd rfl hj
  -- `main` may switch: its own stack has room for its frame
  have hready : X86.Ready twoContexts false true s.machine := by
    have hrsp : s.machine.reg .rsp = 0x1800 := rfl
    refine ⟨rfl, rfl, fun k hk => ?_, by rw [hrsp]; decide, by rw [hrsp]; decide⟩
    simp only [X86.numSaved] at hk
    show 0x1000 ≤ ((0x1800 : U64) - _).toNat ∧ ((0x1800 : U64) - _).toNat < 0x2000
    bv_omega
  have hstep : (X86.switcher twoContexts).system.step s (.switch true)
      ⟨s.machine.coSwitch, true, _⟩ :=
    ⟨by simp [s], by simp [s], hready, rfl⟩
  obtain ⟨hpc, hcall, hrdi, _⟩ := (coSwitch_enters twoContexts_separate hroom (by decide)
    (by decide) 0x504).1 s _ v hstart hstep (by simp [s]) hv
  exact ⟨_, hstart.step hstep, rfl, hpc, hcall, hrdi⟩

end Kxo
