import Kxo.Lib.BinaryPolynomial
import Kxo.Lib.TransitionSystem
import Kxo.Spec.Mcts

/-!
# Kxo — the jump of the generator (`xoroshiro.c`)

The update of `xoro_next` is a linear map of the 128 bits of the state. `xoro_jump` applies to it
the polynomial whose bits are `JUMP`, and that is the remainder of `X ^ 2 ^ 64` by a polynomial at
which the map vanishes. Both functions are therefore bijections that fix the state of zeros only.

## The architecture

* **`xoroLinear`** — states form a vector space over GF(2), and the update is linear on it
  (`xoroUpdate_add`), because rotations, shifts and exclusive ors are.
* **`xoroUpdate_bijective`** — `xoroPrev` undoes the update.
* **`xoroJump_eq_aeval`** — the loop of `xoro_jump` is `BinaryPolynomial.evalStep` for the update,
  over the bits of `JUMP`.
* **`modulusAgrees_all`** — the update satisfies `modulus`. That is a linear statement, so it is
  enough to evaluate it on the bits of the first word and to carry it along one update: these states
  and their updates span all states.
* **`iterate_square_modulus`** — the remainder, computed by squaring `X` 64 times.
* **`xoroJump_eq_iterate`** — hence one jump is `2 ^ 64` updates.
-/

namespace Kxo

open BinaryPolynomial

/-! ## States as vectors of bits

A state is two words; addition is exclusive or, and the scalars are 0 and 1. -/

instance : Zero StateArray := ⟨⟨0, 0⟩⟩

instance : Add StateArray := ⟨fun a b => ⟨a.s0 ^^^ b.s0, a.s1 ^^^ b.s1⟩⟩

instance : Neg StateArray := ⟨id⟩

/-- The zero of the vector space is the state of zeros. -/
theorem StateArray.zero_def : (0 : StateArray) = ⟨0, 0⟩ := rfl

/-- Addition is exclusive or, word by word. -/
theorem StateArray.add_def (a b : StateArray) : a + b = ⟨a.s0 ^^^ b.s0, a.s1 ^^^ b.s1⟩ := rfl

/-- The sum of two states given by their words. -/
theorem StateArray.mk_add (a0 a1 b0 b1 : U64) :
    (⟨a0, a1⟩ + ⟨b0, b1⟩ : StateArray) = ⟨a0 ^^^ b0, a1 ^^^ b1⟩ := rfl

instance : AddCommGroup StateArray where
  add_assoc a b c := by simp only [StateArray.add_def, BitVec.xor_assoc]
  zero_add a := by simp [StateArray.add_def, StateArray.zero_def]
  add_zero a := by simp [StateArray.add_def, StateArray.zero_def]
  neg_add_cancel a := by
    change a + a = 0
    simp [StateArray.add_def, StateArray.zero_def]
  add_comm a b := by simp only [StateArray.add_def, BitVec.xor_comm]
  nsmul := nsmulRec
  zsmul := zsmulRec

/-- Every state is its own opposite. -/
theorem StateArray.add_self (a : StateArray) : a + a = 0 := by
  simp [StateArray.add_def, StateArray.zero_def]

instance : Module (ZMod 2) StateArray :=
  AddCommGroup.zmodModule fun a => by rw [two_nsmul, a.add_self]

/-! ## Rotation

Bit by bit, a rotation is a shift around the end. -/

/-- A rotation, bit by bit. -/
theorem getLsbD_rotl (x : U64) (k : Nat) {i : Nat} (hi : i < 64) :
    (rotl x k).getLsbD i = if i < k then x.getLsbD (64 - k + i) else x.getLsbD (i - k) := by
  rw [rotl, BitVec.getLsbD_or, BitVec.getLsbD_shiftLeft, BitVec.getLsbD_ushiftRight]
  by_cases hk : i < k
  · simp [hk]
  · -- what comes down from the top lies below bit `k`
    simp [hk, hi, BitVec.getLsbD_of_ge x (64 - k + i) (by omega)]

/-- Rotations are linear. -/
theorem rotl_xor (x y : U64) (k : Nat) : rotl (x ^^^ y) k = rotl x k ^^^ rotl y k := by
  refine BitVec.eq_of_getLsbD_eq fun i hi => ?_
  rw [BitVec.getLsbD_xor, getLsbD_rotl _ k hi, getLsbD_rotl _ k hi, getLsbD_rotl _ k hi]
  split <;> rw [BitVec.getLsbD_xor]

/-- Rotating on by the rest of a whole turn. -/
theorem rotl_rotl (x : U64) {k m : Nat} (hkm : k + m = 64) : rotl (rotl x k) m = x := by
  refine BitVec.eq_of_getLsbD_eq fun i hi => ?_
  rw [getLsbD_rotl _ m hi]
  split
  next him => rw [getLsbD_rotl _ k (by omega), if_neg (by omega)]; congr 1; omega
  next him => rw [getLsbD_rotl _ k (by omega), if_pos (by omega)]; congr 1; omega

/-! ## One step

The update without the value that `xoro_next` returns. The constants are those of the code. -/

/-- The state update of `xoro_next`. -/
def xoroUpdate (obj : StateArray) : StateArray := (xoroNext obj).2

/-- The update on the two words. -/
theorem xoroUpdate_mk (s0 s1 : U64) : xoroUpdate ⟨s0, s1⟩ =
    ⟨rotl s0 24 ^^^ (s1 ^^^ s0) ^^^ ((s1 ^^^ s0) <<< 16), rotl (s1 ^^^ s0) 37⟩ := rfl

/-- Exclusive ors in another order. -/
theorem xor_xor_xor_comm (a b c d : U64) : a ^^^ b ^^^ (c ^^^ d) = a ^^^ c ^^^ (b ^^^ d) := by
  ac_rfl

/-- **The update is linear.** -/
theorem xoroUpdate_add (a b : StateArray) : xoroUpdate (a + b) = xoroUpdate a + xoroUpdate b := by
  obtain ⟨a0, a1⟩ := a
  obtain ⟨b0, b1⟩ := b
  rw [StateArray.mk_add, xoroUpdate_mk, xoroUpdate_mk, xoroUpdate_mk, StateArray.mk_add,
    xor_xor_xor_comm a1, rotl_xor, rotl_xor, BitVec.shiftLeft_xor_distrib,
    xor_xor_xor_comm (rotl a0 24), xor_xor_xor_comm (rotl a0 24 ^^^ _)]

/-- The update as a linear map. -/
def xoroLinear : Module.End (ZMod 2) StateArray :=
  AddMonoidHom.toZModLinearMap 2 (AddMonoidHom.mk' xoroUpdate xoroUpdate_add)

/-- A power of the linear map is an iterate of the update. -/
theorem xoroLinear_pow (n : Nat) (obj : StateArray) :
    (xoroLinear ^ n) obj = xoroUpdate^[n] obj := Module.End.pow_apply xoroLinear n obj

/-- Powers of the map commute with the update. -/
theorem xoroLinear_pow_xoroUpdate (n : Nat) (obj : StateArray) :
    (xoroLinear ^ n) (xoroUpdate obj) = xoroLinear ((xoroLinear ^ n) obj) := by
  rw [xoroLinear_pow, xoroLinear_pow, ← Function.iterate_succ_apply, Function.iterate_succ_apply']
  rfl

/-- The state before an update. -/
def xoroPrev (obj : StateArray) : StateArray :=
  let s1 := rotl obj.s1 27
  let s0 := rotl (obj.s0 ^^^ s1 ^^^ (s1 <<< 16)) 40
  ⟨s0, s1 ^^^ s0⟩

/-- The previous state, on the two words. -/
theorem xoroPrev_mk (s0 s1 : U64) : xoroPrev ⟨s0, s1⟩ =
    ⟨rotl (s0 ^^^ rotl s1 27 ^^^ (rotl s1 27 <<< 16)) 40,
      rotl s1 27 ^^^ rotl (s0 ^^^ rotl s1 27 ^^^ (rotl s1 27 <<< 16)) 40⟩ := rfl

/-- Nothing is added. -/
theorem zero_xor (a : U64) : 0 ^^^ a = a := BitVec.zero_xor

/-- What is added twice goes away. -/
theorem xor_xor_xor_cancel (a b c : U64) : a ^^^ b ^^^ c ^^^ b ^^^ c = a := by
  rw [BitVec.xor_assoc a, BitVec.xor_assoc a, BitVec.xor_comm b, xor_xor_self, xor_xor_self]

/-- The previous state of an update is the state before it. -/
theorem xoroPrev_xoroUpdate (obj : StateArray) : xoroPrev (xoroUpdate obj) = obj := by
  obtain ⟨s0, s1⟩ := obj
  rw [xoroUpdate_mk, xoroPrev_mk, rotl_rotl _ rfl, xor_xor_xor_cancel, rotl_rotl _ rfl,
    xor_xor_self]

/-- And the other way round. -/
theorem xoroUpdate_xoroPrev (obj : StateArray) : xoroUpdate (xoroPrev obj) = obj := by
  obtain ⟨s0, s1⟩ := obj
  rw [xoroPrev_mk, xoroUpdate_mk, xor_xor_self, rotl_rotl _ rfl, rotl_rotl _ rfl,
    xor_xor_xor_cancel]

/-- Every state has one state before it. -/
theorem xoroUpdate_bijective : Function.Bijective xoroUpdate :=
  Function.bijective_iff_has_inverse.mpr ⟨xoroPrev, xoroPrev_xoroUpdate, xoroUpdate_xoroPrev⟩

/-! ## The jump

The identity of polynomials that makes the jump right is computed once, on bit vectors of 128 bits;
what the bit vectors stand for is the matter of `BinaryPolynomial`. -/

/-- The characteristic polynomial of the update, without `X ^ 128`. -/
def modulus : BitVec 128 := 0x0008828e513b43d5095b8f76579aa001

/-- The polynomial that `JUMP` stands for. -/
def jumpPoly : BitVec 128 := 0x170865df4b3201fc#64 ++ 0xdf900294d8f554a5#64

/-- The bits that the loop goes through are those of one polynomial. -/
theorem jumpBits_eq : jumpBits = (List.range 128).map jumpPoly.getLsbD := by decide +kernel

/-- The body of the loop is a step of the evaluation of a polynomial. -/
theorem jumpStep_eq : jumpStep = evalStep xoroLinear := by
  funext acc bit
  cases bit <;> rfl

/-- The jump applies a polynomial of the update. -/
theorem xoroJump_eq_aeval (obj : StateArray) :
    xoroJump obj = Polynomial.aeval xoroLinear (toPoly jumpPoly) obj := by
  rw [xoroJump, jumpBits_eq, jumpStep_eq]
  exact congrArg Prod.fst (foldl_evalStep_toPoly xoroLinear jumpPoly obj)

/-- The loop of the jump over the bits of `modulus` adds up what 128 updates lead to. -/
def ModulusAgrees (obj : StateArray) : Prop :=
  let acc := ((List.range 128).map modulus.getLsbD).foldl jumpStep (⟨0, 0⟩, obj)
  acc.1 = acc.2

instance : DecidablePred ModulusAgrees := fun _ => inferInstanceAs (Decidable (_ = _))

/-- What the loop over the bits of `modulus` adds up to, as a linear statement. -/
theorem modulusAgrees_iff (obj : StateArray) : ModulusAgrees obj ↔
    Polynomial.aeval xoroLinear (toPoly modulus) obj = (xoroLinear ^ 128) obj := by
  rw [ModulusAgrees, jumpStep_eq]
  exact iff_of_eq (congrArg (fun acc => acc.1 = acc.2)
    (foldl_evalStep_toPoly xoroLinear modulus obj))

/-- The statement on the bits of the first word, by evaluation. -/
theorem modulusAgrees_twoPow : ∀ i < 64, ModulusAgrees ⟨BitVec.twoPow 64 i, 0⟩ := by
  decide +kernel

/-- It passes to sums. -/
theorem modulusAgrees_add {a b : StateArray} (ha : ModulusAgrees a) (hb : ModulusAgrees b) :
    ModulusAgrees (a + b) := by
  rw [modulusAgrees_iff] at ha hb ⊢
  rw [map_add, map_add, ha, hb]

/-- It holds of zero. -/
theorem modulusAgrees_zero : ModulusAgrees 0 := by
  rw [modulusAgrees_iff, map_zero, map_zero]

/-- It passes along the update, which commutes with both sides. -/
theorem modulusAgrees_xoroUpdate {obj : StateArray} (h : ModulusAgrees obj) :
    ModulusAgrees (xoroUpdate obj) := by
  have hcomm : Polynomial.aeval xoroLinear (toPoly modulus) * xoroLinear =
      xoroLinear * Polynomial.aeval xoroLinear (toPoly modulus) := by
    simpa using congrArg (Polynomial.aeval xoroLinear) (Polynomial.X_mul (p := toPoly modulus)).symm
  rw [modulusAgrees_iff] at h ⊢
  calc Polynomial.aeval xoroLinear (toPoly modulus) (xoroUpdate obj)
      = xoroLinear (Polynomial.aeval xoroLinear (toPoly modulus) obj) :=
        congrArg (fun T : Module.End (ZMod 2) StateArray => T obj) hcomm
    _ = xoroLinear ((xoroLinear ^ 128) obj) := by rw [h]
    _ = (xoroLinear ^ 128) (xoroUpdate obj) :=
        (xoroLinear_pow_xoroUpdate 128 obj).symm

/-- The bits of the first word span the states with a second word of zeros, and these and their
updates span all states. -/
theorem modulusAgrees_all (obj : StateArray) : ModulusAgrees obj := by
  have hs0 : ∀ x : U64, ModulusAgrees ⟨x, 0⟩ := xor_induction modulusAgrees_zero
    modulusAgrees_twoPow fun x y hx hy => by
      have hsum := modulusAgrees_add hx hy
      rwa [StateArray.mk_add, BitVec.xor_self] at hsum
  have hs1 : ∀ x : U64, ∃ y : U64, ModulusAgrees ⟨y, x⟩ := fun x => by
    have hupdate := modulusAgrees_xoroUpdate (hs0 (rotl x 27))
    rw [xoroUpdate_mk, zero_xor, rotl_rotl x (show 27 + 37 = 64 from rfl)] at hupdate
    exact ⟨_, hupdate⟩
  obtain ⟨y, hy⟩ := hs1 obj.s1
  have hsum := modulusAgrees_add (hs0 (obj.s0 ^^^ y)) hy
  rwa [StateArray.mk_add, xor_xor_self, zero_xor] at hsum

/-- The map vanishes at its characteristic polynomial. -/
theorem aeval_modulus : Polynomial.aeval xoroLinear (Polynomial.X ^ 128 : Polynomial (ZMod 2)) =
    Polynomial.aeval xoroLinear (toPoly modulus) := by
  rw [map_pow, Polynomial.aeval_X]
  exact LinearMap.ext fun obj => ((modulusAgrees_iff obj).mp (modulusAgrees_all obj)).symm

/-- `JUMP` is the remainder of `X ^ 2 ^ 64`. -/
theorem iterate_square_modulus : (square modulus)^[64] (BitVec.twoPow 128 1) = jumpPoly := by
  decide +kernel

/-- **A jump is `2 ^ 64` updates.** -/
theorem xoroJump_eq_iterate (obj : StateArray) : xoroJump obj = xoroUpdate^[2 ^ 64] obj := by
  rw [xoroJump_eq_aeval, ← iterate_square_modulus, aeval_iterate_square aeval_modulus (by omega),
    xoroLinear_pow]

/-! ## Every sequence of calls

`xoro_next` and `xoro_jump` in any order, from any seed. -/

inductive XoroCall
  | next
  | jump

/-- The generator from a seed on, with the calls in any order. -/
def xoroSystem (seed : StateArray) : System StateArray XoroCall where
  init obj := obj = seed
  step obj call obj' := match call with
    | .next => obj' = xoroUpdate obj
    | .jump => obj' = xoroJump obj

/-- The state of zeros stays. -/
theorem xoroUpdate_zero : xoroUpdate ⟨0, 0⟩ = ⟨0, 0⟩ := by decide

/-- Jumps are iterates of a bijection. -/
theorem xoroJump_bijective : Function.Bijective xoroJump := by
  rw [funext xoroJump_eq_iterate]
  exact xoroUpdate_bijective.iterate _

/-- A jump leaves the state of zeros too. -/
theorem xoroJump_zero : xoroJump ⟨0, 0⟩ = ⟨0, 0⟩ := by
  rw [xoroJump_eq_iterate]
  exact Function.iterate_fixed xoroUpdate_zero _

/-- A generator that does not start from zeros never has them. -/
theorem nonzero_invariant {seed : StateArray} (hseed : seed ≠ ⟨0, 0⟩) :
    (xoroSystem seed).Invariant (· ≠ ⟨0, 0⟩) where
  init obj hinit := by rwa [hinit]
  step obj call obj' h hstep := by
    intro hzero
    cases call with
    | next =>
      have hnext : xoroUpdate obj = xoroUpdate ⟨0, 0⟩ :=
        (hstep.symm.trans hzero).trans xoroUpdate_zero.symm
      exact h (xoroUpdate_bijective.injective hnext)
    | jump =>
      have hjump : xoroJump obj = xoroJump ⟨0, 0⟩ :=
        (hstep.symm.trans hzero).trans xoroJump_zero.symm
      exact h (xoroJump_bijective.injective hjump)

/-- **The jump is a jump**: `xoro_jump` leaves the state that `2 ^ 64` updates lead to, both are
bijections that fix the state of zeros, and from another seed no sequence of calls reaches it. -/
theorem xoroJump_jumps :
    (∀ obj, xoroJump obj = (fun s => (xoroNext s).2)^[2 ^ 64] obj) ∧
    (Function.Bijective (fun s => (xoroNext s).2) ∧ (xoroNext ⟨0, 0⟩).2 = ⟨0, 0⟩) ∧
    (Function.Bijective xoroJump ∧ xoroJump ⟨0, 0⟩ = ⟨0, 0⟩) ∧
    ∀ seed, seed ≠ ⟨0, 0⟩ → ∀ obj, (xoroSystem seed).Reachable obj → obj ≠ ⟨0, 0⟩ :=
  ⟨xoroJump_eq_iterate, ⟨xoroUpdate_bijective, xoroUpdate_zero⟩,
    ⟨xoroJump_bijective, xoroJump_zero⟩, fun _ hseed _ hr => (nonzero_invariant hseed).holds hr⟩

/-- From the seed of `xoro_init`. -/
theorem xoroJump_jumps_xoroInit :
    ∀ obj, (xoroSystem xoroInit).Reachable obj → obj ≠ ⟨0, 0⟩ :=
  xoroJump_jumps.2.2.2 xoroInit (by decide)

end Kxo
