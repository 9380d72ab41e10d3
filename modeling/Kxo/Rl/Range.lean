import Kxo.Lib.TransitionSystem
import Kxo.Rl.Values

/-!
# Kxo — the arithmetic of learning never overflows (`src/rl.c`, `src/rl-state.c`)

Every value is fed back into the next update, with the sign changed and each product rounded down.
The bound `2^23` is kept all the same: an update mixes an old value of at most `2^23` with a target
of at most `0.99 * 2^23 + 1.0`. So over any amount of training each operation is exact.
-/

namespace Kxo

/-! ## What the operations compute -/

/-- What `step_update_state_value` reads. -/
structure RlUpdate where
  reward : Int
  next : Int
  old : Int

namespace RlUpdate

def curr (u : RlUpdate) : Int := toS32 (u.reward - fixedMul gamma u.next)

/-- The results of its operations, before each is stored in an `int`. -/
def results (u : RlUpdate) : List Int :=
  [gamma * u.next / 2 ^ rlFixedScaleBits,
    u.reward - fixedMul gamma u.next,
    (rlFixedOne - learningRate) * u.old / 2 ^ rlFixedScaleBits,
    learningRate * u.curr / 2 ^ rlFixedScaleBits,
    fixedMul (rlFixedOne - learningRate) u.old + fixedMul learningRate u.curr]

end RlUpdate

/-- The results of the operations that give a new state its score. -/
def insertResults (table : U32) (player : Player) : List Int :=
  [getScore table player * rlFixedOne,
    initialMutiplier * toS32 (getScore table player * rlFixedOne) / 2 ^ rlFixedScaleBits]

/-- The updates of the loop of `update_state_value`, in its order. -/
def updatesOf (bucket : U32 → Nat) (afterStateHash : Nat → U32) (reward : Nat → Int)
    (player : Player) : Nat → Int → RlStore → List RlUpdate
  | 0, _, _ => []
  | j + 1, next, s =>
      if afterStateHash j ≠ 0 then
        let (pos, found) := findRlState bucket (afterStateHash j) s
        let (score, s) :=
          stepUpdateStateValue bucket (afterStateHash j) (reward j) next player s
        ⟨reward j, next, (found.stBuff pos).scores player⟩ ::
          updatesOf bucket afterStateHash reward player j score s
      else updatesOf bucket afterStateHash reward player j next s

/-! ## Training -/

/-- What reaches the store: a look-up, an eviction at any time, or the learning from an episode. -/
inductive RlCall where
  | lookup (table : U32)
  | evict
  | train (afterStateHash : Nat → U32) (reward : Nat → Int) (steps : Nat) (player : Player)

/-- A loss, a draw or a win. -/
def rewards : List Int := [0, 2 ^ 15, 2 ^ 16]

def rlSystem (bucket : U32 → Nat) : System RlStore RlCall where
  init s := s = initRlAgent
  step s call s' :=
    match call with
    | .lookup table => s' = (findRlState bucket table s).2
    | .evict => s' = cleanState s
    | .train afterStateHash reward steps player =>
        (∀ j, reward j ∈ rewards) ∧
          s' = updateStateValue bucket afterStateHash reward steps player s

/-! ## The bound -/

/-- A reward is between zero and one. -/
theorem rewards_le {r : Int} (h : r ∈ rewards) : 0 ≤ r ∧ r ≤ rlFixedOne := by
  simp only [rewards, List.mem_cons, List.not_mem_nil, or_false] at h
  simp only [rlFixedOne, rlFixedScaleBits]
  omega

/-- The target is computed without overflow, and is within the bound of the values. -/
theorem RlUpdate.curr_eq {u : RlUpdate} (hnext : |u.next| ≤ maxValue)
    (hreward : 0 ≤ u.reward ∧ u.reward ≤ rlFixedOne) :
    u.curr = u.reward - fixedMul gamma u.next ∧ |u.curr| ≤ maxValue := by
  obtain ⟨_, hcurr⟩ := target_le hnext hreward
  have heq : u.curr = u.reward - fixedMul gamma u.next := toS32_of_abs_le hcurr
  rw [heq]
  exact ⟨rfl, hcurr⟩

/-- **No operation of an update leaves the bound.** -/
theorem RlUpdate.results_le {u : RlUpdate} (hold : |u.old| ≤ maxValue) (hnext : |u.next| ≤ maxValue)
    (hreward : 0 ≤ u.reward ∧ u.reward ≤ rlFixedOne) :
    ∀ x ∈ u.results, |x| ≤ maxValue ∧ toS32 x = x := by
  obtain ⟨hcurr, hle⟩ := RlUpdate.curr_eq hnext hreward
  obtain ⟨_, _, hsum⟩ := terms_le hold hle
  have hmax : maxValue = 8388608 := rfl
  have hone : rlFixedOne = 65536 := rfl
  have hall : ∀ x ∈ u.results, |x| ≤ maxValue := by
    simp only [results, List.forall_mem_cons]
    refine ⟨(gamma_mul_le hnext).trans (by omega), hcurr ▸ hle,
      (keep_mul_le hold).trans (by omega), (learn_mul_le hle).trans (by omega), hsum, by simp⟩
  exact fun x hx => ⟨hall x hx, toS32_of_abs_le (hall x hx)⟩

/-- Nor do those of an insertion leave 32 bits. -/
theorem insertResults_exact (table : U32) (player : Player) :
    ∀ x ∈ insertResults table player, toS32 x = x := by
  have hscore := abs_le.mp (abs_getScore_le table player)
  simp only [maxScore] at hscore
  have hscaled : toS32 (getScore table player * rlFixedOne) = getScore table player * 65536 :=
    toS32_of_bounds (by simp only [rlFixedOne, rlFixedScaleBits]; omega)
      (by simp only [rlFixedOne, rlFixedScaleBits]; omega)
  simp only [insertResults, List.forall_mem_cons, List.not_mem_nil, false_implies, implies_true,
    and_true]
  refine ⟨hscaled, ?_⟩
  rw [hscaled]
  simp only [initialMutiplier, rlFixedScaleBits]
  exact toS32_of_bounds (by omega) (by omega)

/-- The updates of an episode read values within the bound. -/
theorem ValuesBounded.updatesOf {s : RlStore} (h : ValuesBounded s) (bucket : U32 → Nat)
    (afterStateHash : Nat → U32) {reward : Nat → Int} (hreward : ∀ j, reward j ∈ rewards)
    (player : Player) (j : Nat) {next : Int} (hnext : |next| ≤ maxValue) :
    ∀ u ∈ Kxo.updatesOf bucket afterStateHash reward player j next s,
      |u.old| ≤ maxValue ∧ |u.next| ≤ maxValue ∧ u.reward ∈ rewards := by
  induction j generalizing next s with
  | zero => simp [Kxo.updatesOf]
  | succ j ih =>
    rw [Kxo.updatesOf]
    split
    case isTrue =>
      have hfind := h.findRlState bucket (afterStateHash j)
      obtain ⟨hscore, hstep⟩ :=
        h.stepUpdate bucket (afterStateHash j) hnext (rewards_le (hreward j)) player
      rw [List.forall_mem_cons]
      exact ⟨⟨hfind _ player, hnext, hreward j⟩, ih hstep hscore⟩
    case isFalse => exact ih h hnext

/-- Everything that reaches the store keeps the bound. -/
theorem rlSystem_valuesBounded (bucket : U32 → Nat) :
    (rlSystem bucket).Invariant ValuesBounded where
  init := by
    rintro s rfl
    exact initRlAgent_valuesBounded
  step := by
    intro s call s' h hstep
    cases call with
    | lookup table =>
      obtain rfl := hstep
      exact h.findRlState bucket table
    | evict =>
      obtain rfl := hstep
      exact h.cleanState
    | train afterStateHash reward steps player =>
      obtain ⟨hreward, rfl⟩ := hstep
      exact h.updateStateValue bucket afterStateHash (fun j => rewards_le (hreward j)) steps player

/-- **Learning never overflows.** After any look-ups, evictions and episodes, with any hash
function, every score is within `2^23` and so none is `RL_FIXED_MIN`; and in the next episode every
operation of every update, `curr` among them, is exact and stays within `2^23`, as those of an
insertion stay within 32 bits. -/
theorem rl_never_overflows (bucket : U32 → Nat) {s : RlStore} (h : (rlSystem bucket).Reachable s) :
    (∀ pos p, |(s.stBuff pos).scores p| ≤ 2 ^ 23 ∧ (s.stBuff pos).scores p ≠ rlFixedMin) ∧
    (∀ afterStateHash reward steps player, (∀ j, reward j ∈ rewards) →
      ∀ u ∈ updatesOf bucket afterStateHash reward player steps 0 s,
        |u.curr| ≤ 2 ^ 23 ∧ ∀ x ∈ u.results, |x| ≤ 2 ^ 23 ∧ toS32 x = x) ∧
    ∀ table player, ∀ x ∈ insertResults table player, toS32 x = x := by
  have hs := (rlSystem_valuesBounded bucket).holds h
  refine ⟨fun pos p => ⟨hs pos p, fun hmin => ?_⟩,
    fun afterStateHash reward steps player hreward u hu => ?_, insertResults_exact⟩
  · have hle := (abs_le.mp (hs pos p)).1
    rw [hmin, rlFixedMin_eq] at hle
    exact absurd hle (by decide)
  · obtain ⟨hold, hnext, hr⟩ :=
      hs.updatesOf bucket afterStateHash hreward player steps (by decide) u hu
    exact ⟨(RlUpdate.curr_eq hnext (rewards_le hr)).2,
      RlUpdate.results_le hold hnext (rewards_le hr)⟩

/-- Module load. -/
theorem rl_never_overflows_init :
    (∀ pos p, |(initRlAgent.stBuff pos).scores p| ≤ 2 ^ 23 ∧
      (initRlAgent.stBuff pos).scores p ≠ rlFixedMin) ∧
    (∀ afterStateHash reward steps player, (∀ j, reward j ∈ rewards) →
      ∀ u ∈ updatesOf (fun _ => 0) afterStateHash reward player steps 0 initRlAgent,
        |u.curr| ≤ 2 ^ 23 ∧ ∀ x ∈ u.results, |x| ≤ 2 ^ 23 ∧ toS32 x = x) ∧
    ∀ table player, ∀ x ∈ insertResults table player, toS32 x = x :=
  rl_never_overflows _ (.init rfl)

end Kxo
