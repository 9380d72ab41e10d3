import Kxo.Game.Board
import Kxo.Spec.Rl
import Mathlib.Data.List.Basic

/-!
# Kxo — the learnt values stay in range (`src/rl.c`, `src/rl-state.c`)

`play_rl` starts from `RL_FIXED_MIN` and picks a cell only for a value above it. The values it
compares lie in `[-2^23, 2^23]`: initial values are six times a line evaluation, and one update
mixes the old value with a reward of at most one, less a discounted later value. Before any learning
they are the line evaluations themselves.

* **`ValuesBounded`** — the bound, for every slot, in use or not. `ValuesBounded.findRlState`,
  `ValuesBounded.setScore` and `ValuesBounded.updateStateValue` keep it.
* **`abs_update_le`** — why one update keeps it: the discount and the learning rate are below one,
  and what they leave is enough for the reward.
* **`playRl_legal`**, **`playRl_ne_neg_one`** — so the scan picks a cell whenever there is one.
* **`Unlearnt.playRl`** — and before any update it is a scan of line evaluations.
-/

namespace Kxo

/-! ## The bound

The bound leaves room in 32 bits for every result of an update, and below it for a reward of one
beside a discounted value. -/

/-- The bound on every learnt value. -/
def maxValue : Int := 2 ^ 23

/-- Every value of the store, used slot or not, is within the bound. -/
def ValuesBounded (s : RlStore) : Prop := ∀ pos p, |(s.stBuff pos).scores p| ≤ maxValue

/-- A number in range is not changed by the conversion to 32 bits. -/
theorem toS32_of_bounds {x : Int} (h1 : -2 ^ 31 ≤ x) (h2 : x < 2 ^ 31) : toS32 x = x :=
  Int.bmod_eq_of_le_mul_two (by norm_num; omega) (by norm_num; omega)

/-- The scan starts from the least 32-bit number. -/
theorem rlFixedMin_eq : rlFixedMin = -2 ^ 31 := by decide

/-- At module load every slot is zero. -/
theorem initRlAgent_valuesBounded : ValuesBounded initRlAgent := by
  intro pos p
  show |(0 : Int)| ≤ maxValue
  decide

/-- The value of a new state. -/
theorem fixedMulS32_getScore (table : U32) (p : Player) :
    fixedMulS32 initialMutiplier (getScore table p) = 6 * getScore table p := by
  have h := abs_le.mp (abs_getScore_le table p)
  simp only [maxScore] at h
  have hscaled : toS32 (getScore table p * rlFixedOne) = getScore table p * 65536 :=
    toS32_of_bounds (by simp only [rlFixedOne, rlFixedScaleBits]; omega)
      (by simp only [rlFixedOne, rlFixedScaleBits]; omega)
  rw [fixedMulS32, hscaled, fixedMul, initialMutiplier]
  have hdiv : 6 * (getScore table p * 65536) / 2 ^ rlFixedScaleBits = 6 * getScore table p := by
    simp only [rlFixedScaleBits]; omega
  rw [show (0x6 : Int) = 6 from rfl, hdiv]
  exact toS32_of_bounds (by omega) (by omega)

/-- Six times an evaluation is far within the bound. -/
theorem abs_initialValue_le (table : U32) (p : Player) :
    |fixedMulS32 initialMutiplier (getScore table p)| ≤ maxValue := by
  rw [fixedMulS32_getScore]
  have h := abs_le.mp (abs_getScore_le table p)
  simp only [maxScore, maxValue] at *
  exact abs_le.mpr ⟨by omega, by omega⟩

/-! ## What every slot has

A slot is all zero, or it holds a table with its initial scores or with scores written later. -/

section Slots

variable {Q : XoState → Prop} {s : RlStore}

/-- One slot is overwritten. -/
theorem forall_slot_update (h : ∀ pos, Q (s.stBuff pos)) (pos : Nat) {st : XoState} (hst : Q st)
    (q : Nat) : Q (Function.update s.stBuff pos st q) := by
  rcases eq_or_ne q pos with rfl | hq
  · rwa [Function.update_self]
  · rw [Function.update_of_ne hq]
    exact h q

/-- An eviction leaves zeros in the slots it frees. -/
theorem forall_slot_cleanState (hzero : Q ⟨0, fun _ => 0⟩) (h : ∀ pos, Q (s.stBuff pos)) :
    ∀ pos, Q ((cleanState s).stBuff pos) := by
  unfold cleanState
  generalize s.orders.take cleanNStates = victims
  induction victims generalizing s with
  | nil => exact h
  | cons pos rest ih => exact ih (forall_slot_update h pos hzero)

/-- A new state starts from its initial scores. -/
theorem forall_slot_insert
    (hnew : ∀ table, Q ⟨table, fun player => fixedMulS32 initialMutiplier (getScore table player)⟩)
    (h : ∀ pos, Q (s.stBuff pos)) (bucket : U32 → Nat) (table : U32) :
    ∀ pos, Q ((s.insert bucket table).2.stBuff pos) := fun q =>
  forall_slot_update h (findFirstZeroBit s.stMap) (hnew table) q

/-- **A look-up keeps what every slot has**, if empty slots and new ones have it. -/
theorem forall_slot_findRlState (hzero : Q ⟨0, fun _ => 0⟩)
    (hnew : ∀ table, Q ⟨table, fun player => fixedMulS32 initialMutiplier (getScore table player)⟩)
    (h : ∀ pos, Q (s.stBuff pos)) (bucket : U32 → Nat) (table : U32) :
    ∀ pos, Q ((findRlState bucket table s).2.stBuff pos) := by
  unfold findRlState
  split
  · exact h
  · dsimp only
    split
    · exact forall_slot_insert hnew (forall_slot_cleanState hzero h) bucket table
    · exact forall_slot_insert hnew h bucket table

end Slots

/-! ## The store keeps the bound

Evictions and insertions write zeros and initial scores. -/

/-- Zeros are within the bound. -/
theorem ValuesBounded.cleanState {s : RlStore} (h : ValuesBounded s) :
    ValuesBounded (Kxo.cleanState s) :=
  forall_slot_cleanState (Q := fun st => ∀ p, |st.scores p| ≤ maxValue)
    (fun _ => show |(0 : Int)| ≤ maxValue by decide) h

/-- So are initial scores. -/
theorem ValuesBounded.findRlState {s : RlStore} (h : ValuesBounded s) (bucket : U32 → Nat)
    (table : U32) : ValuesBounded (Kxo.findRlState bucket table s).2 :=
  forall_slot_findRlState (Q := fun st => ∀ p, |st.scores p| ≤ maxValue)
    (fun _ => show |(0 : Int)| ≤ maxValue by decide) abs_initialValue_le h bucket table

/-- A write of a score within the bound. -/
theorem ValuesBounded.setScore {s : RlStore} (h : ValuesBounded s) (pos : Nat) (p : Player)
    {score : Int} (hscore : |score| ≤ maxValue) : ValuesBounded (s.setScore pos p score) := by
  refine forall_slot_update (Q := fun st => ∀ p, |st.scores p| ≤ maxValue) h pos fun q => ?_
  by_cases hq : q = p
  · subst hq
    simpa using hscore
  · simpa [hq] using h pos q

/-! ### The products of an update

Within the bound no product leaves 32 bits, so each is an exact quotient. -/

/-- The discount takes at least one, in fixed point, off the bound. -/
theorem gamma_mul_le {x : Int} (h : |x| ≤ maxValue) :
    |gamma * x / 2 ^ rlFixedScaleBits| ≤ maxValue - rlFixedOne := by
  simp only [maxValue, rlFixedOne, rlFixedScaleBits, gamma, abs_le] at *
  omega

/-- The share of the old value falls short of the bound by what the learning rate can add. -/
theorem keep_mul_le {x : Int} (h : |x| ≤ maxValue) :
    |(rlFixedOne - learningRate) * x / 2 ^ rlFixedScaleBits| ≤ maxValue - 167680 := by
  simp only [maxValue, rlFixedOne, rlFixedScaleBits, learningRate, abs_le] at *
  omega

/-- The share of the target. -/
theorem learn_mul_le {x : Int} (h : |x| ≤ maxValue) :
    |learningRate * x / 2 ^ rlFixedScaleBits| ≤ 167680 := by
  simp only [maxValue, rlFixedScaleBits, learningRate, abs_le] at *
  omega

/-- A value within the bound fits 32 bits. -/
theorem toS32_of_abs_le {x : Int} (h : |x| ≤ maxValue) : toS32 x = x := by
  simp only [maxValue, abs_le] at h
  exact toS32_of_bounds (by omega) (by omega)

/-- The discounted value of the later state, and the target of an update. -/
theorem target_le {reward next : Int} (hnext : |next| ≤ maxValue)
    (hreward : 0 ≤ reward ∧ reward ≤ rlFixedOne) :
    fixedMul gamma next = gamma * next / 2 ^ rlFixedScaleBits ∧
      |reward - fixedMul gamma next| ≤ maxValue := by
  have hle := gamma_mul_le hnext
  have hone : (0 : Int) ≤ rlFixedOne := by decide
  have heq : fixedMul gamma next = gamma * next / 2 ^ rlFixedScaleBits :=
    toS32_of_abs_le (hle.trans (by omega))
  rw [heq]
  rw [abs_le] at hle ⊢
  exact ⟨rfl, by omega, by omega⟩

/-- The two terms of an update, and their sum. -/
theorem terms_le {v curr : Int} (hv : |v| ≤ maxValue) (hcurr : |curr| ≤ maxValue) :
    fixedMul (rlFixedOne - learningRate) v =
        (rlFixedOne - learningRate) * v / 2 ^ rlFixedScaleBits ∧
      fixedMul learningRate curr = learningRate * curr / 2 ^ rlFixedScaleBits ∧
      |fixedMul (rlFixedOne - learningRate) v + fixedMul learningRate curr| ≤ maxValue := by
  have hold := keep_mul_le hv
  have hnew := learn_mul_le hcurr
  have hmax : maxValue = 8388608 := rfl
  have heq : fixedMul (rlFixedOne - learningRate) v =
      (rlFixedOne - learningRate) * v / 2 ^ rlFixedScaleBits :=
    toS32_of_abs_le (hold.trans (by omega))
  have heq' : fixedMul learningRate curr = learningRate * curr / 2 ^ rlFixedScaleBits :=
    toS32_of_abs_le (hnew.trans (by omega))
  rw [heq, heq']
  exact ⟨rfl, rfl, (abs_add_le _ _).trans (by omega)⟩

/-- **One update keeps the bound**: `0.98 * v + 0.02 * (reward - 0.99 * next)`, each product rounded
down. -/
theorem abs_update_le {v reward next : Int} (hv : |v| ≤ maxValue) (hnext : |next| ≤ maxValue)
    (hreward : 0 ≤ reward ∧ reward ≤ rlFixedOne) :
    |toS32 (fixedMul (rlFixedOne - learningRate) v +
      fixedMul learningRate (toS32 (reward - fixedMul gamma next)))| ≤ maxValue := by
  obtain ⟨_, hcurr⟩ := target_le hnext hreward
  obtain ⟨_, _, hsum⟩ := terms_le hv hcurr
  rw [toS32_of_abs_le hcurr, toS32_of_abs_le hsum]
  exact hsum

/-- One update: the score it returns, and the store it leaves. -/
theorem ValuesBounded.stepUpdate {s : RlStore} (h : ValuesBounded s) (bucket : U32 → Nat)
    (table : U32) {reward next : Int} (hnext : |next| ≤ maxValue)
    (hreward : 0 ≤ reward ∧ reward ≤ rlFixedOne) (p : Player) :
    |(stepUpdateStateValue bucket table reward next p s).1| ≤ maxValue ∧
      ValuesBounded (stepUpdateStateValue bucket table reward next p s).2 := by
  have hfind := h.findRlState bucket table
  have hscore := abs_update_le (hfind (Kxo.findRlState bucket table s).1 p) hnext hreward
  exact ⟨hscore, hfind.setScore _ p hscore⟩

/-- **Learning keeps the bound**, for rewards between zero and one. -/
theorem ValuesBounded.updateStateValue {s : RlStore} (h : ValuesBounded s) (bucket : U32 → Nat)
    (afterStateHash : Nat → U32) {reward : Nat → Int}
    (hreward : ∀ j, 0 ≤ reward j ∧ reward j ≤ rlFixedOne) (steps : Nat) (p : Player) :
    ValuesBounded (Kxo.updateStateValue bucket afterStateHash reward steps p s) := by
  have hloop : ∀ j next s, ValuesBounded s → |next| ≤ maxValue →
      ValuesBounded (updateLoop bucket afterStateHash reward p j next s) := by
    intro j
    induction j with
    | zero => intro next s hs _; exact hs
    | succ j ih =>
      intro next s hs hnext
      rw [updateLoop]
      split
      · obtain ⟨hscore, hstep⟩ := hs.stepUpdate bucket (afterStateHash j) hnext (hreward j) p
        exact ih _ _ hstep hscore
      · exact ih _ _ hs hnext
  exact hloop steps 0 s h (by decide)

/-! ## `play_rl`

The loop over the cells, with the store that each look-up leaves. -/

/-- A round of the scan leaves the store that its look-up leaves. -/
theorem tryRlCell_store (bucket : U32 → Nat) (rnd : Nat → Nat) (table : U32) (p : Player)
    (c : RlChoice) (i : Nat) :
    (tryRlCell bucket rnd table p c i).store =
      (findRlState bucket (valSetCell table i p.cell) c.store).2 := by
  simp only [tryRlCell]
  split
  · rfl
  · split <;> rfl

/-- A round keeps the cell chosen so far, or takes its own. -/
theorem tryRlCell_maxAct (bucket : U32 → Nat) (rnd : Nat → Nat) (table : U32) (p : Player)
    (c : RlChoice) (i : Nat) :
    (tryRlCell bucket rnd table p c i).maxAct = c.maxAct ∨
      (tryRlCell bucket rnd table p c i).maxAct = (i : Int) := by
  simp only [tryRlCell]
  split
  · dsimp only
    split
    · exact .inr rfl
    · exact .inl rfl
  · split
    · exact .inr rfl
    · exact .inl rfl

/-- The first cell tried is always taken. -/
theorem tryRlCell_first (bucket : U32 → Nat) (rnd : Nat → Nat) (table : U32) (p : Player)
    {c : RlChoice} (i : Nat) (hs : ValuesBounded c.store) (hmax : c.maxQ = rlFixedMin) :
    (tryRlCell bucket rnd table p c i).maxAct = (i : Int) := by
  have hvalue := hs.findRlState bucket (valSetCell table i p.cell)
    (findRlState bucket (valSetCell table i p.cell) c.store).1 p
  have habove := (abs_le.mp hvalue).1
  simp only [maxValue] at habove
  simp only [tryRlCell, hmax, rlFixedMin_eq]
  rw [if_neg (by omega), if_pos (by omega)]

/-- The loop of `play_rl` keeps the bound. -/
theorem foldl_tryRlCell_store (bucket : U32 → Nat) (rnd : Nat → Nat) (table : U32) (p : Player)
    (cells : List Nat) (c : RlChoice) (hs : ValuesBounded c.store) :
    ValuesBounded (cells.foldl (tryRlCell bucket rnd table p) c).store := by
  induction cells generalizing c with
  | nil => exact hs
  | cons i rest ih =>
    apply ih
    rw [tryRlCell_store]
    exact hs.findRlState bucket _

/-- The loop of `play_rl` ends with the choice it started with, or a cell it tried. -/
theorem foldl_tryRlCell_maxAct (bucket : U32 → Nat) (rnd : Nat → Nat) (table : U32) (p : Player)
    (cells : List Nat) (c : RlChoice) :
    (cells.foldl (tryRlCell bucket rnd table p) c).maxAct = c.maxAct ∨
      ∃ m ∈ cells, (cells.foldl (tryRlCell bucket rnd table p) c).maxAct = (m : Int) := by
  induction cells generalizing c with
  | nil => exact .inl rfl
  | cons i rest ih =>
    rw [List.foldl_cons]
    rcases ih (tryRlCell bucket rnd table p c i) with h | ⟨m, hm, h⟩
    · rcases tryRlCell_maxAct bucket rnd table p c i with h' | h'
      · exact .inl (h.trans h')
      · exact .inr ⟨i, by simp, h.trans h'⟩
    · exact .inr ⟨m, by simp [hm], h⟩

/-- `play_rl` returns `-1` or an empty cell, whatever the values are. -/
theorem playRl_legal (bucket : U32 → Nat) (rnd : Nat → Nat) (table : U32) (p : Player)
    (s : RlStore) : LegalMove table (playRl bucket rnd table p s).1 :=
  foldl_tryRlCell_maxAct bucket rnd table p (availableMoves table) ⟨-1, rlFixedMin, 1, s⟩

/-- **`play_rl` does not give up**: with its values in range it plays whenever there is an empty
cell. -/
theorem playRl_ne_neg_one (bucket : U32 → Nat) (rnd : Nat → Nat) {table : U32} (p : Player)
    {s : RlStore} (hs : ValuesBounded s) (hne : availableMoves table ≠ []) :
    (playRl bucket rnd table p s).1 ≠ -1 := by
  obtain ⟨i, rest, hcells⟩ := List.exists_cons_of_ne_nil hne
  have hfirst := tryRlCell_first bucket rnd table p (c := ⟨-1, rlFixedMin, 1, s⟩) i hs rfl
  rw [playRl, hcells, List.foldl_cons]
  -- after the first cell the choice is a cell, whatever the others do
  rcases foldl_tryRlCell_maxAct bucket rnd table p rest
    (tryRlCell bucket rnd table p ⟨-1, rlFixedMin, 1, s⟩ i) with h | ⟨m, _, h⟩
  · rw [h, hfirst]; omega
  · rw [h]; omega

/-- Choosing a move keeps the bound. -/
theorem ValuesBounded.playRl {s : RlStore} (hs : ValuesBounded s) (bucket : U32 → Nat)
    (rnd : Nat → Nat) (table : U32) (p : Player) :
    ValuesBounded (Kxo.playRl bucket rnd table p s).2 :=
  foldl_tryRlCell_store bucket rnd table p _ ⟨-1, rlFixedMin, 1, s⟩ hs

/-! ## Before any learning

A slot holds six times the evaluation of its table, for each player, until the first update. Zeros
do so for the empty board. -/

/-- No value was ever updated: each is the initial one of its table. The unused slots, all zero, are
no exception. -/
def Unlearnt (s : RlStore) : Prop :=
  ∀ pos p, (s.stBuff pos).scores p = 6 * getScore (s.stBuff pos).table p

/-- An empty board is worth nothing, so a zero slot holds initial scores too. -/
theorem getScore_zero (p : Player) : (0 : Int) = 6 * getScore 0 p := by cases p <;> decide

/-- At module load nothing is learnt. -/
theorem initRlAgent_unlearnt : Unlearnt initRlAgent := fun _ p => getScore_zero p

/-- The slot that a look-up returns holds the table. -/
theorem findRlState_table (bucket : U32 → Nat) (table : U32) (s : RlStore) :
    ((findRlState bucket table s).2.stBuff (findRlState bucket table s).1).table = table := by
  unfold findRlState
  split
  case h_1 pos hfind => simpa [RlStore.moveTail] using List.find?_some hfind
  case h_2 => simp [RlStore.insert]

/-- A look-up teaches nothing. -/
theorem Unlearnt.findRlState {s : RlStore} (h : Unlearnt s) (bucket : U32 → Nat) (table : U32) :
    Unlearnt (Kxo.findRlState bucket table s).2 :=
  forall_slot_findRlState (Q := fun st => ∀ p, st.scores p = 6 * getScore st.table p) getScore_zero
    fixedMulS32_getScore h bucket table

/-- The loop body of `play_rl` when the values are the line evaluations: the choice, its value and
the number of candidates. -/
def tryEvalCell (rnd : Nat → Nat) (table : U32) (player : Player) (c : Int × Int × Nat) (i : Nat) :
    Int × Int × Nat :=
  let newQ := 6 * getScore (valSetCell table i player.cell) player
  if newQ = c.2.1 then
    (if rnd i % (c.2.2 + 1) = 0 then (i : Int) else c.1, c.2.1, c.2.2 + 1)
  else if c.2.1 < newQ then ((i : Int), newQ, 1)
  else c

/-- The cell with the best line evaluation. -/
def evalMove (rnd : Nat → Nat) (table : U32) (player : Player) : Int :=
  ((availableMoves table).foldl (tryEvalCell rnd table player) (-1, rlFixedMin, 1)).1

/-- **Before any learning, `play_rl` plays by the line evaluation**, whatever it has stored. -/
theorem Unlearnt.playRl {s : RlStore} (h : Unlearnt s) (bucket : U32 → Nat) (rnd : Nat → Nat)
    (table : U32) (p : Player) :
    (Kxo.playRl bucket rnd table p s).1 = evalMove rnd table p ∧
      Unlearnt (Kxo.playRl bucket rnd table p s).2 := by
  have hloop : ∀ (cells : List Nat) (c : RlChoice), Unlearnt c.store →
      (cells.foldl (tryRlCell bucket rnd table p) c).maxAct =
          (cells.foldl (tryEvalCell rnd table p) (c.maxAct, c.maxQ, c.candidateCount)).1 ∧
        Unlearnt (cells.foldl (tryRlCell bucket rnd table p) c).store := by
    intro cells
    induction cells with
    | nil => exact fun c hc => ⟨rfl, hc⟩
    | cons i rest ih =>
      intro c hc
      have hfind := hc.findRlState bucket (valSetCell table i p.cell)
      have hvalue := hfind (Kxo.findRlState bucket (valSetCell table i p.cell) c.store).1 p
      rw [findRlState_table] at hvalue
      -- the value read back is the evaluation, so the two loops decide alike
      have hstep : tryEvalCell rnd table p (c.maxAct, c.maxQ, c.candidateCount) i =
          ((tryRlCell bucket rnd table p c i).maxAct, (tryRlCell bucket rnd table p c i).maxQ,
            (tryRlCell bucket rnd table p c i).candidateCount) := by
        simp only [tryEvalCell, tryRlCell, hvalue]
        split
        · rfl
        · split <;> rfl
      rw [List.foldl_cons, List.foldl_cons, hstep]
      refine ih _ ?_
      rw [tryRlCell_store]
      exact hfind
  exact hloop (availableMoves table) ⟨-1, rlFixedMin, 1, s⟩ h

end Kxo
