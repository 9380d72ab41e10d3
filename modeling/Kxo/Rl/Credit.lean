import Kxo.Rl.Forgetting

/-!
# Kxo — credit for one learner's own boards (`src/rl.c`)

`update_state_value` goes from the last board back, and takes the discounted value of a board away
from the target of the one before it. Where one player learns, all boards of an episode are its own,
so a better outcome raises the value of the last board and lowers that of the last but one.

* **`creditLoop`** — the loop on a map from boards to one player's scores.
  `StoreInv.updateLoop_seen` says that the loop on the store does the same, as long as nothing is
  evicted; and `exists_store` gives a store with any one score.
* **`updateScore_eq`**, **`updateScore_last`** — one update in exact integers: within the bound of
  the values no product leaves 32 bits.
* **`exists_lowering`** — some old score makes the difference of two targets visible after rounding,
  unless the two rewards count the same after the learning rate.
* **`creditKept_iff`** — hence exactly when a better last reward lowers no score, over every store.
-/

namespace Kxo

/-! ## The loop on a map

The refinement. An eviction in the middle of an episode would give an earlier board its initial
score back; `NoEviction` excludes that, and holds while the store has room for the episode. -/

/-- The score an update writes. -/
def updateScore (old reward next : Int) : Int :=
  toS32 (fixedMul (rlFixedOne - learningRate) old +
    fixedMul learningRate (toS32 (reward - fixedMul gamma next)))

/-- The loop of `update_state_value` where the store is a map. -/
def creditLoop (afterStateHash : Nat → U32) (reward : Nat → Int) :
    Nat → Int → (U32 → Int) → U32 → Int
  | 0, _, m => m
  | j + 1, next, m =>
      if afterStateHash j ≠ 0 then
        let score := updateScore (m (afterStateHash j)) (reward j) next
        creditLoop afterStateHash reward j score (Function.update m (afterStateHash j) score)
      else creditLoop afterStateHash reward j next m

/-- No look-up of the loop evicts. -/
def NoEviction (bucket : U32 → Nat) (afterStateHash : Nat → U32) (reward : Nat → Int)
    (player : Player) : Nat → Int → RlStore → Prop
  | 0, _, _ => True
  | j + 1, next, s =>
      if afterStateHash j ≠ 0 then
        let (score, s') := stepUpdateStateValue bucket (afterStateHash j) (reward j) next player s
        ¬ Evicts bucket s (afterStateHash j) ∧
          NoEviction bucket afterStateHash reward player j score s'
      else NoEviction bucket afterStateHash reward player j next s

section Refinement

variable {bucket : U32 → Nat} {s : RlStore} {table : U32}

/-- What is seen is what is stored, or the initial scores. -/
theorem StoreInv.seenScores_eq (h : StoreInv bucket s) (u : U32) :
    seenScores bucket s u = (storedScores bucket s u).getD (initialScores u) :=
  (h.findRlState_slot u).2.2

/-- What a look-up that does not evict keeps stored. -/
theorem StoreInv.stored_find (h : StoreInv bucket s) (hno : ¬ Evicts bucket s table) {u : U32}
    (hu : Stored bucket s u) : Stored bucket (findRlState bucket table s).2 u := by
  obtain ⟨hinv, hrefine⟩ := findRlState_refines h table
  have hmem : u ∈ orderTables s := h.lookup_isSome.mp hu
  have hlen : (orderTables s).length = Kxo.bitmapWeight s.stMap := by
    simp [orderTables, h.bitmapWeight]
  refine hinv.lookup_isSome.mpr ?_
  rw [hrefine, findOrder, hlen]
  split
  case isTrue =>
    by_cases heq : u = table
    · simp [heq]
    · simp [hmem, heq]
  case isFalse hnew =>
    have hnot : ¬ Stored bucket s table := fun hs => hnew (h.lookup_isSome.mp hs)
    rw [if_neg fun hfull => hno ⟨hnot, hfull⟩]
    exact List.mem_cons_of_mem _ hmem

/-- **A look-up that does not evict changes no score that is seen.** -/
theorem StoreInv.seenScores_find (h : StoreInv bucket s) (hno : ¬ Evicts bucket s table) (u : U32) :
    seenScores bucket (findRlState bucket table s).2 u = seenScores bucket s u := by
  obtain ⟨hinv, _⟩ := findRlState_refines h table
  rw [hinv.seenScores_eq]
  rcases eq_or_ne u table with rfl | hu
  · rw [h.storedScores_find_self, Option.getD_some]
  · rw [h.seenScores_eq]
    by_cases hstored : Stored bucket s u
    · rw [h.storedScores_find_other hu (h.stored_find hno hstored)]
    · have hnone : ∀ r : RlStore, ¬ Stored bucket r u → storedScores bucket r u = none :=
        fun r hr => Option.not_isSome_iff_eq_none.mp fun hs => hr (storedScores_isSome.mp hs)
      rw [hnone s hstored, hnone _ fun hs => hstored (h.stored_of_find hu hs)]

/-- One score is written. -/
theorem StoreInv.seenScores_setScore (h : StoreInv bucket s) {pos : Nat} (hpos : pos ∈ s.orders)
    (player : Player) (v : Int) (u : U32) :
    seenScores bucket (s.setScore pos player v) u player =
      Function.update (fun u => seenScores bucket s u player) (s.stBuff pos).table v u := by
  rw [(h.setScore pos player v).seenScores_eq, h.storedScores_setScore hpos]
  rcases eq_or_ne u (s.stBuff pos).table with rfl | hu
  · simp
  · rw [if_neg hu, Function.update_of_ne hu, h.seenScores_eq]

/-- **An update that does not evict is one of the map.** -/
theorem StoreInv.stepUpdate_seen (h : StoreInv bucket s) (player : Player)
    (hno : ¬ Evicts bucket s table) (reward next : Int) :
    (stepUpdateStateValue bucket table reward next player s).1 =
        updateScore (seenScores bucket s table player) reward next ∧
      StoreInv bucket (stepUpdateStateValue bucket table reward next player s).2 ∧
      (fun u => seenScores bucket (stepUpdateStateValue bucket table reward next player s).2 u
          player) =
        Function.update (fun u => seenScores bucket s u player) table
          (updateScore (seenScores bucket s table player) reward next) := by
  obtain ⟨hinv, _⟩ := findRlState_refines h table
  obtain ⟨hpos, htable, _⟩ := h.findRlState_slot table
  refine ⟨rfl, hinv.setScore _ _ _, funext fun u => ?_⟩
  have hwrite := hinv.seenScores_setScore hpos player
    (updateScore (seenScores bucket s table player) reward next) u
  rw [htable] at hwrite
  refine hwrite.trans (congrArg (Function.update · table _ u) (funext fun t => ?_))
  rw [h.seenScores_find hno]

/-- **The loop refines the loop on a map**, as long as nothing is evicted. -/
theorem StoreInv.updateLoop_seen {afterStateHash : Nat → U32} {reward : Nat → Int}
    {player : Player} {j : Nat} {next : Int} (h : StoreInv bucket s)
    (hno : NoEviction bucket afterStateHash reward player j next s) :
    (fun u => seenScores bucket (updateLoop bucket afterStateHash reward player j next s) u
        player) =
      creditLoop afterStateHash reward j next fun u => seenScores bucket s u player := by
  induction j generalizing next s with
  | zero => rfl
  | succ j ih =>
    rw [updateLoop, creditLoop]
    rw [NoEviction] at hno
    split
    case isTrue hlogged =>
      rw [if_pos hlogged] at hno
      obtain ⟨hscore, hinv, hseen⟩ := h.stepUpdate_seen player hno.1 (reward j) next
      have hrest : NoEviction bucket afterStateHash reward player j
          (stepUpdateStateValue bucket (afterStateHash j) (reward j) next player s).1
          (stepUpdateStateValue bucket (afterStateHash j) (reward j) next player s).2 := hno.2
      have hloop := ih hinv hrest
      rw [hseen, hscore] at hloop
      exact hloop
    case isFalse hskip =>
      rw [if_neg hskip] at hno
      exact ih h hno

end Refinement

/-! ## One update

The score after an update, as one formula in integers, and how it moves with the reward and with the
score of the next board. -/

/-- Within the bound an update is `0.98 * old + 0.02 * (reward - 0.99 * next)`, each product rounded
down. -/
theorem updateScore_eq {old reward next : Int} (hold : |old| ≤ maxValue) (hnext : |next| ≤ maxValue)
    (hreward : 0 ≤ reward ∧ reward ≤ rlFixedOne) :
    updateScore old reward next = (rlFixedOne - learningRate) * old / 2 ^ rlFixedScaleBits +
      learningRate * (reward - gamma * next / 2 ^ rlFixedScaleBits) / 2 ^ rlFixedScaleBits := by
  obtain ⟨hlater, hcurr⟩ := target_le hnext hreward
  obtain ⟨hkeep, hlearn, hsum⟩ := terms_le hold hcurr
  rw [updateScore, toS32_of_abs_le hcurr, toS32_of_abs_le hsum, hkeep, hlearn, hlater]

/-- An update keeps the bound of the values. -/
theorem abs_updateScore_le {old reward next : Int} (hold : |old| ≤ maxValue)
    (hnext : |next| ≤ maxValue) (hreward : 0 ≤ reward ∧ reward ≤ rlFixedOne) :
    |updateScore old reward next| ≤ maxValue := abs_update_le hold hnext hreward

/-- The reward's product with the learning rate fits 32 bits. -/
theorem fixedMul_learningRate {r : Int} (hr : 0 ≤ r ∧ r ≤ rlFixedOne) :
    fixedMul learningRate r = learningRate * r / 2 ^ rlFixedScaleBits := by
  have hle : |r| ≤ maxValue := by
    have hone : rlFixedOne ≤ maxValue := by decide
    rw [abs_le]
    omega
  exact (terms_le hle hle).2.1

/-- The score of the last board: what it keeps, and what it learns of its reward. -/
theorem updateScore_last {old reward : Int} (hold : |old| ≤ maxValue)
    (hreward : 0 ≤ reward ∧ reward ≤ rlFixedOne) :
    updateScore old reward 0 = (rlFixedOne - learningRate) * old / 2 ^ rlFixedScaleBits +
      fixedMul learningRate reward := by
  rw [updateScore_eq hold (by decide) hreward, fixedMul_learningRate hreward]
  simp

/-- The greatest score whose discounted value is a given reward: the target is zero for it, and
below zero for any greater one. -/
theorem target_lt {ρ n d : Int} (hn : n = (65536 * (ρ + 1) - 1) / 64880) (hd : 0 < d) :
    learningRate * (ρ - gamma * (n + d) / 2 ^ rlFixedScaleBits) / 2 ^ rlFixedScaleBits <
      learningRate * (ρ - gamma * n / 2 ^ rlFixedScaleBits) / 2 ^ rlFixedScaleBits := by
  simp only [learningRate, gamma, rlFixedScaleBits]
  have hat : 64880 * n / 65536 = ρ := by omega
  have hafter : ρ + 1 ≤ 64880 * (n + d) / 65536 := by omega
  omega

/-- Any small score is kept of some old one. -/
theorem exists_kept {t : Int} (h : |t| ≤ 2 ^ 20) :
    ∃ v, |v| ≤ maxValue ∧ (rlFixedOne - learningRate) * v / 2 ^ rlFixedScaleBits = t := by
  simp only [maxValue, rlFixedOne, learningRate, rlFixedScaleBits, abs_le] at *
  exact ⟨(65536 * t + 64225) / 64226, by omega, by omega⟩

/-- **A better outcome can lower the board before the last**, where it makes a difference at all:
some score the last board may have had puts the other's target from zero to below zero. -/
theorem exists_lowering {r r' ρ : Int} (hr : 0 ≤ r ∧ r ≤ rlFixedOne)
    (hr' : 0 ≤ r' ∧ r' ≤ rlFixedOne) (hρ : 0 ≤ ρ ∧ ρ ≤ rlFixedOne)
    (hlt : fixedMul learningRate r < fixedMul learningRate r') :
    ∃ v, |v| ≤ maxValue ∧ ∀ w, |w| ≤ maxValue →
      updateScore w ρ (updateScore v r' 0) < updateScore w ρ (updateScore v r 0) := by
  obtain ⟨n, hn⟩ : ∃ n, n = (65536 * (ρ + 1) - 1) / 64880 := ⟨_, rfl⟩
  have hsmall : |n - fixedMul learningRate r| ≤ 2 ^ 20 := by
    rw [fixedMul_learningRate hr]
    simp only [rlFixedOne, learningRate, rlFixedScaleBits, abs_le] at *
    omega
  obtain ⟨v, hv, hkept⟩ := exists_kept hsmall
  have hold : updateScore v r 0 = n := by
    rw [updateScore_last hv hr, hkept, Int.sub_add_cancel]
  have hnew : updateScore v r' 0 = n + (fixedMul learningRate r' - fixedMul learningRate r) := by
    rw [updateScore_last hv hr', hkept]
    ring
  have hle := abs_updateScore_le hv (by decide : |(0 : Int)| ≤ maxValue) hr
  have hle' := abs_updateScore_le hv (by decide : |(0 : Int)| ≤ maxValue) hr'
  refine ⟨v, hv, fun w hw => ?_⟩
  rw [updateScore_eq hw hle hρ, updateScore_eq hw hle' hρ, hold, hnew]
  exact Int.add_lt_add_left (target_lt hn (by omega)) _

/-! ## An episode on a map

Boards are logged as `0` when the player did not move. The loop skips these, so the statements are
about the last logged board and the one before it. -/

/-- The last logged board below `n`. -/
structure LastLogged (afterStateHash : Nat → U32) (n k : Nat) : Prop where
  lt : k < n
  logged : afterStateHash k ≠ 0
  last : ∀ i, k < i → i < n → afterStateHash i = 0

/-- No board is logged twice. -/
def LoggedOnce (afterStateHash : Nat → U32) (steps : Nat) : Prop :=
  ∀ i j, i < j → j < steps → afterStateHash j ≠ 0 → afterStateHash i ≠ afterStateHash j

section Episode

variable {afterStateHash : Nat → U32} {reward reward' : Nat → Int} {j n k : Nat} {next : Int}
  {m : U32 → Int} {u : U32}

/-- An episode with a logged board has a last one. -/
theorem exists_lastLogged (h : ∃ i < n, afterStateHash i ≠ 0) :
    ∃ k, LastLogged afterStateHash n k := by
  induction n with
  | zero => simp at h
  | succ n ih =>
    by_cases hn : afterStateHash n = 0
    · obtain ⟨i, hi, hlogged⟩ := h
      have hne : i ≠ n := fun heq => hlogged (heq ▸ hn)
      obtain ⟨k, hk⟩ := ih ⟨i, by omega, hlogged⟩
      refine ⟨k, by have := hk.lt; omega, hk.logged, fun i hki hi => ?_⟩
      rcases Nat.lt_succ_iff_lt_or_eq.mp hi with hi | rfl
      · exact hk.last i hki hi
      · exact hn
    · exact ⟨n, Nat.lt_succ_self n, hn, fun i h h' => by omega⟩

/-- Only the rewards of the boards still to come count. -/
theorem creditLoop_congr (h : ∀ i < j, reward i = reward' i) :
    creditLoop afterStateHash reward j next m = creditLoop afterStateHash reward' j next m := by
  induction j generalizing next m with
  | zero => rfl
  | succ j ih =>
    have hbelow : ∀ i < j, reward i = reward' i := fun i hi => h i (by omega)
    simp only [creditLoop, h j (Nat.lt_succ_self j), ih hbelow]

/-- A board that does not come keeps its score. -/
theorem creditLoop_frame (h : ∀ i < j, afterStateHash i ≠ u) :
    creditLoop afterStateHash reward j next m u = m u := by
  induction j generalizing next m with
  | zero => rfl
  | succ j ih =>
    have hbelow : ∀ i < j, afterStateHash i ≠ u := fun i hi => h i (by omega)
    rw [creditLoop]
    split
    · rw [ih hbelow, Function.update_of_ne (h j (Nat.lt_succ_self j)).symm]
    · exact ih hbelow

/-- Boards that are not logged are passed over. -/
theorem creditLoop_skip (hkn : k ≤ n) (h : ∀ i, k ≤ i → i < n → afterStateHash i = 0) :
    creditLoop afterStateHash reward n next m = creditLoop afterStateHash reward k next m := by
  induction n, hkn using Nat.le_induction with
  | base => rfl
  | succ n hkn ih =>
    rw [creditLoop, if_neg (not_not.mpr (h n hkn (Nat.lt_succ_self n)))]
    exact ih fun i hki hi => h i hki (by omega)

namespace LastLogged

/-- The loop from the last logged board on: its score is written, and handed on to the board before
it. -/
theorem creditLoop (h : LastLogged afterStateHash n k) :
    Kxo.creditLoop afterStateHash reward n next m =
      Kxo.creditLoop afterStateHash reward k
        (updateScore (m (afterStateHash k)) (reward k) next)
        (Function.update m (afterStateHash k)
          (updateScore (m (afterStateHash k)) (reward k) next)) := by
  rw [creditLoop_skip h.lt fun i hki hi => h.last i (by omega) hi, Kxo.creditLoop,
    if_pos h.logged]

/-- The score of the last logged board. -/
theorem creditLoop_self (h : LastLogged afterStateHash n k) (honce : LoggedOnce afterStateHash n) :
    Kxo.creditLoop afterStateHash reward n next m (afterStateHash k) =
      updateScore (m (afterStateHash k)) (reward k) next := by
  rw [h.creditLoop, creditLoop_frame fun i hi => honce i k hi h.lt h.logged,
    Function.update_self]

/-- The score of the one before it. -/
theorem creditLoop_second {l : Nat} (hl : LastLogged afterStateHash n l)
    (hk : LastLogged afterStateHash l k) (honce : LoggedOnce afterStateHash n) :
    Kxo.creditLoop afterStateHash reward n next m (afterStateHash k) =
      updateScore (m (afterStateHash k)) (reward k)
        (updateScore (m (afterStateHash l)) (reward l) next) := by
  have hne := honce k l hk.lt hl.lt hl.logged
  have hbelow : LoggedOnce afterStateHash l := fun i j hij hj => honce i j hij (hj.trans hl.lt)
  rw [hl.creditLoop, hk.creditLoop_self hbelow, Function.update_of_ne hne]

end LastLogged

end Episode

/-! ## The store

Where the conditions of the refinement come from: an empty store has room, and a look-up and a write
give any board any score. -/

section Store

variable {bucket : U32 → Nat} {s : RlStore}

/-- One call makes the list longer by one table at most. -/
theorem length_findOrder_le (tables : List U32) (table : U32) :
    (findOrder tables table).length ≤ tables.length + 1 := by
  unfold findOrder
  split
  · have hle := List.length_filter_le (· ≠ table) tables
    rw [List.length_append, List.length_singleton]
    omega
  · split
    · exact Nat.succ_le_succ (List.drop_sublist cleanNStates tables).length_le
    · exact Nat.le_refl _

/-- So an episode adds at most one table a step. -/
theorem StoreInv.length_find_le (h : StoreInv bucket s) (table : U32) :
    (findRlState bucket table s).2.orders.length ≤ s.orders.length + 1 := by
  obtain ⟨_, hrefine⟩ := findRlState_refines h table
  have hle := length_findOrder_le (orderTables s) table
  rw [← hrefine] at hle
  simpa [orderTables] using hle

/-- With room for an episode nothing is evicted. -/
theorem StoreInv.noEviction {afterStateHash : Nat → U32} {reward : Nat → Int} {player : Player}
    {j : Nat} {next : Int} (h : StoreInv bucket s) (hroom : s.orders.length + j < maxStates) :
    NoEviction bucket afterStateHash reward player j next s := by
  induction j generalizing next s with
  | zero => trivial
  | succ j ih =>
    rw [NoEviction]
    split
    · have hle := h.length_find_le (afterStateHash j)
      have hno : ¬ Evicts bucket s (afterStateHash j) := by
        rintro ⟨_, hfull⟩
        rw [h.bitmapWeight] at hfull
        omega
      obtain ⟨_, hinv, _⟩ := h.stepUpdate_seen player hno (reward j) next
      refine ⟨hno, ih hinv ?_⟩
      show (findRlState bucket (afterStateHash j) s).2.orders.length + j < maxStates
      omega
    · exact ih h (by omega)

/-- What is seen is within the bound. -/
theorem ValuesBounded.seenScores (h : ValuesBounded s) (bucket : U32 → Nat) (u : U32)
    (player : Player) : |Kxo.seenScores bucket s u player| ≤ maxValue :=
  h.findRlState bucket u _ player

/-- A store in which one board has a given score. -/
theorem exists_store (bucket : U32 → Nat) (table : U32) (player : Player) {v : Int}
    (hv : |v| ≤ maxValue) :
    ∃ s, StoreInv bucket s ∧ ValuesBounded s ∧ s.orders.length ≤ 1 ∧
      seenScores bucket s table player = v := by
  have hinit := initRlAgent_storeInv bucket
  have hlen := hinit.length_find_le table
  have hbound := initRlAgent_valuesBounded.findRlState bucket table
  obtain ⟨hinv, _⟩ := findRlState_refines hinit table
  obtain ⟨hpos, htable, _⟩ := hinit.findRlState_slot table
  generalize findRlState bucket table initRlAgent = found at hinv hpos htable hlen hbound
  refine ⟨found.2.setScore found.1 player v, hinv.setScore _ player v,
    hbound.setScore _ player hv, hlen, ?_⟩
  have hseen := hinv.seenScores_setScore hpos player v table
  rw [htable, Function.update_self] at hseen
  exact hseen

end Store

/-! ## The sign of credit

Two episodes with the same boards, that differ in the reward of the last one. -/

/-- Over every store a better last reward never lowers the learner's score of a logged board. -/
def CreditKept (bucket : U32 → Nat) (afterStateHash : Nat → U32) (reward reward' : Nat → Int)
    (steps : Nat) (player : Player) : Prop :=
  ∀ s, StoreInv bucket s → ValuesBounded s →
    NoEviction bucket afterStateHash reward player steps 0 s →
    NoEviction bucket afterStateHash reward' player steps 0 s →
    ∀ i < steps, afterStateHash i ≠ 0 →
      seenScores bucket (updateStateValue bucket afterStateHash reward steps player s)
          (afterStateHash i) player ≤
        seenScores bucket (updateStateValue bucket afterStateHash reward' steps player s)
          (afterStateHash i) player

section Sign

variable {bucket : U32 → Nat} {afterStateHash : Nat → U32} {reward : Nat → Int} {steps l : Nat}
  {r' : Int} {m : U32 → Int}

/-- The map after both runs, up to the score of the last board. -/
theorem LastLogged.creditLoop_update (h : LastLogged afterStateHash steps l) (next : Int) :
    Kxo.creditLoop afterStateHash (Function.update reward l r') steps next m =
      Kxo.creditLoop afterStateHash reward l (updateScore (m (afterStateHash l)) r' next)
        (Function.update m (afterStateHash l) (updateScore (m (afterStateHash l)) r' next)) := by
  rw [h.creditLoop, Function.update_self]
  exact creditLoop_congr fun i hi => Function.update_of_ne (by omega) _ _

/-- A reward that counts no more changes nothing. -/
theorem credit_same (h : LastLogged afterStateHash steps l)
    (hm : |m (afterStateHash l)| ≤ maxValue) (hr : 0 ≤ reward l ∧ reward l ≤ rlFixedOne)
    (hr' : 0 ≤ r' ∧ r' ≤ rlFixedOne)
    (hsame : fixedMul learningRate (reward l) = fixedMul learningRate r') :
    creditLoop afterStateHash reward steps 0 m =
      creditLoop afterStateHash (Function.update reward l r') steps 0 m := by
  have hscore : updateScore (m (afterStateHash l)) (reward l) 0 =
      updateScore (m (afterStateHash l)) r' 0 := by
    rw [updateScore_last hm hr, updateScore_last hm hr', hsame]
  rw [h.creditLoop, h.creditLoop_update, hscore]

/-- The score of the last board follows its reward. -/
theorem credit_last (h : LastLogged afterStateHash steps l)
    (honce : LoggedOnce afterStateHash steps)
    (hm : |m (afterStateHash l)| ≤ maxValue) (hr : 0 ≤ reward l ∧ reward l ≤ rlFixedOne)
    (hr' : 0 ≤ r' ∧ r' ≤ rlFixedOne) (hle : reward l ≤ r') :
    creditLoop afterStateHash reward steps 0 m (afterStateHash l) ≤
      creditLoop afterStateHash (Function.update reward l r') steps 0 m (afterStateHash l) := by
  rw [h.creditLoop_self honce, h.creditLoop_self honce, Function.update_self,
    updateScore_last hm hr, updateScore_last hm hr', fixedMul_learningRate hr,
    fixedMul_learningRate hr']
  simp only [learningRate, rlFixedScaleBits]
  omega

/-- **The sign of credit.** Over every store, a better reward of the last logged board lowers no
logged board's score, exactly when no other board is logged or the two rewards count the same after
the learning rate. -/
theorem creditKept_iff (bucket : U32 → Nat) (player : Player)
    (hsteps : steps ≤ nGrids) (honce : LoggedOnce afterStateHash steps)
    (hlast : LastLogged afterStateHash steps l)
    (hreward : ∀ j, 0 ≤ reward j ∧ reward j ≤ rlFixedOne) (hle : reward l ≤ r')
    (hr' : r' ≤ rlFixedOne) :
    CreditKept bucket afterStateHash reward (Function.update reward l r') steps player ↔
      (∀ i < steps, afterStateHash i ≠ 0 → i = l) ∨
        fixedMul learningRate (reward l) = fixedMul learningRate r' := by
  have hrange' : 0 ≤ r' ∧ r' ≤ rlFixedOne := ⟨(hreward l).1.trans hle, hr'⟩
  constructor
  · intro hkept
    by_contra hnot
    push Not at hnot
    obtain ⟨⟨i, hi, hlogged, hil⟩, hne⟩ := hnot
    -- the last board but one
    have hbelow : i < l := by
      by_contra hge
      exact hlogged (hlast.last i (by omega) hi)
    obtain ⟨k, hk⟩ := exists_lastLogged ⟨i, hbelow, hlogged⟩
    have hlt : fixedMul learningRate (reward l) < fixedMul learningRate r' := by
      rw [fixedMul_learningRate (hreward l), fixedMul_learningRate hrange'] at hne ⊢
      simp only [learningRate, rlFixedScaleBits] at hne ⊢
      omega
    obtain ⟨v, hv, hlower⟩ := exists_lowering (hreward l) hrange' (hreward k) hlt
    obtain ⟨s, hs, hbound, hlen, hseen⟩ := exists_store bucket (afterStateHash l) player hv
    have hroom : s.orders.length + steps < maxStates := by
      have hgrids : nGrids + 1 < maxStates := by decide
      omega
    have hno : ∀ reward, NoEviction bucket afterStateHash reward player steps 0 s :=
      fun _ => hs.noEviction hroom
    have hscore := hkept s hs hbound (hno _) (hno _) k (hk.lt.trans hlast.lt) hk.logged
    have hrun := congrFun (hs.updateLoop_seen (hno reward)) (afterStateHash k)
    have hrun' := congrFun (hs.updateLoop_seen (hno (Function.update reward l r')))
      (afterStateHash k)
    rw [hlast.creditLoop_second hk honce, hseen] at hrun hrun'
    rw [Function.update_of_ne (by have := hk.lt; omega), Function.update_self] at hrun'
    have hlow := hlower (seenScores bucket s (afterStateHash k) player)
      (hbound.seenScores bucket _ player)
    rw [← hrun, ← hrun'] at hlow
    exact absurd hscore (Int.not_le.mpr hlow)
  · intro hcond s hs hbound hno hno' i hi hlogged
    have hm : |seenScores bucket s (afterStateHash l) player| ≤ maxValue :=
      hbound.seenScores bucket _ player
    have hrun := congrFun (hs.updateLoop_seen hno) (afterStateHash i)
    have hrun' := congrFun (hs.updateLoop_seen hno') (afterStateHash i)
    refine (hrun.trans_le ?_).trans_eq hrun'.symm
    rcases hcond with honly | hsame
    · obtain rfl := honly i hi hlogged
      exact credit_last hlast honce hm (hreward i) hrange' hle
    · have hmaps := credit_same (m := fun u => seenScores bucket s u player) hlast hm (hreward l)
        hrange' hsame
      exact (congrFun hmaps _).le

/-- O, the one learner, takes the first three cells of the top row; X plays elsewhere. -/
def topRowEpisode (j : Nat) : U32 :=
  if j = 0 then 0x1 else if j = 2 then 0x205 else if j = 4 then 0xA15 else 0

/-- The fifth board is the last one logged. -/
theorem topRowEpisode_last : LastLogged topRowEpisode 5 4 where
  lt := by decide
  logged := by decide
  last i := by omega

/-- The boards of a game differ. -/
theorem topRowEpisode_once : LoggedOnce topRowEpisode 5 := by
  have hall : ∀ j < 5, ∀ i < j, topRowEpisode j ≠ 0 → topRowEpisode i ≠ topRowEpisode j := by
    decide
  exact fun i j hij hj => hall j hj i hij

/-- A win in place of a draw. -/
theorem creditKept_iff_topRow :
    CreditKept hashBucket topRowEpisode (fun _ => 2 ^ 15)
        (Function.update (fun _ => 2 ^ 15) 4 (2 ^ 16)) 5 .o ↔
      (∀ i < 5, topRowEpisode i ≠ 0 → i = 4) ∨
        fixedMul learningRate (2 ^ 15) = fixedMul learningRate (2 ^ 16) :=
  creditKept_iff hashBucket .o (by decide) topRowEpisode_once topRowEpisode_last
    (fun _ => ⟨by decide, by decide⟩) (by decide) (by decide)

/-- After a win in place of a draw the board before the last has a lower score, from module load
on. -/
theorem credit_reversed :
    seenScores hashBucket (updateStateValue hashBucket topRowEpisode
        (Function.update (fun _ => 2 ^ 15) 4 (2 ^ 16)) 5 .o initRlAgent) 0x205 .o <
      seenScores hashBucket
        (updateStateValue hashBucket topRowEpisode (fun _ => 2 ^ 15) 5 .o initRlAgent)
          0x205 .o := by
  have hinit := initRlAgent_storeInv hashBucket
  have hsecond : LastLogged topRowEpisode 4 2 :=
    ⟨by decide, by decide, fun i hi hi' => by
      obtain rfl : i = 3 := by omega
      rfl⟩
  have hseen : ∀ u, seenScores hashBucket initRlAgent u .o = initialScores u .o := fun u => by
    rw [hinit.seenScores_eq]
    rfl
  have hrun : ∀ reward : Nat → Int,
      seenScores hashBucket (updateStateValue hashBucket topRowEpisode reward 5 .o initRlAgent)
          0x205 .o =
        updateScore (initialScores 0x205 .o) (reward 2)
          (updateScore (initialScores 0xA15 .o) (reward 4) 0) := fun reward => by
    have hroom : initRlAgent.orders.length + 5 < maxStates := by decide
    have hno : NoEviction hashBucket topRowEpisode reward .o 5 0 initRlAgent :=
      hinit.noEviction hroom
    have hloop := congrFun (hinit.updateLoop_seen hno) (topRowEpisode 2)
    rw [topRowEpisode_last.creditLoop_second hsecond topRowEpisode_once, hseen, hseen] at hloop
    exact hloop
  rw [hrun, hrun]
  decide +kernel

end Sign

end Kxo
