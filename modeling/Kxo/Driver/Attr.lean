import Kxo.Driver.Coherence

/-!
# Kxo — the attribute word as an encoding (`include/game.h`, `src/main.c`, `user/tui.c`)

The driver writes the attribute word with `XO_SET_ATTR_AI_ALG` and `XO_SET_ATTR_STEPS`; the driver
and the TUI read it back with the same expressions. The two fields keep out of each other's way, and
the step count and X's agent come back as they were set. O's agent is read off the whole field, X's
number included, so it comes back as the sum of the two numbers modulo `XO_AI_TOT`.

* **`apply_setAiAlg`**, **`apply_setSteps`** — the two macros write disjoint fields, so the laws of
  `BitField` apply.
* **`fields_attrAfter`**, **`getLsbD_attrAfter`** — after any updates each field holds what was set
  last, and the bits of neither field are as they were.
* **`attrDecoded_aiAlg`** — what the decoders make of the agents' field: `ai1 + 4 * ai2` modulo 3 is
  `ai1 + ai2` modulo 3.
* **`attrFaithful_iff`** — hence the encoding is faithful exactly when X's agent was last set to 0.
-/

namespace Kxo

open BitField

/-- An update of the attribute word. -/
inductive AttrOp where
  | setAiAlg (ai1 ai2 : Fin xoAiTot)
  | setSteps (steps : Fin (nGrids + 1))
  deriving DecidableEq, Repr

def AttrOp.apply (attr : U32) : AttrOp → U32
  | .setAiAlg ai1 ai2 => xoSetAttrAiAlg attr (BitVec.ofNat 32 ai1) (BitVec.ofNat 32 ai2)
  | .setSteps steps => xoSetAttrSteps attr (BitVec.ofNat 32 steps)

/-- The attribute word after some updates. -/
def attrAfter (attr : U32) (ops : List AttrOp) : U32 := ops.foldl AttrOp.apply attr

/-- `XO_ATTR_AI_ALG(attr) % XO_AI_TOT`: O's agent to the driver and the TUI. -/
def oAlg (attr : U32) : Nat := (xoAttrAiAlg attr).toNat % xoAiTot

/-- `(XO_ATTR_AI_ALG(attr) >> 2) % XO_AI_TOT`: X's agent to the driver and the TUI. -/
def xAlg (attr : U32) : Nat := (xoAttrAiAlg attr >>> 2).toNat % xoAiTot

/-- What some updates have set last, each field where it was set at all. -/
structure LastSet where
  aiAlg : Option (Fin xoAiTot × Fin xoAiTot)
  steps : Option (Fin (nGrids + 1))
  deriving DecidableEq, Repr

def LastSet.apply (l : LastSet) : AttrOp → LastSet
  | .setAiAlg ai1 ai2 => { l with aiAlg := some (ai1, ai2) }
  | .setSteps steps => { l with steps := some steps }

def lastSet (ops : List AttrOp) : LastSet := ops.foldl LastSet.apply ⟨none, none⟩

/-- The decoders read the last values set, and nothing else of the word has changed. -/
structure AttrFaithful (attr : U32) (ops : List AttrOp) : Prop where
  o : ∀ ai1 ai2, (lastSet ops).aiAlg = some (ai1, ai2) → oAlg (attrAfter attr ops) = ai1
  x : ∀ ai1 ai2, (lastSet ops).aiAlg = some (ai1, ai2) → xAlg (attrAfter attr ops) = ai2
  aiAlgKept : (lastSet ops).aiAlg = none → xoAttrAiAlg (attrAfter attr ops) = xoAttrAiAlg attr
  steps : ∀ steps, (lastSet ops).steps = some steps →
    (xoAttrSteps (attrAfter attr ops)).toNat = steps
  stepsKept : (lastSet ops).steps = none → xoAttrSteps (attrAfter attr ops) = xoAttrSteps attr
  id : xoAttrId (attrAfter attr ops) = xoAttrId attr
  others : ∀ i, i < 4 ∨ 13 ≤ i → (attrAfter attr ops).getLsbD i = attr.getLsbD i

/-! ## One update

Each macro is a `BitField.set`, with values that fit their fields; reading the other field is the
frame. -/

/-- The field that `XO_SET_ATTR_AI_ALG` writes. -/
def aiAlgField (ai1 ai2 : Fin xoAiTot) : U32 := BitVec.ofNat 32 ai1 ||| (BitVec.ofNat 32 ai2 <<< 2)

/-- Two agent numbers fit the field of four bits. -/
theorem fits_aiAlgField (ai1 ai2 : Fin xoAiTot) : Fits (aiAlgField ai1 ai2) 4 := by
  revert ai1 ai2
  decide

/-- A step count fits the field of five bits. -/
theorem fits_steps (steps : Fin (nGrids + 1)) : Fits (BitVec.ofNat 32 steps) 5 := by
  revert steps
  decide

section OneUpdate

variable (attr : U32)

/-- The macro for the agents writes four bits from bit 9 on. -/
theorem apply_setAiAlg (ai1 ai2 : Fin xoAiTot) :
    (AttrOp.setAiAlg ai1 ai2).apply attr =
      BitField.set attr (aiAlgField ai1 ai2) (ones 32 4) 9 := by
  have hmask : (0xf : U32) = ones 32 4 := by decide
  show xoSetAttrAiAlg attr _ _ = _
  rw [xoSetAttrAiAlg, setBits, hmask, aiAlgField]

/-- The macro for the step count writes five bits from bit 4 on. -/
theorem apply_setSteps (steps : Fin (nGrids + 1)) :
    (AttrOp.setSteps steps).apply attr =
      BitField.set attr (BitVec.ofNat 32 steps) (ones 32 5) 4 :=
  xoSetAttrSteps_eq_set attr _

/-- The agents' field after one update. -/
theorem xoAttrAiAlg_apply (op : AttrOp) :
    xoAttrAiAlg (op.apply attr) =
      match op with
      | .setAiAlg ai1 ai2 => aiAlgField ai1 ai2
      | .setSteps _ => xoAttrAiAlg attr := by
  cases op with
  | setAiAlg ai1 ai2 =>
    rw [xoAttrAiAlg_eq_get, apply_setAiAlg]
    exact get_set_same attr (by omega) (fits_aiAlgField ai1 ai2)
  | setSteps steps => exact xoAttrAiAlg_xoSetAttrSteps attr (fits_steps steps)

/-- The step count after one update. -/
theorem xoAttrSteps_apply (op : AttrOp) :
    xoAttrSteps (op.apply attr) =
      match op with
      | .setAiAlg _ _ => xoAttrSteps attr
      | .setSteps steps => BitVec.ofNat 32 steps := by
  cases op with
  | setAiAlg ai1 ai2 =>
    rw [xoAttrSteps_eq_get, xoAttrSteps_eq_get, apply_setAiAlg]
    exact get_set_other attr (by omega) (fits_aiAlgField ai1 ai2) (by omega)
  | setSteps steps => exact xoAttrSteps_xoSetAttrSteps attr (fits_steps steps)

/-- An update stays within its own field, above the id and below bit 13. -/
theorem getLsbD_apply (op : AttrOp) {i : Nat} (hi : i < 4 ∨ 13 ≤ i) :
    (op.apply attr).getLsbD i = attr.getLsbD i := by
  by_cases hw : i < 32
  · cases op with
    | setAiAlg ai1 ai2 =>
      rw [apply_setAiAlg, getLsbD_set attr (fits_aiAlgField ai1 ai2) hw, if_neg (by omega)]
    | setSteps steps =>
      rw [apply_setSteps, getLsbD_set attr (fits_steps steps) hw, if_neg (by omega)]
  · rw [BitVec.getLsbD_of_ge _ _ (by omega), BitVec.getLsbD_of_ge _ _ (by omega)]

end OneUpdate

/-! ## Any sequence of updates

`lastSet` folds the updates without the word. What the word holds follows from it. -/

section Updates

variable (attr : U32) (ops : List AttrOp)

/-- The two fields hold what was set last. -/
theorem fields_attrAfter :
    xoAttrAiAlg (attrAfter attr ops) =
        ((lastSet ops).aiAlg.map fun ai => aiAlgField ai.1 ai.2).getD (xoAttrAiAlg attr) ∧
      xoAttrSteps (attrAfter attr ops) =
        ((lastSet ops).steps.map fun (n : Fin (nGrids + 1)) => BitVec.ofNat 32 n).getD
          (xoAttrSteps attr) := by
  induction ops using List.reverseRecOn with
  | nil => exact ⟨rfl, rfl⟩
  | append_singleton ops op ih =>
    obtain ⟨ihAi, ihSteps⟩ := ih
    have hafter : attrAfter attr (ops ++ [op]) = op.apply (attrAfter attr ops) := by
      simp [attrAfter]
    have hlast : lastSet (ops ++ [op]) = (lastSet ops).apply op := by simp [lastSet]
    rw [hafter, hlast, xoAttrAiAlg_apply, xoAttrSteps_apply]
    cases op with
    | setAiAlg ai1 ai2 => exact ⟨rfl, ihSteps⟩
    | setSteps steps => exact ⟨ihAi, rfl⟩

/-- The bits of neither field are as they were. Induction on the updates. -/
theorem getLsbD_attrAfter {i : Nat} (hi : i < 4 ∨ 13 ≤ i) :
    (attrAfter attr ops).getLsbD i = attr.getLsbD i := by
  induction ops generalizing attr with
  | nil => rfl
  | cons op ops ih => exact (ih (op.apply attr)).trans (getLsbD_apply attr op hi)

/-- In particular the game's number is. -/
theorem xoAttrId_attrAfter : xoAttrId (attrAfter attr ops) = xoAttrId attr := by
  rw [xoAttrId_eq_get, xoAttrId_eq_get]
  apply BitVec.eq_of_getLsbD_eq
  intro i _
  rw [getLsbD_get _ (by omega), getLsbD_get _ (by omega)]
  by_cases hi : i < 4
  · rw [getLsbD_attrAfter attr ops (.inl (by omega))]
  · simp [hi]

/-- **What the decoders read**: X's agent as it was set, and for O the sum of the two numbers. -/
theorem attrDecoded_aiAlg {ai1 ai2 : Fin xoAiTot} (h : (lastSet ops).aiAlg = some (ai1, ai2)) :
    oAlg (attrAfter attr ops) = (ai1 + ai2 : Nat) % xoAiTot ∧ xAlg (attrAfter attr ops) = ai2 := by
  have hfield : ∀ ai1 ai2 : Fin xoAiTot,
      (aiAlgField ai1 ai2).toNat % xoAiTot = (ai1 + ai2 : Nat) % xoAiTot ∧
        (aiAlgField ai1 ai2 >>> 2).toNat % xoAiTot = ai2 := by decide
  have hai : xoAttrAiAlg (attrAfter attr ops) = aiAlgField ai1 ai2 := by
    rw [(fields_attrAfter attr ops).1, h]
    rfl
  rw [oAlg, xAlg, hai]
  exact hfield ai1 ai2

/-- **When the attribute word is a faithful encoding**: when X's agent is number 0, `XO_AI_MCTS`. -/
theorem attrFaithful_iff :
    AttrFaithful attr ops ↔
      ∀ ai1 ai2, (lastSet ops).aiAlg = some (ai1, ai2) → (ai2 : Nat) = 0 := by
  have hsum : ∀ ai1 ai2 : Fin xoAiTot, (ai1 + ai2 : Nat) % xoAiTot = ai1 ↔ (ai2 : Nat) = 0 := by
    decide
  constructor
  · intro h ai1 ai2 hlast
    have ho := h.o ai1 ai2 hlast
    rw [(attrDecoded_aiAlg attr ops hlast).1] at ho
    exact (hsum ai1 ai2).mp ho
  · intro hzero
    have hfields := fields_attrAfter attr ops
    refine ⟨fun ai1 ai2 hlast => ?_, fun ai1 ai2 hlast => (attrDecoded_aiAlg attr ops hlast).2,
      fun hnone => ?_, fun steps hlast => ?_, fun hnone => ?_, xoAttrId_attrAfter attr ops,
      fun i => getLsbD_attrAfter attr ops⟩
    · rw [(attrDecoded_aiAlg attr ops hlast).1]
      exact (hsum ai1 ai2).mpr (hzero ai1 ai2 hlast)
    · rw [hfields.1, hnone]
      rfl
    · rw [hfields.2, hlast, Option.map_some, Option.getD_some, BitVec.toNat_ofNat]
      exact Nat.mod_eq_of_lt (steps.isLt.trans (by decide))
    · rw [hfields.2, hnone]
      rfl

end Updates

/-- O is to play MCTS and X negamax: both are read as negamax. -/
theorem not_attrFaithful_mcts_negamax :
    oAlg (attrAfter 0 [.setAiAlg ⟨0, by decide⟩ ⟨1, by decide⟩]) = 1 ∧
      ¬ AttrFaithful 0 [.setAiAlg ⟨0, by decide⟩ ⟨1, by decide⟩] := by
  have hread : oAlg (attrAfter 0 [.setAiAlg ⟨0, by decide⟩ ⟨1, by decide⟩]) = 1 := by decide
  refine ⟨hread, fun h => ?_⟩
  have ho := h.o ⟨0, by decide⟩ ⟨1, by decide⟩ rfl
  rw [hread] at ho
  exact absurd ho (by decide)

end Kxo
