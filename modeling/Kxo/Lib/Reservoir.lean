import Mathlib.Data.Fin.Tuple.Basic
import Mathlib.Algebra.BigOperators.Fin
import Mathlib.Data.Fintype.BigOperators
import Mathlib.Data.List.OfFn
import Mathlib.Order.Defs.LinearOrder

/-!
# Kxo — a fair choice among the largest values

A scan keeps a candidate of the largest value so far and the number of candidates it has seen with
that value. The candidate met as number `k` replaces the one kept if its random number is divisible
by `k`; a larger value starts over.

* **`chosen`** — the candidate that is kept, as a function of the residues drawn alone.
* **`card_chosen`** — of all combinations of residues each candidate is kept by the same number: the
  choice is uniform when the residues are independent and uniform. Induction on the number of
  candidates: the last one is kept when its own residue is zero, whatever the others are.
* **`Found`**, **`found_foldl`** — the invariant of the scan: it has the largest value of the list
  so far, and what it keeps is what `chosen` keeps of the elements with that value.
* **`card_chosen_cands`** — both together, for the elements of the largest value of a list.
-/

namespace Kxo

namespace Reservoir

/-! ## Residues

The choice without the scan. Candidate `j + 1` is met with a random number of which only the residue
modulo `j + 2` matters; the first one is always kept until another comes. -/

/-- The candidate kept, of `n + 1` candidates: the last one whose residue is zero, or else the
first, which draws none. Candidate `j + 1` has a residue modulo `j + 2`. -/
def chosen : (n : Nat) → ((j : Fin n) → Fin (j + 2)) → Fin (n + 1)
  | 0, _ => 0
  | n + 1, ρ =>
      if ρ (Fin.last n) = 0 then Fin.last (n + 1) else (chosen n fun j => ρ j.castSucc).castSucc

/-- There are `(n + 1)!` combinations of residues for `n + 1` candidates. -/
theorem card_residues (n : Nat) : Fintype.card ((j : Fin n) → Fin (j + 2)) = (n + 1).factorial := by
  rw [Fintype.card_pi]
  simp only [Fintype.card_fin]
  induction n with
  | zero => rfl
  | succ n ih =>
    rw [Fin.prod_univ_castSucc, Nat.factorial_succ]
    simp only [Fin.val_castSucc, Fin.val_last]
    rw [ih, Nat.mul_comm]

/-- The last residue apart. -/
def residuesEquiv (n : Nat) :
    ((j : Fin (n + 1)) → Fin (j + 2)) ≃ Fin (n + 2) × ((j : Fin n) → Fin (j + 2)) :=
  (Fin.snocEquiv fun j : Fin (n + 1) => Fin (j + 2)).symm

/-- The last candidate is kept when its residue is zero; else it is as without it. -/
theorem chosen_eq (n : Nat) (ρ : (j : Fin (n + 1)) → Fin (j + 2)) :
    chosen (n + 1) ρ = if (residuesEquiv n ρ).1 = 0 then Fin.last (n + 1)
      else (chosen n (residuesEquiv n ρ).2).castSucc := rfl

/-- **Each candidate is kept by as many combinations of residues.** -/
theorem card_chosen (n : Nat) (i : Fin (n + 1)) :
    Fintype.card { ρ : (j : Fin n) → Fin (j + 2) // chosen n ρ = i } = n.factorial := by
  induction n with
  | zero =>
    obtain rfl : i = 0 := Fin.fin_one_eq_zero i
    rfl
  | succ n ih =>
    rw [Fintype.card_congr ((residuesEquiv n).subtypeEquiv (q := fun p =>
      (if p.1 = 0 then Fin.last (n + 1) else (chosen n p.2).castSucc) = i) fun ρ => by
        rw [chosen_eq]), Fintype.card_subtype]
    induction i using Fin.lastCases with
    | last =>
      -- the last residue is zero, and the others are anything
      have hset : (Finset.univ.filter fun p : Fin (n + 2) × ((j : Fin n) → Fin (j + 2)) =>
          (if p.1 = 0 then Fin.last (n + 1) else (chosen n p.2).castSucc) = Fin.last (n + 1)) =
          {0} ×ˢ Finset.univ := by
        ext ⟨a, b⟩
        by_cases ha : a = 0
        · simp [ha]
        · simp [ha, Ne.symm ha, Fin.castSucc_ne_last]
      rw [hset, Finset.card_product, Finset.card_singleton, Nat.one_mul, Finset.card_univ,
        card_residues]
    | cast i =>
      -- the last residue is not zero, and the others keep candidate `i`
      have hset : (Finset.univ.filter fun p : Fin (n + 2) × ((j : Fin n) → Fin (j + 2)) =>
          (if p.1 = 0 then Fin.last (n + 1) else (chosen n p.2).castSucc) = i.castSucc) =
          {0}ᶜ ×ˢ Finset.univ.filter fun b => chosen n b = i := by
        ext ⟨a, b⟩
        by_cases ha : a = 0
        · simp [ha, (Fin.castSucc_ne_last _).symm]
        · simp [ha]
      rw [hset, Finset.card_product, Finset.card_compl, Finset.card_singleton, Fintype.card_fin,
        ← Fintype.card_subtype, ih, Nat.factorial_succ]
      rfl

/-! ## The scan

The scan over a list with values. A strictly larger value makes its element the only candidate
again, so the residues that count are those of the elements with the largest value, in order. -/

variable {α β : Type*} [LinearOrder β]

/-- The residues of the random numbers `draw` gives to the candidates after the first. -/
def residues {n : Nat} (draw : α → Nat) (cands : Fin (n + 1) → α) (j : Fin n) : Fin (j + 2) :=
  ⟨draw (cands j.succ) % (j + 2), Nat.mod_lt _ (by omega)⟩

/-- The candidate kept, its value, and the number of candidates. -/
structure State (α β : Type*) where
  kept : α
  value : β
  count : Nat

/-- The next element of the scan. -/
def step (draw : α → Nat) (c : State α β) (p : α × β) : State α β :=
  if p.2 = c.value then
    { c with kept := if draw p.1 % (c.count + 1) = 0 then p.1 else c.kept, count := c.count + 1 }
  else if c.value < p.2 then ⟨p.1, p.2, 1⟩
  else c

/-- The elements of the largest value, in order. -/
def best (l : List (α × β)) : List α := (l.filter fun p => ∀ q ∈ l, q.2 ≤ p.2).map Prod.fst

/-- What the scan has found in a list: the largest value, and of its elements the one their residues
choose. -/
structure Found (draw : α → Nat) (l : List (α × β)) (c : State α β) : Prop where
  le : ∀ p ∈ l, p.2 ≤ c.value
  mem : ∃ p ∈ l, p.2 = c.value
  cands : ∃ (n : Nat) (cands : Fin (n + 1) → α),
    best l = List.ofFn cands ∧ c.kept = cands (chosen n (residues draw cands)) ∧ c.count = n + 1

variable {draw : α → Nat} {l : List (α × β)} {c : State α β} {p : α × β}

/-- A value that bounds the list and occurs in it picks out the best elements. -/
theorem best_eq_filter {b : β} (hle : ∀ q ∈ l, q.2 ≤ b) (hmem : ∃ q ∈ l, q.2 = b) :
    best l = (l.filter fun q => q.2 = b).map Prod.fst := by
  obtain ⟨r, hr, hrb⟩ := hmem
  refine congrArg (List.map Prod.fst) (List.filter_congr fun q hq => ?_)
  refine decide_eq_decide.mpr ⟨fun h => ?_, fun h r hr => ?_⟩
  · exact le_antisymm (hle q hq) (hrb ▸ h r hr)
  · rw [h]
    exact hle r hr

/-- One more candidate. -/
theorem chosen_snoc {n : Nat} (cands : Fin (n + 1) → α) (a : α) :
    (Fin.snoc cands a : Fin (n + 2) → α)
        (chosen (n + 1) (residues draw (Fin.snoc cands a : Fin (n + 2) → α))) =
      if draw a % (n + 2) = 0 then a else cands (chosen n (residues draw cands)) := by
  have hlast : residues draw (Fin.snoc cands a : Fin (n + 2) → α) (Fin.last n) =
      ⟨draw a % (n + 2), Nat.mod_lt _ (by omega)⟩ := by
    simp only [residues, Fin.succ_last, Fin.snoc_last, Fin.val_last]
  have hrest : (fun j : Fin n => residues draw (Fin.snoc cands a : Fin (n + 2) → α) j.castSucc) =
      residues draw cands := by
    funext j
    simp only [residues, Fin.succ_castSucc, Fin.snoc_castSucc, Fin.val_castSucc]
  rw [chosen, hlast, hrest]
  by_cases hzero : draw a % (n + 2) = 0
  · rw [if_pos hzero, if_pos (Fin.ext hzero), Fin.snoc_last]
  · rw [if_neg hzero, if_neg fun heq => hzero (congrArg Fin.val heq), Fin.snoc_castSucc]

/-- A list of one element: it is kept, and it is the only candidate. -/
theorem Found.single (draw : α → Nat) (p : α × β) : Found draw [p] ⟨p.1, p.2, 1⟩ where
  le := by simp
  mem := by simp
  cands := ⟨0, fun _ => p.1, by simp [best], rfl, rfl⟩

/-- **What one step finds.** -/
theorem Found.step (h : Found draw l c) (p : α × β) :
    Found draw (l ++ [p]) (Reservoir.step draw c p) := by
  obtain ⟨n, cands, hbest, hkept, hcount⟩ := h.cands
  obtain ⟨q, hq, hqv⟩ := h.mem
  have hold := best_eq_filter h.le h.mem
  unfold Reservoir.step
  split
  -- one more candidate, drawn from among all so far
  case isTrue heq =>
    have hle : ∀ r ∈ l ++ [p], r.2 ≤ c.value := by
      simpa [or_imp, forall_and, heq] using h.le
    have hmem : ∃ r ∈ l ++ [p], r.2 = c.value := ⟨p, by simp, heq⟩
    refine ⟨hle, hmem, n + 1, Fin.snoc cands p.1, ?_, ?_, congrArg (· + 1) hcount⟩
    · have hsnoc : List.ofFn (Fin.snoc cands p.1 : Fin (n + 2) → α) = List.ofFn cands ++ [p.1] := by
        rw [List.ofFn_succ', List.concat_eq_append]
        simp only [Fin.snoc_castSucc, Fin.snoc_last]
      rw [best_eq_filter hle hmem, List.filter_append, List.map_append, ← hold, hbest, hsnoc]
      simp only [heq, decide_true, List.filter_cons_of_pos, List.filter_nil, List.map_cons,
        List.map_nil]
    · rw [chosen_snoc, hcount, hkept]
  case isFalse hne =>
    split
    -- a new best value: it is the only candidate
    case isTrue hlt =>
      have hle : ∀ r ∈ l ++ [p], r.2 ≤ p.2 := by
        simpa [or_imp, forall_and] using fun r hr => (h.le r hr).trans hlt.le
      have hnone : l.filter (fun r => r.2 = p.2) = [] := by
        rw [List.filter_eq_nil_iff]
        intro r hr
        have hrp : r.2 ≠ p.2 := ((h.le r hr).trans_lt hlt).ne
        simpa using hrp
      refine ⟨hle, ⟨p, by simp, rfl⟩, 0, fun _ => p.1, ?_, rfl, rfl⟩
      rw [best_eq_filter hle ⟨p, by simp, rfl⟩, List.filter_append, hnone]
      simp
    -- a worse value changes nothing
    case isFalse hnot =>
      have hpv : p.2 ≤ c.value := le_of_not_gt hnot
      have hle : ∀ r ∈ l ++ [p], r.2 ≤ c.value := by
        simpa [or_imp, forall_and, hpv] using h.le
      have hmem : ∃ r ∈ l ++ [p], r.2 = c.value := ⟨q, by simp [hq], hqv⟩
      refine ⟨hle, hmem, n, cands, ?_, hkept, hcount⟩
      rw [best_eq_filter hle hmem, List.filter_append, List.map_append, ← hold, hbest]
      simp [hne]

/-- **What a scan finds** in a list that is not empty. -/
theorem found_foldl (draw : α → Nat) (p : α × β) (l : List (α × β)) :
    Found draw (p :: l) (l.foldl (Reservoir.step draw) ⟨p.1, p.2, 1⟩) := by
  induction l using List.reverseRecOn with
  | nil => exact .single draw p
  | append_singleton l q ih =>
    rw [List.foldl_append, ← List.cons_append]
    exact ih.step q

/-- The candidates of a list determine what is kept. -/
theorem Found.kept_eq (h : Found draw l c) {n : Nat} {cands : Fin (n + 1) → α}
    (hbest : best l = List.ofFn cands) : c.kept = cands (chosen n (residues draw cands)) := by
  obtain ⟨m, cands', hbest', hkept, _⟩ := h.cands
  have hsigma := List.ofFn_inj'.mp (hbest'.symm.trans hbest)
  obtain rfl : m = n := by
    have hlen : m + 1 = n + 1 := congrArg Sigma.fst hsigma
    omega
  obtain rfl : cands' = cands := eq_of_heq (Sigma.mk.inj hsigma).2
  exact hkept

/-- What is kept has the largest value. -/
theorem Found.kept_mem (h : Found draw l c) : c.kept ∈ best l := by
  obtain ⟨n, cands, hbest, hkept, _⟩ := h.cands
  rw [hbest, hkept]
  exact List.mem_ofFn.mpr ⟨_, rfl⟩

/-- **Distinct candidates are kept by equally many combinations of residues.** -/
theorem card_chosen_cands {n : Nat} {cands : Fin (n + 1) → α} [DecidableEq α]
    (hinj : Function.Injective cands) (i : Fin (n + 1)) :
    Fintype.card { ρ : (j : Fin n) → Fin (j + 2) // cands (chosen n ρ) = cands i } =
      n.factorial := by
  simp only [hinj.eq_iff]
  exact card_chosen n i

end Reservoir

end Kxo
