import Mathlib.Logic.Function.Basic
import Mathlib.Data.List.Basic

/-!
# Kxo — unlocked read-modify-write

Updates of one value, each by a read and a later write that others may fall between. A write is
built on what its own update has read, and drops whatever was written since. `survivors` follows
this on the schedule alone: the value is always that of its survivors, run one after another.
-/

namespace Kxo

namespace Rmw

/-- A half of the update named `i`. -/
inductive Step (ι : Type*) where
  | read (i : ι)
  | write (i : ι)
  deriving DecidableEq

def Step.id {ι : Type*} : Step ι → ι
  | .read i => i
  | .write i => i

/-- The value, and what each update has read. -/
structure Mem (ι α : Type*) where
  value : α
  copy : ι → α

variable {ι α β : Type*} [DecidableEq ι]

def step (f : ι → α → α) (m : Mem ι α) : Step ι → Mem ι α
  | .read i => { m with copy := Function.update m.copy i m.value }
  | .write i => { m with value := f i (m.copy i) }

def run (f : ι → α → α) (m : Mem ι α) (steps : List (Step ι)) : Mem ι α := steps.foldl (step f) m

/-- The updates the value is made of, the last first. -/
def survivors (steps : List (Step ι)) : List ι :=
  (run (fun i l => i :: l) ⟨[], fun _ => []⟩ steps).value

/-- A schedule in two parts is run in two parts. -/
theorem run_append (f : ι → α → α) (m : Mem ι α) (steps steps' : List (Step ι)) :
    run f m (steps ++ steps') = run f (run f m steps) steps' := List.foldl_append

/-- The first step, then the rest. -/
@[simp] theorem run_cons (f : ι → α → α) (m : Mem ι α) (st : Step ι) (steps : List (Step ι)) :
    run f m (st :: steps) = run f (step f m st) steps := rfl

/-- A homomorphism of the updates, seen through one step. -/
theorem step_map {f : ι → α → α} {g : ι → β → β} (φ : α → β) (hφ : ∀ i a, φ (f i a) = g i (φ a))
    (m : Mem ι α) (st : Step ι) :
    step g ⟨φ m.value, fun i => φ (m.copy i)⟩ st =
      ⟨φ (step f m st).value, fun i => φ ((step f m st).copy i)⟩ := by
  cases st with
  | read i =>
    have hcopy := Function.comp_update φ m.copy i m.value
    exact congrArg (Mem.mk (φ m.value)) hcopy.symm
  | write i => simp only [step, hφ]

/-- Updates that agree along a map keep agreeing. -/
theorem run_map {f : ι → α → α} {g : ι → β → β} (φ : α → β) (hφ : ∀ i a, φ (f i a) = g i (φ a))
    (m : Mem ι α) (steps : List (Step ι)) :
    run g ⟨φ m.value, fun i => φ (m.copy i)⟩ steps =
      ⟨φ (run f m steps).value, fun i => φ ((run f m steps).copy i)⟩ := by
  induction steps generalizing m with
  | nil => rfl
  | cons st steps ih => rw [run_cons, run_cons, step_map φ hφ, ih]

/-- What every write keeps holds of the value and of all that was read. -/
theorem run_invariant {f : ι → α → α} {P : α → Prop} {m : Mem ι α} {steps : List (Step ι)}
    (hvalue : P m.value) (hcopy : ∀ i, P (m.copy i))
    (hf : ∀ i, .write i ∈ steps → ∀ a, P a → P (f i a)) :
    P (run f m steps).value ∧ ∀ i, P ((run f m steps).copy i) := by
  induction steps generalizing m with
  | nil => exact ⟨hvalue, hcopy⟩
  | cons st steps ih =>
    have hrest : ∀ i, .write i ∈ steps → ∀ a, P a → P (f i a) := fun i hi =>
      hf i (List.mem_cons_of_mem _ hi)
    cases st with
    | read i =>
      rw [run_cons]
      refine ih hvalue (fun j => ?_) hrest
      show P (Function.update m.copy i m.value j)
      rcases eq_or_ne j i with rfl | hne
      · rwa [Function.update_self]
      · rw [Function.update_of_ne hne]
        exact hcopy j
    | write i => exact ih (hf i (by simp) _ (hcopy i)) hcopy hrest

/-- **The value is that of the survivors, run one after another.** -/
theorem value_run (f : ι → α → α) (a : α) (steps : List (Step ι)) :
    (run f ⟨a, fun _ => a⟩ steps).value = (survivors steps).foldr f a := by
  have hmap := run_map (f := fun i l => i :: l) (g := f) (fun l : List ι => l.foldr f a)
    (fun i l => rfl) ⟨[], fun _ => []⟩ steps
  exact congrArg Mem.value hmap

/-- What an update has read is the value at its last read. -/
theorem copy_run {f : ι → α → α} {m : Mem ι α} {i : ι} {steps : List (Step ι)}
    (hnone : .read i ∉ steps) : (run f m steps).copy i = m.copy i := by
  induction steps generalizing m with
  | nil => rfl
  | cons st steps ih =>
    rw [List.mem_cons, not_or] at hnone
    rw [run_cons, ih hnone.2]
    cases st with
    | write j => rfl
    | read j =>
      have hne : i ≠ j := by
        rintro rfl
        exact hnone.1 rfl
      exact Function.update_of_ne hne _ _

/-- **A write is built on what was read.** -/
theorem value_run_write {f : ι → α → α} {m : Mem ι α} {i : ι} {before between : List (Step ι)}
    (hnone : .read i ∉ between) :
    (run f m (before ++ .read i :: between ++ [.write i])).value = f i (run f m before).value := by
  have hcopy := copy_run (f := f) (m := step f (run f m before) (.read i)) hnone
  rw [run_append, run_append, run_cons]
  show f i ((run f (step f (run f m before) (.read i)) between).copy i) = _
  rw [hcopy]
  exact congrArg (f i) (Function.update_self _ _ _)

/-- A write drops everything since its own read and puts its update on top. -/
theorem survivors_write {i : ι} {before between : List (Step ι)} (hnone : .read i ∉ between) :
    survivors (before ++ .read i :: between ++ [.write i]) = i :: survivors before :=
  value_run_write hnone

/-- Only what was written survives. -/
theorem write_mem_of_survivors {steps : List (Step ι)} {i : ι} (hi : i ∈ survivors steps) :
    .write i ∈ steps := by
  have hall : ∀ j ∈ survivors steps, .write j ∈ steps := by
    apply (run_invariant (P := fun l => ∀ j ∈ l, .write j ∈ steps) _ _ _).1
    · simp
    · simp
    · intro i hi l hl j hj
      rcases List.mem_cons.mp hj with rfl | hj
      · exact hi
      · exact hl j hj
  exact hall i hi

end Rmw

end Kxo
