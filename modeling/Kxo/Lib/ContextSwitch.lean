import Kxo.Lib.TransitionSystem
import Mathlib.Data.Set.Insert
import Mathlib.Logic.Function.Basic

/-!
# Kxo — context switches

Several contexts share one processor and one memory. A context that is not running has left a frame
in the memory it owns; `Frame c v mem` says that the frame of `c` in `mem` stands for the view `v`,
what `c` saw of the processor when it left. A switch is correct if it lays down the frame of the
context it leaves and shows the other one its view. From that alone every run of switches, of
computations of the running context and of starts of new contexts gives each context its own view
back.
-/

namespace Kxo

/-- Contexts `κ` on a machine `μ` with memory from addresses `α` to words `β`; a view `ν` is what a
context can tell of the machine. `returned` is the view a context would have if its call of the
switch returned at once. `Ready c d m`: in `m` the context `c` may switch to `d`. -/
structure Switcher (κ μ α β ν : Type*) where
  mem : μ → α → β
  owned : κ → Set α
  view : κ → μ → ν
  returned : κ → μ → ν
  Ready : κ → κ → μ → Prop
  coSwitch : κ → κ → μ → μ
  Frame : κ → ν → (α → β) → Prop

namespace Switcher

variable {κ μ α β ν : Type*}

/-- What has to be shown of a switch. -/
structure Correct (S : Switcher κ μ α β ν) : Prop where
  frame_congr : ∀ {c v mem mem'}, S.Frame c v mem → (∀ a ∈ S.owned c, mem a = mem' a) →
    S.Frame c v mem'
  leaves : ∀ {c d m}, S.Ready c d m → S.Frame c (S.returned c m) (S.mem (S.coSwitch c d m))
  resumes : ∀ {c d v m}, S.Ready c d m → c ≠ d → S.Frame d v (S.mem m) →
    S.view d (S.coSwitch c d m) = v
  keeps : ∀ {c d m}, S.Ready c d m → ∀ a ∉ S.owned c, S.mem (S.coSwitch c d m) a = S.mem m a

/-- The machine and the context that runs on it. The last field is a history variable: the view each
context left with, or was started with. -/
structure Multiplexed (κ μ ν : Type*) where
  machine : μ
  current : κ
  suspended : κ → Option ν

/-- The running context computes, which leaves the memory of the suspended ones alone; it writes the
frame of a new one; or it switches. -/
inductive SwitchEvent (κ : Type*) where
  | compute
  | start (k : κ)
  | switch (d : κ)

variable [DecidableEq κ]

/-- Any number of contexts, one of which runs at first. -/
def system (S : Switcher κ μ α β ν) : System (Multiplexed κ μ ν) (SwitchEvent κ) where
  init s := ∀ k, s.suspended k = none
  step s e s' :=
    match e with
    | .compute =>
        s'.current = s.current ∧ s'.suspended = s.suspended ∧
          ∀ k ≠ s.current, s.suspended k ≠ none →
            ∀ a ∈ S.owned k, S.mem s.machine a = S.mem s'.machine a
    | .start k =>
        ∃ v, k ≠ s.current ∧ S.Frame k v (S.mem s'.machine) ∧
          s'.current = s.current ∧ s'.suspended = Function.update s.suspended k (some v) ∧
          ∀ j ≠ k, j ≠ s.current → ∀ a ∈ S.owned j, S.mem s.machine a = S.mem s'.machine a
    | .switch d =>
        d ≠ s.current ∧ s.suspended d ≠ none ∧ S.Ready s.current d s.machine ∧
          s' = ⟨S.coSwitch s.current d s.machine, d,
            Function.update s.suspended s.current (some (S.returned s.current s.machine))⟩

/-- The frame of every suspended context is intact. -/
def FramesIntact (S : Switcher κ μ α β ν) (s : Multiplexed κ μ ν) : Prop :=
  ∀ k v, k ≠ s.current → s.suspended k = some v → S.Frame k v (S.mem s.machine)

/-- No step harms a frame, if contexts own nothing in common. -/
theorem framesIntact_invariant {S : Switcher κ μ α β ν} (hS : S.Correct)
    (hdisj : ∀ c d, c ≠ d → ∀ a ∈ S.owned c, a ∉ S.owned d) :
    S.system.Invariant S.FramesIntact where
  init s hs k v _ hv := by
    rw [hs k] at hv
    cases hv
  step s e s' h hstep := by
    cases e with
    | compute =>
      obtain ⟨hcur, hsus, hkeep⟩ := hstep
      intro k v hk hv
      rw [hcur] at hk
      rw [hsus] at hv
      exact hS.frame_congr (h k v hk hv) (hkeep k hk (by rw [hv]; simp))
    | start k =>
      obtain ⟨v, hne, hframe, hcur, hsus, hkeep⟩ := hstep
      intro j w hj hw
      rw [hcur] at hj
      rw [hsus] at hw
      by_cases hjk : j = k
      · subst hjk
        rw [Function.update_self] at hw
        obtain rfl := Option.some.inj hw
        exact hframe
      · rw [Function.update_of_ne hjk] at hw
        exact hS.frame_congr (h j w hj hw) (hkeep j hjk hj)
    | switch d =>
      obtain ⟨hne, _, hready, rfl⟩ := hstep
      intro k v hk hv
      dsimp only at hk hv ⊢
      by_cases hkc : k = s.current
      · -- the context that has just left
        subst hkc
        rw [Function.update_self] at hv
        obtain rfl := Option.some.inj hv
        exact hS.leaves hready
      · rw [Function.update_of_ne hkc] at hv
        refine hS.frame_congr (h k v hkc hv) fun a ha => (hS.keeps hready a ?_).symm
        exact hdisj k s.current hkc a ha

/-- **A context gets its view back.** Whatever ran in between, a switch to a context shows it what
it saw when it left, or was started with. -/
theorem resumes_suspended {S : Switcher κ μ α β ν} (hS : S.Correct)
    (hdisj : ∀ c d, c ≠ d → ∀ a ∈ S.owned c, a ∉ S.owned d) {s s' : Multiplexed κ μ ν}
    (hs : S.system.Reachable s) {d : κ} (hstep : S.system.step s (.switch d) s') :
    s'.current = d ∧ s.suspended d = some (S.view d s'.machine) := by
  obtain ⟨hne, hsus, hready, rfl⟩ := hstep
  obtain ⟨v, hv⟩ := Option.ne_none_iff_exists'.mp hsus
  have hframe := (framesIntact_invariant hS hdisj).holds hs d v hne hv
  exact ⟨rfl, by rw [hv, hS.resumes hready (Ne.symm hne) hframe]⟩

end Switcher

end Kxo
