import Mathlib.Tactic.TypeStar

/-!
# Kxo — labelled transition systems

A system is a set of initial states and a labelled step relation. Reachability, the rule that an
inductive invariant holds of every reachable state, and the restriction of a system to the steps
that meet a condition on the state they start from.
-/

namespace Kxo

/-- A labelled transition system with states `σ` and events `ε`. -/
structure System (σ ε : Type*) where
  init : σ → Prop
  step : σ → ε → σ → Prop

namespace System

variable {σ ε : Type*} {S : System σ ε}

/-- The states a run of the system reaches. -/
inductive Reachable (S : System σ ε) : σ → Prop where
  | init {s : σ} : S.init s → Reachable S s
  | step {s s' : σ} {e : ε} : Reachable S s → S.step s e s' → Reachable S s'

/-- `S.Run s tr`: from `s` the system can take the steps of `tr`, a list of events, each with the
state it leads to. -/
inductive Run (S : System σ ε) : σ → List (ε × σ) → Prop where
  | nil (s : σ) : Run S s []
  | cons {s t : σ} {e : ε} {tr : List (ε × σ)} : S.step s e t → Run S t tr → Run S s ((e, t) :: tr)

/-- `S.Executes s es t`: from `s` the system can take the steps of `es` and end in `t`. -/
inductive Executes (S : System σ ε) : σ → List ε → σ → Prop where
  | nil (s : σ) : Executes S s [] s
  | cons {s t u : σ} {e : ε} {es : List ε} :
      S.step s e t → Executes S t es u → Executes S s (e :: es) u

/-- An inductive invariant: it holds initially and every step keeps it. -/
structure Invariant (S : System σ ε) (I : σ → Prop) : Prop where
  init : ∀ s, S.init s → I s
  step : ∀ s e s', I s → S.step s e s' → I s'

/-- **The invariant rule.** -/
theorem Invariant.holds {I : σ → Prop} (h : S.Invariant I) {s : σ} (hr : S.Reachable s) : I s := by
  induction hr with
  | init hs => exact h.init _ hs
  | step _ hstep ih => exact h.step _ _ _ ih hstep

/-- An invariant that holds at the start of a run holds in all its states. -/
theorem Invariant.holds_run {I : σ → Prop} (h : S.Invariant I) {s : σ} {tr : List (ε × σ)}
    (hrun : S.Run s tr) (hs : I s) : ∀ p ∈ tr, I p.2 := by
  induction hrun with
  | nil => simp
  | @cons s t e tr hstep _ ih =>
    have ht := h.step s e t hs hstep
    exact List.forall_mem_cons.mpr ⟨ht, ih ht⟩

/-- A step may use an invariant already known: `J` need only be kept where `I` holds. -/
theorem Invariant.and {I J : σ → Prop} (hI : S.Invariant I) (hinit : ∀ s, S.init s → J s)
    (hstep : ∀ s e s', I s → J s → S.step s e s' → J s') :
    S.Invariant fun s => I s ∧ J s where
  init s hs := ⟨hI.init s hs, hinit s hs⟩
  step s e s' h hs := ⟨hI.step s e s' h.1 hs, hstep s e s' h.1 h.2 hs⟩

/-- Executions follow on one another. -/
theorem Executes.append {s t u : σ} {es fs : List ε} (h : S.Executes s es t)
    (h' : S.Executes t fs u) : S.Executes s (es ++ fs) u := by
  induction h with
  | nil => exact h'
  | cons hstep _ ih => exact .cons hstep (ih h')

/-- **A run from a reachable state ends in one.** -/
theorem Executes.reachable {s t : σ} {es : List ε} (h : S.Executes s es t) (hs : S.Reachable s) :
    S.Reachable t := by
  induction h with
  | nil => exact hs
  | cons hstep _ ih => exact ih (.step hs hstep)

/-- A run by its events, with a run from its end: the states it passes through can be named. -/
theorem Executes.run {s t : σ} {es : List ε} (h : S.Executes s es t) (hne : es ≠ [])
    {tr' : List (ε × σ)} (h' : S.Run t tr') :
    ∃ tr, S.Run s (tr ++ tr') ∧ tr.map Prod.fst = es ∧ t ∈ tr.map Prod.snd := by
  induction h with
  | nil => exact absurd rfl hne
  | @cons s t u e es hstep hrest ih =>
    cases hrest with
    | nil => exact ⟨[(e, t)], .cons hstep h', rfl, List.mem_singleton.mpr rfl⟩
    | cons hnext hmore =>
      obtain ⟨tr, hrun, hevents, hlast⟩ := ih (List.cons_ne_nil _ _) h'
      exact ⟨(e, t) :: tr, .cons hstep hrun, by rw [List.map_cons, hevents],
        List.mem_cons_of_mem _ hlast⟩

/-- The system with only the steps that meet a condition on their start and their event. -/
def restrict (S : System σ ε) (C : σ → ε → Prop) : System σ ε where
  init := S.init
  step s e s' := C s e ∧ S.step s e s'

/-- An invariant of the whole system is one of every restriction. -/
theorem Invariant.restrict {I : σ → Prop} (h : S.Invariant I) (C : σ → ε → Prop) :
    (S.restrict C).Invariant I where
  init := h.init
  step s e s' hI hs := h.step s e s' hI hs.2

/-- What is reached under a condition is reached. -/
theorem Reachable.of_restrict {C : σ → ε → Prop} {s : σ} (h : (S.restrict C).Reachable s) :
    S.Reachable s := by
  induction h with
  | init hs => exact .init hs
  | step _ hstep ih => exact .step ih hstep.2

/-- A run under a condition is one under every weaker condition. -/
theorem Executes.weaken {C D : σ → ε → Prop} (hweak : ∀ s e, C s e → D s e) {s t : σ} {es : List ε}
    (h : (S.restrict C).Executes s es t) : (S.restrict D).Executes s es t := by
  induction h with
  | nil s => exact .nil s
  | cons hstep _ ih => exact .cons ⟨hweak _ _ hstep.1, hstep.2⟩ ih

/-- A run under a condition is one under every condition that follows where an invariant holds. -/
theorem Run.weaken {C D : σ → ε → Prop} {I : σ → Prop} (hI : (S.restrict C).Invariant I)
    (hweak : ∀ s e, I s → C s e → D s e) {s : σ} {tr : List (ε × σ)}
    (h : (S.restrict C).Run s tr) (hs : I s) : (S.restrict D).Run s tr := by
  induction h with
  | nil s => exact .nil s
  | @cons s t e tr hstep _ ih =>
    exact .cons ⟨hweak s e hs hstep.1, hstep.2⟩ (ih (hI.step s e t hs hstep))

/-- A run under a condition is a run. -/
theorem Executes.of_restrict {C : σ → ε → Prop} {s t : σ} {es : List ε}
    (h : (S.restrict C).Executes s es t) : S.Executes s es t := by
  induction h with
  | nil s => exact .nil s
  | cons hstep _ ih => exact .cons hstep.2 ih

/-- A run all of whose events are allowed, whatever the state they start from, is one under the
condition. -/
theorem Executes.restrict {C : σ → ε → Prop} {s t : σ} {es : List ε} (h : S.Executes s es t)
    (hC : ∀ e ∈ es, ∀ s, C s e) : (S.restrict C).Executes s es t := by
  induction h with
  | nil s => exact .nil s
  | cons hstep _ ih =>
    rw [List.forall_mem_cons] at hC
    exact .cons ⟨hC.1 _, hstep⟩ (ih hC.2)

/-- **Runs that keep a property.** If, where `I` and `P` hold, a step keeps `P` exactly when it
meets `C`, then a run keeps `P` in all its states exactly when all its steps meet `C`. -/
theorem Run.forall_iff_restrict {I P : σ → Prop} {C : σ → ε → Prop} (hI : S.Invariant I)
    (hstep : ∀ s e t, I s → P s → S.step s e t → (P t ↔ C s e)) {s : σ} {tr : List (ε × σ)}
    (h : S.Run s tr) (hs : I s) (hP : P s) : (∀ p ∈ tr, P p.2) ↔ (S.restrict C).Run s tr := by
  induction h with
  | nil s => exact ⟨fun _ => .nil s, fun _ => by simp⟩
  | @cons s t e tr hst _ ih =>
    have hiff := hstep s e t hs hP hst
    have hIt := hI.step s e t hs hst
    constructor
    · intro hall
      have hPt : P t := hall (e, t) (by simp)
      exact .cons ⟨hiff.mp hPt, hst⟩ ((ih hIt hPt).mp fun p hp => hall p (by simp [hp]))
    · rintro (_ | ⟨⟨hC, _⟩, hrest⟩) p hp
      have hPt : P t := hiff.mpr hC
      rcases List.mem_cons.mp hp with rfl | hp
      · exact hPt
      · exact (ih hIt hPt).mpr hrest p hp

end System

end Kxo
