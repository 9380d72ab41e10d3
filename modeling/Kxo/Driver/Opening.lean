import Kxo.Spec.Init

/-!
# Kxo — opens during initialisation (`src/main.c`)

Up to the `atomic_set` at its end `kxo_init` leaves the open count alone, which therefore counts the
open files; setting it to 0 is right only where none is open. And a first open arms both timers,
whether they have been set up or not.

* **`kxoInitStep_frame`** — a statement of `kxo_init` before the last leaves the count and the
  files.
* **`openFile_eq_some`**, **`armFile_eq_some`**, **`releaseFile_eq_some`** — what the clients' steps
  can do, one inversion lemma each.
* **`CountInv`** — the count is exact until it is set.
* **`opensExact_iff`** — over every run: exactly when no timer is armed before it is set up, and no
  file is open at the `atomic_set`.
* **`run_inTime_of_opensLate`** — both hold when every first open begins after both timers are set
  up and none is open at the end.
-/

namespace Kxo

/-- No timer was armed before it was set up, and once `kxo_init` has returned the open count is the
number of open files. -/
def OpensExact (s : KxoInit) : Prop :=
  s.armedEarly = false ∧ ∀ ok, s.pc = .returned ok → s.openCnt = s.files.card

/-- A timer is armed only when it is set up, and no file is open when `kxo_init` sets the count. The
second half is a condition on the opens and releases before the count is set. The first asks of an
arming what `OpensExact` says of the timers: nothing in `kxo_open` waits for the set-up, so there is
nothing weaker to ask. `OpensLate` below says when the opens may begin. -/
def InTime (s : KxoInit) : InitEvent → Prop
  | .init _ => s.pc = .setOpenCnt → s.files = ∅
  | .arm f =>
      (s.file f = .armTimer → s.timerSetup = true) ∧
        (s.file f = .armLoadavgTimer → s.loadavgTimerSetup = true)
  | _ => True

/-- The open count is exact until it is set. -/
structure CountInv (s : KxoInit) : Prop where
  count : s.pc ≠ .returned true → s.openCnt = s.files.card
  files : ∀ f, f ∈ s.files ↔ s.file f ≠ .closed

variable {s s' : KxoInit} {e : InitEvent} {f : Nat} {res : Int}

/-! ## The steps

The system has two kinds of steps: the statements of `kxo_init` and those of the clients, which can
open the device as soon as it is added. -/

/-- What the calls of `kxo_init` but the last leave alone. -/
theorem kxoInitStep_frame (h : kxoInitStep res s = some s') (hpc : s.pc ≠ .setOpenCnt) :
    s'.openCnt = s.openCnt ∧ s'.file = s.file ∧ s'.files = s.files ∧
      s'.armedEarly = s.armedEarly ∧ s'.pc ≠ .returned true := by
  unfold kxoInitStep at h
  split at h
  case h_12 heq => exact absurd heq hpc
  case h_19 => simp at h
  all_goals
    obtain rfl := Option.some.inj h
    first
    | exact ⟨rfl, rfl, rfl, rfl, by simp⟩
    | split <;> exact ⟨rfl, rfl, rfl, rfl, by simp⟩

/-- The last statement sets the count to zero and returns. -/
theorem kxoInitStep_setOpenCnt (h : kxoInitStep res s = some s') (hpc : s.pc = .setOpenCnt) :
    s' = { s with openCnt := 0, pc := .returned true } := by
  simp only [kxoInitStep, hpc] at h
  exact (Option.some.inj h).symm

/-- A call that has returned makes no step. -/
theorem kxoInitStep_not_returned (h : kxoInitStep res s = some s') : s.pc ≠ .returned true := by
  intro hpc
  simp [kxoInitStep, hpc] at h

/-- An open counts itself; where it was not the first one it is done, otherwise it has the timers to
arm. -/
theorem openFile_eq_some (h : openFile f s = some s') :
    s.file f = .closed ∧ s'.pc = s.pc ∧ s'.openCnt = s.openCnt + 1 ∧
      s'.files = insert f s.files ∧ s'.armedEarly = s.armedEarly ∧
      ∃ state, state ≠ .closed ∧ s'.file = Function.update s.file f state := by
  unfold openFile at h
  split at h
  next hcond =>
    obtain rfl := Option.some.inj h
    refine ⟨hcond.2, rfl, rfl, rfl, rfl, _, ?_, rfl⟩
    split <;> simp
  next => simp at h

/-- An arming step goes by the set-up flag of its own timer. -/
theorem armFile_eq_some (h : armFile f s = some s') :
    s'.pc = s.pc ∧ s'.openCnt = s.openCnt ∧ s'.files = s.files ∧ s.file f ≠ .closed ∧
      (∃ state, state ≠ .closed ∧ s'.file = Function.update s.file f state) ∧
      (s'.armedEarly = false ↔ s.armedEarly = false ∧ InTime s (.arm f)) := by
  unfold armFile at h
  cases hfile : s.file f with
  | closed => simp [hfile] at h
  | opened => simp [hfile] at h
  | armTimer =>
    simp only [hfile, Option.some.injEq] at h
    subst h
    refine ⟨rfl, rfl, rfl, by simp, ⟨_, by simp, rfl⟩, ?_⟩
    simp [setFile, InTime, hfile]
  | armLoadavgTimer =>
    simp only [hfile, Option.some.injEq] at h
    subst h
    refine ⟨rfl, rfl, rfl, by simp, ⟨_, by simp, rfl⟩, ?_⟩
    simp [setFile, InTime, hfile]

/-- A release takes an open file off the count. -/
theorem releaseFile_eq_some (h : releaseFile f s = some s') :
    s.file f = .opened ∧
      s' = setFile { s with openCnt := s.openCnt - 1, files := s.files.erase f } f .closed := by
  unfold releaseFile at h
  split at h
  next hopen => exact ⟨hopen, (Option.some.inj h).symm⟩
  next => simp at h

/-! ## The count

Opens and releases keep the count at the number of open files, one step at a time. -/

/-- A file that was not open is counted. -/
theorem card_insert (hcount : s.openCnt = s.files.card) (hnot : f ∉ s.files) :
    s.openCnt + 1 = ((insert f s.files).card : Int) := by
  rw [Finset.card_insert_of_notMem hnot]
  push_cast
  rw [hcount]

/-- The count after a release. -/
theorem card_erase (hcount : s.openCnt = s.files.card) (hmem : f ∈ s.files) :
    s.openCnt - 1 = ((s.files.erase f).card : Int) := by
  have hpos : 0 < s.files.card := Finset.card_pos.mpr ⟨f, hmem⟩
  rw [Finset.card_erase_of_mem hmem]
  omega

/-- Every step keeps the count exact until it is set. -/
theorem CountInv.step (h : CountInv s) (hstep : initEventStep s e = some s') : CountInv s' := by
  cases e with
  | init res =>
    -- the last statement resets the count, of which nothing is promised from there on
    by_cases hpc : s.pc = .setOpenCnt
    · rw [kxoInitStep_setOpenCnt hstep hpc]
      exact ⟨fun hne => absurd rfl hne, h.files⟩
    · obtain ⟨hcount, hfile, hfiles, _, _⟩ := kxoInitStep_frame hstep hpc
      refine ⟨fun _ => ?_, fun f => ?_⟩
      · rw [hcount, hfiles]
        exact h.count (kxoInitStep_not_returned hstep)
      · rw [hfile, hfiles]
        exact h.files f
  | «open» f =>
    obtain ⟨hclosed, hpc, hcount, hfiles, _, state, hstate, hfile⟩ := openFile_eq_some hstep
    have hnot : f ∉ s.files := fun hmem => (h.files f).mp hmem hclosed
    refine ⟨fun hne => ?_, fun g => ?_⟩
    · rw [hcount, hfiles]
      exact card_insert (h.count (hpc ▸ hne)) hnot
    · rw [hfiles, hfile]
      rcases eq_or_ne g f with rfl | hg
      · simp [hstate]
      · simp [hg, h.files g]
  | arm f =>
    obtain ⟨hpc, hcount, hfiles, hopen, ⟨state, hstate, hfile⟩, _⟩ := armFile_eq_some hstep
    refine ⟨fun hne => ?_, fun g => ?_⟩
    · rw [hcount, hfiles]
      exact h.count (hpc ▸ hne)
    · rw [hfiles, hfile]
      rcases eq_or_ne g f with rfl | hg
      · simp [hstate, (h.files g).mpr hopen]
      · simp [hg, h.files g]
  | release f =>
    obtain ⟨hopen, rfl⟩ := releaseFile_eq_some hstep
    have hmem : f ∈ s.files := (h.files f).mpr (by simp [hopen])
    refine ⟨fun hne => card_erase (h.count hne) hmem, fun g => ?_⟩
    show g ∈ s.files.erase f ↔ Function.update s.file f .closed g ≠ .closed
    rcases eq_or_ne g f with rfl | hg
    · simp
    · simp [hg, h.files g]

/-- From module load on. -/
theorem countInv_invariant : initSystem.Invariant CountInv where
  init := by
    rintro s rfl
    exact ⟨fun _ => rfl, fun f => by simp [kxoInitStart]⟩
  step _ _ _ h hstep := h.step hstep

/-- The step lemma: a step keeps the count exact and the timers unarmed exactly when it is in
time. -/
theorem opensExact_step (h : CountInv s) (hexact : OpensExact s)
    (hstep : initEventStep s e = some s') : OpensExact s' ↔ InTime s e := by
  obtain ⟨hearly, hcount⟩ := hexact
  cases e with
  | init res =>
    -- setting the count to 0 is right if and only if no client has the file open
    by_cases hpc : s.pc = .setOpenCnt
    · rw [kxoInitStep_setOpenCnt hstep hpc]
      have hcard : (0 : Int) = s.files.card ↔ s.files = ∅ := by
        rw [eq_comm, Int.natCast_eq_zero, Finset.card_eq_zero]
      simp [OpensExact, InTime, hearly, hpc, hcard]
    · obtain ⟨hcnt, _, hfiles, harmed, _⟩ := kxoInitStep_frame hstep hpc
      refine iff_of_true ⟨harmed.trans hearly, fun ok _ => ?_⟩ fun hset => absurd hset hpc
      rw [hcnt, hfiles]
      exact h.count (kxoInitStep_not_returned hstep)
  | «open» f =>
    obtain ⟨hclosed, hpc, hcnt, hfiles, harmed, _⟩ := openFile_eq_some hstep
    have hnot : f ∉ s.files := fun hmem => (h.files f).mp hmem hclosed
    refine iff_of_true ⟨harmed.trans hearly, fun ok hok => ?_⟩ trivial
    rw [hcnt, hfiles]
    exact card_insert (hcount ok (hpc ▸ hok)) hnot
  -- arming the timers is right if and only if they are set up
  | arm f =>
    obtain ⟨hpc, hcnt, hfiles, _, _, harmed⟩ := armFile_eq_some hstep
    have hkept : ∀ ok, s'.pc = .returned ok → s'.openCnt = s'.files.card := by
      intro ok hok
      rw [hcnt, hfiles]
      exact hcount ok (hpc ▸ hok)
    rw [OpensExact, and_iff_left hkept, harmed, and_iff_right hearly]
  | release f =>
    obtain ⟨hopen, rfl⟩ := releaseFile_eq_some hstep
    have hmem : f ∈ s.files := (h.files f).mpr (by simp [hopen])
    exact iff_of_true ⟨hearly, fun ok hok => card_erase (hcount ok hok) hmem⟩ trivial

/-- **The open count is exact from the start**, in a run from `cdev_add`, exactly when every arming
comes after the timer's `timer_setup` and no file is open when `kxo_init` sets the count. -/
theorem opensExact_iff {tr : List (InitEvent × KxoInit)} (h : initSystem.Run kxoInitStart tr) :
    (∀ p ∈ tr, OpensExact p.2) ↔ (initSystem.restrict InTime).Run kxoInitStart tr :=
  h.forall_iff_restrict countInv_invariant (fun _ _ _ hI hexact hs => opensExact_step hI hexact hs)
    (countInv_invariant.init _ rfl) ⟨rfl, fun ok hok => by simp [kxoInitStart] at hok⟩

/-- The states that a list of events leads to, up to the first that cannot happen. -/
def initTrace : KxoInit → List InitEvent → List (InitEvent × KxoInit)
  | _, [] => []
  | s, e :: es =>
      match initEventStep s e with
      | some s' => (e, s') :: initTrace s' es
      | none => []

/-- The states listed are those of a run. -/
theorem run_initTrace (s : KxoInit) (es : List InitEvent) : initSystem.Run s (initTrace s es) := by
  induction es generalizing s with
  | nil => exact .nil s
  | cons e es ih =>
    unfold initTrace
    split
    case h_1 s' hstep => exact .cons hstep (ih s')
    case h_2 => exact .nil s

/-- The timers are set up; a client opens the device, arms them and closes it; `kxo_init` sets the
count and returns; another client opens the device. -/
def lateOpenEvents : List InitEvent :=
  List.replicate 11 (.init 0) ++ [.open 0, .arm 0, .arm 0, .release 0] ++
    [.init 0, .open 1, .arm 1, .arm 1]

/-- All of these steps can be taken. -/
theorem opensExact_iff_lateOpen :
    (initTrace kxoInitStart lateOpenEvents).map Prod.fst = lateOpenEvents ∧
      ((∀ p ∈ initTrace kxoInitStart lateOpenEvents, OpensExact p.2) ↔
        (initSystem.restrict InTime).Run kxoInitStart (initTrace kxoInitStart lateOpenEvents)) :=
  ⟨rfl, opensExact_iff (run_initTrace kxoInitStart lateOpenEvents)⟩

/-- A client opens the device right after `cdev_add`; then `kxo_init` runs to its end. -/
def earlyOpenEvents : List InitEvent :=
  [.init 0, .open 0, .arm 0, .arm 0] ++ List.replicate 11 (.init 0)

/-- The timers were armed before they were set up, and a file is open that is not counted. -/
theorem earlyOpen_not_exact :
    ∃ s, initSystem.Executes kxoInitStart earlyOpenEvents s ∧
      s.armedEarly = true ∧ s.pc = .returned true ∧ s.openCnt = 0 ∧ s.files = {0} ∧
      ¬ OpensExact s := by
  refine ⟨_, .cons rfl <| .cons rfl <| .cons rfl <| .cons rfl <| .cons rfl <| .cons rfl <|
    .cons rfl <| .cons rfl <| .cons rfl <| .cons rfl <| .cons rfl <| .cons rfl <| .cons rfl <|
    .cons rfl <| .cons rfl <| .nil _, ?_⟩
  refine ⟨rfl, rfl, rfl, rfl, fun hexact => ?_⟩
  have hcount := hexact.2 true rfl
  exact absurd hcount (by decide)

/-! ## When the opens may begin

Between the increment of the open count and the two `mod_timer` calls anything can happen, so what
an arming needs has to hold when the open begins: from then on the timers stay set up.
-/

/-- A first open begins only when both timers are set up, and no file is open when `kxo_init` sets
the count. -/
def OpensLate (s : KxoInit) : InitEvent → Prop
  | .init _ => s.pc = .setOpenCnt → s.files = ∅
  | .open _ => s.openCnt = 0 → s.timerSetup = true ∧ s.loadavgTimerSetup = true
  | _ => True

/-- Where an open is still to arm a timer, both are set up. -/
def ArmsSetUp (s : KxoInit) : Prop :=
  ∀ f, s.file f = .armTimer ∨ s.file f = .armLoadavgTimer →
    s.timerSetup = true ∧ s.loadavgTimerSetup = true

/-- A timer that is set up stays so. -/
theorem kxoInitStep_setUp (h : kxoInitStep res s = some s') :
    s'.file = s.file ∧ (s.timerSetup = true → s'.timerSetup = true) ∧
      (s.loadavgTimerSetup = true → s'.loadavgTimerSetup = true) := by
  unfold kxoInitStep at h
  split at h
  case h_19 => simp at h
  all_goals
    obtain rfl := Option.some.inj h
    first
    | exact ⟨rfl, id, id⟩
    | exact ⟨rfl, fun _ => rfl, id⟩
    | exact ⟨rfl, id, fun _ => rfl⟩
    | split <;> exact ⟨rfl, id, id⟩

/-- A step keeps it, when first opens begin late. -/
theorem ArmsSetUp.step (h : ArmsSetUp s) (hlate : OpensLate s e)
    (hstep : initEventStep s e = some s') : ArmsSetUp s' := by
  cases e with
  | init res =>
    obtain ⟨hfile, htimer, hloadavg⟩ := kxoInitStep_setUp hstep
    intro f hf
    rw [hfile] at hf
    exact (h f hf).imp htimer hloadavg
  | «open» f =>
    simp only [initEventStep, openFile] at hstep
    split at hstep
    case isFalse => simp at hstep
    obtain rfl := Option.some.inj hstep
    intro g hg
    rcases eq_or_ne g f with rfl | hne
    · -- only a first open goes on to arm the timers
      have hfirst : s.openCnt = 0 := by
        by_contra hcnt
        have hnot : ¬ s.openCnt + 1 = 1 := by omega
        simp [setFile, hnot] at hg
      exact hlate hfirst
    · exact h g (by simpa [setFile, hne] using hg)
  | arm f =>
    simp only [initEventStep, armFile] at hstep
    split at hstep
    case h_3 => simp at hstep
    all_goals
      next hfile =>
      obtain rfl := Option.some.inj hstep
      intro g hg
      rcases eq_or_ne g f with rfl | hne
      · exact h g (by simp [hfile])
      · exact h g (by simpa [setFile, hne] using hg)
  | release f =>
    obtain ⟨_, rfl⟩ := releaseFile_eq_some hstep
    intro g hg
    rcases eq_or_ne g f with rfl | hne
    · simp [setFile] at hg
    · exact h g (by simpa [setFile, hne] using hg)

/-- **Opens that begin late are in time**: if every first open of a run begins after the timers are
set up, and no file is open when the count is set, all its steps are in time. -/
theorem run_inTime_of_opensLate {tr : List (InitEvent × KxoInit)}
    (h : (initSystem.restrict OpensLate).Run kxoInitStart tr) :
    (initSystem.restrict InTime).Run kxoInitStart tr := by
  have hinv : (initSystem.restrict OpensLate).Invariant ArmsSetUp := by
    refine ⟨?_, fun _ _ _ hI hs => hI.step hs.1 hs.2⟩
    rintro s rfl f hf
    simp [kxoInitStart] at hf
  refine h.weaken hinv (fun s e hI hlate => ?_) (hinv.init _ rfl)
  cases e with
  | init _ => exact hlate
  | «open» _ => trivial
  | arm f => exact ⟨fun hf => (hI f (.inl hf)).1, fun hf => (hI f (.inr hf)).2⟩
  | release _ => trivial

end Kxo
