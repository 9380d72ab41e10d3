import Kxo.Spec.LoadAvg
import Mathlib.Data.Nat.Bitwise

/-!
# Kxo — what the load averages are (`src/main.c`, `user/tui.c`)

Of the periods between two callbacks `loadavg_handler` charges those with some busy time: the
average is the fold of `calc_load` over them, and stays where it is over the others. The packed word
has nine bits for the integer part and the TUI reads four of them, so it shows the average below 16
and not above.

* **`periods`** — the periods of a run, for one player, read off the events alone: how long each
  lasted and how long the player was busy in it.
* **`load_eq_fold`**, **`load_eq_damped`** — the average is the fold of `calc_load` over the periods
  with busy time.
* **`toNat_packLoad`**, **`toNat_shownInt`** — the packing and the unpacking, as numbers.
* **`shown_packLoad_iff`** — the TUI shows the average exactly when it is below 16.
* **`loadShown_iff`** — over runs: as long as no callback charges an average to 16 or above. A
  sufficient condition on the inputs is that no player is busy for 16 periods' length in one period
  (`chargedBelow_of_busyBelow`).
-/

namespace Kxo

/-! ## One update

`ai_work_func` adds to the busy time and the callback turns it into a load. The two touch different
fields. -/

section AiDone

variable (i j : Fin nGames) (p q : Player) (nsecs : Nat) (s : LoadAvg)

/-- A move's time is added to the player's busy time in its game, modulo `2 ^ 64`. -/
theorem nsecs_aiDone :
    ((aiDone j q nsecs s).aiAvgs i).nsecs p =
      if j = i ∧ q = p then (s.aiAvgs i).nsecs p + BitVec.ofNat 64 nsecs
      else (s.aiAvgs i).nsecs p := by
  show AiAvg.nsecs (Function.update s.aiAvgs j _ i) p = _
  by_cases hj : j = i
  · subst hj
    rw [Function.update_self]
    cases p <;> cases q <;> simp [AiAvg.nsecs, AiAvg.addNsecs]
  · rw [Function.update_of_ne (Ne.symm hj), if_neg fun h => hj h.1]

/-- And to no average. -/
theorem loadAvg_aiDone : ((aiDone j q nsecs s).aiAvgs i).loadAvg p = (s.aiAvgs i).loadAvg p := by
  show AiAvg.loadAvg (Function.update s.aiAvgs j _ i) p = _
  by_cases hj : j = i
  · subst hj
    rw [Function.update_self]
    cases p <;> cases q <;> rfl
  · rw [Function.update_of_ne (Ne.symm hj)]

end AiDone

section Handler

variable (delta : Nat) (avg : AiAvg) (p : Player)

/-- The callback clears the busy times. -/
theorem nsecs_updateAvg : (updateAvg delta avg).nsecs p = 0 := by
  have hemptied : ∀ nsecs : U64, (if nsecs ≠ 0 then 0 else nsecs) = 0 := fun nsecs => by
    by_cases h : nsecs = 0
    · rw [if_neg (not_not.mpr h), h]
    · rw [if_pos h]
  cases p with
  | o => exact hemptied avg.nsecsO
  | x => exact hemptied avg.nsecsX

/-- It charges the average, if there was busy time. -/
theorem loadAvg_updateAvg :
    (updateAvg delta avg).loadAvg p = chargeLoad delta (avg.nsecs p) (avg.loadAvg p) := by
  cases p <;> rfl

/-- And packs it. -/
theorem avg_packAvg : (packAvg avg).avg p = packLoad (avg.loadAvg p) := by cases p <;> rfl

/-- The first callback only starts the clock. -/
theorem loadavgHandler_first {now : Nat} {s : LoadAvg} (h : s.tvEnd = 0) :
    loadavgHandler now s = { s with tvEnd := now } := if_pos h

/-- Every other one updates and packs all averages. -/
theorem loadavgHandler_next {now : Nat} {s : LoadAvg} (h : s.tvEnd ≠ 0) :
    loadavgHandler now s = {
      tvEnd := now
      aiAvgs := fun i => updateAvg (now - s.tvEnd) (s.aiAvgs i)
      xoAvgs := fun i => packAvg (updateAvg (now - s.tvEnd) (s.aiAvgs i)) } := if_neg h

end Handler

/-! ## The average as a fold over the periods

`Counting` is the state between two callbacks: the busy time so far and the start of the period. It
makes the induction over the events go through. -/

/-- The time from one callback to the next, and the player's moves charged to it. -/
structure Period where
  busy : Nat
  elapsed : Nat
  deriving DecidableEq, Repr

/-- The periods since the first callback, for one player of one game: `busy` is the time of the
moves not charged yet, and `start` the last callback. What was completed before the first callback
is charged to the first period. -/
def periods (i : Fin nGames) (p : Player) : List LoadEvent → Nat → Option Nat → List Period
  | [], _, _ => []
  | .aiDone j q nsecs :: rest, busy, start =>
      periods i p rest (if j = i ∧ q = p then busy + nsecs else busy) start
  | .loadavgHandler now :: rest, busy, none => periods i p rest busy (some now)
  | .loadavgHandler now :: rest, busy, some t =>
      ⟨busy, now - t⟩ :: periods i p rest 0 (some now)

/-- `calc_load` with the ratio of a period. -/
def chargePeriod (load : U64) (period : Period) : U64 :=
  calcLoad load exp1 (loadRatio (BitVec.ofNat 64 period.busy) period.elapsed)

/-- The average damped over some periods, from zero. -/
def dampedLoad (l : List Period) : U64 := l.foldl chargePeriod 0

/-- A period with busy time, as `nsecs_o` and `nsecs_x` count it. -/
def Period.charged (period : Period) : Bool := BitVec.ofNat 64 period.busy ≠ 0

/-- What the handler keeps of the periods of one player: the time not charged yet and the last
callback. -/
structure Counting (i : Fin nGames) (p : Player) (busy : Nat) (start : Option Nat) (s : LoadAvg) :
    Prop where
  nsecs : (s.aiAvgs i).nsecs p = BitVec.ofNat 64 busy
  tvEnd : start = if s.tvEnd = 0 then none else some s.tvEnd

section Fold

variable {i j : Fin nGames} {p q : Player} {busy nsecs now : Nat} {start : Option Nat}
  {s t : LoadAvg} {events : List LoadEvent}

/-- A move's time goes to the period at hand. -/
theorem Counting.aiDone (h : Counting i p busy start s) (j : Fin nGames) (q : Player)
    (nsecs : Nat) :
    Counting i p (if j = i ∧ q = p then busy + nsecs else busy) start (aiDone j q nsecs s) where
  nsecs := by
    rw [nsecs_aiDone, h.nsecs]
    split
    · rw [BitVec.ofNat_add]
    · rfl
  tvEnd := h.tvEnd

/-- From any state on, the average is what `calc_load` makes of it over the periods with busy time.
Induction on the events. -/
theorem load_eq_fold (h : Counting i p busy start s) (hrun : loadSystem.Executes s events t) :
    (t.aiAvgs i).loadAvg p =
      ((periods i p events busy start).filter Period.charged).foldl chargePeriod
        ((s.aiAvgs i).loadAvg p) := by
  induction hrun generalizing busy start with
  | nil => rfl
  | @cons s u t e events hstep _ ih =>
    cases e with
    | aiDone j q nsecs =>
      obtain rfl : u = Kxo.aiDone j q nsecs s := hstep
      rw [ih (h.aiDone j q nsecs), loadAvg_aiDone, periods]
    | loadavgHandler now =>
      obtain ⟨hlt, -, rfl⟩ := hstep
      have hnow : some now = if now = 0 then none else some now := by
        rw [if_neg (by omega)]
      by_cases hfirst : s.tvEnd = 0
      · -- the first callback only starts the clock
        obtain rfl : start = none := h.tvEnd.trans (if_pos hfirst)
        rw [loadavgHandler_first hfirst] at ih
        exact ih ⟨h.nsecs, hnow⟩
      · obtain rfl : start = some s.tvEnd := h.tvEnd.trans (if_neg hfirst)
        rw [loadavgHandler_next hfirst] at ih
        have hzero : (0 : U64) = BitVec.ofNat 64 0 := rfl
        rw [ih ⟨(nsecs_updateAvg _ _ p).trans hzero, hnow⟩, loadAvg_updateAvg, h.nsecs, periods]
        -- a period without work changes nothing, by the guard on the busy time
        by_cases hbusy : BitVec.ofNat 64 busy = 0
        · rw [List.filter_cons_of_neg (by simpa [Period.charged] using hbusy), chargeLoad,
            if_neg (not_not.mpr hbusy)]
        · rw [List.filter_cons_of_pos (by simpa [Period.charged] using hbusy), List.foldl_cons,
            chargeLoad, if_pos hbusy]
          rfl

/-- **The load average is the damped average over the periods with busy time.** After any moves and
callbacks, for each player of each game. -/
theorem load_eq_damped (hrun : loadSystem.Executes loadAvgInit events s) (i : Fin nGames)
    (p : Player) :
    (s.aiAvgs i).loadAvg p = dampedLoad ((periods i p events 0 none).filter Period.charged) := by
  have hload : (loadAvgInit.aiAvgs i).loadAvg p = 0 := by cases p <;> rfl
  have hnsecs : (loadAvgInit.aiAvgs i).nsecs p = BitVec.ofNat 64 0 := by cases p <;> rfl
  rw [load_eq_fold ⟨hnsecs, rfl⟩ hrun, hload]
  rfl

end Fold

/-- O moves for the whole of the first period and not at all in the second. -/
def idlePeriod : List LoadEvent :=
  [.loadavgHandler 1000000000, .aiDone ⟨1, by decide⟩ .o 1000000000, .loadavgHandler 2000000000,
    .loadavgHandler 3000000000]

/-- The run exists, and ends with an average of 164 in fixed point. -/
theorem idlePeriod_executes : ∃ s, loadSystem.Executes loadAvgInit idlePeriod s ∧
    (s.aiAvgs ⟨1, by decide⟩).loadAvg .o = 164 := by
  refine ⟨_, .cons ⟨by decide, by decide, rfl⟩ (.cons rfl (.cons ⟨by decide, by decide, rfl⟩
    (.cons ⟨by decide, by decide, rfl⟩ (.nil _)))), ?_⟩
  decide +kernel

/-- Two periods, of which one is charged. -/
theorem load_eq_damped_idle : ∃ s, loadSystem.Executes loadAvgInit idlePeriod s ∧
    (s.aiAvgs ⟨1, by decide⟩).loadAvg .o =
      dampedLoad ((periods ⟨1, by decide⟩ .o idlePeriod 0 none).filter Period.charged) := by
  obtain ⟨s, hrun, -⟩ := idlePeriod_executes
  exact ⟨s, hrun, load_eq_damped hrun _ .o⟩

/-- An idle period does not damp the average. -/
theorem load_ne_damped : ∃ s, loadSystem.Executes loadAvgInit idlePeriod s ∧
    (s.aiAvgs ⟨1, by decide⟩).loadAvg .o ≠
      dampedLoad (periods ⟨1, by decide⟩ .o idlePeriod 0 none) := by
  obtain ⟨s, hrun, hload⟩ := idlePeriod_executes
  refine ⟨s, hrun, ?_⟩
  rw [hload]
  decide +kernel

/-! ## The packed word

The arithmetic of the word, with the masks as remainders. -/

section Packed

variable (load : U64)

/-- The integer part. -/
theorem toNat_loadInt : (loadInt load).toNat = load.toNat / 2048 := by
  rw [loadInt, BitVec.toNat_ushiftRight, fShift, Nat.shiftRight_eq_div_pow]

/-- The hundredths. -/
theorem toNat_loadFrac : (loadFrac load).toNat = load.toNat % 2048 * 100 / 2048 := by
  have hmask : (load &&& (fixed1 - 1)).toNat = load.toNat % 2048 := by
    rw [BitVec.toNat_and]
    exact Nat.and_two_pow_sub_one_eq_mod load.toNat 11
  rw [loadFrac, toNat_loadInt, BitVec.toNat_mul, hmask, show (100 : U64).toNat = 100 from rfl,
    Nat.mod_eq_of_lt (by omega)]

/-- The packed word: nine bits of the integer part above seven of the hundredths. -/
theorem toNat_packLoad :
    (packLoad load).toNat = (loadInt load).toNat % 512 * 128 + (loadFrac load).toNat := by
  have hfrac : (loadFrac load).toNat < 128 := by
    rw [toNat_loadFrac]
    omega
  have hmask : ∀ x : BitVec 32, (x &&& 0x7f).toNat = x.toNat % 128 := fun x =>
    Nat.and_two_pow_sub_one_eq_mod x.toNat 7
  rw [packLoad]
  simp only [BitVec.toNat_setWidth, BitVec.toNat_add, BitVec.toNat_shiftLeft, hmask,
    Nat.shiftLeft_eq]
  omega

/-- What the TUI reads as the integer part: four bits. -/
theorem toNat_shownInt (avg : U16) : (shownInt avg).toNat = avg.toNat / 128 % 16 := by
  rw [shownInt, BitVec.ushiftRight_and_distrib, BitVec.toNat_and, BitVec.toNat_ushiftRight,
    Nat.shiftRight_eq_div_pow]
  exact Nat.and_two_pow_sub_one_eq_mod _ 4

/-- What it reads as the hundredths: seven bits. -/
theorem toNat_shownFrac (avg : U16) : (shownFrac avg).toNat = avg.toNat % 128 := by
  rw [shownFrac, BitVec.toNat_and]
  exact Nat.and_two_pow_sub_one_eq_mod avg.toNat 7

/-- The TUI's numbers are the integer part and the hundredths of the average. -/
def ShowsLoad (avg : U16) (load : U64) : Prop :=
  (shownInt avg).toNat = (loadInt load).toNat ∧ (shownFrac avg).toNat = (loadFrac load).toNat

/-- **What a packed average shows**: the average below 16, and above only its hundredths. -/
theorem shown_packLoad_iff : ShowsLoad (packLoad load) load ↔ load.toNat < 2 ^ 15 := by
  have hfrac : (loadFrac load).toNat < 128 := by
    rw [toNat_loadFrac]
    omega
  have hshownFrac : (shownFrac (packLoad load)).toNat = (loadFrac load).toNat := by
    rw [toNat_shownFrac, toNat_packLoad]
    omega
  rw [ShowsLoad, hshownFrac, and_iff_left rfl, toNat_shownInt, toNat_packLoad, toNat_loadInt]
  omega

/-- What `calc_load` divides by `FIXED_1`. -/
def loadSum (load ratio : Nat) : Nat :=
  (1884 * load + 164 * ratio + if load ≤ ratio then 2047 else 0) % 2 ^ 64

/-- `calc_load` as a number. -/
theorem toNat_calcLoad (active : U64) :
    (calcLoad load exp1 active).toNat = loadSum load.toNat active.toNat / 2048 := by
  have hsum : (load * exp1 + active * (fixed1 - exp1)).toNat =
      (1884 * load.toNat + 164 * active.toNat) % 2 ^ 64 := by
    rw [BitVec.toNat_add, BitVec.toNat_mul, BitVec.toNat_mul, show exp1.toNat = 1884 from rfl,
      show (fixed1 - exp1).toNat = 164 from rfl]
    omega
  rw [calcLoad, BitVec.toNat_udiv, show fixed1.toNat = 2048 from rfl, loadSum]
  congr 1
  by_cases hle : load ≤ active
  · rw [if_pos hle, if_pos (BitVec.le_def.mp hle), BitVec.toNat_add, hsum,
      show (fixed1 - 1).toNat = 2047 from rfl]
    omega
  · rw [if_neg hle, if_neg fun h => hle (BitVec.le_def.mpr h), hsum, Nat.add_zero]

/-- The ratio of a period, whose product wraps at `2 ^ 64`. -/
theorem toNat_loadRatio (nsecs : U64) {delta : Nat} (h : delta < 2 ^ 64) :
    (loadRatio nsecs delta).toNat = nsecs.toNat * 2048 % 2 ^ 64 / delta := by
  rw [loadRatio, BitVec.toNat_udiv, BitVec.toNat_mul, BitVec.toNat_ofNat, Nat.mod_eq_of_lt h]
  rfl

end Packed

/-! ## In every state

What the words hold is always packed from the averages; whether they show them depends on the
averages' size. -/

/-- The TUI shows every player's average. -/
def LoadShown (s : LoadAvg) : Prop :=
  ∀ i p, ShowsLoad ((s.xoAvgs i).avg p) ((s.aiAvgs i).loadAvg p)

/-- The words are the packed averages. -/
def WordsPacked (s : LoadAvg) : Prop :=
  ∀ i p, (s.xoAvgs i).avg p = packLoad ((s.aiAvgs i).loadAvg p)

/-- The packed words follow the averages in every state. -/
theorem wordsPacked_invariant : loadSystem.Invariant WordsPacked where
  init s hs i p := by
    have hzero : packLoad 0 = 0 := by decide
    rw [hs]
    cases p <;> exact hzero.symm
  step s e s' h hstep := by
    cases e with
    | aiDone j q nsecs =>
      obtain rfl : s' = Kxo.aiDone j q nsecs s := hstep
      intro i p
      rw [loadAvg_aiDone]
      exact h i p
    | loadavgHandler now =>
      obtain ⟨-, -, rfl⟩ := hstep
      by_cases hfirst : s.tvEnd = 0
      · rw [loadavgHandler_first hfirst]
        exact h
      · rw [loadavgHandler_next hfirst]
        exact fun i p => avg_packAvg _ p

/-- The TUI shows the averages when all are below 16. -/
theorem loadShown_iff_lt {s : LoadAvg} (h : WordsPacked s) :
    LoadShown s ↔ ∀ i p, ((s.aiAvgs i).loadAvg p).toNat < 2 ^ 15 := by
  refine forall₂_congr fun i p => ?_
  rw [h i p, shown_packLoad_iff]

/-- In the period that the callback ends, no average is charged up to 16 or beyond. -/
def ChargedBelow (s : LoadAvg) : LoadEvent → Prop
  | .aiDone _ _ _ => True
  | .loadavgHandler now => s.tvEnd ≠ 0 → ∀ i p, (s.aiAvgs i).nsecs p ≠ 0 →
      loadSum ((s.aiAvgs i).loadAvg p).toNat
        (((s.aiAvgs i).nsecs p).toNat * 2048 % 2 ^ 64 / (now - s.tvEnd)) < 2 ^ 26

/-- No player has been busy for 16 times the period or more. -/
def BusyBelow (s : LoadAvg) : LoadEvent → Prop
  | .aiDone _ _ _ => True
  | .loadavgHandler now => s.tvEnd ≠ 0 →
      ∀ i p, ((s.aiAvgs i).nsecs p).toNat < 16 * (now - s.tvEnd)

/-- One step: a callback that charges an average to 16 or above ends it. -/
theorem loadShown_step {s t : LoadAvg} {e : LoadEvent} (hpacked : WordsPacked s)
    (hshown : LoadShown s) (hstep : loadSystem.step s e t) : LoadShown t ↔ ChargedBelow s e := by
  rw [loadShown_iff_lt (wordsPacked_invariant.step s e t hpacked hstep)]
  rw [loadShown_iff_lt hpacked] at hshown
  cases e with
  | aiDone j q nsecs =>
    obtain rfl : t = Kxo.aiDone j q nsecs s := hstep
    refine iff_of_true (fun i p => ?_) trivial
    rw [loadAvg_aiDone]
    exact hshown i p
  | loadavgHandler now =>
    obtain ⟨hlt, hnow, rfl⟩ := hstep
    by_cases hfirst : s.tvEnd = 0
    · rw [loadavgHandler_first hfirst]
      exact iff_of_true hshown fun h => absurd hfirst h
    · rw [loadavgHandler_next hfirst, ChargedBelow, forall_prop_of_true hfirst]
      refine forall₂_congr fun i p => ?_
      rw [loadAvg_updateAvg, chargeLoad]
      by_cases hbusy : (s.aiAvgs i).nsecs p = 0
      · rw [if_neg (not_not.mpr hbusy)]
        exact iff_of_true (hshown i p) fun h => absurd hbusy h
      · rw [if_pos hbusy, forall_prop_of_true hbusy, toNat_calcLoad,
          toNat_loadRatio _ (by omega)]
        omega

/-- Below 16 before, and busy for less than 16 times the period: below 16 after. -/
theorem chargedBelow_of_busyBelow {s : LoadAvg} {e : LoadEvent} (hpacked : WordsPacked s)
    (hshown : LoadShown s) (hbusy : BusyBelow s e) : ChargedBelow s e := by
  cases e with
  | aiDone j q nsecs => trivial
  | loadavgHandler now =>
    intro hnext i p _
    have hload := (loadShown_iff_lt hpacked).mp hshown i p
    have hratio : ((s.aiAvgs i).nsecs p).toNat * 2048 % 2 ^ 64 / (now - s.tvEnd) < 2 ^ 15 := by
      have h := hbusy hnext i p
      refine Nat.div_lt_of_lt_mul ((Nat.mod_le _ _).trans_lt ?_)
      omega
    generalize ((s.aiAvgs i).nsecs p).toNat * 2048 % 2 ^ 64 / (now - s.tvEnd) = ratio at hratio ⊢
    have hsum : 1884 * ((s.aiAvgs i).loadAvg p).toNat + 164 * ratio + 2047 < 2 ^ 26 := by omega
    refine (Nat.mod_le _ _).trans_lt (lt_of_le_of_lt ?_ hsum)
    split <;> omega

/-- While nobody is busy for so long, the averages are shown. -/
theorem busyBelow_invariant :
    (loadSystem.restrict BusyBelow).Invariant fun s => WordsPacked s ∧ LoadShown s := by
  refine (wordsPacked_invariant.restrict BusyBelow).and (fun s hs => ?_)
    fun s e t hpacked hshown ⟨hbusy, hstep⟩ =>
      (loadShown_step hpacked hshown hstep).mpr (chargedBelow_of_busyBelow hpacked hshown hbusy)
  rw [loadShown_iff_lt (wordsPacked_invariant.init s hs), show s = loadAvgInit from hs]
  intro i p
  cases p <;> exact (by decide : (0 : U64).toNat < 2 ^ 15)

/-- **When the TUI shows the kernel's averages**: in a run, in every state exactly when no callback
charges an average up to 16 or beyond; and no callback does so that comes before any player has been
busy for 16 times its period. -/
theorem loadShown_iff {s : LoadAvg} {tr : List (LoadEvent × LoadAvg)} (hinit : loadSystem.init s)
    (hrun : loadSystem.Run s tr) :
    ((∀ p ∈ tr, LoadShown p.2) ↔ (loadSystem.restrict ChargedBelow).Run s tr) ∧
      ((loadSystem.restrict BusyBelow).Run s tr → ∀ p ∈ tr, LoadShown p.2) := by
  obtain ⟨hpacked, hshown⟩ := busyBelow_invariant.init s hinit
  refine ⟨hrun.forall_iff_restrict wordsPacked_invariant
    (fun _ _ _ hpacked hshown => loadShown_step hpacked hshown) hpacked hshown,
    fun hbusy p hp => ?_⟩
  exact (busyBelow_invariant.holds_run hbusy ⟨hpacked, hshown⟩ p hp).2

/-- A callback that starts the clock, a move of a second, and its charge. -/
theorem loadShown_iff_second : ∃ s tr, loadSystem.init s ∧ loadSystem.Run s tr ∧ tr.length = 3 ∧
    ((∀ p ∈ tr, LoadShown p.2) ↔ (loadSystem.restrict ChargedBelow).Run s tr) := by
  have hrun : ∃ tr, loadSystem.Run loadAvgInit tr ∧ tr.length = 3 :=
    ⟨[(.loadavgHandler 1000000000, _), (.aiDone ⟨1, by decide⟩ .o 1000000000, _),
      (.loadavgHandler 2000000000, _)],
      .cons ⟨by decide, by decide, rfl⟩ (.cons rfl (.cons ⟨by decide, by decide, rfl⟩ (.nil _))),
      rfl⟩
  obtain ⟨tr, hrun, hlen⟩ := hrun
  exact ⟨loadAvgInit, tr, rfl, hrun, hlen, (loadShown_iff rfl hrun).1⟩

/-- The clock started, and a move of 200 seconds. -/
def longMove : LoadAvg :=
  aiDone ⟨1, by decide⟩ .o 200000000000 (loadavgHandler 1000000000 loadAvgInit)

/-- The move ends in a period of one second: the average is 16.01 and the TUI shows 0.01. -/
theorem not_loadShown_longMove :
    loadSystem.Reachable (loadavgHandler 2000000000 longMove) ∧
      ¬ LoadShown (loadavgHandler 2000000000 longMove) := by
  have hstart : loadSystem.Reachable (loadavgHandler 1000000000 loadAvgInit) :=
    .step (.init rfl) (e := .loadavgHandler 1000000000) ⟨by decide, by decide, rfl⟩
  have hmove : loadSystem.Reachable longMove :=
    .step hstart (e := .aiDone ⟨1, by decide⟩ .o 200000000000) rfl
  have hint : loadInt (((loadavgHandler 2000000000 longMove).aiAvgs ⟨1, by decide⟩).loadAvg .o) =
      16 := by decide +kernel
  have hshown : shownInt (((loadavgHandler 2000000000 longMove).xoAvgs ⟨1, by decide⟩).avg .o) =
      0 := by decide +kernel
  refine ⟨.step hmove (e := .loadavgHandler 2000000000) ⟨by decide, by decide, rfl⟩, fun h => ?_⟩
  have heq := (h ⟨1, by decide⟩ .o).1
  rw [hint, hshown] at heq
  exact absurd heq (by decide)

end Kxo
