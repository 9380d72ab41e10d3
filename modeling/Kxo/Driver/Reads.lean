import Kxo.Spec.Read

/-!
# Kxo — a reader does not spin (`src/main.c`)

The loop of `kxo_read` ends when a copy takes bytes, and its wait ends when there are bytes to take.
For a positive count these are the same, since nobody else takes any; for a count of zero a copy
takes none, and the loop goes round for as long as the ring is not empty.

* **`ReadMove`** — the statements of a blocking call, as a relation; `readNext_move` is the
  inversion of the model's step.
* **`Leaving`** — the call is on its way out. `stepsLeft` and `copiesLeft` bound what it still does:
  four statements, one copy.
* **`Leaving.run`**, **`Leaving.leavesLoop`** — by induction on the run, however the driver produces
  records in between.
* **`Spinning`** — the opposite for a count of zero: `zeroReader_rounds` goes round as often as one
  likes.
* **`readLeaves_iff`** — hence the condition.
-/

namespace Kxo

/-- The call is in its loop. -/
def InLoop (s : Reader) : Prop := s.pc = .copy ∨ s.pc = .test ∨ s.pc = .wait

instance (s : Reader) : Decidable (InLoop s) := inferInstanceAs (Decidable (_ ∨ _))

/-- How a call that found the ring not empty in state `s` stands after a run: one further iteration
at most, four steps at most, never asleep, and with the right result. -/
structure LeavesLoop (args : ReadArgs) (s : Reader) (es : List ReadEvent) (t : Reader) : Prop where
  iterations : t.copies ≤ s.copies + 1
  steps : es.countP ReadEvent.isReader ≤ 4
  awake : InLoop t → ∃ u, readStep args t (.reader true) = some u
  result : ∀ ret, t.pc = .returned ret → ret = (min args.count t.found : Nat)

/-- Once the ring is not empty, a blocking call leaves its loop, whatever else is produced. -/
def ReadLeaves (count : Nat) : Prop :=
  ∀ s, (readSystem ⟨count, false⟩).Reachable s → InLoop s → s.rxFifo ≠ [] →
    ∀ es t, (readSystem ⟨count, false⟩).Executes s es t → LeavesLoop ⟨count, false⟩ s es t

/-! ## The steps

A blocking call copies, tests what it has taken, and waits if that was nothing. Steps of the driver
put records into the ring. -/

variable {count : Nat} {s s' t : Reader} {e : ReadEvent} {es : List ReadEvent}

/-- What a copy leaves. -/
def copied (count : Nat) (s : Reader) : Reader :=
  { s with
    rxFifo := s.rxFifo.drop count
    buf := s.rxFifo.take count
    read := (s.rxFifo.take count).length
    found := s.rxFifo.length
    copies := s.copies + 1
    pc := .test }

/-- The statements of a blocking call. -/
inductive ReadMove (count : Nat) (s : Reader) : Reader → Prop where
  | enter {pc : ReadPc} : s.pc = .entry ∨ s.pc = .lock → pc ≠ .test → ReadMove count s { s with pc }
  | copy : s.pc = .copy → ReadMove count s (copied count s)
  | leave : s.pc = .test → s.read ≠ 0 → ReadMove count s { s with pc := .returned s.read }
  | sleep : s.pc = .test → s.read = 0 → ReadMove count s { s with pc := .wait }
  | wake : s.pc = .wait → s.rxFifo ≠ [] → ReadMove count s { s with pc := .copy }
  | interrupt {ret : Int} :
      s.pc = .wait → s.rxFifo = [] → ReadMove count s { s with pc := .returned ret }

/-- A statement of the call is one of these. -/
theorem readNext_move {ok : Bool} (h : readNext ⟨count, false⟩ ok s = some s') :
    ReadMove count s s' := by
  unfold readNext at h
  split at h
  case h_1 hpc =>
    obtain rfl := Option.some.inj h
    exact .enter (.inl hpc) (by split <;> simp)
  case h_2 hpc =>
    obtain rfl := Option.some.inj h
    exact .enter (.inr hpc) (by split <;> simp)
  case h_3 hpc =>
    obtain rfl := Option.some.inj h
    exact .copy hpc
  case h_4 hpc =>
    simp only [Bool.false_eq_true, if_false] at h
    split at h
    · obtain rfl := Option.some.inj h
      exact .leave hpc ‹_›
    · obtain rfl := Option.some.inj h
      exact .sleep hpc (not_not.mp ‹_›)
  case h_5 hpc =>
    split at h
    · obtain rfl := Option.some.inj h
      exact .wake hpc ‹_›
    · split at h
      · cases h
      · obtain rfl := Option.some.inj h
        exact .interrupt hpc (not_not.mp ‹_›)
  case h_6 => cases h

/-- A ring that is not empty stays so when bytes are put in. -/
theorem kfifoIn_ne_nil {fifo : List Byte} (h : fifo ≠ []) (bytes : List Byte) :
    kfifoIn fifo bytes ≠ [] := by
  simp [kfifoIn, h]

/-! ## The way out

A measure that every statement lowers and no step of the driver raises. -/

/-- What the last copy took. -/
def ReadCounted (count : Nat) (s : Reader) : Prop := s.pc = .test → s.read = min count s.found

/-- After a copy the variable holds what it took. -/
theorem ReadCounted.move (h : ReadMove count s s') : ReadCounted count s' := by
  intro hpc
  cases h with
  | enter _ hne => exact absurd hpc hne
  | copy => exact List.length_take
  | leave | sleep | wake | interrupt => cases hpc

/-- It does in every state of a call. -/
theorem readCounted_invariant (count : Nat) :
    (readSystem ⟨count, false⟩).Invariant (ReadCounted count) where
  init s hs hpc := by
    rw [hs] at hpc
    cases hpc
  step s e s' h hstep := by
    cases e with
    | produceBoard xoTlb =>
      obtain rfl := Option.some.inj hstep
      exact h
    | reader ok => exact .move (readNext_move hstep)

/-- The call is on its way out: there are bytes to take, or it has taken some. -/
structure Leaving (count : Nat) (s : Reader) : Prop where
  inside : InLoop s ∨ s.pc = .returned (min count s.found : Nat)
  bytes : InLoop s → s.rxFifo ≠ [] ∨ s.pc = .test ∧ s.read ≠ 0
  counted : ReadCounted count s

/-- The steps to the return. -/
def stepsLeft (s : Reader) : Nat :=
  match s.pc with
  | .copy => 2
  | .test => if s.read = 0 then 4 else 1
  | .wait => 3
  | _ => 0

/-- The copies among them. -/
def copiesLeft (s : Reader) : Nat :=
  match s.pc with
  | .copy => 1
  | .test => if s.read = 0 then 1 else 0
  | .wait => 1
  | _ => 0

/-- Four statements at most. -/
theorem stepsLeft_le (s : Reader) : stepsLeft s ≤ 4 := by
  unfold stepsLeft
  split <;> (try split) <;> omega

/-- One copy at most. -/
theorem copiesLeft_le (s : Reader) : copiesLeft s ≤ 1 := by
  unfold copiesLeft
  split <;> (try split) <;> omega

/-- **Each statement brings the call nearer to its return**, when the count is positive. -/
theorem Leaving.move (h : Leaving count s) (hcount : count ≠ 0) (hmove : ReadMove count s s') :
    Leaving count s' ∧ stepsLeft s' + 1 = stepsLeft s ∧
      s'.copies + copiesLeft s' = s.copies + copiesLeft s := by
  have hcounted := ReadCounted.move hmove
  cases hmove with
  | enter hpc =>
    -- the call is not in its loop yet
    obtain hin | hret := h.inside
    · rcases hpc with hpc | hpc <;> simp [InLoop, hpc] at hin
    · rcases hpc with hpc | hpc <;> simp [hpc] at hret
  | copy hpc =>
    have hne := (h.bytes (.inl hpc)).resolve_right (by simp [hpc])
    have hread : (copied count s).read ≠ 0 := by
      simp [copied, hcount, hne]
    refine ⟨⟨.inl (.inr (.inl rfl)), fun _ => .inr ⟨rfl, hread⟩, hcounted⟩, ?_, ?_⟩
    · have hleft : stepsLeft (copied count s) = 1 := if_neg hread
      rw [hleft]
      simp [stepsLeft, hpc]
    · have hleft : copiesLeft (copied count s) = 0 := if_neg hread
      rw [hleft]
      simp [copiesLeft, hpc, copied]
  | leave hpc hread =>
    refine ⟨⟨.inr ?_, fun hin => ?_, hcounted⟩, ?_, ?_⟩
    · rw [h.counted hpc]
    · simp [InLoop] at hin
    · simp [stepsLeft, hpc, hread]
    · simp [copiesLeft, hpc, hread]
  | sleep hpc hread =>
    have hne := (h.bytes (.inr (.inl hpc))).resolve_right (by simp [hread])
    refine ⟨⟨.inl (.inr (.inr rfl)), fun _ => .inl hne, hcounted⟩, ?_, ?_⟩
    · simp [stepsLeft, hpc, hread]
    · simp [copiesLeft, hpc, hread]
  | wake hpc hne =>
    refine ⟨⟨.inl (.inl rfl), fun _ => .inl hne, hcounted⟩, ?_, ?_⟩
    · simp [stepsLeft, hpc]
    · simp [copiesLeft, hpc]
  | interrupt hpc hnil =>
    -- no signal ends a wait for bytes that are there
    exact absurd hnil ((h.bytes (.inr (.inr hpc))).resolve_right (by simp [hpc]))

/-- A record that comes in does not hold the call up. -/
theorem Leaving.produce (h : Leaving count s) (xoTlb : XoTable) :
    Leaving count { s with rxFifo := kfifoIn s.rxFifo (recordBytes xoTlb) } where
  inside := h.inside
  bytes hin := (h.bytes hin).imp_left fun hne => kfifoIn_ne_nil hne _
  counted := h.counted

/-- A whole run, from its first state on. -/
theorem Leaving.run (h : Leaving count s) (hcount : count ≠ 0)
    (hrun : (readSystem ⟨count, false⟩).Executes s es t) :
    Leaving count t ∧ es.countP ReadEvent.isReader + stepsLeft t = stepsLeft s ∧
      t.copies + copiesLeft t = s.copies + copiesLeft s := by
  induction hrun with
  | nil => exact ⟨h, Nat.zero_add _, rfl⟩
  | @cons s u t e es hstep _ ih =>
    cases e with
    | produceBoard xoTlb =>
      obtain rfl := Option.some.inj hstep
      exact ih (h.produce xoTlb)
    | reader ok =>
      obtain ⟨hu, hsteps, hcopies⟩ := h.move hcount (readNext_move hstep)
      obtain ⟨ht, hsteps', hcopies'⟩ := ih hu
      refine ⟨ht, ?_, hcopies'.trans hcopies⟩
      rw [List.countP_cons_of_pos (by rfl)]
      omega

/-- The next statement of a call with bytes to take is never put off. -/
theorem Leaving.awake (h : Leaving count s) (hin : InLoop s) :
    ∃ u, readStep ⟨count, false⟩ s (.reader true) = some u := by
  have hbytes := h.bytes hin
  rcases hin with hpc | hpc | hpc
  · exact ⟨copied count s, by simp [readStep, readNext, hpc, copied]⟩
  · by_cases hread : s.read = 0
    · exact ⟨{ s with pc := .wait }, by simp [readStep, readNext, hpc, hread]⟩
    · exact ⟨{ s with pc := .returned s.read },
        by simp [readStep, readNext, hpc, hread, readResult]⟩
  · have hne := hbytes.resolve_right (by simp [hpc])
    exact ⟨{ s with pc := .copy }, by simp [readStep, readNext, hpc, hne]⟩

/-- A call on its way out leaves its loop in any run. -/
theorem Leaving.leavesLoop (h : Leaving count s) (hcount : count ≠ 0)
    (hrun : (readSystem ⟨count, false⟩).Executes s es t) : LeavesLoop ⟨count, false⟩ s es t := by
  obtain ⟨ht, hsteps, hcopies⟩ := h.run hcount hrun
  have hle := stepsLeft_le s
  have hle' := copiesLeft_le s
  refine ⟨by omega, by omega, ht.awake, fun ret hret => ?_⟩
  rcases ht.inside with hin | hpc
  · rcases hin with hpc | hpc | hpc <;> simp [hpc] at hret
  · rw [hret] at hpc
    exact ReadPc.returned.inj hpc

/-! ## A count of zero

`kfifo_to_user` takes the lesser of the count and what is there, so nothing. -/

/-- The call goes round: it has taken nothing, and there are bytes to wake up for. -/
def Spinning (s : Reader) : Prop := InLoop s ∧ s.rxFifo ≠ [] ∧ (s.pc = .test → s.read = 0)

/-- Every statement keeps the call going round. -/
theorem Spinning.move (h : Spinning s) (hmove : ReadMove 0 s s') : Spinning s' := by
  obtain ⟨hin, hne, hread⟩ := h
  cases hmove with
  | enter hpc => rcases hpc with hpc | hpc <;> simp [InLoop, hpc] at hin
  | copy hpc => exact ⟨.inr (.inl rfl), by simpa [copied] using hne, fun _ => by simp [copied]⟩
  | leave hpc hnot => exact absurd (hread hpc) hnot
  | sleep => exact ⟨.inr (.inr rfl), hne, by simp⟩
  | wake => exact ⟨.inl rfl, hne, by simp⟩
  | interrupt _ hnil => exact absurd hnil hne

/-- **A call for no bytes never returns** once the ring is not empty. -/
theorem Spinning.run (h : Spinning s) (hrun : (readSystem ⟨0, false⟩).Executes s es t) :
    Spinning t := by
  induction hrun with
  | nil => exact h
  | @cons s u t e es hstep _ ih =>
    cases e with
    | produceBoard xoTlb =>
      obtain rfl := Option.some.inj hstep
      exact ih ⟨h.1, kfifoIn_ne_nil h.2.1 _, h.2.2⟩
    | reader ok => exact ih (h.move (readNext_move hstep))

/-- A call for no bytes that finds one byte in the ring, after `n` iterations. -/
def zeroReader (n : Nat) : Reader := ⟨[0], .copy, [], 0, if n = 0 then 0 else 1, n⟩

/-- Such a call can be made. -/
theorem zeroReader_reachable : (readSystem ⟨0, false⟩).Reachable (zeroReader 0) := by
  have hentry : (readSystem ⟨0, false⟩).Reachable { zeroReader 0 with pc := .entry } := .init rfl
  have hlock : (readSystem ⟨0, false⟩).Reachable { zeroReader 0 with pc := .lock } :=
    hentry.step (e := .reader true) rfl
  exact hlock.step (e := .reader true) rfl

/-- Three steps take it round. -/
theorem zeroReader_round (n : Nat) :
    (readSystem ⟨0, false⟩).Executes (zeroReader n) (List.replicate 3 (.reader true))
      (zeroReader (n + 1)) :=
  .cons rfl (.cons rfl (.cons rfl (.nil _)))

/-- Any number of rounds. Induction on the number. -/
theorem zeroReader_rounds (n : Nat) :
    (readSystem ⟨0, false⟩).Executes (zeroReader 0) (List.replicate (3 * n) (.reader true))
      (zeroReader n) := by
  induction n with
  | zero => exact .nil _
  | succ n ih =>
    rw [Nat.mul_succ, ← List.replicate_append_replicate]
    exact ih.append (zeroReader_round n)

/-- A call for no bytes does not leave its loop. -/
theorem not_readLeaves_zero : ¬ ReadLeaves 0 := by
  intro h
  have hleaves := h _ zeroReader_reachable (.inl rfl) (by simp [zeroReader]) _ _
    (zeroReader_rounds 2)
  have hcopies := hleaves.iterations
  simp [zeroReader] at hcopies

/-! ## The condition

The count is the only input that matters. -/

/-- **`kxo_read` leaves its loop** within one further iteration once the ring is not empty, with as
many bytes as were asked for and there, exactly when the count is positive. -/
theorem readLeaves_iff (count : Nat) : ReadLeaves count ↔ count ≠ 0 := by
  constructor
  · rintro h rfl
    exact not_readLeaves_zero h
  · intro hcount s hr hin hne es t hrun
    have hs : Leaving count s :=
      ⟨.inl hin, fun _ => .inl hne, (readCounted_invariant count).holds hr⟩
    exact hs.leavesLoop hcount hrun

/-- A read of no bytes goes round as often as one likes, and no run of it ends. -/
theorem read_zero_spins :
    (∀ n, ∃ s, (readSystem ⟨0, false⟩).Executes (zeroReader 0)
      (List.replicate (3 * n) (.reader true)) s ∧ s.copies = n) ∧
    (∀ es s, (readSystem ⟨0, false⟩).Executes (zeroReader 0) es s → InLoop s) ∧
    ¬ ReadLeaves 0 := by
  refine ⟨fun n => ⟨_, zeroReader_rounds n, rfl⟩, fun es s hrun => ?_, not_readLeaves_zero⟩
  have hstart : Spinning (zeroReader 0) := ⟨.inl rfl, by simp [zeroReader], by simp [zeroReader]⟩
  exact (hstart.run hrun).1

end Kxo
