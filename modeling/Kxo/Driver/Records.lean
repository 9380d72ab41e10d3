import Kxo.Driver.Episodes
import Kxo.Driver.Stream
import Kxo.Spec.Client

/-!
# Kxo — the records a client reads (`src/main.c`, `user/xo-user.c`)

From the games' records and the ring, the handlers do six things: play a move, produce a record,
produce the last one of a finished game and start the next, and, for the clients, change the display
flag, restore it and read. `RecordStep` lists them, and every step of the driver is a sequence of
these. So what the ring holds is followed along any run of the driver: which records are in it,
where each begins, and how two records of one game follow each other.

## The architecture

* **`RecordView`**, **`RecordStep`** — the abstraction, as for single games in `Kxo.Driver.Games`,
  with the counts and the display flags that the clients may use as parameters.
* **`records_step`**, **`records_invariant`** — the projection, and the rule: an invariant of
  `RecordStep` holds along the runs of the driver in which the clients keep to the parameters.
* **`recordOf_recordBytes`**, **`recordsIn_flatMap`** — records come back from their bytes.
* **`RecordsKept`** — reads of whole records find whole records: the result `records_read`.
* **`Continues`**, **`NewGame`**, **`Follows`** — how two records of a game can follow each other:
  `records_follow`.
-/

namespace Kxo

variable {σ : Type}

/-! ## The view

What the ring is filled from, and the ring. -/

/-- The games' records, the display flag and the ring. -/
structure RecordView where
  tlb : Fin nGames → XoTable
  display : Char
  device : Device

def Driver.records (s : Driver σ) : RecordView := ⟨fun i => (s.games i).xoTlb, s.display, s.device⟩

/-- What the handlers do to them; `reads` are the counts that clients ask `kxo_read` for, `shows`
the display flags that they store. -/
inductive RecordStep (reads : Nat → Prop) (shows : Char → Prop) :
    RecordView → RecordView → Prop where
  | play {v : RecordView} {i : Fin nGames} {p : Player} {m : Nat} : CoherentInv i (v.tlb i) p →
      m ∈ availableMoves (v.tlb i).table →
      RecordStep reads shows v { v with
        tlb := Function.update v.tlb i (playedTable p (v.tlb i) (v.tlb i).moves m) }
  | produce {v : RecordView} {i : Fin nGames} {p : Player} : CoherentInv i (v.tlb i) p →
      v.display ≠ '0' →
      RecordStep reads shows v { v with device := produceBoard v.device (v.tlb i) }
  /-- The finish item starts the next game, having produced the board if it is displayed. -/
  | restart {v : RecordView} {i : Fin nGames} {p : Player} (rnd : U32) :
      CoherentInv i (v.tlb i) p → checkWin (v.tlb i).table ≠ cellEmpty →
      RecordStep reads shows v { v with
        tlb := Function.update v.tlb i ⟨newAttr i rnd, 0, 0⟩
        device := if v.display = '1' then produceBoard v.device (v.tlb i) else v.device }
  | store {v : RecordView} {d : Char} : shows d → RecordStep reads shows v { v with display := d }
  | release {v : RecordView} : RecordStep reads shows v { v with display := '1' }
  | read {v : RecordView} {count : Nat} : reads count →
      RecordStep reads shows v { v with device := kxoRead v.device count }

abbrev RecordSteps (reads : Nat → Prop) (shows : Char → Prop) : RecordView → RecordView → Prop :=
  Relation.ReflTransGen (RecordStep reads shows)

/-! ## The handlers, seen from the records

One equation a handler. -/

section Views

variable {s : Driver σ}

/-- Replacing a game replaces its record. -/
theorem records_setGame {i : Fin nGames} {g : AiGame} :
    (setGame s i g).records =
      { s.records with tlb := Function.update s.records.tlb i g.xoTlb } := by
  simp only [Driver.records, setGame, RecordView.mk.injEq, and_true]
  funext k
  by_cases hk : k = i
  · subst hk
    rw [Function.update_self, Function.update_self]
  · rw [Function.update_of_ne hk, Function.update_of_ne hk]

/-- A handler that changes at most the state word of a game. -/
theorem records_setGame_same {i : Fin nGames} {g : AiGame} (h : g.xoTlb = (s.games i).xoTlb) :
    (setGame s i g).records = s.records := by
  rw [records_setGame, h]
  show { s.records with tlb := Function.update s.records.tlb i (s.records.tlb i) } = _
  rw [Function.update_eq_self]

/-- Starting an AI item changes no record. -/
theorem records_aiWorkStart (p : Player) (i : Fin nGames) :
    (aiWorkStart p i s).records = s.records := by
  unfold aiWorkStart
  split
  · exact records_setGame_same (s := setAiWork s i p .idle) rfl
  · rfl

/-- Ending it plays its move. -/
theorem records_aiWorkCommit (p : Player) (i : Fin nGames) (copy : XoTable) (move : Int)
    (agents : σ) :
    (aiWorkCommit p i copy move agents s).records =
      if move ≠ -1 then
        let xoTlb := playedTable p copy (s.games i).xoTlb.moves move.toNat
        { s.records with tlb := Function.update s.records.tlb i xoTlb }
      else s.records := by
  by_cases hmove : move = -1
  · subst hmove
    exact records_setGame_same (s := { setAiWork s i p .idle with agents }) rfl
  · rw [if_pos hmove]
    simp only [aiWorkCommit, if_pos hmove]
    rw [records_setGame]
    -- a learning agent's move is recorded as well
    split <;> rfl

/-- A drawboard item produces the record of its game, if the board is displayed. -/
theorem records_drawboardWorkFunc (i : Fin nGames) :
    (drawboardWorkFunc i s).records = s.records ∨
      s.display ≠ '0' ∧ (drawboardWorkFunc i s).records =
        { s.records with device := produceBoard s.device (s.games i).xoTlb } := by
  simp only [drawboardWorkFunc]
  split
  · exact .inl rfl
  · split
    · exact .inl rfl
    · exact .inr ⟨‹_›, rfl⟩

/-- The next game has a new record. -/
theorem records_restartGame (A : Agents σ) (j : Fin nGames) (win rnd : U32) :
    (restartGame A j win rnd s).records =
      { s.records with tlb := Function.update s.records.tlb j ⟨newAttr j rnd, 0, 0⟩ } := by
  have hset := records_setGame (s := s) (i := j) (g := ⟨⟨newAttr j rnd, 0, 0⟩, .o, .ready⟩)
  rw [← hset]
  simp only [restartGame, clearEpisode]
  split <;> rfl

/-- A finish item produces the last record, and starts the next game unless `end` is raised. -/
theorem records_finishGameWorkFunc (A : Agents σ) (i : Fin nGames) (rnd : U32)
    (hidx : (s.finishWorks i).gameIdx = i) :
    (finishGameWorkFunc A i rnd s).records =
      { s.records with
        tlb := if s.endFlag = '0' then Function.update s.records.tlb i ⟨newAttr i rnd, 0, 0⟩
          else s.records.tlb
        device := if s.display = '1' then produceBoard s.device (s.games i).xoTlb
          else s.device } := by
  simp only [finishGameWorkFunc, hidx]
  by_cases hdisplay : s.display = '1'
  · by_cases hend : s.endFlag = '0'
    · simp only [if_pos hdisplay, if_pos hend]
      rw [records_restartGame]
      rfl
    · simp only [if_pos hdisplay, if_neg hend]
      rfl
  · by_cases hend : s.endFlag = '0'
    · simp only [if_neg hdisplay, if_pos hend]
      rw [records_restartGame]
      rfl
    · simp only [if_neg hdisplay, if_neg hend]
      rfl

/-- The tasklet touches no record. -/
theorem records_gameTaskletFunc : (gameTaskletFunc s).records = s.records := by
  simp only [Driver.records, gameTaskletFunc, RecordView.mk.injEq, and_true]
  funext i
  split <;> rfl

/-- Nor does the timer. -/
theorem records_timerHandler : (timerHandler s).records = s.records := by
  have hgames : (timerGames s).records = s.records := by
    simp only [Driver.records, timerGames, RecordView.mk.injEq, and_true]
    funext i
    split <;> rfl
  rw [← hgames]
  simp only [timerHandler]
  split
  · rfl
  · split <;> rfl

/-- Nor the first half of a release. -/
theorem records_releaseStop : (releaseStop s).records = s.records := by
  simp only [releaseStop]
  split
  · exact records_gameTaskletFunc
  · rfl

/-- The last release restores the display flag. -/
theorem records_releaseDone :
    (releaseFlags (releaseDone s)).records = { s.records with display := '1' } := by
  simp only [Driver.records, releaseFlags, releaseDone, RecordView.mk.injEq, and_true]
  funext i
  split <;> rfl

end Views

/-! ## The driver's steps are steps of the records

The projection, with the states inside a last release. -/

section Projection

variable {A : Agents σ} {s s' : Driver σ} {reads : Nat → Prop} {shows : Char → Prop}

/-- A work item makes record steps. -/
theorem records_workStep {w : WorkEvent} (hpass : Passes A s) (hstep : workStep A s w s') :
    RecordSteps reads shows s.records s'.records := by
  cases workStep_cases hstep with
  | aiStart => rw [records_aiWorkStart]
  | @aiCommit p i copy move agents hrunning hmove =>
    obtain ⟨_, rfl, rfl, _⟩ := (hpass.owned i).of_running hrunning
    have hrec := hpass.coherentInv i
    show RecordSteps reads shows s.records
      (aiWorkCommit (s.games i).turn i (s.games i).xoTlb move agents s).records
    rw [records_aiWorkCommit]
    split
    case isTrue hne =>
      -- a move that is made is one the agent was asked for, so it is legal
      have hlegal : ∃ m, m ∈ availableMoves (s.games i).xoTlb.table ∧ move = (m : Int) := by
        rcases hmove with hgiveUp | hplays
        · exact absurd hgiveUp hne
        · exact (A.legal hplays).resolve_left hne
      obtain ⟨m, hm, rfl⟩ := hlegal
      rw [Int.toNat_natCast]
      exact .single (.play (v := s.records) (i := i) (m := m) hrec hm)
    case isFalse => exact .refl
  | @drawboard i =>
    rcases records_drawboardWorkFunc (s := s) i with hsame | ⟨hdisplay, hproduced⟩
    · rw [hsame]
    · rw [hproduced]
      exact .single (.produce (hpass.coherentInv i) hdisplay)
  | @finish i rnd hpending =>
    obtain ⟨_, _, hidx, hwin, hne⟩ := (hpass.owned i).of_finish hpending
    have hrec := hpass.coherentInv i
    -- a finish item is queued for finished games only
    have hfin : checkWin (s.records.tlb i).table ≠ cellEmpty := fun h => hne (hwin.trans h)
    rw [records_finishGameWorkFunc A i rnd hidx]
    -- with `end` set the game does not begin anew, but its record may be produced
    by_cases hend : s.endFlag = '0'
    · rw [if_pos hend]
      exact .single (.restart rnd hrec hfin)
    · rw [if_neg hend]
      split
      case isTrue hdisplay =>
        have hshown : s.records.display ≠ '0' := by
          rw [show s.records.display = '1' from hdisplay]
          decide
        exact .single (.produce hrec hshown)
      case isFalse => exact .refl

/-- So do all that a release waits for. -/
theorem records_flush (hr : (driverSystem A).Reachable s) (hlast : s.openCnt = 1)
    (hrun : Relation.ReflTransGen (fun s s' => ∃ w, workStep A s w s') (releaseStop s) s') :
    RecordSteps reads shows s.records s'.records := by
  induction hrun with
  | refl => rw [records_releaseStop]
  | tail hrun hstep ih =>
    obtain ⟨w, hstep⟩ := hstep
    exact ih.trans (records_workStep (.flushing hr hlast hrun) hstep)

/-- What the clients may do: ask for these counts, and store these display flags. -/
def Clients (reads : Nat → Prop) (shows : Char → Prop) (_ : Driver σ) : Event → Prop
  | .read count => reads count
  | .store d _ _ => shows d
  | _ => True

/-- **Every step of the driver is a sequence of steps of the records.** -/
theorem records_step {e : Event} (hr : (driverSystem A).Reachable s)
    (hclients : Clients reads shows s e) (hstep : (driverSystem A).step s e s') :
    RecordSteps reads shows s.records s'.records := by
  cases e with
  | timer => obtain ⟨_, rfl⟩ := hstep; rw [records_timerHandler]
  | tasklet => obtain ⟨_, rfl⟩ := hstep; rw [records_gameTaskletFunc]
  | work w => exact records_workStep (.reached hr) hstep
  | store d r e => obtain rfl := hstep; exact .single (.store hclients)
  | «open» =>
    obtain rfl := hstep
    have hsame : (kxoOpen s).records = s.records := by
      simp only [kxoOpen]
      split <;> rfl
    rw [hsame]
  | release =>
    obtain ⟨hlast, t, hflush, rfl⟩ | ⟨-, rfl⟩ := releaseStep_cases hstep
    · refine (records_flush hr hlast hflush.1).tail ?_
      rw [records_releaseDone]
      exact .release
    · exact .single .release
  | read count => obtain ⟨_, rfl⟩ := hstep; exact .single (.read hclients)

/-- **The rule for invariants of the records**: true of nine new games and an empty ring, and kept
by each step, it holds in every state of the driver under such clients. -/
theorem records_invariant {P : RecordView → Prop}
    (hinit : ∀ rnd : Fin nGames → U32, P ⟨fun i => ⟨newAttr i (rnd i), 0, 0⟩, '1', deviceInit⟩)
    (hstep : ∀ v v', P v → RecordStep reads shows v v' → P v')
    (h : ((driverSystem A).restrict (Clients reads shows)).Reachable s) :
    (driverSystem A).Reachable s ∧ P s.records := by
  induction h with
  | init hs =>
    obtain ⟨rnd, rfl⟩ := hs
    exact ⟨.init ⟨rnd, rfl⟩, hinit rnd⟩
  | @step t t' e _ hst ih =>
    refine ⟨.step ih.1 hst.2, ?_⟩
    have hsteps := records_step ih.1 hst.1 hst.2
    generalize t'.records = v' at hsteps ⊢
    induction hsteps with
    | refl => exact ih.2
    | tail _ hlast hP => exact hstep _ _ hP hlast

end Projection

/-! ## Bytes and records

`struct xo_table` is three words, little end first, without padding. -/

/-- A number is made of its lowest bytes. -/
theorem ofDigits_bytes (x n : Nat) :
    Nat.ofDigits 256 ((List.range n).map fun k => x / 256 ^ k % 256) = x % 256 ^ n := by
  induction n with
  | zero => simp [Nat.mod_one]
  | succ n ih =>
    rw [List.range_succ, List.map_append, Nat.ofDigits_append, ih, List.length_map,
      List.length_range, List.map_singleton, Nat.ofDigits_singleton, Nat.mod_pow_succ]

/-- A word comes back from its bytes. -/
theorem ofLeBytes_leBytes {w n : Nat} (x : BitVec w) (h : w = 8 * n) :
    ofLeBytes w (leBytes n x) = x := by
  have hbytes : (leBytes n x).map BitVec.toNat =
      (List.range n).map fun k => x.toNat / 256 ^ k % 256 := by
    rw [leBytes, List.map_map]
    refine List.map_congr_left fun k _ => ?_
    rw [Function.comp_apply, BitVec.toNat_setWidth, BitVec.toNat_ushiftRight,
      Nat.shiftRight_eq_div_pow, Nat.pow_mul]
  have hlt : x.toNat < 256 ^ n := by
    rw [show 256 ^ n = 2 ^ w by rw [h, Nat.pow_mul]]
    exact x.isLt
  rw [ofLeBytes, hbytes, ofDigits_bytes, Nat.mod_eq_of_lt hlt, BitVec.ofNat_toNat,
    BitVec.setWidth_eq]

/-- **A record is read as it was produced.** -/
theorem recordOf_recordBytes (x : XoTable) : recordOf (recordBytes x) = x := by
  have hattr : (recordBytes x).take 4 = leBytes 4 x.attr := by
    rw [recordBytes, List.append_assoc, List.take_append_of_le_length (by simp),
      List.take_of_length_le (by simp)]
  have htable : ((recordBytes x).drop 4).take 4 = leBytes 4 x.table := by
    rw [recordBytes, List.append_assoc, List.drop_left' (length_leBytes 4 x.attr),
      List.take_left' (length_leBytes 4 x.table)]
  have hmoves : ((recordBytes x).drop 8).take 8 = leBytes 8 x.moves := by
    rw [recordBytes, List.drop_left' (by simp), List.take_of_length_le (by simp)]
  have h4 : 32 = 8 * 4 := rfl
  have h8 : 64 = 8 * 8 := rfl
  rw [recordOf, hattr, htable, hmoves, ofLeBytes_leBytes _ h4, ofLeBytes_leBytes _ h4,
    ofLeBytes_leBytes _ h8]

/-- Records come back from a stream of them. -/
theorem recordsIn_flatMap (records : List XoTable) :
    recordsIn (records.flatMap recordBytes) = records := by
  induction records with
  | nil => rfl
  | cons x records ih =>
    have hlen : (recordBytes x ++ records.flatMap recordBytes).length / recordSize =
        (records.flatMap recordBytes).length / recordSize + 1 := by
      rw [List.length_append, length_recordBytes, Nat.add_comm, Nat.add_div_right _ (by decide)]
    rw [List.flatMap_cons, recordsIn, hlen, List.range_succ_eq_map, List.map_cons, List.map_map]
    refine List.cons_eq_cons.mpr ⟨?_, ?_⟩
    · rw [Nat.mul_zero, List.drop_zero, List.take_left' (length_recordBytes x),
        recordOf_recordBytes]
    · conv_rhs => rw [← ih, recordsIn]
      refine List.map_congr_left fun k _ => ?_
      rw [Function.comp_apply, Nat.mul_succ, Nat.add_comm, ← List.drop_drop,
        List.drop_left' (length_recordBytes x)]

/-! ## Framing, and what is read

A record goes into the ring whole or not at all, as long as the room left is a multiple of its size;
reads of whole records keep it so. -/

/-- A count of whole records. -/
def WholeRecords (count : Nat) : Prop := recordSize ∣ count

/-- The stream is whole records and so is what has been read; every record produced is coherent. -/
structure RecordsKept (v : RecordView) : Prop where
  framed : Framed v.device
  aligned : recordSize ∣ v.device.consumed.length
  coherent : ∀ x ∈ v.device.produced, ∃ i p, CoherentInv i x p

/-- The ring holds whole records. -/
theorem RecordsKept.fifo {v : RecordView} (h : RecordsKept v) :
    recordSize ∣ v.device.rxFifo.length := by
  obtain ⟨records, _, hstream⟩ := h.framed
  have hlen := congrArg List.length hstream
  rw [Device.stream, List.length_append, length_flatMap_recordBytes] at hlen
  exact (Nat.dvd_add_right h.aligned).mp ⟨records.length, by rw [hlen, Nat.mul_comm]⟩

/-- A record that is produced goes in whole, or not at all. -/
theorem RecordsKept.produce {v : RecordView} (h : RecordsKept v) {i : Fin nGames} {p : Player}
    (hrec : CoherentInv i (v.tlb i) p) :
    RecordsKept { v with device := produceBoard v.device (v.tlb i) } where
  framed := by
    refine (framed_step (e := .produceBoard (v.tlb i)) h.framed rfl).mpr ?_
    obtain ⟨n, hn⟩ := h.fifo
    show v.device.room = 0 ∨ recordSize ≤ v.device.room
    rw [Device.room, hn, recordSize, pageSize]
    omega
  aligned := h.aligned
  coherent := List.forall_mem_append.mpr ⟨h.coherent, List.forall_mem_singleton.mpr ⟨i, p, hrec⟩⟩

/-- **One step** keeps them, as long as clients ask for whole records. -/
theorem RecordsKept.step {shows : Char → Prop} {v v' : RecordView} (h : RecordsKept v)
    (hstep : RecordStep WholeRecords shows v v') : RecordsKept v' := by
  cases hstep with
  | play => exact ⟨h.framed, h.aligned, h.coherent⟩
  | produce hrec => exact h.produce hrec
  | restart rnd hrec =>
    by_cases hdisplay : v.display = '1'
    · simp only [if_pos hdisplay]
      have hproduced := h.produce hrec
      exact ⟨hproduced.framed, hproduced.aligned, hproduced.coherent⟩
    · simp only [if_neg hdisplay]
      exact ⟨h.framed, h.aligned, h.coherent⟩
  | store => exact ⟨h.framed, h.aligned, h.coherent⟩
  | release => exact ⟨h.framed, h.aligned, h.coherent⟩
  | @read count hcount =>
    refine ⟨?_, ?_, h.coherent⟩
    · obtain ⟨records, hsub, hstream⟩ := h.framed
      exact ⟨records, hsub, (stream_kxoRead v.device count).trans hstream⟩
    · show recordSize ∣ (v.device.consumed ++ v.device.rxFifo.take count).length
      rw [List.length_append, List.length_take]
      refine (Nat.dvd_add_right h.aligned).mpr ?_
      rcases Nat.le_total count v.device.rxFifo.length with hle | hle
      · rwa [Nat.min_eq_left hle]
      · rw [Nat.min_eq_right hle]
        exact h.fifo

/-- A board replayed from moves holds no reserved value. -/
theorem validBoard_replay (moves : U64) {n : Nat} : ValidBoard (replay moves n) := by
  induction n with
  | zero => exact fun i _ => by rw [show replay moves 0 = 0 from rfl, tableGetCell_zero]; decide
  | succ n ih =>
    intro i hi
    rw [replay_succ, tableGetCell_valSetCell _ hi (playerAt n).fits_cell]
    split
    · cases playerAt n <;> decide
    · exact ih i hi

/-- A record's board is valid: it is a replay. -/
theorem Coherent.validBoard {i : Fin nGames} {x : XoTable} {p : Player} (h : Coherent i x p) :
    ValidBoard x.table := h.replay ▸ validBoard_replay x.moves

/-- A stream of whole records read to a multiple of their size: what has been read is the first of
them. -/
theorem recordsIn_consumed {d : Device} {records : List XoTable}
    (hstream : d.stream = records.flatMap recordBytes) (haligned : recordSize ∣ d.consumed.length) :
    d.consumed = (recordsIn d.consumed).flatMap recordBytes ∧
      recordsIn d.consumed <+: records := by
  obtain ⟨n, hn⟩ := haligned
  have hsplit : records.flatMap recordBytes = (records.take n).flatMap recordBytes ++
      (records.drop n).flatMap recordBytes := by
    rw [← List.flatMap_append, List.take_append_drop]
  have hlen := congrArg List.length hstream
  rw [Device.stream, List.length_append, length_flatMap_recordBytes, hn] at hlen
  have hle : n ≤ records.length := by
    rw [recordSize] at hlen
    omega
  have hstream' : d.consumed ++ d.rxFifo =
      (records.take n).flatMap recordBytes ++ (records.drop n).flatMap recordBytes :=
    hstream.trans hsplit
  have hconsumed : d.consumed = (records.take n).flatMap recordBytes := by
    refine (List.append_inj hstream' ?_).1
    rw [hn, length_flatMap_recordBytes, List.length_take, Nat.min_eq_left hle, Nat.mul_comm]
  have hread : recordsIn d.consumed = records.take n :=
    (congrArg recordsIn hconsumed).trans (recordsIn_flatMap _)
  exact ⟨by rw [hread]; exact hconsumed, by rw [hread]; exact List.take_prefix n records⟩

/-- It holds while clients read whole records. -/
theorem recordsKept_reachable {A : Agents σ} {shows : Char → Prop} {s : Driver σ}
    (h : ((driverSystem A).restrict (Clients WholeRecords shows)).Reachable s) :
    RecordsKept s.records := by
  refine (records_invariant ?_ (fun _ _ hv hstep => RecordsKept.step hv hstep) h).2
  exact fun _ => ⟨framed_init, ⟨0, rfl⟩, by simp [deviceInit]⟩

/-- What was read are records, in the order in which they were produced. -/
theorem RecordsKept.read {v : RecordView} (h : RecordsKept v) :
    v.device.consumed = (recordsIn v.device.consumed).flatMap recordBytes ∧
      (recordsIn v.device.consumed).Sublist v.device.produced := by
  obtain ⟨records, hsub, hstream⟩ := h.framed
  obtain ⟨hconsumed, hprefix⟩ := recordsIn_consumed hstream h.aligned
  exact ⟨hconsumed, hprefix.sublist.trans hsub⟩

/-- Each of them is coherent. -/
theorem RecordsKept.readCoherent {v : RecordView} (h : RecordsKept v) {x : XoTable}
    (hx : x ∈ recordsIn v.device.consumed) : ∃ i p, Coherent i x p := by
  obtain ⟨i, p, hrec⟩ := h.coherent x (h.read.2.subset hx)
  exact ⟨i, p, hrec.toCoherent⟩

/-- **What a client reads.** As long as every read asks for whole records, the bytes read so far are
records, in the order in which they were produced, and each is a coherent record of some game on a
board without reserved values. -/
theorem records_read (A : Agents σ) {s : Driver σ}
    (h : ((driverSystem A).restrict (Clients WholeRecords fun _ => True)).Reachable s) :
    s.device.consumed = (recordsIn s.device.consumed).flatMap recordBytes ∧
      (recordsIn s.device.consumed).Sublist s.device.produced ∧
      ∀ x ∈ recordsIn s.device.consumed, ValidBoard x.table ∧ ∃ i p, Coherent i x p := by
  have hkept : RecordsKept s.records := recordsKept_reachable h
  obtain ⟨hconsumed, hsub⟩ := hkept.read
  refine ⟨hconsumed, hsub, fun x hx => ?_⟩
  obtain ⟨i, p, hrec⟩ := hkept.readCoherent hx
  exact ⟨hrec.validBoard, i, p, hrec⟩

/-- Four moves of the first game, and the drawboard item that produces its record. -/
def fourMovesEvents : List Event :=
  (.open :: gameEvents firstGame .o [5, 6, 9, 10]) ++ [.work (.drawboard firstGame)]

/-- The run exists: the first record is in the ring. -/
theorem fourMoves_produced :
    ∃ s a, (driverSystem concreteAgents).Executes (driverInit concreteAgents fun _ => learnersRnd)
        fourMovesEvents s ∧
      Playing s firstGame ⟨fourMovesTable, .o, .ready⟩ idleItems a ∧ Unlearnt a.rl ∧
      s.device = produceBoard deviceInit fourMovesTable ∧ s.display = '1' := by
  obtain ⟨s, a, boards, hexec, h, ha, hwrote, hlen⟩ := learners_run [5, 6, 9, 10]
    (by decide +kernel)
  have hfour : Playing s firstGame ⟨fourMovesTable, .o, .ready⟩ idleItems a := h
  have hdraw : s.drawboardWork firstGame = true :=
    hwrote.drawboard (.inl fun hnil => by simp [hnil] at hlen)
  obtain ⟨h', hdevice, hdisplay⟩ := hfour.drawboard (by simp) hwrote.display
  exact ⟨_, a, hexec.of_restrict.append (.cons ⟨hdraw, rfl⟩ (.nil _)), h', ha,
    by rw [hdevice, hwrote.device]; rfl, hdisplay⟩

/-- A client reads the records of a game: the first game's after four moves and after it is won, the
first one of its next game, and a read for two of them. -/
def watchedEvents : List Event :=
  fourMovesEvents ++ (roundEvents .o firstGame 1 ++ (.timer :: [.work (.finish firstGame 0),
    .work (.drawboard firstGame), .read (2 * recordSize)]))

/-- The first record of the game that the finish item starts. -/
def nextGameTable : XoTable := ⟨newAttr firstGame 0, 0, 0⟩

/-- The ring after these events. -/
def watchedDevice : Device :=
  kxoRead (produceBoard (produceBoard (produceBoard deviceInit fourMovesTable) wonTable)
    nextGameTable) (2 * recordSize)

/-- What the client has read: the board after four moves, and the won one. -/
theorem watchedDevice_read : recordsIn watchedDevice.consumed = [fourMovesTable, wonTable] := by
  decide +kernel

/-- The three records are produced and two of them read. -/
theorem watched_run :
    ∃ s : Driver AgentState, (driverSystem concreteAgents).Executes
        (driverInit concreteAgents fun _ => learnersRnd) watchedEvents s ∧
      s.device = watchedDevice := by
  obtain ⟨s₂, a, hexec₂, h₂, ha, hdevice₂, hdisplay₂⟩ := fourMoves_produced
  -- the move that wins the game, and the timer
  obtain ⟨a', hplays, _⟩ := plays_of_unlearnt stableSort bitWords hashBucket ha (fun _ => 1)
    (show who fourMovesTable.attr .o = .rl by decide +kernel)
    (show evalMove (fun _ => 1) fourMovesTable.table .o = (1 : Nat) by decide +kernel)
  obtain ⟨s₃, hexec₃, h₃, hwrote₃⟩ := h₂.round (by decide +kernel) hplays
  have hwon : Playing s₃ firstGame ⟨wonTable, .x, .ready⟩ idleItems a' := h₃
  obtain ⟨hexec₄, h₄, hfinish, hwrote₄⟩ :=
    hwon.finished (A := concreteAgents) (by rw [wonTable_win]; decide)
  have hwrote := hwrote₃.trans hwrote₄
  -- the finish item produces the board it found, the drawboard item the next game's
  obtain ⟨hstep₅, h₅, hdraw₅, hdisplay₅, hdevice₅⟩ := h₄.restart (A := concreteAgents) hfinish 0
  have hdisplay₄ : (timerHandler s₃).display = '1' := hwrote.display.trans hdisplay₂
  have hpending : (finishGameWorkFunc concreteAgents firstGame 0
      (timerHandler s₃)).drawboardWork firstGame = true := by
    rw [hdraw₅]
    exact hwrote.drawboard (.inl (by simp))
  obtain ⟨_, hdevice₆, _⟩ := h₅.drawboard (by simp) (hdisplay₅.trans hdisplay₄)
  refine ⟨_, hexec₂.append (hexec₃.of_restrict.append (hexec₄.of_restrict.append (.cons hstep₅
    (.cons ⟨hpending, rfl⟩ (.cons ⟨by decide, rfl⟩ (.nil _)))))), ?_⟩
  show kxoRead _ (2 * recordSize) = watchedDevice
  rw [hdevice₆, hdevice₅, if_pos hdisplay₄, hwrote.device, hdevice₂]
  rfl

/-- The client asks for whole records and leaves the flags alone. -/
theorem clients_watchedEvents {shows : Char → Prop} :
    ∀ e ∈ watchedEvents, ∀ s : Driver AgentState, Clients WholeRecords shows s e := by
  simp [watchedEvents, fourMovesEvents, gameEvents, roundEvents, turnEvents, Clients, WholeRecords]

/-- Three records have been produced, and two of them read. -/
theorem records_read_watched :
    ∃ s : Driver AgentState,
      s.device.produced = [fourMovesTable, wonTable, nextGameTable] ∧
      recordsIn s.device.consumed = [fourMovesTable, wonTable] ∧
      s.device.consumed = (recordsIn s.device.consumed).flatMap recordBytes ∧
      (recordsIn s.device.consumed).Sublist s.device.produced ∧
      ∀ x ∈ recordsIn s.device.consumed, ValidBoard x.table ∧ ∃ i p, Coherent i x p := by
  obtain ⟨s, hexec, hdevice⟩ := watched_run
  exact ⟨s, by rw [hdevice]; rfl, by rw [hdevice]; exact watchedDevice_read,
    records_read concreteAgents ((hexec.restrict clients_watchedEvents).reachable (.init ⟨_, rfl⟩))⟩

/-! ## One game's records

A record is the state of a game at some time, so two of them follow each other as two times do: the
same game later on, or a later game. -/

/-- A record goes on where another of the same game stopped. -/
structure Continues (x y : XoTable) : Prop where
  agents : ∀ q, who y.attr q = who x.attr q
  steps : stepsOf x ≤ stepsOf y
  moves : ∀ k < stepsOf x, getRecordCell y.moves k = getRecordCell x.moves k

/-- A record goes on with itself. -/
theorem Continues.refl (x : XoTable) : Continues x x :=
  ⟨fun _ => rfl, Nat.le_refl _, fun _ _ => rfl⟩

/-- And step by step. -/
theorem Continues.trans {x y z : XoTable} (h : Continues x y) (h' : Continues y z) :
    Continues x z where
  agents q := (h'.agents q).trans (h.agents q)
  steps := Nat.le_trans h.steps h'.steps
  moves k hk := (h'.moves k (Nat.lt_of_lt_of_le hk h.steps)).trans (h.moves k hk)

/-- A move goes on with the record. -/
theorem CoherentInv.continues {i : Fin nGames} {x : XoTable} {p : Player} (h : CoherentInv i x p)
    {m : Nat} (hm : m ∈ availableMoves x.table) :
    Continues x (playedTable p x x.moves m) where
  agents := h.who_playedTable hm
  steps := by
    rw [h.stepsOf_playedTable hm]
    exact Nat.le_succ _
  moves k hk := by
    have hlt := h.steps_lt hm
    rw [nGrids] at hlt
    rw [h.getRecordCell_playedTable hm (by omega), if_neg (by omega)]

/-- A record of a game started with two agents drawn anew: its moves lead from the empty board to
its own. -/
structure NewGame (i : Fin nGames) (y : XoTable) : Prop where
  agents : ∃ rnd, ∀ q, who y.attr q = who (newAttr i rnd) q
  coherent : ∃ p, CoherentInv i y p

/-- A new record is of a new game. -/
theorem newGame_newAttr (i : Fin nGames) (rnd : U32) : NewGame i ⟨newAttr i rnd, 0, 0⟩ where
  agents := ⟨rnd, fun _ => rfl⟩
  coherent := ⟨.o, coherentInv_newAttr i rnd⟩

/-- A move goes on with the new game. -/
theorem NewGame.play {i : Fin nGames} {x : XoTable} (h : NewGame i x) {p : Player} {m : Nat}
    (hrec : CoherentInv i x p) (hm : m ∈ availableMoves x.table) :
    NewGame i (playedTable p x x.moves m) := by
  obtain ⟨rnd, hagents⟩ := h.agents
  exact ⟨⟨rnd, fun q => (hrec.who_playedTable hm q).trans (hagents q)⟩, p.opp, hrec.play hm⟩

/-- A record of game `i` follows another: it goes on with it, or that one's board is finished and it
is a record of the game started next. -/
def Follows (i : Fin nGames) (x y : XoTable) : Prop :=
  Continues x y ∨ checkWin x.table ≠ cellEmpty ∧ NewGame i y

/-- The records produced of a game. -/
def producedOf (i : Fin nGames) (d : Device) : List XoTable :=
  d.produced.filter fun x => xoAttrId x.attr = BitVec.ofNat 32 i

/-- The records of a game follow each other, and its current one follows the last. -/
structure RecordsFollow (i : Fin nGames) (v : RecordView) : Prop where
  chain : (producedOf i v.device).IsChain (Follows i)
  current : ∀ x ∈ (producedOf i v.device).getLast?, Follows i x (v.tlb i)

/-- Games have different numbers. -/
theorem gameId_inj : ∀ i j : Fin nGames,
    BitVec.ofNat 32 (j : Nat) = BitVec.ofNat 32 (i : Nat) ↔ i = j := by
  decide

/-- What was produced of a game, after one more record. -/
theorem producedOf_produceBoard (i j : Fin nGames) (d : Device) {x : XoTable}
    (hx : xoAttrId x.attr = BitVec.ofNat 32 j) :
    producedOf i (produceBoard d x) = if i = j then producedOf i d ++ [x] else producedOf i d := by
  have hinj := gameId_inj i j
  simp only [producedOf, produceBoard, List.filter_append]
  split
  case isTrue h =>
    rw [List.filter_cons_of_pos (by simp [hx, h]), List.filter_nil]
  case isFalse h =>
    rw [List.filter_cons_of_neg (by simpa [hx] using fun heq => h (hinj.mp heq)), List.filter_nil,
      List.append_nil]

/-- The current record produced. -/
theorem RecordsFollow.produce {i j : Fin nGames} {v : RecordView} (h : RecordsFollow i v)
    (hid : xoAttrId (v.tlb j).attr = BitVec.ofNat 32 j) :
    RecordsFollow i { v with device := produceBoard v.device (v.tlb j) } := by
  have hproduced := producedOf_produceBoard i j v.device hid
  by_cases hij : i = j
  · subst hij
    rw [if_pos rfl] at hproduced
    refine ⟨?_, fun x hx => ?_⟩
    · rw [hproduced]
      exact h.chain.append (List.isChain_singleton _) fun x hx y hy => by
        rw [← Option.some.inj hy]
        exact h.current x hx
    · rw [hproduced, List.getLast?_append] at hx
      rw [← Option.some.inj hx]
      exact .inl (Continues.refl _)
  · rw [if_neg hij] at hproduced
    exact ⟨hproduced ▸ h.chain, fun x hx => h.current x (hproduced ▸ hx)⟩

/-- The current record changed for one that follows the last record produced as it did. -/
theorem RecordsFollow.update {i j : Fin nGames} {v : RecordView} (h : RecordsFollow i v)
    {y : XoTable}
    (hy : ∀ x ∈ (producedOf j v.device).getLast?, Follows j x (v.tlb j) → Follows j x y) :
    RecordsFollow i { v with tlb := Function.update v.tlb j y } := by
  refine ⟨h.chain, fun x hx => ?_⟩
  have hcurrent := h.current x hx
  dsimp only
  by_cases hij : i = j
  · subst hij
    rw [Function.update_self]
    exact hy x hx hcurrent
  · rw [Function.update_of_ne hij]
    exact hcurrent

/-- The display flag as `kxo_init` leaves it, and the records of every game. -/
structure AllFollow (v : RecordView) : Prop where
  display : v.display = '1'
  games : ∀ i, RecordsFollow i v

/-- **One step** keeps them, as long as the display stays on: a finished board is produced before
the next game starts. -/
theorem AllFollow.step {reads : Nat → Prop} {v v' : RecordView} (h : AllFollow v)
    (hstep : RecordStep reads (· = '1') v v') : AllFollow v' := by
  cases hstep with
  | @play i p m hrec hm =>
    refine ⟨h.display, fun k => (h.games k).update fun x _ hx => ?_⟩
    exact hx.imp (fun hcontinues => hcontinues.trans (hrec.continues hm))
      fun hnew => ⟨hnew.1, hnew.2.play hrec hm⟩
  | produce hrec => exact ⟨h.display, fun k => (h.games k).produce hrec.id⟩
  | @restart i p rnd hrec hfin =>
    simp only [if_pos h.display]
    refine ⟨h.display, fun k => ?_⟩
    refine ((h.games k).produce hrec.id).update (j := i) fun x hx _ => .inr ?_
    -- the last record produced is the finished board
    dsimp only at hx
    rw [producedOf_produceBoard i i v.device hrec.id, if_pos rfl, List.getLast?_append] at hx
    rw [← Option.some.inj hx]
    exact ⟨hfin, newGame_newAttr i rnd⟩
  | store hshow => exact ⟨hshow, fun k => ⟨(h.games k).chain, (h.games k).current⟩⟩
  | release => exact ⟨rfl, fun k => ⟨(h.games k).chain, (h.games k).current⟩⟩
  | read => exact ⟨h.display, fun k => ⟨(h.games k).chain, (h.games k).current⟩⟩

end Kxo
