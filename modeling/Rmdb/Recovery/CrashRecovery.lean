import Rmdb.Recovery.Durability

/-!
# Crash recovery

- `restart_of_runOk`: any number of incarnations;
- `recover_of_runOk`: one incarnation, in terms of its log only;
- `not_restart` and `not_recover`: without the condition on the steps committed writes are lost.
-/

namespace Rmdb

open Lib SlotWrite

namespace Server

variable {names : List TabName} {recordSize : TabName → Int} {s s' : Server} {a : Action} {acts : List Action}
  {G : List (Nat × LogRecord)} {tid : Int} {t : TabName} {k : Nat}

/-! ## Runs of one incarnation -/

def Action.isRestart : Action → Bool
  | .crash _ | .close => true
  | _ => false

theorem write_run {op : HeapWrite} (h : s.write tid t op = some s') : s'.older = s.older ∧ s'.epoch = s.epoch := by
  cases hrun : s.txns tid with
  | none => simp [write, hrun] at h
  | some txn =>
    simp only [write, hrun] at h
    split at h
    · split at h
      · exact Option.some.inj h ▸ ⟨rfl, rfl⟩
      · cases h
    · cases h

theorem step_run (hstep : s.step a = some s') (ha : a.isRestart = false) :
    s'.older = s.older ∧ s'.epoch = s.epoch := by
  cases a with
  | «begin» | flushLog => exact Option.some.inj hstep ▸ ⟨rfl, rfl⟩
  | lock tid t =>
    simp only [step] at hstep
    split at hstep
    · split at hstep
      · exact Option.some.inj hstep ▸ ⟨rfl, rfl⟩
      · cases hstep
    · cases hstep
  | insert tid t buf => exact write_run hstep
  | delete tid t ρ | update tid t ρ buf =>
    simp only [step] at hstep
    split at hstep
    · exact write_run hstep
    · cases hstep
  | logCommit tid | logAbort tid =>
    obtain ⟨txn, -, -, rfl⟩ := logPhase_eq hstep
    exact ⟨rfl, rfl⟩
  | flushCommit tid | flushAbort tid =>
    obtain ⟨txn, -, -, rfl⟩ := flushPhase_eq hstep
    exact ⟨rfl, rfl⟩
  | endCommit tid | endAbort tid =>
    simp only [step] at hstep
    split at hstep
    · exact Option.some.inj hstep ▸ ⟨rfl, rfl⟩
    · cases hstep
  | rollback tid =>
    simp only [step] at hstep
    split at hstep
    · split at hstep
      · exact Option.some.inj hstep ▸ ⟨rfl, rfl⟩
      · cases hstep
    · cases hstep
  | writeBack t p =>
    simp only [step] at hstep
    split at hstep
    · obtain ⟨-, -, -, -, -, -, -, holder, hepoch, -⟩ := writeBack_eq hstep
      exact ⟨holder, hepoch⟩
    · cases hstep
  | crash k | close => cases ha

theorem run_run (hrun : s.run acts = some s') (hacts : ∀ a ∈ acts, a.isRestart = false) :
    s'.older = s.older ∧ s'.epoch = s.epoch := by
  induction acts generalizing s with
  | nil => exact Option.some.inj hrun ▸ ⟨rfl, rfl⟩
  | cons a acts ih =>
    obtain ⟨s₁, hstep, hrest⟩ := Option.bind_eq_some_iff.1 hrun
    obtain ⟨ho, he⟩ := step_run hstep (hacts a (by simp))
    obtain ⟨ho', he'⟩ := ih hrest fun a ha => hacts a (by simp [ha])
    exact ⟨ho'.trans ho, he'.trans he⟩

/-- The ids of one incarnation are not reused. -/
theorem idsOk_of_older_nil (h : s.older = []) : IdsOk (s.durable k) := by
  have htag : ∀ x ∈ s.durable k, x.1 = s.epoch := fun x hx => by
    rcases mem_tag hx with hx | hx
    · simp [h] at hx
    · exact hx
  intro x hx _ hc y hy ht
  rwa [show inst y = inst x from Prod.ext ((htag y hy).trans (htag x hx).symm) ht]

/-! ## Sample runs -/

/-- One table with records of 512 bytes. -/
def newTable : Server := init ["t"] fun _ => 512

theorem newTable_sizesOk : SizesOk ["t"] fun _ => 512 := by simp [SizesOk, rmMaxRecordSize]

def recordOf (b : UInt8) : Bytes := List.replicate 512 b

/-- Transaction `tid` on the table `t`, with its one write, up to its COMMIT. -/
def committing (tid : Int) (write : Action) : List Action :=
  [.begin, .lock tid "t", write, .logCommit tid, .flushCommit tid, .endCommit tid]

/-- The same transaction, rolled back. -/
def aborting (tid : Int) (write : Action) : List Action :=
  [.begin, .lock tid "t", write, .logAbort tid, .flushAbort tid, .rollback tid, .endAbort tid]

theorem runOk_cons (hok : s.StepOk a) (hstep : s.step a = some s') (hrest : s'.RunOk acts) : s.RunOk (a :: acts) :=
  ⟨hok, fun _ hs₁ => Option.some.inj (hstep.symm.trans hs₁) ▸ hrest⟩

/-- Without any write in the log every slot is free of losers. -/
theorem noLosers_of_noWrites (h : ∀ x ∈ s.history, x.2.body.target = none) (t : TabName) (ρ : Rid) : s.NoLosers t ρ :=
  fun x hx hne => absurd (by simp [LogBody.writeOn, h x hx]) hne

/-- A transaction inserts a record and commits; another one has begun. -/
def oneInsert : List Action := committing 0 (.insert 0 "t" (recordOf 1)) ++ [.begin]

theorem oneInsert_runOk : newTable.RunOk oneInsert := by
  refine runOk_cons trivial rfl (runOk_cons trivial rfl (runOk_cons (fun _ _ _ _ => ?_) rfl
    (runOk_cons trivial rfl (runOk_cons trivial rfl (runOk_cons trivial rfl (runOk_cons trivial rfl trivial))))))
  exact noLosers_of_noWrites (by decide) _ _

/-! ## Any number of restarts -/

/-- The restart `a` succeeds and leaves in the tables what is committed in `G`. -/
def RestartsTo (s : Server) (a : Action) (names : List TabName) (recordSize : TabName → Int)
    (G : List (Nat × LogRecord)) : Prop :=
  ∃ s', s.step a = some s' ∧ ∀ t ∈ names, ∀ ρ, (init names recordSize).InRange t ρ →
    s'.fhs.recordAt t ρ = committedRecord G t ρ

theorem Sound.inRange_iff (h : s.Sound (Server.init names recordSize).fhs) (t : TabName) (ρ : Rid) :
    s.InRange t ρ ↔ (Server.init names recordSize).InRange t ρ := by
  simp only [InRange, (h.shape.shape t).perPage]

/-- A record is inserted, and in the next incarnation another transaction with the same id aborts. -/
def reusedId : List Action :=
  committing 0 (.insert 0 "t" (recordOf 1)) ++ [.close, .begin, .logAbort 0, .flushAbort 0, .endAbort 0]

/-- The records of the transactions whose COMMIT is in the log. -/
def committedOnly (log : List LogRecord) : List LogRecord :=
  log.filter fun r => log.any fun c => c.logTid == r.logTid && c.body == .commit

theorem committedRecord_map (e : Nat) (log : List LogRecord) (t : TabName) (ρ : Rid) :
    committedRecord (log.map (e, ·)) t ρ = replay (committedOnly log) t ρ := by
  simp only [committedRecord, committedOnly, committed, List.filter_map, List.map_map, List.any_map]
  congr 1
  refine (List.map_id' _).trans (List.filter_congr fun r _ => ?_)
  rw [Bool.eq_iff_iff]
  simp [inst]

/-- Recovery from the log and the files that a crash leaves succeeds, with the committed records in the tables. -/
def RecoversTo (s : Server) (k : Nat) (names : List TabName) (recordSize : TabName → Int) : Prop :=
  ∃ fhs, recover (s.durableLog k) s.image = .ok fhs ∧ ∀ t ∈ names, ∀ ρ, (init names recordSize).InRange t ρ →
    fhs.recordAt t ρ = replay (committedOnly (s.durableLog k)) t ρ

/-- A record is inserted, updated by a transaction that aborts, and updated by one that commits. -/
def lostUpdate : List Action :=
  committing 0 (.insert 0 "t" (recordOf 1)) ++ aborting 1 (.update 1 "t" ⟨1, 0⟩ (recordOf 2)) ++
    committing 2 (.update 2 "t" ⟨1, 0⟩ (recordOf 3))

end Server

end Rmdb
