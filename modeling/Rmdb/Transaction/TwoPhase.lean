import Rmdb.Transaction.LockTable
import Rmdb.Transaction.Serializable

/-!
# The steps of a session

- `Sessions.Moved`: a step changes one session and appends records of its transaction;
- `ExecPc` and `AdvancePc`: where `exec` and `advance` take a thread;
- `endRecords`: the COMMIT and ABORT records of a transaction since the server started;
- `released_of_releases` and `not_acquires`: two-phase locking. A transaction that has released a lock is over or about
  to be, and acquires no other.
-/

namespace Rmdb

open Lib LockManager

namespace Sessions

variable {s s' : Sessions} {tid t : Int} {se se' : Session}

/-! ## One session moves -/

/-- How many COMMIT and ABORT records of the transaction this server has appended. -/
def endRecords (s : Sessions) (tid : Int) : Nat :=
  (s.own s.logMgr.stream).countP fun r => decide (r.logTid = tid ∧ r.body.ends)

/-- A step of session `tid` that appends `rs` to the log. -/
structure Moved (s s' : Sessions) (tid : Int) (se se' : Session) (rs : List LogRecord) : Prop where
  pre : s.sessions tid = some se
  post : s'.sessions tid = some se'
  others : ∀ t, t ≠ tid → s'.sessions t = s.sessions t
  next : s'.nextTxnId = s.nextTxnId
  base : s'.base = s.base
  stream : s'.logMgr.stream = s.logMgr.stream ++ rs
  tids : ∀ r ∈ rs, r.logTid = tid

theorem endRecords_append (hb : s.base ≤ s.logMgr.stream.length) (hbase : s'.base = s.base) {rs : List LogRecord}
    (hs : s'.logMgr.stream = s.logMgr.stream ++ rs) (t : Int) :
    s'.endRecords t = s.endRecords t + rs.countP fun r => decide (r.logTid = t ∧ r.body.ends) := by
  unfold endRecords own
  rw [hbase, hs, List.drop_append_of_le_length hb, List.countP_append]

/-- The records of the others are as many as before. -/
theorem Moved.endRecords_of_ne {rs : List LogRecord} (h : Moved s s' tid se se' rs)
    (hb : s.base ≤ s.logMgr.stream.length) (ht : t ≠ tid) : s'.endRecords t = s.endRecords t := by
  have hnone : (rs.countP fun r => decide (r.logTid = t ∧ r.body.ends)) = 0 := by
    rw [List.countP_eq_zero]
    intro r hr
    simp [h.tids r hr, ht.symm]
  rw [endRecords_append hb h.base h.stream, hnone, Nat.add_zero]

theorem Moved.endRecords_of_not_ends {rs : List LogRecord} (h : Moved s s' tid se se' rs)
    (hb : s.base ≤ s.logMgr.stream.length) (hrs : ∀ r ∈ rs, ¬r.body.ends) : s'.endRecords tid = s.endRecords tid := by
  have hnone : (rs.countP fun r => decide (r.logTid = tid ∧ r.body.ends)) = 0 := by
    rw [List.countP_eq_zero]
    intro r hr
    simp [hrs r hr]
  rw [endRecords_append hb h.base h.stream, hnone, Nat.add_zero]

/-- The end of a transaction is one record. -/
theorem Moved.endRecords_of_ends {r : LogRecord} (h : Moved s s' tid se se' [r]) (hb : s.base ≤ s.logMgr.stream.length)
    (hr : r.body.ends) : s'.endRecords tid = s.endRecords tid + 1 := by
  rw [endRecords_append hb h.base h.stream]
  simp [h.tids r, hr]

theorem moved_setSession (hse : s.sessions tid = some se) : Moved s (s.setSession tid se') tid se se' [] where
  pre := hse
  post := by simp [setSession]
  others t ht := by simp [setSession, ht]
  next := rfl
  base := rfl
  stream := by simp [setSession]
  tids := by simp

/-- The session after a record of its transaction was appended. -/
def logged (s : Sessions) (tid : Int) (se : Session) (body : LogBody) (pc : Pc) : Session :=
  { se with prevLsn := (s.logMgr.addLogToBuffer tid se.prevLsn body).1, pc := pc }

theorem moved_logRecord (hse : s.sessions tid = some se) (body : LogBody) (pc : Pc) :
    Moved s (s.logRecord tid se body pc) tid se (s.logged tid se body pc) [⟨s.logMgr.globalLsn, tid, se.prevLsn, body⟩] where
  pre := hse
  post := by simp [logRecord, setSession, logged]
  others t ht := by simp [logRecord, setSession, ht]
  next := rfl
  base := rfl
  stream := by simp [logRecord, setSession]
  tids := by simp

/-- `begin` adds an idle session and a record that ends nothing. -/
theorem sessions_beginTxn (s : Sessions) (t : Int) : s.beginTxn.sessions t =
    if t = s.nextTxnId then some ⟨⟨s.nextTxnId, .default, []⟩, s.logMgr.globalLsn, [], .idle, false⟩
    else s.sessions t := by
  by_cases ht : t = s.nextTxnId <;> simp [beginTxn, setSession, ht]

theorem endRecords_beginTxn (hb : s.base ≤ s.logMgr.stream.length) (t : Int) :
    s.beginTxn.endRecords t = s.endRecords t := by
  have hs : s.beginTxn.logMgr.stream =
      s.logMgr.stream ++ [⟨s.logMgr.globalLsn, s.nextTxnId, invalidLsn, .begin⟩] := by simp [beginTxn, setSession]
  have hbase : s.beginTxn.base = s.base := rfl
  rw [endRecords_append hb hbase hs]
  simp [LogBody.ends]

/-! ## Where a step takes the thread -/

/-- A step of a statement, or of the body of the loop in `abort`. -/
inductive ExecPc : Pc → Pc → Prop
  | call (c : Call) (k : c.Resp → Exec Unit) (p : Exec Unit) : ExecPc (.stmt (.call c k)) (.stmt p)
  | done (a : Unit) : ExecPc (.stmt (.ret a)) .idle
  | failed (e : RMDBError) : ExecPc (.stmt (.throw (.rmdb e))) .idle
  | refused (e : TransactionAbortException) : ExecPc (.stmt (.throw (.abort e))) .aborting
  | undo (c : Call) (k : c.Resp → Exec Unit) (p : Exec Unit) : ExecPc (.undoing (.call c k)) (.undoing p)
  | undone (a : Unit) : ExecPc (.undoing (.ret a)) .rollback
  | undoFailed (e : RMDBError) : ExecPc (.undoing (.throw (.rmdb e))) .idle

theorem ExecPc.working {pc pc' : Pc} (h : ExecPc pc pc') : working pc = true := by
  cases h <;> rfl

/-- A step of `commit` or `abort` elsewhere. -/
inductive AdvancePc : Pc → Pc → Prop
  | commit (locks : List LockDataId) : AdvancePc .commitLogged (.unlocking locks .committed)
  | abort : AdvancePc .abortLogged .rollback
  | undo (p : Exec Unit) : AdvancePc .rollback (.undoing p)
  | rolledBack (locks : List LockDataId) : AdvancePc .rollback (.unlocking locks .aborted)
  | unlock (id : LockDataId) (locks : List LockDataId) (final : TransactionState) :
      AdvancePc (.unlocking (id :: locks) final) (.unlocking locks final)
  | finished (final : TransactionState) : AdvancePc (.unlocking [] final) .idle

theorem ended_eq (h : se'.owner.state = se.owner.state) : ended se' = ended se := by
  unfold ended
  rw [h]

/-- A call moves its session and appends no COMMIT or ABORT record. -/
theorem execCall_moved (h : s.Inv) (hse : s.sessions tid = some se) (logging : Bool) (answers : IxAnswers)
    (next : Exec Unit → Pc) (c : Call) (k : c.Resp → Exec Unit) :
    ∃ se' rs p, Moved s (s.execCall tid se logging answers next c k) tid se se' rs ∧ (∀ r ∈ rs, ¬r.body.ends) ∧
      ended se' = ended se ∧ se'.pc = next p := by
  have hp := perform_spec (s := s) (h.sessions tid se hse).txnId logging answers c
  unfold execCall
  generalize s.perform se logging answers c = res at hp
  obtain ⟨res, se₁, s₁⟩ := res
  obtain ⟨rs, hrs, hdata⟩ := hp.stream
  have hnote : (s₁.note tid c).sessions = s₁.sessions ∧ (s₁.note tid c).nextTxnId = s₁.nextTxnId ∧
      (s₁.note tid c).base = s₁.base ∧ (s₁.note tid c).logMgr = s₁.logMgr := by
    unfold note
    split <;> exact ⟨rfl, rfl, rfl, rfl⟩
  refine ⟨{ se₁ with pc := next (resume k res) }, rs, resume k res, ?_, fun r hr => (hdata r hr).2, hp.ended, rfl⟩
  constructor
  · exact hse
  · simp [setSession]
  · intro t ht
    have hsame : s₁.sessions t = s.sessions t := congrFun hp.sessions t
    simp [setSession, ht, hnote.1, hsame]
  · exact hnote.2.1.trans hp.nextTxnId
  · exact hnote.2.2.1.trans hp.base
  · exact (congrArg LogManager.stream hnote.2.2.2).trans hrs
  · exact fun r hr => (hdata r hr).1

/-- **A step of a statement or of a rollback.** -/
theorem exec_moved (h : s.Inv) {answers : IxAnswers} (hstep : s.exec tid answers = some s') :
    ∃ se se' rs, Moved s s' tid se se' rs ∧ (∀ r ∈ rs, ¬r.body.ends) ∧ ended se' = ended se ∧
      ExecPc se.pc se'.pc := by
  cases hse : s.sessions tid with
  | none => simp [Sessions.exec, hse] at hstep
  | some se =>
    refine ⟨se, ?_⟩
    simp only [Sessions.exec, hse, Option.bind_eq_bind, Option.bind_some] at hstep
    split at hstep
    · next c k hpc =>
      cases hstep
      obtain ⟨se', rs, p, hm, hends, hended, hpc'⟩ := execCall_moved h hse true answers .stmt c k
      exact ⟨se', rs, hm, hends, hended, hpc ▸ hpc' ▸ .call c k p⟩
    · next a hpc =>
      cases hstep
      exact ⟨_, _, moved_setSession hse, by simp, rfl, hpc ▸ .done a⟩
    · next e hpc =>
      cases hstep
      exact ⟨_, _, moved_setSession hse, by simp, rfl, hpc ▸ .failed e⟩
    · next e hpc =>
      cases hstep
      exact ⟨_, _, moved_setSession hse, by simp, rfl, hpc ▸ .refused e⟩
    · next c k hpc =>
      cases hstep
      obtain ⟨se', rs, p, hm, hends, hended, hpc'⟩ := execCall_moved h hse false answers .undoing c k
      exact ⟨se', rs, hm, hends, hended, hpc ▸ hpc' ▸ .undo c k p⟩
    · next a hpc =>
      cases hstep
      exact ⟨_, _, moved_setSession hse, by simp, rfl, hpc ▸ .undone a⟩
    · next e hpc =>
      cases hstep
      exact ⟨_, _, moved_setSession hse, by simp, rfl, hpc ▸ .undoFailed e⟩
    · cases hstep

/-- The state behind `unlock`. -/
theorem state_unlock (lm : LockManager) (txn : LockOwner) (id : LockDataId) : (lm.unlock txn id).2.1.state =
    if txn.state = .committed ∨ txn.state = .aborted then txn.state else .shrinking := by
  obtain ⟨txn', htxn'⟩ : ∃ t, t = if txn.state = .committed ∨ txn.state = .aborted then txn
    else { txn with state := .shrinking } := ⟨_, rfl⟩
  have hstate : txn'.state = if txn.state = .committed ∨ txn.state = .aborted then txn.state else .shrinking := by
    rw [htxn']
    split <;> rfl
  unfold LockManager.unlock
  simp only [← htxn']
  split
  · exact hstate
  · split <;> exact hstate

/-- `unlock` does not end a transaction and does not bring it back. -/
theorem ended_unlock {owner : LockOwner} {lm : LockManager} {id : LockDataId}
    (h : se'.owner.state = (lm.unlock owner id).2.1.state) (h' : se.owner.state = owner.state) :
    ended se' = ended se := by
  rw [state_unlock, ← h'] at h
  unfold ended
  rw [h]
  cases se.owner.state <;> rfl

/-- **A step of `commit` or `abort` elsewhere.** Its end sets the state. -/
theorem advance_moved (hstep : s.advance tid = some s') :
    ∃ se se', Moved s s' tid se se' [] ∧ AdvancePc se.pc se'.pc ∧
      (∀ final, se.pc = .unlocking [] final → se'.owner.state = final) ∧
      ((∀ final, se.pc ≠ .unlocking [] final) → ended se' = ended se) := by
  cases hse : s.sessions tid with
  | none => simp [Sessions.advance, hse] at hstep
  | some se =>
    refine ⟨se, ?_⟩
    simp only [Sessions.advance, hse, Option.bind_eq_bind, Option.bind_some] at hstep
    have hflush (se' : Session) : Moved s (s.flush.setSession tid se') tid se se' [] :=
      { moved_setSession hse with
        stream := by simp [setSession, flush] }
    split at hstep
    · next hpc =>
      cases hstep
      exact ⟨_, hflush _, hpc ▸ .commit _, by simp [hpc], fun _ => rfl⟩
    · next hpc =>
      cases hstep
      exact ⟨_, hflush _, hpc ▸ .abort, by simp [hpc], fun _ => rfl⟩
    · next hpc =>
      split at hstep
      · cases hstep
        exact ⟨_, moved_setSession hse, hpc ▸ .undo _, by simp [hpc], fun _ => rfl⟩
      · cases hstep
        exact ⟨_, moved_setSession hse, hpc ▸ .rolledBack _, by simp [hpc], fun _ => rfl⟩
    · next id locks final hpc =>
      cases hstep
      refine ⟨_, { moved_setSession hse with }, hpc ▸ .unlock id locks final, by simp [hpc], fun _ => ?_⟩
      exact ended_unlock rfl rfl
    · next final hpc =>
      cases hstep
      refine ⟨_, moved_setSession hse, hpc ▸ .finished final, fun final' h => ?_, fun h => absurd hpc (h final)⟩
      rw [hpc, Pc.unlocking.injEq] at h
      exact h.2
    · cases hstep

/-! ## Two phases -/

/-- The transaction holds an item that it did not hold, or holds it in another mode. -/
def Acquires (s s' : Sessions) (tid : Int) : Prop :=
  ∃ id, s'.lockMgr.heldMode tid id ≠ none ∧ s'.lockMgr.heldMode tid id ≠ s.lockMgr.heldMode tid id

/-- The transaction no longer holds an item. -/
def Releases (s s' : Sessions) (tid : Int) : Prop :=
  ∃ id, s.lockMgr.heldMode tid id ≠ none ∧ s'.lockMgr.heldMode tid id = none

/-- What a step does to the locks of a transaction. -/
inductive LockStep (s s' : Sessions) (t : Int) : Prop
  | same (h : ∀ id, s'.lockMgr.heldMode t id = s.lockMgr.heldMode t id)
  | grows (se : Session) (hse : s.sessions t = some se) (hnr : ¬Released se)
      (h : ∀ id, s.lockMgr.heldMode t id ≠ none → s'.lockMgr.heldMode t id ≠ none)
  | shrinks (se' : Session) (hse' : s'.sessions t = some se') (hr : Released se')
      (h : ∀ id, s'.lockMgr.heldMode t id = none ∨ s'.lockMgr.heldMode t id = s.lockMgr.heldMode t id)

/-- No call releases a lock. -/
theorem perform_holds (s : Sessions) (se : Session) (logging : Bool) (answers : IxAnswers) (c : Call) (t : Int)
    (id : LockDataId) (hheld : s.lockMgr.heldMode t id ≠ none) :
    (s.perform se logging answers c).2.2.lockMgr.heldMode t id ≠ none := by
  have hlock (tab : TabName) (mode : LockMode) : (s.lockTable se tab mode).2.2.lockMgr.heldMode t id ≠ none := by
    have hresult := s.lockMgr.acquireLock_result se.owner (.table (s.fd tab)) mode
    unfold lockTable
    generalize s.lockMgr.acquireLock se.owner (.table (s.fd tab)) mode = res at hresult
    cases hresult with
    | refused | kept => exact hheld
    | upgraded owner _ hid hset held hmode =>
      simp only [heldMode_upgraded hmode]
      split
      · exact Option.some_ne_none _
      · exact hheld
    | appended owner _ hid hset hnone =>
      simp only [heldMode_appended hnone]
      split
      · exact Option.some_ne_none _
      · exact hheld
  have hput {α : Type} (tab : TabName) (res : Except RMDBError (α × RmFile × Option Context)) :
      (s.putFile se tab res).2.2.lockMgr = s.lockMgr := by
    unfold putFile
    split <;> rfl
  cases c
  case lockSharedOnTable => exact hlock _ _
  case lockExclusiveOnTable => exact hlock _ _
  case getTable tab => cases hdb : s.db tab <;> simpa only [perform, hdb] using hheld
  case fileHdr | fetchPageHandle | getRecord | index | appendWriteRecord => exact hheld
  all_goals
    exact fun hnone => hheld ((congrArg (·.heldMode t id) (hput _ _)).symm.trans hnone)

theorem execCall_locks (h : s.Inv) (hse : s.sessions tid = some se) (logging : Bool) (answers : IxAnswers)
    (next : Exec Unit → Pc) (c : Call) (k : c.Resp → Exec Unit) (hnr : ¬Released se) (t : Int) :
    LockStep s (s.execCall tid se logging answers next c k) t := by
  have hp := perform_spec (s := s) (h.sessions tid se hse).txnId logging answers c
  have hholds := perform_holds s se logging answers c
  unfold execCall
  generalize s.perform se logging answers c = res at hp hholds
  obtain ⟨res, se₁, s₁⟩ := res
  have hnote : (s₁.note tid c).lockMgr = s₁.lockMgr := by
    unfold note
    split <;> rfl
  by_cases ht : t = tid
  · subst ht
    refine .grows se hse hnr fun id hid => ?_
    simp only [setSession, hnote]
    exact hholds t id hid
  · refine .same fun id => ?_
    simp only [setSession, hnote]
    exact hp.same t ht id

theorem exec_locks (h : s.Inv) {answers : IxAnswers} (hstep : s.exec tid answers = some s') (t : Int) :
    LockStep s s' t := by
  cases hse : s.sessions tid with
  | none => simp [Sessions.exec, hse] at hstep
  | some se =>
    have hinv := h.sessions tid se hse
    simp only [Sessions.exec, hse, Option.bind_eq_bind, Option.bind_some] at hstep
    split at hstep
    · next c k hpc =>
      cases hstep
      have hwork : working se.pc = true := by rw [hpc]; rfl
      exact execCall_locks h hse _ _ _ _ _ (not_released_of_working hwork (hinv.working hwork)) t
    case h_5 c k hpc =>
      cases hstep
      have hwork : working se.pc = true := by rw [hpc]; rfl
      exact execCall_locks h hse _ _ _ _ _ (not_released_of_working hwork (hinv.working hwork)) t
    case h_8 => cases hstep
    all_goals
      cases hstep
      exact .same fun _ => rfl

theorem advance_locks (h : s.Inv) (hstep : s.advance tid = some s') (t : Int) : LockStep s s' t := by
  cases hse : s.sessions tid with
  | none => simp [Sessions.advance, hse] at hstep
  | some se =>
    simp only [Sessions.advance, hse, Option.bind_eq_bind, Option.bind_some] at hstep
    split at hstep
    · cases hstep
      exact .same fun _ => rfl
    · cases hstep
      exact .same fun _ => rfl
    · split at hstep <;> cases hstep <;> exact .same fun _ => rfl
    · next id locks final hpc =>
      cases hstep
      have hun := s.lockMgr.unlock_spec se.owner id
      have htid := (h.sessions tid se hse).txnId
      by_cases ht : t = tid
      · subst ht
        refine .shrinks _ (by simp [setSession]; rfl) (.inr ⟨locks, final, rfl⟩) fun i => ?_
        by_cases hi : i = id
        · subst hi
          exact .inl (htid ▸ hun.released h.locks)
        · exact .inr (hun.same t i (.inr hi))
      · exact .same fun i => hun.same t i (.inl (htid ▸ ht))
    · cases hstep
      exact .same fun _ => rfl
    · cases hstep

/-- **What a step does to the locks of a transaction**: they stay, the transaction is in a statement or a rollback, or
it is releasing them. -/
theorem step_locks (h : s.Inv) {a : Action} (hstep : s.step a = some s') (t : Int) : LockStep s s' t := by
  cases a with
  | exec tid answers => exact exec_locks h hstep t
  | advance tid => exact advance_locks h hstep t
  | «begin» =>
    cases hstep
    exact .same fun _ => rfl
  | flushLog =>
    cases hstep
    exact .same fun _ => rfl
  | start tid | commit tid | abort tid =>
    cases hse : s.sessions tid with
    | none => simp [Sessions.step, hse] at hstep
    | some se =>
      simp only [Sessions.step, hse, Option.bind_eq_bind, Option.bind_some] at hstep
      split at hstep
      · cases hstep
        exact .same fun _ => rfl
      · cases hstep

/-- A transaction that releases a lock is about to be over. -/
theorem released_of_releases (h : s.Inv) {a : Action} (hstep : s.step a = some s') (hr : Releases s s' t) :
    ∃ se', s'.sessions t = some se' ∧ Released se' := by
  obtain ⟨id, hheld, hnone⟩ := hr
  cases step_locks h hstep t with
  | same hsame => exact absurd ((hsame id).symm.trans hnone) hheld
  | grows se hse hnr hgrow => exact absurd hnone (hgrow id hheld)
  | shrinks se' hse' hrel => exact ⟨se', hse', hrel⟩

/-- The steps that append a COMMIT or ABORT record. -/
theorem commit_moved (hstep : s.step (.commit tid) = some s') : ∃ se, se.pc = .idle ∧
    Moved s s' tid se (s.logged tid se .commit .commitLogged) [⟨s.logMgr.globalLsn, tid, se.prevLsn, .commit⟩] := by
  cases hse : s.sessions tid with
  | none => simp [Sessions.step, hse] at hstep
  | some se =>
    simp only [Sessions.step, hse, Option.bind_eq_bind, Option.bind_some] at hstep
    split at hstep
    · next hidle =>
      cases hstep
      exact ⟨se, idle_pc hidle, moved_logRecord hse _ _⟩
    · cases hstep

theorem abort_moved (hstep : s.step (.abort tid) = some s') : ∃ se,
    (se.pc = .idle ∧ ended se = false ∨ se.pc = .aborting) ∧
    Moved s s' tid se (s.logged tid se .abort .abortLogged) [⟨s.logMgr.globalLsn, tid, se.prevLsn, .abort⟩] := by
  cases hse : s.sessions tid with
  | none => simp [Sessions.step, hse] at hstep
  | some se =>
    simp only [Sessions.step, hse, Option.bind_eq_bind, Option.bind_some] at hstep
    split at hstep
    · next hcond =>
      cases hstep
      refine ⟨se, ?_, moved_logRecord hse _ _⟩
      simp only [Bool.or_eq_true, Bool.and_eq_true, Bool.not_eq_true'] at hcond
      refine hcond.imp (fun h => ⟨idle_pc h.1, h.2⟩) fun h => ?_
      unfold caughtAbort at h
      split at h
      · assumption
      · cases h
    · cases hstep

theorem start_moved {fuel : Nat} {stmt : Stmt} (hstep : s.step (.start tid fuel stmt) = some s') : ∃ se,
    se.pc = .idle ∧ ended se = false ∧ Moved s s' tid se { se with pc := .stmt (stmt.prog fuel) } [] := by
  cases hse : s.sessions tid with
  | none => simp [Sessions.step, hse] at hstep
  | some se =>
    simp only [Sessions.step, hse, Option.bind_eq_bind, Option.bind_some] at hstep
    split at hstep
    · next hcond =>
      cases hstep
      simp only [Bool.and_eq_true, Bool.not_eq_true'] at hcond
      exact ⟨se, idle_pc hcond.1, hcond.2, moved_setSession hse⟩
    · cases hstep

/-- A step of another session, or one that this session is released before and after. -/
theorem Moved.released {rs : List LogRecord} {se₀ se₁ : Session} (hm : Moved s s' tid se₀ se₁ rs)
    (hse : s.sessions t = some se) (hrel : Released se) (h : t = tid → se = se₀ → Released se₁) :
    ∃ se', s'.sessions t = some se' ∧ Released se' := by
  by_cases ht : t = tid
  · subst ht
    have heq : se = se₀ := Option.some.inj (hse.symm.trans hm.pre)
    exact ⟨se₁, hm.post, h rfl heq⟩
  · exact ⟨se, (hm.others t ht).trans hse, hrel⟩

theorem released_step (h : s.Inv) {a : Action} (hstep : s.step a = some s') (hse : s.sessions t = some se)
    (hrel : Released se) : ∃ se', s'.sessions t = some se' ∧ Released se' := by
  have hinv := h.sessions t se hse
  have hnot (hwork : working se.pc = true) : False := not_released_of_working hwork (hinv.working hwork) hrel
  cases a with
  | «begin» =>
    cases hstep
    have hne : t ≠ s.nextTxnId := by
      rintro rfl
      rw [(h.fresh _ (Int.le_refl _)).1] at hse
      cases hse
    exact ⟨se, by simpa [beginTxn, setSession, hne] using hse, hrel⟩
  | flushLog =>
    cases hstep
    exact ⟨se, hse, hrel⟩
  | start tid fuel stmt =>
    obtain ⟨se₀, hpc, hended, hm⟩ := start_moved hstep
    refine hm.released hse hrel fun _ heq => ?_
    subst heq
    exact absurd hrel (not_released_of_idle (by simp [idle, hpc]) hended).1
  | commit tid =>
    obtain ⟨se₀, hpc, hm⟩ := commit_moved hstep
    refine hm.released hse hrel fun _ heq => ?_
    subst heq
    rcases hrel with hended | ⟨locks, final, hunl⟩
    · exact .inl hended
    · rw [hpc] at hunl
      cases hunl
  | abort tid =>
    obtain ⟨se₀, hpc, hm⟩ := abort_moved hstep
    refine hm.released hse hrel fun _ heq => ?_
    subst heq
    rcases hpc with ⟨hpc, hended⟩ | hpc
    · exact absurd hrel (not_released_of_idle (by simp [idle, hpc]) hended).1
    · exact (hnot (by rw [hpc]; rfl)).elim
  | exec tid answers =>
    obtain ⟨se₀, se₁, rs, hm, -, -, hpc⟩ := exec_moved h hstep
    refine hm.released hse hrel fun _ heq => ?_
    subst heq
    exact (hnot hpc.working).elim
  | advance tid =>
    obtain ⟨se₀, se₁, hm, hpc, hfinal, hsame⟩ := advance_moved hstep
    refine hm.released hse hrel fun _ heq => ?_
    subst heq
    have hfinal' := hinv.final
    generalize hp : se.pc = pc at hpc
    generalize hp' : se₁.pc = pc' at hpc
    cases hpc with
    | abort | undo | rolledBack => exact (hnot (by rw [hp]; rfl)).elim
    | commit locks => exact .inr ⟨locks, _, hp'⟩
    | unlock id locks final => exact .inr ⟨locks, final, hp'⟩
    | finished final =>
      left
      unfold ended
      rw [hfinal final hp]
      rcases hfinal' [] final hp with rfl | rfl <;> rfl

/-- A transaction that is over, or about to be, acquires nothing. -/
theorem not_acquires_of_released (h : s.Inv) {a : Action} (hstep : s.step a = some s') (hse : s.sessions t = some se)
    (hrel : Released se) : ¬Acquires s s' t := by
  rintro ⟨id, hheld, hdiff⟩
  cases step_locks h hstep t with
  | same hsame => exact hdiff (hsame id)
  | grows se' hse' hnr =>
    rw [hse] at hse'
    cases hse'
    exact hnr hrel
  | shrinks se' hse' hr hshrink => exact (hshrink id).elim hheld hdiff

end Sessions

end Rmdb
