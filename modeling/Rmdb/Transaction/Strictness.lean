import Rmdb.Lib.Schedule
import Rmdb.Transaction.LockDiscipline

/-!
# Strict two-phase locking

- `Sessions.Inv`: a transaction that has not released its locks still holds a lock for each of its past accesses and
  the X lock of each table in its write set; one that releases them has its COMMIT record on disk or is rolled back;
- `Inv.strict`: so an access waits for the end of every transaction it conflicts with;
- `perform_spec`: what one call does to the locks, the log and the transaction that makes it.
-/

namespace Rmdb

open Lib LockManager

/-! ## Conflicts and the order of the COMMIT records -/

/-- Accesses to one table, one of them a write. -/
def Access.Conflict (a b : Access) : Prop := a.tabName = b.tabName ∧ (a.write = true ∨ b.write = true)

instance (a b : Access) : Decidable (a.Conflict b) := inferInstanceAs (Decidable (_ ∧ _))

/-- The transactions in the order of their first COMMIT records. -/
def commitOrder (log : List LogRecord) : List Int :=
  log.foldl (fun C r => if r.body = .commit ∧ r.logTid ∉ C then C ++ [r.logTid] else C) []

theorem commitOrder_concat (log : List LogRecord) (r : LogRecord) : commitOrder (log ++ [r]) =
    if r.body = .commit ∧ r.logTid ∉ commitOrder log then commitOrder log ++ [r.logTid] else commitOrder log := by
  unfold commitOrder
  rw [List.foldl_append]
  rfl

/-- A longer log adds transactions at the end. -/
theorem commitOrder_append (log rs : List LogRecord) : ∃ C, commitOrder (log ++ rs) = commitOrder log ++ C := by
  induction rs using List.reverseRecOn with
  | nil => exact ⟨[], by simp⟩
  | append_singleton rs r ih =>
    obtain ⟨C, hC⟩ := ih
    rw [← List.append_assoc, commitOrder_concat, hC]
    split
    · exact ⟨C ++ [r.logTid], by simp⟩
    · exact ⟨C, rfl⟩

theorem nodup_commitOrder (log : List LogRecord) : (commitOrder log).Nodup := by
  induction log using List.reverseRecOn with
  | nil => exact List.nodup_nil
  | append_singleton log r ih =>
    rw [commitOrder_concat]
    split
    · next h => exact List.nodup_append.2 ⟨ih, List.nodup_singleton _, by rintro a ha b hb rfl; simp_all⟩
    · exact ih

theorem mem_commitOrder {log : List LogRecord} {tid : Int} :
    tid ∈ commitOrder log ↔ ∃ r ∈ log, r.logTid = tid ∧ r.body = .commit := by
  induction log using List.reverseRecOn with
  | nil => simp [commitOrder]
  | append_singleton log r ih =>
    have hsplit : (∃ r' ∈ log ++ [r], r'.logTid = tid ∧ r'.body = .commit) ↔
        tid ∈ commitOrder log ∨ (r.logTid = tid ∧ r.body = .commit) := by
      rw [ih]
      simp only [List.mem_append, List.mem_singleton, or_and_right, exists_or, exists_eq_left]
    rw [hsplit, commitOrder_concat]
    by_cases hc : r.body = .commit
    · by_cases hm : r.logTid ∈ commitOrder log
      · have hin : r.logTid = tid → tid ∈ commitOrder log := fun heq => heq ▸ hm
        simp only [hc, hm, not_true, and_false, if_false, and_true]
        exact ⟨.inl, fun h => h.elim (fun h => h) hin⟩
      · simp [hc, hm, eq_comm]
    · simp [hc]

theorem idxOf_append_lt {C D : List Int} {t t' : Int} (h : C.idxOf t < C.idxOf t') :
    (C ++ D).idxOf t < (C ++ D).idxOf t' := by
  have hlen : C.idxOf t < C.length := lt_of_lt_of_le h List.idxOf_le_length
  have ht : t ∈ C := List.idxOf_lt_length_iff.1 hlen
  rw [List.idxOf_append_of_mem ht]
  by_cases ht' : t' ∈ C
  · rwa [List.idxOf_append_of_mem ht']
  · rw [List.idxOf_append_of_notMem ht']
    omega

/-! ## What a write logs -/

namespace RmFile

variable {f f' : RmFile} {rid rid' : Rid} {buf : Bytes} {ctx ctx' : Option Context}

theorem insertRecord_ctx (h : f.insertRecord buf ctx = .ok (rid', f', ctx')) :
    ∃ body : LogBody, ¬body.ends ∧ ctx' = appendLog ctx body := by
  cases hp : f.createPageHandle with
  | error e => simp [insertRecord, hp, bind, Except.bind] at h
  | ok r =>
    obtain ⟨pageNo, page, f₁⟩ := r
    have heq := insertRecord_eq buf ctx hp
    simp only [heq, Except.ok.injEq, Prod.mk.injEq] at h
    exact ⟨_, by simp [LogBody.ends], h.2.2.symm⟩

theorem deleteRecord_ctx (h : f.deleteRecord rid ctx = .ok (f', ctx')) :
    ∃ body : LogBody, ¬body.ends ∧ ctx' = appendLog ctx body := by
  obtain ⟨page, hp, hset⟩ := deleteRecord_ok h
  have heq := deleteRecord_eq ctx hp hset
  simp only [heq, Except.ok.injEq, Prod.mk.injEq] at h
  exact ⟨_, by simp [LogBody.ends], h.2.symm⟩

theorem updateRecord_ctx (h : f.updateRecord rid buf ctx = .ok (f', ctx')) :
    ∃ body : LogBody, ¬body.ends ∧ ctx' = appendLog ctx body := by
  obtain ⟨page, hp, hset⟩ := updateRecord_ok h
  have heq := updateRecord_eq buf ctx hp hset
  simp only [heq, Except.ok.injEq, Prod.mk.injEq] at h
  exact ⟨_, by simp [LogBody.ends], h.2.symm⟩

end RmFile

namespace Sessions

/-! ## The invariant -/

/-- The modes under which a table may be read, and written. -/
def covers : LockMode → Bool → Bool
  | .exlucsive, _ | .shared, false | .sIX, false => true
  | _, _ => false

/-- The transaction holds a lock under which it may access the table. -/
def Covers (s : Sessions) (tid : Int) (t : TabName) (write : Bool) : Prop :=
  ∃ m, s.lockMgr.heldMode tid (.table (s.fd t)) = some m ∧ covers m write = true

/-- What this server has added to a log. -/
def own (s : Sessions) (log : List LogRecord) : List LogRecord := log.drop s.base

/-- The transaction's COMMIT record has reached `db.log`. -/
def CommitDurable (s : Sessions) (tid : Int) : Prop :=
  ∃ r ∈ s.own s.logMgr.disk, r.logTid = tid ∧ r.body = .commit

/-- Every write of the transaction has been rolled back. -/
def RolledBack (s : Sessions) (tid : Int) : Prop := ∃ se, s.sessions tid = some se ∧ se.rolledBack = true

/-- The transaction is over, or releasing its locks. -/
def Released (se : Session) : Prop := ended se = true ∨ ∃ locks final, se.pc = .unlocking locks final

/-- The transaction's thread is in a statement or in `abort`, before it releases the locks. -/
def working : Pc → Bool
  | .stmt _ | .aborting | .abortLogged | .rollback | .undoing _ => true
  | _ => false

structure SessionInv (s : Sessions) (tid : Int) (se : Session) : Prop where
  txnId : se.owner.txnId = tid
  released : Released se → s.CommitDurable tid ∨ se.rolledBack = true
  held : ¬ Released se → ∀ a ∈ s.history, a.txnId = tid → s.Covers tid a.tabName a.write
  writes : ¬ Released se → ∀ w ∈ se.writeSet, s.Covers tid w.tabName true
  uncommitted : ¬ Released se → se.pc ≠ .commitLogged → tid ∉ commitOrder (s.own s.logMgr.stream)
  logged : se.pc = .commitLogged → tid ∈ commitOrder (s.own s.logMgr.stream)
  working : working se.pc = true → ended se = false
  final : ∀ locks final, se.pc = .unlocking locks final → final = .committed ∨ final = .aborted
  guarded : ∀ p, se.pc = .stmt p ∨ se.pc = .undoing p →
    ∃ H : Locks, Guarded p (fun _ _ => True) H ∧ ∀ t w, H t w → s.Covers tid t w

/-- The first transaction is rolled back, or its COMMIT record comes before any of the second. -/
def Before (s : Sessions) (t t' : Int) : Prop :=
  s.RolledBack t ∨
    (commitOrder (s.own s.logMgr.stream)).idxOf t < (commitOrder (s.own s.logMgr.stream)).idxOf t'

structure Inv (s : Sessions) : Prop where
  locks : s.lockMgr.Wf
  base : s.base ≤ s.logMgr.stream.length
  sessions : ∀ tid se, s.sessions tid = some se → s.SessionInv tid se
  fresh : ∀ tid, s.nextTxnId ≤ tid → s.sessions tid = none ∧ tid ∉ commitOrder (s.own s.logMgr.stream)
  known : ∀ a ∈ s.history, ∃ se, s.sessions a.txnId = some se
  order : s.history.Pairwise fun a b => a.txnId ≠ b.txnId → a.Conflict b → s.Before a.txnId b.txnId

/-! ## Two transactions at one table -/

theorem covers_true {m : LockMode} (h : covers m true = true) : m = .exlucsive := by
  cases m <;> simp_all [covers]

/-- Two transactions cannot hold locks for conflicting accesses. -/
theorem Covers.conflict {s : Sessions} (hwf : s.lockMgr.Wf) {t t' : Int} (hne : t ≠ t') {tab : TabName} {w w' : Bool}
    (h : s.Covers t tab w) (h' : s.Covers t' tab w') : w = false ∧ w' = false := by
  obtain ⟨m, hm, hcov⟩ := h
  obtain ⟨m', hm', hcov'⟩ := h'
  unfold heldMode at hm hm'
  obtain ⟨r, hr, rfl⟩ := Option.map_eq_some_iff.1 hm
  obtain ⟨r', hr', rfl⟩ := Option.map_eq_some_iff.1 hm'
  have hmem := heldRequest_eq_some hr
  have hmem' := heldRequest_eq_some hr'
  have hcomp := (hwf _).compatible hmem.1 hmem'.1 (by rw [hmem.2, hmem'.2]; exact hne)
  constructor
  · by_contra hw
    have hx : r.lockMode = .exlucsive := covers_true (by simpa [hw] using hcov)
    rw [hx, isCompatible_comm, isCompatible_exlucsive] at hcomp
    exact absurd hcomp (by decide)
  · by_contra hw
    have hx : r'.lockMode = .exlucsive := covers_true (by simpa [hw] using hcov')
    rw [hx, isCompatible_exlucsive] at hcomp
    exact absurd hcomp (by decide)

/-- The call that a session is about to make. -/
def NextCall (s : Sessions) (tid : Int) (c : Call) : Prop :=
  ∃ se k, s.sessions tid = some se ∧ (se.pc = .stmt (.call c k) ∨ se.pc = .undoing (.call c k))

theorem NextCall.covers {s : Sessions} (hs : s.Inv) {tid : Int} {c : Call} (h : s.NextCall tid c) {t : TabName} {w : Bool}
    (hc : c.access = some (t, w)) : s.Covers tid t w := by
  obtain ⟨se, k, hse, hpc⟩ := h
  obtain ⟨H, hH, hcov⟩ := (hs.sessions tid se hse).guarded _ hpc
  exact hcov t w (hH.1.1 t w hc)

/-- An access waits until every transaction that it conflicts with has committed or is rolled back. -/
theorem Inv.strict {s : Sessions} (hs : s.Inv) {tid : Int} {c : Call} (h : s.NextCall tid c) {t : TabName} {w : Bool}
    (hc : c.access = some (t, w)) {a : Access} (ha : a ∈ s.history) (hne : a.txnId ≠ tid)
    (hconf : a.Conflict ⟨tid, t, w⟩) : s.CommitDurable a.txnId ∨ s.RolledBack a.txnId := by
  obtain ⟨se, hse⟩ := hs.known a ha
  have hinv := hs.sessions _ se hse
  by_cases hrel : Released se
  · exact (hinv.released hrel).imp_right fun hr => ⟨se, hse, hr⟩
  · exfalso
    have hcov := hinv.held hrel a ha rfl
    have hcov' := h.covers hs hc
    rw [← show a.tabName = t from hconf.1] at hcov'
    have hboth := hcov.conflict hs.locks hne hcov'
    rcases hconf.2 with hw | hw
    · exact absurd (hw.symm.trans hboth.1) (by decide)
    · exact absurd (hw.symm.trans hboth.2) (by decide)

/-! ## What a call leaves as it was -/

section perform
variable {s : Sessions} {se : Session} {tid : Int} {t : TabName} {w : Bool}

/-- What a call of a transaction does to the locks, the log and the transaction; `ok` says that it succeeded. -/
structure Performed (s : Sessions) (se : Session) (tid : Int) (c : Call) (ok : Prop) (se' : Session) (s' : Sessions) :
    Prop where
  locks : s.lockMgr.Wf → s'.lockMgr.Wf
  same : ∀ t, t ≠ tid → ∀ id, s'.lockMgr.heldMode t id = s.lockMgr.heldMode t id
  mono : ∀ t w, s.Covers tid t w → s'.Covers tid t w
  granted : ok → ∀ H : Locks, (∀ t w, H t w → s.Covers tid t w) → ∀ t w, H.after c t w → s'.Covers tid t w
  stream : ∃ rs, s'.logMgr.stream = s.logMgr.stream ++ rs ∧ ∀ r ∈ rs, r.logTid = tid ∧ ¬r.body.ends
  disk : ∃ rs, s'.logMgr.disk = s.logMgr.disk ++ rs
  fd : s'.fd = s.fd
  base : s'.base = s.base
  sessions : s'.sessions = s.sessions
  nextTxnId : s'.nextTxnId = s.nextTxnId
  history : s'.history = s.history
  txnId : se'.owner.txnId = se.owner.txnId
  ended : ended se' = ended se
  rolledBack : se'.rolledBack = se.rolledBack
  writes : ∀ w ∈ se'.writeSet, w ∈ se.writeSet ∨ c = .appendWriteRecord w

/-- A call that leaves locks and log alone. -/
theorem Performed.of_same {c : Call} {ok : Prop} (h : ∀ H : Locks, H.after c = H) : Performed s se tid c ok se s where
  locks h := h
  same _ _ _ := rfl
  mono _ _ h := h
  granted _ H hH t w hw := hH t w (h H ▸ hw)
  stream := ⟨[], by simp, by simp⟩
  disk := ⟨[], by simp⟩
  fd := rfl
  base := rfl
  sessions := rfl
  nextTxnId := rfl
  history := rfl
  txnId := rfl
  ended := rfl
  rolledBack := rfl
  writes w hw := .inl hw

/-- A write to a data file appends at most one data record. -/
theorem Performed.of_putFile {c : Call} {ok : Prop} {α : Type} (hafter : ∀ H : Locks, H.after c = H)
    {res : Except RMDBError (α × RmFile × Option Context)} (hid : se.owner.txnId = tid) (logging : Bool)
    (hlog : ∀ a f ctx, res = .ok (a, f, some ctx) → ∃ body : LogBody, ¬body.ends ∧
      some ctx = appendLog (perform.ctx s se logging) body) :
    Performed s se tid c ok (s.putFile se t res).2.1 (s.putFile se t res).2.2 := by
  have hsame : Performed s se tid c ok se s := .of_same hafter
  unfold putFile
  split
  · exact hsame
  · exact { hsame with }
  · next a f ctx =>
    obtain ⟨body, hne, hctx⟩ := hlog a f ctx rfl
    cases logging with
    | false => cases hctx
    | true =>
      cases hctx
      exact { hsame with
        stream := ⟨[⟨s.logMgr.globalLsn, tid, se.prevLsn, body⟩], by simp [hid], by simp [hne]⟩
        disk := LogManager.disk_addLogToBuffer _ _ _ _ }

/-- A stronger lock covers what a weaker one does. -/
theorem covers_of_isStronger {held req : LockMode} {w : Bool} (h : isStronger held req = true)
    (hw : covers req w = true) : covers held w = true := by
  cases held <;> cases req <;> cases w <;> simp_all [isStronger, covers]

/-- S and X requests replace weaker locks only. -/
theorem covers_of_not_isStronger {held req : LockMode} {w : Bool} (hreq : req = .shared ∨ req = .exlucsive)
    (h : isStronger held req = false) (hw : covers held w = true) : covers req w = true := by
  rcases hreq with rfl | rfl <;> cases held <;> cases w <;> simp_all [isStronger, covers]

theorem Performed.of_lockTable {c : Call} {tab : TabName} {mode : LockMode} (hid : se.owner.txnId = tid)
    (hmode : mode = .shared ∨ mode = .exlucsive)
    (hafter : ∀ (H : Locks) t w, H.after c t w → H t w ∨ t = tab ∧ covers mode w = true) :
    Performed s se tid c (∃ a, (s.lockTable se tab mode).1 = .ok a) (s.lockTable se tab mode).2.1
      (s.lockTable se tab mode).2.2 := by
  have hspec := s.lockMgr.acquireLock_spec se.owner (.table (s.fd tab)) mode
  unfold lockTable
  obtain ⟨⟨res, owner, lm⟩, hres⟩ : ∃ r, s.lockMgr.acquireLock se.owner (.table (s.fd tab)) mode = r := ⟨_, rfl⟩
  rw [hres] at hspec
  rw [hres]
  subst hid
  -- a lock of another table, and the lock of this one where the call is refused, is the one held before
  have hother : ∀ id, id ≠ .table (s.fd tab) → lm.heldMode se.owner.txnId id = s.lockMgr.heldMode se.owner.txnId id :=
    fun id hne => hspec.same _ _ (.inr hne)
  have hmono : ∀ t w, s.Covers se.owner.txnId t w → ∃ m, lm.heldMode se.owner.txnId (.table (s.fd t)) = some m ∧
      covers m w = true := by
    rintro t w ⟨m, hm, hcov⟩
    by_cases hid : LockDataId.table (s.fd t) = .table (s.fd tab)
    · rw [hid] at hm ⊢
      rcases hspec.total with hok | herr
      · rcases hspec.granted hok with ⟨heq, -⟩ | ⟨hweak, hnew⟩
        · exact ⟨m, heq.symm.trans hm, hcov⟩
        · exact ⟨mode, hnew, covers_of_not_isStronger hmode (hweak m hm) hcov⟩
      · exact ⟨m, (hspec.refused herr).trans hm, hcov⟩
    · exact ⟨m, (hother _ hid).trans hm, hcov⟩
  have hsame : Performed s se se.owner.txnId (.getTable tab) True se s := .of_same fun _ => rfl
  refine { hsame with
    locks := hspec.wf
    same := fun t ht id => hspec.same t id (.inl ht)
    mono := hmono
    granted := ?_
    txnId := hspec.txnId
    ended := ?_
    writes := fun w hw => .inl hw }
  · rintro ⟨a, ha⟩ H hH t w hw
    rcases hafter H t w hw with hw | ⟨rfl, hw⟩
    · exact hmono t w (hH t w hw)
    · have hok : res = .ok true := by
        rcases hspec.total with hok | ⟨e, he⟩
        · exact hok
        · exfalso
          simp only at he
          simp [he] at ha
      rcases hspec.granted hok with ⟨heq, m, hm, hst⟩ | ⟨-, hnew⟩
      · exact ⟨m, heq.symm.trans hm, covers_of_isStronger hst hw⟩
      · exact ⟨mode, hnew, hw⟩
  · unfold Sessions.ended
    rcases hspec.state with h | ⟨h, h'⟩
    · simp only at h ⊢
      rw [h]
    · simp only at h' ⊢
      rw [h, h']
      rfl

/-- One call, by kind. -/
theorem perform_spec (hid : se.owner.txnId = tid) (logging : Bool) (answers : IxAnswers) (c : Call) :
    Performed s se tid c (∃ a, (s.perform se logging answers c).1 = .ok a) (s.perform se logging answers c).2.1
      (s.perform se logging answers c).2.2 := by
  cases c with
  | lockSharedOnTable t =>
    refine Performed.of_lockTable hid (.inl rfl) fun H t' w h => h.imp_right ?_
    rintro ⟨rfl, rfl⟩
    exact ⟨rfl, rfl⟩
  | lockExclusiveOnTable t =>
    refine Performed.of_lockTable hid (.inr rfl) fun H t' w h => h.imp_right ?_
    rintro rfl
    exact ⟨rfl, by cases w <;> rfl⟩
  | getTable t =>
    cases hdb : s.db t <;> simp only [perform, hdb] <;> exact .of_same fun _ => rfl
  | fileHdr t => exact .of_same fun _ => rfl
  | fetchPageHandle t p => exact .of_same fun _ => rfl
  | getRecord t rid => exact .of_same fun _ => rfl
  | insertRecord t buf =>
    exact Performed.of_putFile (fun _ => rfl) hid logging fun a f ctx h => RmFile.insertRecord_ctx h
  | insertRecordAt t rid buf =>
    refine Performed.of_putFile (fun _ => rfl) hid logging fun a f ctx h => ?_
    cases hr : (s.fhs.file t).insertRecordAt rid buf with
    | error e => simp [hr, Except.map] at h
    | ok f' =>
      simp only [hr, Except.map, Except.ok.injEq] at h
      cases h
  | deleteRecord t rid =>
    refine Performed.of_putFile (fun _ => rfl) hid logging fun a f ctx h => ?_
    cases hr : (s.fhs.file t).deleteRecord rid (perform.ctx s se logging) with
    | error e => simp [hr, Except.map] at h
    | ok r =>
      simp only [hr, Except.map, Except.ok.injEq] at h
      cases h
      exact RmFile.deleteRecord_ctx hr
  | updateRecord t rid buf =>
    refine Performed.of_putFile (fun _ => rfl) hid logging fun a f ctx h => ?_
    cases hr : (s.fhs.file t).updateRecord rid buf (perform.ctx s se logging) with
    | error e => simp [hr, Except.map] at h
    | ok r =>
      simp only [hr, Except.map, Except.ok.injEq] at h
      cases h
      exact RmFile.updateRecord_ctx hr
  | index t ix c => exact .of_same fun _ => rfl
  | appendWriteRecord w =>
    have hsame : Performed s se tid (.appendWriteRecord w) True se s := .of_same fun _ => rfl
    refine { hsame with
      granted := fun _ H hH t w hw => hH t w hw
      writes := fun w' hw' => ?_ }
    rcases List.mem_cons.1 hw' with rfl | h
    · exact .inr rfl
    · exact .inl h

end perform

end Sessions

end Rmdb
