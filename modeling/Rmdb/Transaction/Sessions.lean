import Rmdb.Execution.Scans
import Rmdb.Recovery.LogRecovery
import Rmdb.Transaction.LockManager

/-!
# Sessions

- `Sessions`: what the client threads of one server share, and where each of them is;
- `Sessions.perform`: one call of an executor. What an index answers is left open; the heap files are those of
  `FileHandle`;
- `Sessions.step`: one atomic step of one thread: a call of its statement, or the next step of
  `TransactionManager::commit` or `abort`;
- `history` is a ghost field: every access to a table, in order.
-/

namespace Rmdb

open Lib

/-- Where a thread is. -/
inductive Pc
  | idle
  | stmt (p : Exec Unit)
  /-- `client_handler` has caught a `TransactionAbortException`. -/
  | aborting
  | commitLogged
  | abortLogged
  /-- At the head of the loop over the write set in `abort`. -/
  | rollback
  /-- In the body of that loop, for the last write record. -/
  | undoing (p : Exec Unit)
  /-- In the loop that releases the locks; the transaction ends in the state given. -/
  | unlocking (locks : List LockDataId) (final : TransactionState)

/-- A thread with its transaction; the last write comes first in `writeSet`. -/
structure Session where
  owner : LockOwner
  prevLsn : Int
  writeSet : List WriteRecord
  pc : Pc
  /-- `abort` has rolled back every write of the transaction. -/
  rolledBack : Bool

structure Access where
  txnId : Int
  tabName : TabName
  write : Bool
  deriving DecidableEq, Repr

structure Sessions where
  logMgr : LogManager
  fhs : Fhs
  db : TabName → Option TabMeta
  /-- The descriptor of each table's data file. -/
  fd : TabName → Int
  lockMgr : LockManager
  sessions : Int → Option Session
  nextTxnId : Int
  history : List Access
  /-- How many records were in the log when the server started; its own come after them. -/
  base : Nat

/-! ## Calls -/

def IxCall.writes : IxCall → Bool
  | .insertEntry _ _ | .deleteEntry _ => true
  | _ => false

/-- The table whose rows or indexes a call touches, and whether it changes them. -/
def Call.access : Call → Option (TabName × Bool)
  | .lockSharedOnTable _ | .lockExclusiveOnTable _ | .getTable _ | .appendWriteRecord _ => none
  | .fileHdr t | .fetchPageHandle t _ | .getRecord t _ => some (t, false)
  | .insertRecord t _ | .insertRecordAt t _ _ | .deleteRecord t _ | .updateRecord t _ _ => some (t, true)
  | .index t _ c => some (t, c.writes)

/-- What the index files answer. -/
abbrev IxAnswers := (c : IxCall) → Except Exn c.Resp

namespace Sessions

/-- Lock the whole of a table. -/
def lockTable (s : Sessions) (se : Session) (tabName : TabName) (mode : LockMode) :
    Except Exn Unit × Session × Sessions :=
  let (res, owner, lm) := s.lockMgr.acquireLock se.owner (.table (s.fd tabName)) mode
  ((match res with
    | .ok _ => .ok ()
    | .error e => .error (.abort e)), { se with owner := owner }, { s with lockMgr := lm })

/-- The result of a write to a data file. -/
def putFile {α : Type} (s : Sessions) (se : Session) (tabName : TabName)
    (res : Except RMDBError (α × RmFile × Option Context)) : Except Exn α × Session × Sessions :=
  match res with
  | .error e => (.error (.rmdb e), se, s)
  | .ok (a, f, none) => (.ok a, se, { s with fhs := s.fhs.set tabName f })
  | .ok (a, f, some ctx) =>
    (.ok a, { se with prevLsn := ctx.prevLsn }, { s with fhs := s.fhs.set tabName f, logMgr := ctx.logMgr })

/-- One call. Executors log what they write; `abort` has a context without a log manager. -/
def perform (s : Sessions) (se : Session) (logging : Bool) (answers : IxAnswers) :
    (c : Call) → Except Exn c.Resp × Session × Sessions
  | .lockSharedOnTable t => s.lockTable se t .shared
  | .lockExclusiveOnTable t => s.lockTable se t .exlucsive
  | .getTable t =>
    match s.db t with
    | some tab => (.ok tab, se, s)
    | none => (.error (.rmdb (.tableNotFound t)), se, s)
  | .fileHdr t => (.ok (s.fhs.file t).fileHdr, se, s)
  | .fetchPageHandle t pageNo => (((s.fhs.file t).fetchPageHandle pageNo).mapError .rmdb, se, s)
  | .getRecord t rid => (((s.fhs.file t).getRecord rid).mapError .rmdb, se, s)
  | .insertRecord t buf => s.putFile se t ((s.fhs.file t).insertRecord buf (ctx logging))
  | .insertRecordAt t rid buf => s.putFile se t (((s.fhs.file t).insertRecordAt rid buf).map ((), ·, none))
  | .deleteRecord t rid => s.putFile se t (((s.fhs.file t).deleteRecord rid (ctx logging)).map ((), ·))
  | .updateRecord t rid buf => s.putFile se t (((s.fhs.file t).updateRecord rid buf (ctx logging)).map ((), ·))
  | .index _ _ c => (answers c, se, s)
  | .appendWriteRecord w => (.ok (), { se with writeSet := w :: se.writeSet }, s)
where
  ctx : Bool → Option Context
    | true => some ⟨s.logMgr, se.owner.txnId, se.prevLsn⟩
    | false => none

/-! ## Steps -/

def setSession (s : Sessions) (tid : Int) (se : Session) : Sessions :=
  { s with sessions := Function.update s.sessions tid (some se) }

/-- Append a record of a transaction to the log. -/
def logRecord (s : Sessions) (tid : Int) (se : Session) (body : LogBody) (pc : Pc) : Sessions :=
  let (lsn, lm) := s.logMgr.addLogToBuffer tid se.prevLsn body
  { s with logMgr := lm }.setSession tid { se with prevLsn := lsn, pc := pc }

def flush (s : Sessions) : Sessions := { s with logMgr := s.logMgr.flushLogToDisk }

/-- Add an access to the history. -/
def note (s : Sessions) (tid : Int) (c : Call) : Sessions :=
  match c.access with
  | some (t, w) => { s with history := s.history ++ [⟨tid, t, w⟩] }
  | none => s

/-- The transaction is over. -/
def ended (se : Session) : Bool := se.owner.state == .committed || se.owner.state == .aborted

/-- The rest of a program after a call; no executor catches an error. -/
def resume {α : Type} (k : α → Exec Unit) : Except Exn α → Exec Unit
  | .ok a => k a
  | .error e => .throw e

/-- The next call of a program. -/
def execCall (s : Sessions) (tid : Int) (se : Session) (logging : Bool) (answers : IxAnswers) (next : Exec Unit → Pc)
    (c : Call) (k : c.Resp → Exec Unit) : Sessions :=
  let (res, se, s) := s.perform se logging answers c
  (s.note tid c).setSession tid { se with pc := next (resume k res) }

/-- The next step of a statement, or of a turn of the loop in `abort`. -/
def exec (s : Sessions) (tid : Int) (answers : IxAnswers) : Option Sessions := do
  let se ← s.sessions tid
  match se.pc with
  | .stmt (.call c k) => some (s.execCall tid se true answers .stmt c k)
  | .stmt (.ret _) | .stmt (.throw (.rmdb _)) => some (s.setSession tid { se with pc := .idle })
  | .stmt (.throw (.abort _)) => some (s.setSession tid { se with pc := .aborting })
  | .undoing (.call c k) => some (s.execCall tid se false answers .undoing c k)
  | .undoing (.ret _) => some (s.setSession tid { se with writeSet := se.writeSet.tail, pc := .rollback })
  | .undoing (.throw (.rmdb _)) => some (s.setSession tid { se with pc := .idle })
  | _ => none

/-- The next step of `commit` or `abort`. -/
def advance (s : Sessions) (tid : Int) : Option Sessions := do
  let se ← s.sessions tid
  match se.pc with
  | .commitLogged => some (s.flush.setSession tid { se with pc := .unlocking se.owner.lockSet .committed })
  | .abortLogged => some (s.flush.setSession tid { se with pc := .rollback })
  | .rollback =>
    match se.writeSet with
    | w :: _ => some (s.setSession tid { se with pc := .undoing (rollbackWrite w) })
    | [] =>
      some (s.setSession tid { se with pc := .unlocking se.owner.lockSet .aborted, rolledBack := true })
  | .unlocking (id :: locks) final =>
    let (_, owner, lm) := s.lockMgr.unlock se.owner id
    some ({ s with lockMgr := lm }.setSession tid { se with owner := owner, pc := .unlocking locks final })
  | .unlocking [] final =>
    some (s.setSession tid
      { se with owner := { se.owner with state := final, lockSet := [] }, writeSet := [], pc := .idle })
  | _ => none

inductive Action
  | begin
  | start (tid : Int) (fuel : Nat) (stmt : Stmt)
  | exec (tid : Int) (answers : IxAnswers)
  | commit (tid : Int)
  | abort (tid : Int)
  | advance (tid : Int)
  /-- The buffer pool flushes the log before it writes a page. -/
  | flushLog

/-- `TransactionManager::begin`. -/
def beginTxn (s : Sessions) : Sessions :=
  let (lsn, lm) := s.logMgr.addLogToBuffer s.nextTxnId invalidLsn .begin
  { s with logMgr := lm, nextTxnId := s.nextTxnId + 1 }.setSession s.nextTxnId
    ⟨⟨s.nextTxnId, .default, []⟩, lsn, [], .idle, false⟩

/-- A thread between two statements. -/
def idle (se : Session) : Bool :=
  match se.pc with
  | .idle => true
  | _ => false

def caughtAbort (se : Session) : Bool :=
  match se.pc with
  | .aborting => true
  | _ => false

/-- The next state, if the step can be taken. `SetTransaction` starts no statement in a transaction that is over;
`client_handler` may commit a transaction it has just aborted. -/
def step (s : Sessions) : Action → Option Sessions
  | .begin => some s.beginTxn
  | .start tid fuel stmt => do
    let se ← s.sessions tid
    if idle se && !ended se then some (s.setSession tid { se with pc := .stmt (stmt.prog fuel) }) else none
  | .exec tid answers => s.exec tid answers
  | .commit tid => do
    let se ← s.sessions tid
    if idle se then some (s.logRecord tid se .commit .commitLogged) else none
  | .abort tid => do
    let se ← s.sessions tid
    if (idle se && !ended se) || caughtAbort se then some (s.logRecord tid se .abort .abortLogged) else none
  | .advance tid => s.advance tid
  | .flushLog => some s.flush

def run (s : Sessions) : List Action → Option Sessions
  | [] => some s
  | a :: as => (s.step a).bind (·.run as)

/-- A server that has just opened its tables, over an existing log. -/
def init (lm : LogManager) (fhs : Fhs) (db : TabName → Option TabMeta) (fd : TabName → Int) : Sessions where
  logMgr := lm
  fhs := fhs
  db := db
  fd := fd
  lockMgr := ⟨fun _ => none⟩
  sessions := fun _ => none
  nextTxnId := 0
  history := []
  base := lm.stream.length

end Sessions

end Rmdb
