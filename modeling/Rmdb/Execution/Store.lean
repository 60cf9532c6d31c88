import Rmdb.Execution.Dml
import Rmdb.Record.HeapMap
import Rmdb.Transaction.Sessions

/-!
# Statements on a database

- `Store`: the tables, their indexes and the transactions of a server. An index is a map from key to rid; a heap file is
  whatever has the operations of `HeapOps`;
- `Store.handle`: what one call of an executor answers and changes;
- `Store.exec`: an INSERT, UPDATE or DELETE of a transaction, run to its end or to its error;
- `Store.beginTxn`, `commit`, `abort` and `createIndex`, as `TransactionManager` and `SmManager` have them.
-/

namespace Rmdb

open Lib

/-- What an index holds. -/
abbrev IxMap := Bytes → Option Rid

/-- A transaction; the last write comes first in `writeSet`. -/
structure Txn where
  owner : LockOwner
  prevLsn : Int
  writeSet : List WriteRecord

structure Store (H : Type) where
  logMgr : LogManager
  fhs : TabName → H
  /-- The descriptor of each table's data file. -/
  fd : TabName → Int
  db : TabName → Option TabMeta
  /-- The open indexes, by file name. -/
  ihs : String → Option IxMap
  /-- The index files on disk. -/
  isFile : String → Bool
  lockMgr : LockManager
  txns : Int → Option Txn
  nextTxnId : Int

/-- A statement with the rids that its scan has found. -/
inductive Dml
  | insert (tabName : TabName) (values : List Value)
  | delete (tabName : TabName) (rids : List Rid)
  | update (tabName : TabName) (setClauses : List SetClause) (rids : List Rid)

/-- The executor of a statement; the scan has locked the table before. -/
def Dml.prog : Dml → Exec Unit
  | .insert tabName values => do
    let ex ← InsertExecutor.new tabName values
    ex.next
  | .delete tabName rids => do
    Exec.lockSharedOnTable tabName
    let ex ← DeleteExecutor.new tabName rids
    ex.next
  | .update tabName setClauses rids => do
    Exec.lockSharedOnTable tabName
    let ex ← UpdateExecutor.new tabName setClauses rids
    ex.next

/-- A call on an index; what the positions of a scan are is left open. -/
def IxCall.perform (answers : IxAnswers) : (c : IxCall) → IxMap → Except Exn c.Resp × IxMap
  | .getValue key, ix => (.ok (ix key), ix)
  | .insertEntry key rid, ix => (.ok (), if ix key = none then Function.update ix key (some rid) else ix)
  | .deleteEntry key, ix => (.ok (ix key).isSome, Function.update ix key none)
  | .lowerBound key, ix => (answers (.lowerBound key), ix)
  | .upperBound key, ix => (answers (.upperBound key), ix)
  | .scanNext iid, ix => (answers (.scanNext iid), ix)
  | .getRid iid, ix => (answers (.getRid iid), ix)

namespace Store

variable {H : Type}

/-! ## Calls -/

section calls
variable (ops : HeapOps H)

/-- Lock the whole of a table. -/
def lockTable (s : Store H) (x : Txn) (tabName : TabName) (mode : LockMode) : Except Exn Unit × Store H × Txn :=
  let (res, owner, lm) := s.lockMgr.acquireLock x.owner (.table (s.fd tabName)) mode
  ((match res with
    | .ok _ => .ok ()
    | .error e => .error (.abort e)), { s with lockMgr := lm }, { x with owner := owner })

/-- The result of a write to a data file. -/
def putFile {α : Type} (s : Store H) (x : Txn) (tabName : TabName)
    (res : Except RMDBError (α × H × Option Context)) : Except Exn α × Store H × Txn :=
  match res with
  | .error e => (.error (.rmdb e), s, x)
  | .ok (a, h, none) => (.ok a, { s with fhs := Function.update s.fhs tabName h }, x)
  | .ok (a, h, some ctx) =>
    (.ok a, { s with fhs := Function.update s.fhs tabName h, logMgr := ctx.logMgr }, { x with prevLsn := ctx.prevLsn })

/-- The context of a call; `abort` has one without a log manager. -/
def context (s : Store H) (x : Txn) : Bool → Option Context
  | true => some ⟨s.logMgr, x.owner.txnId, x.prevLsn⟩
  | false => none

def handle (logging : Bool) (answers : IxAnswers) :
    (c : Call) → Store H × Txn → Except Exn c.Resp × Store H × Txn
  | .lockSharedOnTable t, (s, x) => s.lockTable x t .shared
  | .lockExclusiveOnTable t, (s, x) => s.lockTable x t .exlucsive
  | .getTable t, (s, x) =>
    match s.db t with
    | some tab => (.ok tab, s, x)
    | none => (.error (.rmdb (.tableNotFound t)), s, x)
  | .fileHdr t, (s, x) => (.ok (ops.fileHdr (s.fhs t)), s, x)
  | .fetchPageHandle t pageNo, (s, x) => ((ops.fetchPageHandle (s.fhs t) pageNo).mapError .rmdb, s, x)
  | .getRecord t rid, (s, x) => ((ops.getRecord (s.fhs t) rid).mapError .rmdb, s, x)
  | .insertRecord t buf, (s, x) => s.putFile x t (ops.insertRecord (s.fhs t) buf (s.context x logging))
  | .insertRecordAt t rid buf, (s, x) => s.putFile x t ((ops.insertRecordAt (s.fhs t) rid buf).map ((), ·, none))
  | .deleteRecord t rid, (s, x) =>
    s.putFile x t ((ops.deleteRecord (s.fhs t) rid (s.context x logging)).map ((), ·))
  | .updateRecord t rid buf, (s, x) =>
    s.putFile x t ((ops.updateRecord (s.fhs t) rid buf (s.context x logging)).map ((), ·))
  | .index t index c, (s, x) =>
    match s.ihs (getIndexName t index.cols) with
    | none => (.error .halt, s, x)
    | some ix =>
      let (res, ix) := c.perform answers ix
      (res, { s with ihs := Function.update s.ihs (getIndexName t index.cols) (some ix) }, x)
  | .appendWriteRecord w, (s, x) => (.ok (), s, { x with writeSet := w :: x.writeSet })

end calls

/-! ## Transactions -/

def setTxn (s : Store H) (tid : Int) (x : Txn) : Store H := { s with txns := Function.update s.txns tid (some x) }

/-- The transaction is over. -/
def ended (x : Txn) : Bool := x.owner.state == .committed || x.owner.state == .aborted

/-- `TransactionManager::begin`. -/
def beginTxn (s : Store H) : Store H :=
  let (lsn, lm) := s.logMgr.addLogToBuffer s.nextTxnId invalidLsn .begin
  { s with logMgr := lm, nextTxnId := s.nextTxnId + 1 }.setTxn s.nextTxnId ⟨⟨s.nextTxnId, .default, []⟩, lsn, []⟩

/-- A statement of a transaction that is not over; what it has done when it fails stays done. -/
def exec (ops : HeapOps H) (answers : IxAnswers) (s : Store H) (tid : Int) (d : Dml) : Except Exn Unit × Store H :=
  match s.txns tid with
  | none => (.ok (), s)
  | some x =>
    if ended x then (.ok (), s)
    else
      let (res, s, x) := d.prog.run (handle ops true answers) (s, x)
      (res, s.setTxn tid x)

/-- The statements of a transaction, one after another; the client goes on after an error. -/
def execAll (ops : HeapOps H) (answers : IxAnswers) (tid : Int) : List Dml → Store H → Store H
  | [], s => s
  | d :: ds, s => execAll ops answers tid ds (s.exec ops answers tid d).2

/-- Log the end of a transaction and flush the log. -/
def logEnd (s : Store H) (x : Txn) (body : LogBody) : Store H × Txn :=
  let (lsn, lm) := s.logMgr.addLogToBuffer x.owner.txnId x.prevLsn body
  ({ s with logMgr := lm.flushLogToDisk }, { x with prevLsn := lsn })

/-- The loop that releases the locks. -/
def unlockAll : List LockDataId → Store H → Txn → Store H × Txn
  | [], s, x => (s, x)
  | id :: ids, s, x =>
    let (_, owner, lm) := s.lockMgr.unlock x.owner id
    unlockAll ids { s with lockMgr := lm } { x with owner := owner }

/-- The end that `commit` and `abort` share. -/
def finish (s : Store H) (tid : Int) (x : Txn) (final : TransactionState) : Store H :=
  let (s, x) := unlockAll x.owner.lockSet s x
  s.setTxn tid { x with owner := { x.owner with lockSet := [], state := final }, writeSet := [] }

/-- `TransactionManager::commit`. -/
def commit (s : Store H) (tid : Int) : Store H :=
  match s.txns tid with
  | none => s
  | some x =>
    let (s, x) := s.logEnd x .commit
    s.finish tid x .committed

/-- The loop over the write set in `abort`; an exception ends it. -/
def rollback (ops : HeapOps H) (answers : IxAnswers) : List WriteRecord → Store H → Txn → Except Exn Unit × Store H × Txn
  | [], s, x => (.ok (), s, x)
  | w :: ws, s, x =>
    match (rollbackWrite w).run (handle ops false answers) (s, x) with
    | (.ok _, s, x) => rollback ops answers ws s { x with writeSet := ws }
    | (.error e, s, x) => (.error e, s, x)

/-- `TransactionManager::abort`. -/
def abort (ops : HeapOps H) (answers : IxAnswers) (s : Store H) (tid : Int) : Except Exn Unit × Store H :=
  match s.txns tid with
  | none => (.ok (), s)
  | some x =>
    let (s, x) := s.logEnd x .abort
    match rollback ops answers x.writeSet s x with
    | (.error e, s, x) => (.error e, s.setTxn tid x)
    | (.ok _, s, x) => (.ok (), s.finish tid x .aborted)

/-! ## CREATE INDEX -/

/-- The loop over the records; `none` at the second record with one key. -/
def buildIndex (ops : HeapOps H) (h : H) (cols : List ColMeta) : List Rid → IxMap → Except RMDBError (Option IxMap)
  | [], ix => .ok (some ix)
  | rid :: rids, ix => do
    let data ← ops.getRecord h rid
    let key := makeKey cols data
    if (ix key).isSome then return none
    else buildIndex ops h cols rids (Function.update ix key (some rid))

/-- `SmManager::create_index`; `scan` gives what `RmScan` delivers. The file of an index that is refused for its length
stays on disk. -/
def createIndex (ops : HeapOps H) (scan : H → List Rid) (s : Store H) (tabName : TabName) (colNames : List String) :
    Except Exn Unit × Store H :=
  match s.db tabName with
  | none => (.error (.rmdb (.tableNotFound tabName)), s)
  | some tab =>
    if tab.isIndex colNames then (.error (.rmdb (.indexExists tabName colNames)), s)
    else
      match colNames.mapM tab.getCol with
      | .error e => (.error (.rmdb e), s)
      | .ok cols =>
        let name := getIndexName tabName cols
        if s.isFile name then (.error (.rmdb (.fileExists name)), s)
        else
          let created := { s with isFile := Function.update s.isFile name true }
          if ixMaxColLen < colTotLen cols then (.error (.rmdb (.invalidColLength (colTotLen cols))), created)
          else
            match buildIndex ops (s.fhs tabName) cols (scan (s.fhs tabName)) fun _ => none with
            | .error e => (.error (.rmdb e), created)
            | .ok none => (.error (.rmdb (duplicateError tabName)), s)
            | .ok (some ix) =>
              let index : IndexMeta := ⟨tabName, colTotLen cols, cols.length, cols⟩
              (.ok (), { created with
                db := Function.update s.db tabName (some { tab with indexes := tab.indexes ++ [index] })
                ihs := Function.update s.ihs name (some ix) })

end Store

end Rmdb
