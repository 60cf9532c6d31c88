import Rmdb.Recovery.Replay
import Rmdb.Transaction.Defs

/-!
# A server and its restarts

- `Server`: log, open heap files, files on disk, running transactions and table X locks of one server incarnation, with
  the tagged records of the earlier incarnations as a ghost field;
- `Server.step`: the atomic steps, one per call that logs or changes a page: `begin`, the writes of the executors,
  the parts of `TransactionManager::commit` and `abort`, the buffer pool writing back a page, and the end of the
  incarnation by a crash or a clean close, followed by recovery;
- `Server.history`: every record appended, tagged with the incarnation that wrote it.
-/

namespace Rmdb

open Lib

/-! ## Transactions -/

/-- How far a transaction is in `commit` or `abort`. -/
inductive Phase
  | growing
  | commitLogged
  | commitFlushed
  | abortLogged
  | rollingBack
  deriving DecidableEq

/-- A transaction that has begun and not ended; the last write comes first in `writeSet`. -/
structure Transaction where
  prevLsn : Int
  writeSet : List WriteRecord
  phase : Phase

/-- One turn of the loop in `TransactionManager::abort`; its context has no log manager. -/
def rollbackRecord (fhs : Fhs) : WriteRecord → Except RMDBError Fhs
  | .insertTuple t rid => do
    let _ ← (fhs.file t).getRecord rid
    let (fh, _) ← (fhs.file t).deleteRecord rid none
    return fhs.set t fh
  | .deleteTuple t rid record => do
    let fh ← (fhs.file t).insertRecordAt rid record
    return fhs.set t fh
  | .updateTuple t rid record => do
    let _ ← (fhs.file t).getRecord rid
    let (fh, _) ← (fhs.file t).updateRecord rid record none
    return fhs.set t fh

/-! ## The server -/

/-- A heap file on disk: the header page and the data pages. -/
structure DiskFile where
  hdr : RmFileHdr
  pages : Int → Option RmPage

structure Server where
  logMgr : LogManager
  fhs : Fhs
  disk : TabName → DiskFile
  txns : Int → Option Transaction
  nextTxnId : Int
  xLock : TabName → Option Int
  /-- The number of this incarnation. -/
  epoch : Nat
  /-- The records of `db.log` when it started, with the incarnation of each. -/
  older : List (Nat × LogRecord)

namespace Server

/-- A log that extends the one this incarnation started with, with the incarnation of each record. -/
def tag (s : Server) (log : List LogRecord) : List (Nat × LogRecord) :=
  s.older ++ (log.drop s.older.length).map (s.epoch, ·)

/-- Everything appended so far. -/
def history (s : Server) : List (Nat × LogRecord) := s.tag s.logMgr.stream

/-- What `db.log` holds after a crash that lets `k` buffered records reach it. -/
def durableLog (s : Server) (k : Nat) : List LogRecord := s.logMgr.disk ++ s.logMgr.buffer.take k

def durable (s : Server) (k : Nat) : List (Nat × LogRecord) := s.tag (s.durableLog k)

/-- The files as a new process opens them. -/
def image (s : Server) : Fhs :=
  { names := s.fhs.names
    file := fun t => RmFile.openFile t (s.disk t).hdr (s.disk t).pages }

def setTxn (s : Server) (tid : Int) (txn : Transaction) : Server :=
  { s with txns := Function.update s.txns tid (some txn) }

/-- The last part of `commit` and `abort`: the locks are released and the transaction is over. -/
def endTxn (s : Server) (tid : Int) : Server :=
  { s with
    txns := Function.update s.txns tid none
    xLock := fun t => if s.xLock t = some tid then none else s.xLock t }

/-- Append a record of a transaction that is in phase `p`, and move it to phase `q`. -/
def logPhase (s : Server) (tid : Int) (p q : Phase) (body : LogBody) : Option Server :=
  match s.txns tid with
  | some txn =>
    if txn.phase = p then
      let (lsn, lm) := s.logMgr.addLogToBuffer tid txn.prevLsn body
      some ({ s with logMgr := lm }.setTxn tid { txn with prevLsn := lsn, phase := q })
    else none
  | none => none

/-- Flush the log for a transaction in phase `p`, and move it to phase `q`. -/
def flushPhase (s : Server) (tid : Int) (p q : Phase) : Option Server :=
  match s.txns tid with
  | some txn =>
    if txn.phase = p then some ({ s with logMgr := s.logMgr.flushLogToDisk }.setTxn tid { txn with phase := q })
    else none
  | none => none

/-- What an executor does to one record: the heap operation and the write record it keeps. -/
abbrev HeapWrite := RmFile → Option Context → Except RMDBError (RmFile × Option Context × WriteRecord)

def insertWrite (tabName : TabName) (buf : Bytes) : HeapWrite := fun f ctx => do
  let (rid, f, ctx) ← f.insertRecord buf ctx
  return (f, ctx, .insertTuple tabName rid)

def deleteWrite (tabName : TabName) (rid : Rid) : HeapWrite := fun f ctx => do
  let record ← f.getRecord rid
  let (f, ctx) ← f.deleteRecord rid ctx
  return (f, ctx, .deleteTuple tabName rid record)

def updateWrite (tabName : TabName) (rid : Rid) (buf : Bytes) : HeapWrite := fun f ctx => do
  let record ← f.getRecord rid
  let (f, ctx) ← f.updateRecord rid buf ctx
  return (f, ctx, .updateTuple tabName rid record)

/-- A write of a transaction that holds the X lock of the table. -/
def write (s : Server) (tid : Int) (tabName : TabName) (op : HeapWrite) : Option Server :=
  match s.txns tid with
  | some txn =>
    if txn.phase = .growing ∧ tabName ∈ s.fhs.names ∧ s.xLock tabName = some tid then
      match op (s.fhs.file tabName) (some ⟨s.logMgr, tid, txn.prevLsn⟩) with
      | .ok (f, some ctx, w) =>
        some ({ s with logMgr := ctx.logMgr, fhs := s.fhs.set tabName f }.setTxn tid
          { txn with prevLsn := ctx.prevLsn, writeSet := w :: txn.writeSet })
      | _ => none
    else none
  | none => none

/-- `update_page` and `flush_page` for a page of an open file: the log goes first. -/
def writeBack (s : Server) (tabName : TabName) (pageNo : Int) : Option Server :=
  match (s.fhs.file tabName).pages pageNo with
  | some page =>
    let lm := if page.pageLsn > s.logMgr.persistLsn then s.logMgr.flushLogToDisk else s.logMgr
    some { s with
      logMgr := lm
      disk := Function.update s.disk tabName
        { s.disk tabName with pages := Function.update (s.disk tabName).pages pageNo (some page) } }
  | none => none

/-- A new process on the given log and files: recovery, after which all files are written to disk. -/
def restart (s : Server) (log : List LogRecord) (image : Fhs) : Except RMDBError Server :=
  (recover log image).map fun fhs =>
    { logMgr := (LogManager.start log).afterAnalyze
      fhs := fhs
      disk := fun t => ⟨(fhs.file t).fileHdr, (fhs.file t).pages⟩
      txns := fun _ => none
      nextTxnId := 0
      xLock := fun _ => none
      epoch := s.epoch + 1
      older := s.tag log }

/-- A crash and the next start. -/
def crash (s : Server) (k : Nat) : Except RMDBError Server := s.restart (s.durableLog k) s.image

/-- `close_db` after `sigint_handler`: the log, then every file with its header; and the next start. -/
def close (s : Server) : Except RMDBError Server :=
  s.restart s.logMgr.flushLogToDisk.disk
    { names := s.fhs.names
      file := fun t => RmFile.openFile t (s.fhs.file t).fileHdr (s.fhs.file t).pages }

inductive Action
  | begin
  | lock (tid : Int) (tabName : TabName)
  | insert (tid : Int) (tabName : TabName) (buf : Bytes)
  | delete (tid : Int) (tabName : TabName) (rid : Rid)
  | update (tid : Int) (tabName : TabName) (rid : Rid) (buf : Bytes)
  | logCommit (tid : Int)
  | flushCommit (tid : Int)
  | endCommit (tid : Int)
  | logAbort (tid : Int)
  | flushAbort (tid : Int)
  | rollback (tid : Int)
  | endAbort (tid : Int)
  | flushLog
  | writeBack (tabName : TabName) (pageNo : Int)
  | crash (k : Nat)
  | close

/-- `TransactionManager::begin`. -/
def beginTxn (s : Server) : Server :=
  let (lsn, lm) := s.logMgr.addLogToBuffer s.nextTxnId invalidLsn .begin
  { s with logMgr := lm, nextTxnId := s.nextTxnId + 1 }.setTxn s.nextTxnId ⟨lsn, [], .growing⟩

/-- The rids that the executors pass are those of a scan. -/
def InRange (s : Server) (tabName : TabName) (rid : Rid) : Prop :=
  1 ≤ rid.pageNo ∧ 0 ≤ rid.slotNo ∧ rid.slotNo < (s.fhs.file tabName).fileHdr.numRecordsPerPage

instance (s : Server) (tabName : TabName) (rid : Rid) : Decidable (s.InRange tabName rid) :=
  inferInstanceAs (Decidable (_ ∧ _ ∧ _))

/-- The next state, if the step can be taken. -/
def step (s : Server) : Action → Option Server
  | .begin => some s.beginTxn
  | .lock tid tabName =>
    match s.txns tid with
    | some txn =>
      if txn.phase = .growing ∧ (s.xLock tabName = none ∨ s.xLock tabName = some tid) then
        some { s with xLock := Function.update s.xLock tabName (some tid) }
      else none
    | none => none
  | .insert tid tabName buf => s.write tid tabName (insertWrite tabName buf)
  | .delete tid tabName rid => if s.InRange tabName rid then s.write tid tabName (deleteWrite tabName rid) else none
  | .update tid tabName rid buf =>
    if s.InRange tabName rid then s.write tid tabName (updateWrite tabName rid buf) else none
  | .logCommit tid => s.logPhase tid .growing .commitLogged .commit
  | .flushCommit tid => s.flushPhase tid .commitLogged .commitFlushed
  | .endCommit tid => if (s.txns tid).map (·.phase) = some .commitFlushed then some (s.endTxn tid) else none
  | .logAbort tid => s.logPhase tid .growing .abortLogged .abort
  | .flushAbort tid => s.flushPhase tid .abortLogged .rollingBack
  | .rollback tid =>
    match s.txns tid with
    | some ⟨prevLsn, w :: writeSet, .rollingBack⟩ =>
      match rollbackRecord s.fhs w with
      | .ok fhs => some ({ s with fhs := fhs }.setTxn tid ⟨prevLsn, writeSet, .rollingBack⟩)
      | .error _ => none
    | _ => none
  | .endAbort tid =>
    match s.txns tid with
    | some ⟨_, [], .rollingBack⟩ => some (s.endTxn tid)
    | _ => none
  | .flushLog => some { s with logMgr := s.logMgr.flushLogToDisk }
  | .writeBack tabName pageNo => if tabName ∈ s.fhs.names then s.writeBack tabName pageNo else none
  | .crash k => (s.crash k).toOption
  | .close => s.close.toOption

/-- A new database with freshly created tables. -/
def init (names : List TabName) (recordSize : TabName → Int) : Server where
  logMgr := LogManager.start []
  fhs := { names := names, file := fun t => RmFile.openFile t (RmFileHdr.create (recordSize t)) fun _ => none }
  disk := fun t => ⟨RmFileHdr.create (recordSize t), fun _ => none⟩
  txns := fun _ => none
  nextTxnId := 0
  xLock := fun _ => none
  epoch := 0
  older := []

end Server

/-! ## Instances of transactions -/

/-- A transaction id and the incarnation that used it. -/
abbrev Instance := Nat × Int

def inst (x : Nat × LogRecord) : Instance := (x.1, x.2.logTid)

/-- The transaction's COMMIT record is in the log. -/
def committed (G : List (Nat × LogRecord)) (i : Instance) : Bool :=
  G.any fun x => inst x == i && x.2.body == .commit

/-- The writes to a slot, with the transaction of each. -/
def tagLog (G : List (Nat × LogRecord)) (t : TabName) (ρ : Rid) : List (Instance × SlotWrite Bytes) :=
  G.filterMap fun x => (x.2.body.writeOn t ρ).map (inst x, ·)

/-- The record in a slot after the committed writes of a log. -/
def committedRecord (G : List (Nat × LogRecord)) (t : TabName) (ρ : Rid) : Option Bytes :=
  replay ((G.filter fun x => committed G (inst x)).map (·.2)) t ρ

end Rmdb
