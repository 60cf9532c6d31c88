import Rmdb.Lib.SlotLog
import Rmdb.Record.FreeList

/-!
# Recovery

- `analyze`, `redo` and `undo` of `log_recovery.cpp`, over the records of `db.log` and the open heap files `fhs_`;
- the index maintenance inside `redo` and `undo` works on the index files only and its exceptions are swallowed, so the
  heap files do not depend on it and it is left out here;
- `writeOn`, `slotLog` and `replay`: what a log says about one slot.
-/

namespace Rmdb

open Lib

/-! ## The open tables -/

/-- `SmManager::fhs_`. -/
structure Fhs where
  names : List TabName
  file : TabName → RmFile

namespace Fhs

def set (fhs : Fhs) (tabName : TabName) (fh : RmFile) : Fhs :=
  { fhs with file := Function.update fhs.file tabName fh }

/-- Work on the file of a table; a name without a file is skipped. -/
def modify (fhs : Fhs) (tabName : TabName) (k : RmFile → Except RMDBError RmFile) : Except RMDBError Fhs :=
  if tabName ∈ fhs.names then (k (fhs.file tabName)).map (fhs.set tabName) else .ok fhs

def recordAt (fhs : Fhs) (tabName : TabName) (rid : Rid) : Option Bytes := (fhs.file tabName).recordAt rid

end Fhs

/-! ## Analyze -/

/-- The transaction sets of `RecoveryManager`. -/
structure TxnSets where
  active : Int → Bool
  committed : Int → Bool
  aborted : Int → Bool

def TxnSets.empty : TxnSets := ⟨fun _ => false, fun _ => false, fun _ => false⟩

/-- One record of the loop in `analyze`. -/
def TxnSets.scan (a : TxnSets) (r : LogRecord) : TxnSets :=
  match r.body with
  | .begin => { a with active := Function.update a.active r.logTid true }
  | .commit =>
    { a with
      active := Function.update a.active r.logTid false
      committed := Function.update a.committed r.logTid true }
  | .abort =>
    { a with
      active := Function.update a.active r.logTid false
      aborted := Function.update a.aborted r.logTid true }
  | .insert .. | .delete .. | .update .. =>
    if a.committed r.logTid || a.aborted r.logTid then a
    else { a with active := Function.update a.active r.logTid true }

def analyze (log : List LogRecord) : TxnSets := log.foldl TxnSets.scan TxnSets.empty

/-- `max_lsn`. -/
def maxLsn (log : List LogRecord) : Int := log.foldl (fun m r => if r.lsn > m then r.lsn else m) invalidLsn

/-- `set_global_lsn` and `set_persist_lsn` at the end of `analyze`. -/
def LogManager.afterAnalyze (lm : LogManager) : LogManager :=
  if maxLsn lm.disk ≠ invalidLsn then
    { lm with globalLsn := maxLsn lm.disk + 1, persistLsn := maxLsn lm.disk }
  else lm

/-- The transactions that `undo` takes back. -/
def TxnSets.loser (a : TxnSets) (tid : Int) : Bool := a.active tid || a.aborted tid

/-! ## Redo -/

namespace RmFile

/-- "Extend file if needed"; `k` bounds the pages still to be created. -/
def extend (pageNo : Int) : Nat → RmFile → RmFile
  | 0, f => f
  | k + 1, f =>
    if pageNo ≥ f.fileHdr.numPages then
      let (newPageNo, page, f) := f.createNewPageHandle
      extend pageNo k (f.setPage newPageNo page)
    else f

def extendTo (f : RmFile) (pageNo : Int) : RmFile := extend pageNo (pageNo - f.fileHdr.numPages + 1).toNat f

/-- `set_page_lsn` on a page fetched again. -/
def stampPage (f : RmFile) (pageNo lsn : Int) : Except RMDBError RmFile :=
  (f.bpmFetch pageNo).map fun page => f.setPage pageNo (page.stamp lsn)

/-- Run `k` and stamp the page if the page is older than the log record. -/
def redoOn (f : RmFile) (lsn : Int) (pageNo : Int) (k : RmFile → Except RMDBError RmFile) :
    Except RMDBError RmFile := do
  let page ← f.bpmFetch pageNo
  if page.pageLsn < lsn then (← k f).stampPage pageNo lsn else return f

def redoInsert (f : RmFile) (lsn : Int) (rid : Rid) (insertValue : Bytes) : Except RMDBError RmFile :=
  (f.extendTo rid.pageNo).redoOn lsn rid.pageNo (·.insertRecordAt rid insertValue)

/-- An exception of `delete_record` is caught. -/
def redoDelete (f : RmFile) (lsn : Int) (rid : Rid) : Except RMDBError RmFile :=
  f.redoOn lsn rid.pageNo fun f => .ok (((f.deleteRecord rid none).map (·.1)).toOption.getD f)

def redoUpdate (f : RmFile) (lsn : Int) (rid : Rid) (newValue : Bytes) : Except RMDBError RmFile :=
  f.redoOn lsn rid.pageNo fun f => (f.updateRecord rid newValue none).map (·.1)

end RmFile

def redoRecord (fhs : Fhs) (r : LogRecord) : Except RMDBError Fhs :=
  match r.body with
  | .insert v rid t => fhs.modify t (·.redoInsert r.lsn rid v)
  | .delete _ rid t => fhs.modify t (·.redoDelete r.lsn rid)
  | .update _ v rid t => fhs.modify t (·.redoUpdate r.lsn rid v)
  | .begin | .commit | .abort => .ok fhs

def redo (log : List LogRecord) (fhs : Fhs) : Except RMDBError Fhs := log.foldlM redoRecord fhs

/-! ## Undo -/

namespace RmFile

def undoInsert (f : RmFile) (rid : Rid) : Except RMDBError RmFile := do
  if ← f.isRecord rid then (f.deleteRecord rid none).map (·.1) else return f

def undoDelete (f : RmFile) (rid : Rid) (deleteValue : Bytes) : Except RMDBError RmFile := do
  if ← f.isRecord rid then return f else f.insertRecordAt rid deleteValue

def undoUpdate (f : RmFile) (rid : Rid) (oldValue : Bytes) : Except RMDBError RmFile := do
  if ← f.isRecord rid then (f.updateRecord rid oldValue none).map (·.1) else return f

end RmFile

def undoRecord (a : TxnSets) (fhs : Fhs) (r : LogRecord) : Except RMDBError Fhs :=
  if a.loser r.logTid then
    match r.body with
    | .insert _ rid t => fhs.modify t (·.undoInsert rid)
    | .delete v rid t => fhs.modify t (·.undoDelete rid v)
    | .update v _ rid t => fhs.modify t (·.undoUpdate rid v)
    | .begin | .commit | .abort => .ok fhs
  else .ok fhs

/-- The loop over the log, last record first. -/
def undoLog (a : TxnSets) (log : List LogRecord) (fhs : Fhs) : Except RMDBError Fhs :=
  log.reverse.foldlM (undoRecord a) fhs

/-- The free lists of all tables. -/
def rebuildFreeLists (fhs : Fhs) : Except RMDBError Fhs :=
  fhs.names.foldlM (fun fhs t => fhs.modify t (·.rebuildFreeList)) fhs

def undo (a : TxnSets) (log : List LogRecord) (fhs : Fhs) : Except RMDBError Fhs := do
  rebuildFreeLists (← undoLog a log fhs)

/-- `analyze`, `redo` and `undo` on the log of `lm` and the files just opened. -/
def recover (log : List LogRecord) (fhs : Fhs) : Except RMDBError Fhs := do
  undo (analyze log) log (← redo log fhs)

/-! ## What a log says about a slot -/

/-- The slot a record writes, and what it writes. -/
def LogBody.target : LogBody → Option (TabName × Rid × SlotWrite Bytes)
  | .insert v rid t => some (t, rid, .insert v)
  | .delete v rid t => some (t, rid, .delete v)
  | .update o n rid t => some (t, rid, .update o n)
  | .begin | .commit | .abort => none

/-- The write a record makes to a given slot. -/
def LogBody.writeOn (t : TabName) (rid : Rid) (body : LogBody) : Option (SlotWrite Bytes) :=
  body.target.bind fun x => if x.1 = t ∧ x.2.1 = rid then some x.2.2 else none

/-- The writes to a slot. -/
def slotLog (log : List LogRecord) (t : TabName) (rid : Rid) : List (SlotWrite Bytes) :=
  log.filterMap (·.body.writeOn t rid)

/-- The record in a slot after all writes of the log, on empty tables. -/
def replay (log : List LogRecord) (t : TabName) (rid : Rid) : Option Bytes :=
  SlotWrite.final none (slotLog log t rid)

end Rmdb
