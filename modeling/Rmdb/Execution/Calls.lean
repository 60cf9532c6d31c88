import Rmdb.Lib.Prog
import Rmdb.Record.FileHandle
import Rmdb.System.Meta
import Rmdb.Transaction.Defs

/-!
# The calls of the executors

An executor is a sequential program (`Exec`) over the calls it makes on what the sessions share: the lock manager, the
catalogue, the data files and the indexes. A call is atomic; other sessions may run between two calls.
-/

namespace Rmdb

open Lib

/-- Calls on an index of a table. -/
inductive IxCall
  | getValue (key : Bytes)
  | insertEntry (key : Bytes) (rid : Rid)
  | deleteEntry (key : Bytes)
  | lowerBound (key : Bytes)
  | upperBound (key : Bytes)
  /-- `IxScan::next`. -/
  | scanNext (iid : Iid)
  /-- `IxScan::rid`. -/
  | getRid (iid : Iid)

/-- `get_value` answers with the first rid it found. -/
def IxCall.Resp : IxCall → Type
  | .getValue _ => Option Rid
  | .insertEntry _ _ => Unit
  | .deleteEntry _ => Bool
  | .lowerBound _ | .upperBound _ | .scanNext _ => Iid
  | .getRid _ => Rid

inductive Call
  | lockSharedOnTable (tabName : TabName)
  | lockExclusiveOnTable (tabName : TabName)
  /-- `db_.get_table`. -/
  | getTable (tabName : TabName)
  /-- `get_file_hdr`, or a read of a field of the header. -/
  | fileHdr (tabName : TabName)
  | fetchPageHandle (tabName : TabName) (pageNo : Int)
  | getRecord (tabName : TabName) (rid : Rid)
  | insertRecord (tabName : TabName) (buf : Bytes)
  /-- `insert_record(rid, buf)`. -/
  | insertRecordAt (tabName : TabName) (rid : Rid) (buf : Bytes)
  | deleteRecord (tabName : TabName) (rid : Rid)
  | updateRecord (tabName : TabName) (rid : Rid) (buf : Bytes)
  | index (tabName : TabName) (index : IndexMeta) (call : IxCall)
  | appendWriteRecord (w : WriteRecord)

def Call.Resp : Call → Type
  | .getTable _ => TabMeta
  | .fileHdr _ => RmFileHdr
  | .fetchPageHandle _ _ => RmPage
  | .getRecord _ _ => Bytes
  | .insertRecord _ _ => Rid
  | .index _ _ c => c.Resp
  | _ => Unit

/-- What ends a statement early; `halt` is the end of the process, by a failed assertion or a null pointer. -/
inductive Exn
  | rmdb (e : RMDBError)
  | abort (e : TransactionAbortException)
  | halt
  deriving DecidableEq

abbrev Exec := Prog Call.Resp Exn

namespace Exec

def invoke (c : Call) : Exec c.Resp := Prog.perform c

/-- Raise the error of a pure computation. -/
def check {α : Type} (x : Except RMDBError α) : Exec α := Prog.ofExcept (x.mapError Exn.rmdb)

def raise {α : Type} (e : RMDBError) : Exec α := Prog.throw (.rmdb e)

def halt {α : Type} : Exec α := Prog.throw .halt

def lockSharedOnTable (tabName : TabName) : Exec Unit := invoke (.lockSharedOnTable tabName)
def lockExclusiveOnTable (tabName : TabName) : Exec Unit := invoke (.lockExclusiveOnTable tabName)
def getTable (tabName : TabName) : Exec TabMeta := invoke (.getTable tabName)
def fileHdr (tabName : TabName) : Exec RmFileHdr := invoke (.fileHdr tabName)
def fetchPageHandle (tabName : TabName) (pageNo : Int) : Exec RmPage := invoke (.fetchPageHandle tabName pageNo)
def getRecord (tabName : TabName) (rid : Rid) : Exec Bytes := invoke (.getRecord tabName rid)
def insertRecord (tabName : TabName) (buf : Bytes) : Exec Rid := invoke (.insertRecord tabName buf)
def insertRecordAt (tabName : TabName) (rid : Rid) (buf : Bytes) : Exec Unit :=
  invoke (.insertRecordAt tabName rid buf)
def deleteRecord (tabName : TabName) (rid : Rid) : Exec Unit := invoke (.deleteRecord tabName rid)
def updateRecord (tabName : TabName) (rid : Rid) (buf : Bytes) : Exec Unit :=
  invoke (.updateRecord tabName rid buf)
def appendWriteRecord (w : WriteRecord) : Exec Unit := invoke (.appendWriteRecord w)

section index
variable (tabName : TabName) (index : IndexMeta)

def getValue (key : Bytes) : Exec (Option Rid) := invoke (.index tabName index (.getValue key))
def insertEntry (key : Bytes) (rid : Rid) : Exec Unit := invoke (.index tabName index (.insertEntry key rid))
def deleteEntry (key : Bytes) : Exec Bool := invoke (.index tabName index (.deleteEntry key))
def lowerBound (key : Bytes) : Exec Iid := invoke (.index tabName index (.lowerBound key))
def upperBound (key : Bytes) : Exec Iid := invoke (.index tabName index (.upperBound key))
def ixScanNext (iid : Iid) : Exec Iid := invoke (.index tabName index (.scanNext iid))
def getRid (iid : Iid) : Exec Rid := invoke (.index tabName index (.getRid iid))

end index

end Exec

end Rmdb
