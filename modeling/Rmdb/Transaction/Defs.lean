import Rmdb.Common.Defs

/-!
# Transactions

The types of `txn_defs.h`: states, write records, the identities of locked items, and the exception that aborts a
transaction.
-/

namespace Rmdb

inductive TransactionState
  | default | growing | shrinking | committed | aborted
  deriving DecidableEq, Repr

/-- `WriteRecord`, what a transaction keeps to roll a write back. -/
inductive WriteRecord
  | insertTuple (tabName : TabName) (rid : Rid)
  | deleteTuple (tabName : TabName) (rid : Rid) (record : Bytes)
  | updateTuple (tabName : TabName) (rid : Rid) (record : Bytes)
  deriving DecidableEq

inductive LockDataType
  | table | record
  deriving DecidableEq, Repr

structure LockDataId where
  fd : Int
  rid : Rid
  type : LockDataType
  deriving DecidableEq, Repr

/-- The lock on a whole table. -/
def LockDataId.table (fd : Int) : LockDataId := ⟨fd, ⟨-1, -1⟩, .table⟩

def LockDataId.record (fd : Int) (rid : Rid) : LockDataId := ⟨fd, rid, .record⟩

inductive AbortReason
  | lockOnShirinking | upgradeConflict | deadlockPrevention
  deriving DecidableEq, Repr

structure TransactionAbortException where
  txnId : Int
  abortReason : AbortReason
  deriving DecidableEq, Repr

def TransactionAbortException.getInfo (e : TransactionAbortException) : String :=
  match e.abortReason with
  | .lockOnShirinking =>
    "Transaction " ++ toString e.txnId ++ " aborted because it cannot request locks on SHRINKING phase\n"
  | .upgradeConflict =>
    "Transaction " ++ toString e.txnId ++ " aborted because another transaction is waiting for upgrading\n"
  | .deadlockPrevention => "Transaction " ++ toString e.txnId ++ " aborted for deadlock prevention\n"

/-- The table that a write record is about. -/
def WriteRecord.tabName : WriteRecord → TabName
  | .insertTuple t _ | .deleteTuple t _ _ | .updateTuple t _ _ => t

end Rmdb
