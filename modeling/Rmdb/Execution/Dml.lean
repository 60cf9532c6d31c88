import Rmdb.Execution.Calls

/-!
# INSERT, UPDATE, DELETE and the roll-back of a write

`Next` of the three executors, and one turn of the loop in `TransactionManager::abort`, as programs over their calls.
-/

namespace Rmdb

open Exec

def duplicateError (tabName : TabName) : RMDBError := .rmdb ("duplicate value violates unique index on " ++ tabName)

/-- The value in the column's type. -/
def castValue (col : ColMeta) (val : Value) : Except RMDBError Value :=
  if col.type = val.type then .ok val
  else
    match val.castTo col.type with
    | some val => .ok val
    | none => .error (.incompatibleType col.type.str val.type.str)

/-! ## InsertExecutor -/

structure InsertExecutor where
  tab : TabMeta
  values : List Value
  tabName : TabName

namespace InsertExecutor

/-- The constructor. -/
def new (tabName : TabName) (values : List Value) : Exec InsertExecutor := do
  let tab ← getTable tabName
  if values.length ≠ tab.cols.length then raise .invalidValueCount
  return ⟨tab, values, tabName⟩

/-- Cast each value to its column and copy it into the record. -/
def fill : List ColMeta → List Value → Bytes → Except RMDBError Bytes
  | col :: cols, val :: vals, rec => do
    let val ← castValue col val
    let val ← val.initRaw col.len
    fill cols vals (memcpyAt rec col.offset val.data col.len)
  | _, _, rec => .ok rec

/-- `Next`; a new record buffer counts as zeroed. -/
def next (ex : InsertExecutor) : Exec Unit := do
  lockExclusiveOnTable ex.tabName
  let hdr ← fileHdr ex.tabName
  let data ← check (fill ex.tab.cols ex.values (List.replicate hdr.recordSize.toNat 0))
  ex.tab.indexes.forM fun index => do
    let found ← getValue ex.tabName index (makeKey index.cols data)
    if found.isSome then raise (duplicateError ex.tabName)
  let rid ← insertRecord ex.tabName data
  appendWriteRecord (.insertTuple ex.tabName rid)
  ex.tab.indexes.forM fun index => insertEntry ex.tabName index (makeKey index.cols data) rid

end InsertExecutor

/-! ## DeleteExecutor -/

structure DeleteExecutor where
  tab : TabMeta
  rids : List Rid
  tabName : TabName

namespace DeleteExecutor

def new (tabName : TabName) (rids : List Rid) : Exec DeleteExecutor := do
  let tab ← getTable tabName
  return ⟨tab, rids, tabName⟩

/-- The body of the loop of `Next`. -/
def deleteRow (ex : DeleteExecutor) (rid : Rid) : Exec Unit := do
  let data ← getRecord ex.tabName rid
  appendWriteRecord (.deleteTuple ex.tabName rid data)
  ex.tab.indexes.forM fun index => do
    let _ ← deleteEntry ex.tabName index (makeKey index.cols data)
  deleteRecord ex.tabName rid

def next (ex : DeleteExecutor) : Exec Unit := do
  lockExclusiveOnTable ex.tabName
  ex.rids.forM ex.deleteRow

end DeleteExecutor

/-! ## UpdateExecutor -/

structure UpdateExecutor where
  tab : TabMeta
  rids : List Rid
  tabName : TabName
  setClauses : List SetClause

namespace UpdateExecutor

def new (tabName : TabName) (setClauses : List SetClause) (rids : List Rid) : Exec UpdateExecutor := do
  let tab ← getTable tabName
  return ⟨tab, rids, tabName, setClauses⟩

/-- The loop that gives every right-hand side its bytes. -/
def prepare (tab : TabMeta) : List SetClause → Except RMDBError (List SetClause)
  | [] => .ok []
  | set :: sets => do
    let col ← tab.getCol set.lhs.colName
    let val ← castValue col set.rhs
    let val ← if val.raw.isNone then val.initRaw col.len else .ok val
    let sets ← prepare tab sets
    return { set with rhs := val } :: sets

/-- Apply the SET clauses to a record. -/
def applySets (tab : TabMeta) : List SetClause → Bytes → Except RMDBError Bytes
  | [], rec => .ok rec
  | set :: sets, rec => do
    let col ← tab.getCol set.lhs.colName
    applySets tab sets (memcpyAt rec col.offset set.rhs.data col.len)

/-- The check of one index over the rids; `seen` holds the new keys so far. -/
def checkIndex (ex : UpdateExecutor) (index : IndexMeta) : List Bytes → List Rid → Exec Unit
  | _, [] => return
  | seen, rid :: rids => do
    let data ← getRecord ex.tabName rid
    let data ← check (applySets ex.tab ex.setClauses data)
    let newKey := makeKey index.cols data
    if newKey ∈ seen then raise (duplicateError ex.tabName)
    let found ← getValue ex.tabName index newKey
    match found with
    | some r => if r ∉ ex.rids then raise (duplicateError ex.tabName)
    | none => pure ()
    checkIndex ex index (newKey :: seen) rids

/-- The body of the last loop of `Next`. -/
def updateRow (ex : UpdateExecutor) (rid : Rid) : Exec Unit := do
  let data ← getRecord ex.tabName rid
  appendWriteRecord (.updateTuple ex.tabName rid data)
  ex.tab.indexes.forM fun index => do
    let _ ← deleteEntry ex.tabName index (makeKey index.cols data)
  let new ← check (applySets ex.tab ex.setClauses data)
  updateRecord ex.tabName rid new
  ex.tab.indexes.forM fun index => insertEntry ex.tabName index (makeKey index.cols new) rid

def next (ex : UpdateExecutor) : Exec Unit := do
  lockExclusiveOnTable ex.tabName
  let sets ← check (prepare ex.tab ex.setClauses)
  let ex := { ex with setClauses := sets }
  ex.tab.indexes.forM fun index => ex.checkIndex index [] ex.rids
  ex.rids.forM ex.updateRow

end UpdateExecutor

/-! ## Roll-back -/

/-- One turn of the loop in `TransactionManager::abort`, for the last write record. -/
def rollbackWrite : WriteRecord → Exec Unit
  | .insertTuple tabName rid => do
    let tab ← getTable tabName
    let data ← getRecord tabName rid
    tab.indexes.forM fun index => do
      let _ ← deleteEntry tabName index (makeKey index.cols data)
    deleteRecord tabName rid
  | .deleteTuple tabName rid record => do
    let tab ← getTable tabName
    insertRecordAt tabName rid record
    tab.indexes.forM fun index => insertEntry tabName index (makeKey index.cols record) rid
  | .updateTuple tabName rid record => do
    let tab ← getTable tabName
    let data ← getRecord tabName rid
    tab.indexes.forM fun index => do
      let _ ← deleteEntry tabName index (makeKey index.cols data)
    updateRecord tabName rid record
    tab.indexes.forM fun index => insertEntry tabName index (makeKey index.cols record) rid

end Rmdb
