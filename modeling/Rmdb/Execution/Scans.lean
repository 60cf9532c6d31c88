import Rmdb.Execution.Dml

/-!
# Scans and statements

- `SeqScanExecutor` and `IndexScanExecutor` as one `ScanExecutor`, which differ in the `RecScan` they drive; their
  loops take a bound on the number of turns, and stop the process where it is used up;
- `keyInterval`: the interval of keys that `IndexScanExecutor::beginTuple` builds;
- `SelectDriver`: what the operators above the scans may do, which is to call the four methods of the scans and to
  raise errors;
- `Stmt.prog`: what `Portal::start` and `Portal::run` execute for a statement.
-/

namespace Rmdb

open Exec

/-! ## Iterators -/

/-- `RmScan` and `IxScan`. -/
inductive RecScan
  | rm (rid : Rid)
  | ix (iid last : Iid)

structure ScanExecutor where
  tabName : TabName
  conds : List Condition
  cols : List ColMeta
  index : Option IndexMeta
  rid : Rid
  scan : Option RecScan

/-- `RmScan::next`. -/
def rmScanNext (tabName : TabName) : Nat → Rid → Exec Rid
  | 0, _ => halt
  | fuel + 1, rid => do
    let hdr ← fileHdr tabName
    if rid.pageNo < hdr.numPages then
      let page ← fetchPageHandle tabName rid.pageNo
      let slotNo := page.bitmap.nextBit true hdr.numRecordsPerPage rid.slotNo
      if slotNo < hdr.numRecordsPerPage then return ⟨rid.pageNo, slotNo⟩
      else rmScanNext tabName fuel ⟨rid.pageNo + 1, -1⟩
    else return rid

/-! ## The interval of an index scan -/

def fltMax : Float32 := Float32.ofBits 0x7f7fffff
def fltMin : Float32 := Float32.ofBits 0xff7fffff

def setMin (type : ColType) (len : Int) : Bytes :=
  match type with
  | .int => intBytes intMin
  | .bigint | .datetime => int64Bytes (-9223372036854775808)
  | .float => floatBytes fltMin
  | .string => List.replicate len.toNat 0

def setMax (type : ColType) (len : Int) : Bytes :=
  match type with
  | .int => intBytes intMax
  | .bigint | .datetime => int64Bytes 9223372036854775807
  | .float => floatBytes fltMax
  | .string => List.replicate len.toNat 255

/-- What the conditions say about one column; a later condition of a kind replaces an earlier one. -/
structure ColBounds where
  eq : Option Bytes
  lo : Option (Bytes × Bool)
  hi : Option (Bytes × Bool)

def ColBounds.add (b : ColBounds) (v : Bytes) : CompOp → ColBounds
  | .eq => { b with eq := some v }
  | .gt => { b with lo := some (v, false) }
  | .ge => { b with lo := some (v, true) }
  | .lt => { b with hi := some (v, false) }
  | .le => { b with hi := some (v, true) }
  | .ne => b

def colBounds (conds : List Condition) (col : ColMeta) : ColBounds :=
  conds.foldl (fun b cond =>
    if !cond.isRhsVal || cond.lhsCol.colName != col.name then b else b.add cond.rhsVal.data cond.op)
    ⟨none, none, none⟩

structure KeyInterval where
  low : Bytes
  high : Bytes
  lowInclusive : Bool
  highInclusive : Bool
  prefixOpen : Bool

/-- One turn of the loop over the index columns. -/
def KeyInterval.extend (conds : List Condition) (k : KeyInterval) (col : ColMeta) : KeyInterval :=
  let lowest := setMin col.type col.len
  let highest := setMax col.type col.len
  if k.prefixOpen then
    let b := colBounds conds col
    match b.eq with
    | some v => { k with low := k.low ++ v.take col.len.toNat, high := k.high ++ v.take col.len.toNat }
    | none =>
      { low := k.low ++ ((b.lo.map (·.1.take col.len.toNat)).getD lowest)
        high := k.high ++ ((b.hi.map (·.1.take col.len.toNat)).getD highest)
        lowInclusive := (b.lo.map (·.2)).getD k.lowInclusive
        highInclusive := (b.hi.map (·.2)).getD k.highInclusive
        prefixOpen := false }
  else { k with low := k.low ++ lowest, high := k.high ++ highest }

/-- The interval of keys that an index scan visits. -/
def keyInterval (conds : List Condition) (index : IndexMeta) : KeyInterval :=
  index.cols.foldl (KeyInterval.extend conds) ⟨[], [], true, true, true⟩

/-! ## The scan executors -/

/-- `swap_op`. -/
def CompOp.swap : CompOp → CompOp
  | .eq => .eq
  | .ne => .ne
  | .lt => .gt
  | .gt => .lt
  | .le => .ge
  | .ge => .le

/-- A condition with the column of this table on the left. -/
def swapCond (tabName : TabName) (cond : Condition) : Condition :=
  if cond.lhsCol.tabName ≠ tabName then
    { cond with lhsCol := cond.rhsCol, rhsCol := cond.lhsCol, op := cond.op.swap }
  else cond

namespace ScanExecutor

/-- The constructor of `SeqScanExecutor`. -/
def newSeqScan (tabName : TabName) (conds : List Condition) : Exec ScanExecutor := do
  let tab ← getTable tabName
  return ⟨tabName, conds, tab.cols, none, ⟨-1, -1⟩, none⟩

/-- The constructor of `IndexScanExecutor`. -/
def newIndexScan (tabName : TabName) (conds : List Condition) (indexColNames : List String) : Exec ScanExecutor := do
  let tab ← getTable tabName
  let index ← check (tab.getIndexMeta indexColNames)
  if conds.any fun c => c.lhsCol.tabName ≠ tabName && (c.isRhsVal || c.rhsCol.tabName ≠ tabName) then halt
  return ⟨tabName, conds.map (swapCond tabName), tab.cols, some index, ⟨-1, -1⟩, none⟩

/-- `scan_->is_end()`. -/
def isEnd (ex : ScanExecutor) : Exec Bool :=
  match ex.scan with
  | none => halt
  | some (.rm rid) => do
    let hdr ← fileHdr ex.tabName
    return rid.pageNo ≥ hdr.numPages
  | some (.ix iid last) => return iid = last

/-- `scan_->rid()`. -/
def scanRid (ex : ScanExecutor) : Exec Rid :=
  match ex.scan, ex.index with
  | some (.rm rid), _ => return rid
  | some (.ix iid _), some index => getRid ex.tabName index iid
  | _, _ => halt

/-- `scan_->next()`. -/
def scanNext (fuel : Nat) (ex : ScanExecutor) : Exec ScanExecutor :=
  match ex.scan, ex.index with
  | some (.rm rid), _ => do
    let rid ← rmScanNext ex.tabName fuel rid
    return { ex with scan := some (.rm rid) }
  | some (.ix iid last), some index => do
    let iid ← ixScanNext ex.tabName index iid
    return { ex with scan := some (.ix iid last) }
  | _, _ => halt

/-- `find_next_valid`. -/
def findNextValid (turns : Nat) : Nat → ScanExecutor → Exec ScanExecutor
  | 0, _ => halt
  | fuel + 1, ex => do
    if ← ex.isEnd then return ex
    let rid ← ex.scanRid
    let ex := { ex with rid := rid }
    let data ← getRecord ex.tabName rid
    if ← check (evalConds ex.cols ex.conds data) then return ex
    let ex ← ex.scanNext turns
    findNextValid turns fuel ex

/-- `scan_ = ...` in `beginTuple`. -/
def start (fuel : Nat) (ex : ScanExecutor) : Exec ScanExecutor :=
  match ex.index with
  | none => do
    let rid ← rmScanNext ex.tabName fuel ⟨rmFirstRecordPage, -1⟩
    return { ex with scan := some (.rm rid) }
  | some index => do
    let k := keyInterval ex.conds index
    let lower ← if k.lowInclusive then lowerBound ex.tabName index k.low else upperBound ex.tabName index k.low
    let upper ← if k.highInclusive then upperBound ex.tabName index k.high else lowerBound ex.tabName index k.high
    return { ex with scan := some (.ix lower upper) }

def beginTuple (fuel : Nat) (ex : ScanExecutor) : Exec ScanExecutor := do
  lockSharedOnTable ex.tabName
  let ex ← ex.start fuel
  findNextValid fuel fuel ex

def nextTuple (fuel : Nat) (ex : ScanExecutor) : Exec ScanExecutor := do
  let ex ← ex.scanNext fuel
  findNextValid fuel fuel ex

/-- `Next`: `rid_` is set by `beginTuple`. -/
def next (ex : ScanExecutor) : Exec Bytes := if ex.scan.isSome then getRecord ex.tabName ex.rid else halt

/-- The loop of `Portal::start` that collects the rids for UPDATE and DELETE. -/
def collect (turns : Nat) : Nat → ScanExecutor → List Rid → Exec (List Rid)
  | 0, _, _ => halt
  | fuel + 1, ex, rids => do
    if ← ex.isEnd then return rids
    let ex' ← ex.nextTuple turns
    collect turns fuel ex' (rids ++ [ex.rid])

end ScanExecutor

/-! ## Statements -/

/-- The scan that the planner chose for a table. -/
structure ScanPlan where
  tabName : TabName
  conds : List Condition
  indexColNames : Option (List String)

def ScanPlan.executor (plan : ScanPlan) : Exec ScanExecutor :=
  match plan.indexColNames with
  | none => ScanExecutor.newSeqScan plan.tabName plan.conds
  | some names => ScanExecutor.newIndexScan plan.tabName plan.conds names

/-- What the operators above the scans do, call by call; the scans are numbered. -/
inductive SelectDriver
  | done
  | raise (e : RMDBError)
  | beginTuple (i : Nat) (k : SelectDriver)
  | nextTuple (i : Nat) (k : SelectDriver)
  | isEnd (i : Nat) (k : Bool → SelectDriver)
  | next (i : Nat) (k : Bytes → SelectDriver)

/-- The operators at work on their scans. -/
def SelectDriver.exec (fuel : Nat) : SelectDriver → (Nat → ScanExecutor) → Exec Unit
  | .done, _ => return
  | .raise e, _ => Exec.raise e
  | .beginTuple i k, scans => do
    let ex ← (scans i).beginTuple fuel
    k.exec fuel (Function.update scans i ex)
  | .nextTuple i k, scans => do
    let ex ← (scans i).nextTuple fuel
    k.exec fuel (Function.update scans i ex)
  | .isEnd i k, scans => do
    let b ← (scans i).isEnd
    (k b).exec fuel scans
  | .next i k, scans => do
    let data ← (scans i).next
    (k data).exec fuel scans

inductive Stmt
  | select (scans : List ScanPlan) (driver : SelectDriver)
  | insert (tabName : TabName) (values : List Value)
  | update (scan : ScanPlan) (tabName : TabName) (setClauses : List SetClause)
  | delete (scan : ScanPlan) (tabName : TabName)

/-- The scan executors of a plan, in order. -/
def newScans : List ScanPlan → Exec (List ScanExecutor)
  | [] => return []
  | plan :: plans => do
    let ex ← plan.executor
    let exs ← newScans plans
    return ex :: exs

/-- The rids of the rows an UPDATE or DELETE is about. -/
def scanRids (fuel : Nat) (plan : ScanPlan) : Exec (List Rid) := do
  let ex ← plan.executor
  let ex ← ex.beginTuple fuel
  ex.collect fuel fuel []

/-- `Portal::start` and `Portal::run`. -/
def Stmt.prog (fuel : Nat) : Stmt → Exec Unit
  | .select plans driver => do
    let exs ← newScans plans
    driver.exec fuel fun i => exs.getD i ⟨"", [], [], none, ⟨-1, -1⟩, none⟩
  | .insert tabName values => do
    let ex ← InsertExecutor.new tabName values
    ex.next
  | .update plan tabName setClauses => do
    let rids ← scanRids fuel plan
    let ex ← UpdateExecutor.new tabName setClauses rids
    ex.next
  | .delete plan tabName => do
    let rids ← scanRids fuel plan
    let ex ← DeleteExecutor.new tabName rids
    ex.next

end Rmdb
