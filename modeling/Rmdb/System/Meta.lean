import Rmdb.Common.Value

/-!
# The catalogue

- `ColMeta`, `IndexMeta`, `TabMeta` and `DbMeta` of `sm_meta.h`, with their look-ups;
- `getIndexName`: the file of an index;
- `makeKey`: the loop, repeated wherever an index is touched, that copies the index columns of a record into a key;
- `memcpyAt`: copying a value into a record.
-/

namespace Rmdb

structure ColMeta where
  tabName : String
  name : String
  type : ColType
  len : Int
  offset : Int
  deriving DecidableEq, Repr

structure IndexMeta where
  tabName : String
  colTotLen : Int
  colNum : Int
  cols : List ColMeta
  deriving DecidableEq, Repr

structure TabMeta where
  name : String
  cols : List ColMeta
  indexes : List IndexMeta
  deriving DecidableEq, Repr

namespace TabMeta

/-- `get_col`: the first column of that name. -/
def getCol (tab : TabMeta) (colName : String) : Except RMDBError ColMeta :=
  match tab.cols.find? (·.name = colName) with
  | some col => .ok col
  | none => .error (.columnNotFound colName)

/-- The index is over the columns of these names, in this order. -/
def matchCols (index : IndexMeta) (colNames : List String) : Bool :=
  index.colNum == colNames.length && (index.cols.take colNames.length).map (·.name) == colNames

def isIndex (tab : TabMeta) (colNames : List String) : Bool := tab.indexes.any (matchCols · colNames)

def getIndexMeta (tab : TabMeta) (colNames : List String) : Except RMDBError IndexMeta :=
  match tab.indexes.find? (matchCols · colNames) with
  | some index => .ok index
  | none => .error (.indexNotFound tab.name colNames)

end TabMeta

/-- `tabs_` by table name, in the order of the names. -/
structure DbMeta where
  name : String
  tabs : List (TabName × TabMeta)

namespace DbMeta

def isTable (db : DbMeta) (tabName : TabName) : Bool := db.tabs.any (·.1 = tabName)

def getTable (db : DbMeta) (tabName : TabName) : Except RMDBError TabMeta :=
  match db.tabs.find? (·.1 = tabName) with
  | some entry => .ok entry.2
  | none => .error (.tableNotFound tabName)

/-- An entry of the map, at its place. -/
def insertEntry (tabName : TabName) (tab : TabMeta) : List (TabName × TabMeta) → List (TabName × TabMeta)
  | [] => [(tabName, tab)]
  | entry :: entries =>
    if entry.1 = tabName then (tabName, tab) :: entries
    else if tabName < entry.1 then (tabName, tab) :: entry :: entries
    else entry :: insertEntry tabName tab entries

/-- `tabs_[tab_name] = tab`. -/
def setTab (db : DbMeta) (tabName : TabName) (tab : TabMeta) : DbMeta :=
  { db with tabs := insertEntry tabName tab db.tabs }

theorem find?_insertEntry (tabName : TabName) (tab : TabMeta) : ∀ entries : List (TabName × TabMeta),
    (insertEntry tabName tab entries).find? (·.1 = tabName) = some (tabName, tab)
  | [] => by simp [insertEntry]
  | entry :: entries => by
    unfold insertEntry
    split
    · simp
    · next hne =>
      split
      · simp
      · rw [List.find?_cons_of_neg (by simpa using hne), find?_insertEntry tabName tab entries]

@[simp] theorem getTable_setTab (db : DbMeta) (tabName : TabName) (tab : TabMeta) :
    (db.setTab tabName tab).getTable tabName = .ok tab := by
  simp only [getTable, setTab, find?_insertEntry]

/-- `tabs_.erase`. -/
def eraseTab (db : DbMeta) (tabName : TabName) : DbMeta := { db with tabs := db.tabs.filter (·.1 ≠ tabName) }

end DbMeta

/-- `get_index_name`: the name of the file of an index. -/
def getIndexName (tabName : TabName) (cols : List ColMeta) : String :=
  tabName ++ String.join (cols.map ("_" ++ ·.name)) ++ ".idx"

/-- `col_tot_len`. -/
def colTotLen (cols : List ColMeta) : Int := (cols.map (·.len)).sum

def ixMaxColLen : Int := 512

/-- `memcpy(rec->data + offset, src, len)`. -/
def memcpyAt (rec : Bytes) (offset : Int) (src : Bytes) (len : Int) : Bytes :=
  rec.mapIdx fun i b => if offset ≤ i ∧ i < offset + len then src.getD (i - offset).toNat 0 else b

/-- A copy replaces the bytes it is about. -/
theorem memcpyAt_append {a b c src : Bytes} {len : Nat} (h : b.length = len) (hs : len ≤ src.length) :
    memcpyAt (a ++ b ++ c) a.length src len = a ++ src.take len ++ c := by
  have hlen : (memcpyAt (a ++ b ++ c) a.length src len).length = (a ++ src.take len ++ c).length := by
    simp only [memcpyAt, List.length_mapIdx, List.length_append, List.length_take]
    omega
  refine List.ext_getElem hlen fun i h1 h2 => ?_
  simp only [memcpyAt, List.getElem_mapIdx, List.getElem_append, List.length_append, List.length_take]
  split
  · next hi =>
    have hsub : ((i : Int) - a.length).toNat = i - a.length := by omega
    rw [dif_pos (by omega), dif_neg (by omega), hsub, List.getElem_take, List.getD_eq_getElem?_getD,
      List.getElem?_eq_getElem (by omega), Option.getD_some]
  · next hi =>
    by_cases ha : i < a.length
    · rw [dif_pos (by omega), dif_pos ha, dif_pos (by omega), dif_pos ha]
    · rw [dif_neg (by omega), dif_neg (by omega)]
      have hmin : min len src.length = b.length := by omega
      simp only [hmin]

/-- The bytes of a column in a record. -/
def colBytes (rec : Bytes) (col : ColMeta) : Bytes := (rec.drop col.offset.toNat).take col.len.toNat

/-- The key of a record in an index. -/
def makeKey (cols : List ColMeta) (rec : Bytes) : Bytes := cols.flatMap (colBytes rec)

/-- `get_col` of an executor: by table and name. -/
def getCol (recCols : List ColMeta) (target : TabCol) : Except RMDBError ColMeta :=
  match recCols.find? fun col => col.tabName = target.tabName ∧ col.name = target.colName with
  | some col => .ok col
  | none => .error (.columnNotFound (target.tabName ++ "." ++ target.colName))

/-- `eval_cond`. -/
def evalCond (recCols : List ColMeta) (cond : Condition) (rec : Bytes) : Except RMDBError Bool := do
  let lhsCol ← getCol recCols cond.lhsCol
  let lhsData := rec.drop lhsCol.offset.toNat
  let rhsData ←
    if cond.isRhsVal then pure cond.rhsVal.data
    else do
      let rhsCol ← getCol recCols cond.rhsCol
      pure (rec.drop rhsCol.offset.toNat)
  return evalCompare (compareValue lhsData rhsData lhsCol.type lhsCol.len) cond.op

/-- `eval_conds`: up to the first condition that fails. -/
def evalConds (recCols : List ColMeta) : List Condition → Bytes → Except RMDBError Bool
  | [], _ => .ok true
  | cond :: conds, rec => do
    if ← evalCond recCols cond rec then evalConds recCols conds rec else return false

/-- The columns of the condition are among these. -/
def Condition.Bound (recCols : List ColMeta) (cond : Condition) : Prop :=
  (∃ col, getCol recCols cond.lhsCol = .ok col) ∧ (cond.isRhsVal = true ∨ ∃ col, getCol recCols cond.rhsCol = .ok col)

/-- The record meets the conditions. -/
def condsHold (recCols : List ColMeta) (conds : List Condition) (rec : Bytes) : Bool :=
  match evalConds recCols conds rec with
  | .ok b => b
  | .error _ => false

theorem evalCond_ok {recCols : List ColMeta} {cond : Condition} (h : cond.Bound recCols) (rec : Bytes) :
    ∃ b, evalCond recCols cond rec = .ok b := by
  obtain ⟨⟨lhsCol, hl⟩, hr⟩ := h
  by_cases hv : cond.isRhsVal = true
  · simp only [evalCond, hl, hv, bind, Except.bind, pure, Except.pure, if_true]
    exact ⟨_, rfl⟩
  · obtain ⟨rhsCol, hr⟩ := hr.resolve_left hv
    simp only [evalCond, hl, hr, hv, bind, Except.bind, pure, Except.pure]
    exact ⟨_, rfl⟩

/-- Conditions on columns that exist can be evaluated. -/
theorem evalConds_eq {recCols : List ColMeta} {conds : List Condition} (h : ∀ cond ∈ conds, cond.Bound recCols)
    (rec : Bytes) : evalConds recCols conds rec = .ok (condsHold recCols conds rec) := by
  have hok : ∃ b, evalConds recCols conds rec = .ok b := by
    induction conds with
    | nil => exact ⟨true, rfl⟩
    | cons cond conds ih =>
      obtain ⟨b, hb⟩ := evalCond_ok (h cond List.mem_cons_self) rec
      obtain ⟨b', hb'⟩ := ih fun c hc => h c (List.mem_cons_of_mem _ hc)
      rw [evalConds, hb]
      cases b
      · exact ⟨false, rfl⟩
      · exact ⟨b', hb'⟩
  obtain ⟨b, hb⟩ := hok
  rw [condsHold, hb]

end Rmdb
