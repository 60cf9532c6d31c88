import Rmdb.Execution.Operators

/-!
# Checking the conditions of a statement

- `Table` and `Database`: the tables as `create_table` makes them, with their rows;
- `getCond`, `checkColumn` and `checkCond`: the WHERE clause in `analyze.cpp`. Each condition gets the tables of its
  columns, and a literal gets the type and the length of the column it is compared with;
- `Checked`: what is known about a condition that was accepted.
-/

namespace Rmdb

open Lib

/-! ## Tables -/

/-- A number takes its bytes. -/
def ColMeta.Sized (col : ColMeta) : Prop :=
  match col.type with
  | .int | .float => 4 ≤ col.len
  | .bigint | .datetime => 8 ≤ col.len
  | .string => 0 ≤ col.len

theorem ColMeta.Sized.width_le {col : ColMeta} (h : col.Sized) : col.type.width col.len ≤ col.len.toNat := by
  unfold ColMeta.Sized at h
  cases ht : col.type <;> simp only [ht] at h <;> simp only [ColType.width] <;> omega

/-- A table and its rows. -/
structure Table where
  tabMeta : TabMeta
  recordSize : Nat
  rows : List Bytes
  named : ∀ col ∈ tabMeta.cols, col.tabName = tabMeta.name
  inside : ∀ col ∈ tabMeta.cols, col.Inside recordSize
  sized : ∀ col ∈ tabMeta.cols, col.Sized
  row_length : ∀ rec ∈ rows, rec.length = recordSize

/-- The tables of `SmManager`. -/
structure Database where
  tab : TabName → Option Table
  named : ∀ {tabName : TabName} {T : Table}, tab tabName = some T → T.tabMeta.name = tabName
  nonempty : tab "" = none

namespace Database

/-- `db_.get_table`. -/
def getTable (db : Database) (tabName : TabName) : Except RMDBError TabMeta :=
  match db.tab tabName with
  | some T => .ok T.tabMeta
  | none => .error (.tableNotFound tabName)

/-- `get_all_cols`. -/
def getAllCols (db : Database) : List TabName → Except RMDBError (List ColMeta)
  | [] => .ok []
  | tabName :: tabNames => do
    let tab ← db.getTable tabName
    let cols ← getAllCols db tabNames
    return tab.cols ++ cols

end Database

/-! ## The WHERE clause -/

/-- A comparison as it was parsed. -/
structure BinaryExpr where
  lhs : TabCol
  op : CompOp
  rhs : Value ⊕ TabCol

/-- One turn of `get_clause`; the side that is not there stays empty. -/
def getCond (expr : BinaryExpr) : Condition :=
  match expr.rhs with
  | .inl rhsVal => ⟨expr.lhs, expr.op, true, ⟨"", ""⟩, rhsVal⟩
  | .inr rhsCol => ⟨expr.lhs, expr.op, false, rhsCol, ⟨.int 0, none⟩⟩

/-- The loop of `check_column` that looks for the table of a column. -/
def inferTable (colName : String) : List ColMeta → TabName → Except RMDBError TabName
  | [], tabName => .ok tabName
  | col :: cols, tabName =>
    if col.name = colName then
      if tabName ≠ "" then .error (.ambiguousColumn colName) else inferTable colName cols col.tabName
    else inferTable colName cols tabName

/-- `check_column`. -/
def checkColumn (allCols : List ColMeta) (target : TabCol) : Except RMDBError TabCol :=
  if target.tabName = "" then do
    let tabName ← inferTable target.colName allCols ""
    if tabName = "" then .error (.columnNotFound target.colName)
    else return { target with tabName := tabName }
  else if allCols.any fun col => col.tabName = target.tabName ∧ col.name = target.colName then .ok target
  else .error (.columnNotFound (target.tabName ++ "." ++ target.colName))

/-- The literal in the type of the column, with its bytes. -/
def checkLiteral (lhsCol : ColMeta) (rhsVal : Value) : Except RMDBError Value := do
  let rhsVal ←
    if rhsVal.type ≠ lhsCol.type then
      match rhsVal.castTo lhsCol.type with
      | some v => pure v
      | none => .error (.incompatibleType lhsCol.type.str rhsVal.type.str)
    else pure rhsVal
  rhsVal.initRaw lhsCol.len

/-- One turn of `check_clause`. -/
def checkCond (db : Database) (allCols : List ColMeta) (cond : Condition) : Except RMDBError Condition := do
  let lhs ← checkColumn allCols cond.lhsCol
  let rhs ← if cond.isRhsVal then pure cond.rhsCol else checkColumn allCols cond.rhsCol
  let cond := { cond with lhsCol := lhs, rhsCol := rhs }
  let lhsTab ← db.getTable cond.lhsCol.tabName
  let lhsCol ← lhsTab.getCol cond.lhsCol.colName
  if cond.isRhsVal then do
    let rhsVal ← checkLiteral lhsCol cond.rhsVal
    if lhsCol.type ≠ rhsVal.type then .error (.incompatibleType lhsCol.type.str rhsVal.type.str)
    else return { cond with rhsVal := rhsVal }
  else do
    let rhsTab ← db.getTable cond.rhsCol.tabName
    let rhsCol ← rhsTab.getCol cond.rhsCol.colName
    if lhsCol.type ≠ rhsCol.type then .error (.incompatibleType lhsCol.type.str rhsCol.type.str)
    else return cond

/-- The tables and the WHERE clause of a SELECT in `do_analyze`. -/
def analyzeSelect (db : Database) (tables : List TabName) (conds : List BinaryExpr) :
    Except RMDBError (List Condition) := do
  let allCols ← db.getAllCols tables
  (conds.map getCond).mapM (checkCond db allCols)

/-! ## Accepted conditions -/

/-- The column of a table in the FROM list. -/
def Database.Has (db : Database) (tables : List TabName) (target : TabCol) (T : Table) (col : ColMeta) : Prop :=
  target.tabName ∈ tables ∧ db.tab target.tabName = some T ∧ T.tabMeta.getCol target.colName = .ok col

/-- What `check_clause` leaves of a condition. -/
structure Checked (db : Database) (tables : List TabName) (cond : Condition) : Prop where
  lhs : ∃ T col, db.Has tables cond.lhsCol T col
  literal : cond.isRhsVal = true → cond.rhsCol.tabName = ""
  rhs : cond.isRhsVal = false → ∃ T col, db.Has tables cond.rhsCol T col
  types : ∀ T col T' col', cond.isRhsVal = false → db.Has tables cond.lhsCol T col → db.Has tables cond.rhsCol T' col' →
    col.type = col'.type

theorem Database.Has.unique {db : Database} {tables tables' : List TabName} {target : TabCol} {T T' : Table}
    {col col' : ColMeta} (h : db.Has tables target T col) (h' : db.Has tables' target T' col') :
    T = T' ∧ col = col' := by
  obtain ⟨-, h1, h2⟩ := h
  obtain ⟨-, h1', h2'⟩ := h'
  have hT : T = T' := Option.some.inj (h1.symm.trans h1')
  subst hT
  exact ⟨rfl, Except.ok.inj (h2.symm.trans h2')⟩

theorem Database.Has.mem {db : Database} {tables : List TabName} {target : TabCol} {T : Table} {col : ColMeta}
    (h : db.Has tables target T col) : col ∈ T.tabMeta.cols := by
  obtain ⟨-, -, hcol⟩ := h
  rw [TabMeta.getCol] at hcol
  split at hcol
  · next hfind =>
    cases hcol
    exact List.mem_of_find?_eq_some hfind
  · cases hcol

theorem Database.Has.tabName_ne {db : Database} {tables : List TabName} {target : TabCol} {T : Table} {col : ColMeta}
    (h : db.Has tables target T col) : target.tabName ≠ "" := by
  intro he
  have h1 := h.2.1
  rw [he, db.nonempty] at h1
  cases h1

/-- The columns that are searched are those of the tables. -/
theorem mem_getAllCols {db : Database} : ∀ {tables : List TabName} {cols : List ColMeta},
    db.getAllCols tables = .ok cols → ∀ col ∈ cols, ∃ T, col.tabName ∈ tables ∧ db.tab col.tabName = some T ∧
      col ∈ T.tabMeta.cols
  | [], cols, h => by
    cases h
    simp
  | tabName :: tables, cols, h => by
    obtain ⟨tab, htab, h⟩ := bind_eq_ok.1 h
    obtain ⟨rest, hrest, h⟩ := bind_eq_ok.1 h
    cases h
    intro col hcol
    rcases List.mem_append.1 hcol with hcol | hcol
    · unfold Database.getTable at htab
      split at htab
      · next T hT =>
        cases htab
        have hname : col.tabName = tabName := (T.named col hcol).trans (db.named hT)
        exact ⟨T, by rw [hname]; exact List.mem_cons_self, by rw [hname]; exact hT, hcol⟩
      · cases htab
    · obtain ⟨T, h1, h2, h3⟩ := mem_getAllCols hrest col hcol
      exact ⟨T, List.mem_cons_of_mem _ h1, h2, h3⟩

/-- A column that is found by name gives the column of its table. -/
theorem has_of_mem {db : Database} {tables : List TabName} {cols : List ColMeta} (h : db.getAllCols tables = .ok cols)
    {col : ColMeta} (hcol : col ∈ cols) : ∃ T c, db.Has tables ⟨col.tabName, col.name⟩ T c := by
  obtain ⟨T, h1, h2, h3⟩ := mem_getAllCols h col hcol
  have hsome : (T.tabMeta.cols.find? (·.name = col.name)).isSome := by
    rw [List.find?_isSome]
    exact ⟨col, h3, by simp⟩
  obtain ⟨c, hc⟩ := Option.isSome_iff_exists.1 hsome
  exact ⟨T, c, h1, h2, by rw [TabMeta.getCol, hc]⟩

theorem inferTable_ok {colName : String} : ∀ {cols : List ColMeta} {tabName tabName' : TabName},
    inferTable colName cols tabName = .ok tabName' →
    tabName' = tabName ∨ ∃ col ∈ cols, col.name = colName ∧ col.tabName = tabName'
  | [], tabName, tabName', h => by
    cases h
    exact .inl rfl
  | col :: cols, tabName, tabName', h => by
    rw [inferTable] at h
    by_cases hn : col.name = colName
    · rw [if_pos hn] at h
      by_cases ht : tabName ≠ ""
      · rw [if_pos ht] at h
        cases h
      · rw [if_neg ht] at h
        rcases inferTable_ok h with rfl | ⟨c, hc, h1, h2⟩
        · exact .inr ⟨col, List.mem_cons_self, hn, rfl⟩
        · exact .inr ⟨c, List.mem_cons_of_mem _ hc, h1, h2⟩
    · rw [if_neg hn] at h
      rcases inferTable_ok h with h' | ⟨c, hc, h1, h2⟩
      · exact .inl h'
      · exact .inr ⟨c, List.mem_cons_of_mem _ hc, h1, h2⟩

theorem has_of_checkColumn {db : Database} {tables : List TabName} {cols : List ColMeta}
    (h : db.getAllCols tables = .ok cols) {target target' : TabCol} (hc : checkColumn cols target = .ok target') :
    ∃ T col, db.Has tables target' T col := by
  unfold checkColumn at hc
  split at hc
  · obtain ⟨tabName, hinfer, hc⟩ := bind_eq_ok.1 hc
    split at hc
    · cases hc
    · next hne =>
      cases hc
      obtain ⟨col, hcol, h1, h2⟩ := (inferTable_ok hinfer).resolve_left hne
      have hh := has_of_mem h hcol
      rwa [h1, h2] at hh
  · split at hc
    · next hany =>
      cases hc
      obtain ⟨col, hcol, hp⟩ := List.any_eq_true.1 hany
      obtain ⟨h1, h2⟩ := of_decide_eq_true hp
      have hh := has_of_mem h hcol
      rwa [h1, h2] at hh
    · cases hc

theorem getTable_ok {db : Database} {tabName : TabName} {tab : TabMeta} (h : db.getTable tabName = .ok tab) :
    ∃ T, db.tab tabName = some T ∧ T.tabMeta = tab := by
  unfold Database.getTable at h
  split at h
  · next T hT =>
    cases h
    exact ⟨T, hT, rfl⟩
  · cases h

/-- All tables of the FROM list exist. -/
theorem tab_of_getAllCols {db : Database} : ∀ {tables : List TabName} {cols : List ColMeta},
    db.getAllCols tables = .ok cols → ∀ t ∈ tables, ∃ T, db.tab t = some T
  | t' :: tables, cols, h, t, ht => by
    obtain ⟨tab, htab, h⟩ := bind_eq_ok.1 h
    obtain ⟨rest, hrest, -⟩ := bind_eq_ok.1 h
    rcases List.mem_cons.1 ht with rfl | ht
    · obtain ⟨T, hT, -⟩ := getTable_ok htab
      exact ⟨T, hT⟩
    · exact tab_of_getAllCols hrest t ht

/-- One condition that is accepted. -/
theorem checked_of_checkCond {db : Database} {tables : List TabName} {cols : List ColMeta}
    (h : db.getAllCols tables = .ok cols) {cond cond' : Condition}
    (hliteral : cond.isRhsVal = true → cond.rhsCol.tabName = "") (hc : checkCond db cols cond = .ok cond') :
    Checked db tables cond' := by
  unfold checkCond at hc
  obtain ⟨lhs, hlhs, hc⟩ := bind_eq_ok.1 hc
  obtain ⟨T', col', hhas⟩ := has_of_checkColumn h hlhs
  by_cases hv : cond.isRhsVal = true
  · simp only [hv, if_true, pure_bind] at hc
    obtain ⟨lhsTab, hlhsTab, hc⟩ := bind_eq_ok.1 hc
    obtain ⟨lhsCol, hlhsCol, hc⟩ := bind_eq_ok.1 hc
    obtain ⟨T, hT, htab⟩ := getTable_ok hlhsTab
    rw [← htab] at hlhsCol
    obtain ⟨rhsVal, -, hc⟩ := bind_eq_ok.1 hc
    split at hc
    · cases hc
    · cases hc
      refine ⟨⟨T, lhsCol, hhas.1, hT, hlhsCol⟩, fun _ => hliteral hv, ?_, ?_⟩
      · intro hf
        cases hf
      · intro _ _ _ _ hf
        cases hf
  · simp only [hv, Bool.false_eq_true, if_false] at hc
    obtain ⟨rhs, hrhs, hc⟩ := bind_eq_ok.1 hc
    obtain ⟨lhsTab, hlhsTab, hc⟩ := bind_eq_ok.1 hc
    obtain ⟨lhsCol, hlhsCol, hc⟩ := bind_eq_ok.1 hc
    obtain ⟨rhsTab, hrhsTab, hc⟩ := bind_eq_ok.1 hc
    obtain ⟨rhsCol, hrhsCol, hc⟩ := bind_eq_ok.1 hc
    obtain ⟨T, hT, htab⟩ := getTable_ok hlhsTab
    obtain ⟨R, hR, htab'⟩ := getTable_ok hrhsTab
    rw [← htab] at hlhsCol
    rw [← htab'] at hrhsCol
    obtain ⟨R', c', hhas'⟩ := has_of_checkColumn h hrhs
    have hleft : db.Has tables lhs T lhsCol := ⟨hhas.1, hT, hlhsCol⟩
    have hright : db.Has tables rhs R rhsCol := ⟨hhas'.1, hR, hrhsCol⟩
    split at hc
    · cases hc
    · next htypes =>
      cases hc
      refine ⟨⟨T, lhsCol, hleft⟩, ?_, fun _ => ⟨R, rhsCol, hright⟩, ?_⟩
      · intro ht
        cases ht
      · intro _ _ _ _ _ h1 h2
        rw [(h1.unique hleft).2, (h2.unique hright).2]
        exact Decidable.not_not.1 htypes

/-- **What is accepted can be looked up**, and compares values of one type. -/
theorem checked_of_analyzeSelect {db : Database} {tables : List TabName} {exprs : List BinaryExpr}
    {conds : List Condition} (h : analyzeSelect db tables exprs = .ok conds) :
    ∀ cond ∈ conds, Checked db tables cond := by
  obtain ⟨cols, hcols, h⟩ := bind_eq_ok.1 h
  intro cond' hcond'
  obtain ⟨cond, hcond, hc⟩ := mem_of_mapM_ok h cond' hcond'
  obtain ⟨expr, -, rfl⟩ := List.mem_map.1 hcond
  apply checked_of_checkCond hcols _ hc
  intro hv
  unfold getCond at hv ⊢
  split at hv
  · rfl
  · cases hv

end Rmdb
