import Mathlib.Data.List.Nodup
import Rmdb.Execution.Plans
import Rmdb.Optimizer.Planner

/-!
# What a SELECT answers

- `RelPlan.exec`: a plan with each scan giving the rows of its table and each join the concatenations that pass their
  conditions;
- `Database.sat` and `Database.combinations`: what the query asks for, one row of each table with all conditions;
- `Placeable`: the first table takes every comparison within one table, so one of another table has to come after a
  condition that the rows of the first table fail;
- `makeOneRel_answers_iff`: the plan answers the query exactly in that case.
-/

namespace Rmdb

open Lib

/-! ## Executing a plan -/

/-- The rows that pass a check; a check that raises ends the loop. -/
def keepRows (p : Bytes → Except RMDBError Bool) : List Bytes → Except RMDBError (List Bytes)
  | [] => .ok []
  | rec :: recs => do
    let b ← p rec
    let rest ← keepRows p recs
    return if b then rec :: rest else rest

namespace Database

variable (db : Database)

def rows (tabName : TabName) : List Bytes :=
  match db.tab tabName with
  | some T => T.rows
  | none => []

def schema (tabName : TabName) : Schema :=
  match db.tab tabName with
  | some T => ⟨T.recordSize, T.tabMeta.cols⟩
  | none => ⟨0, []⟩

end Database

namespace RelPlan

variable (db : Database)

def schema : RelPlan → Schema
  | scan plan => db.schema plan.tabName
  | join _ left right _ => Plan.joinSchema left.schema right.schema

/-- The rows of a plan. -/
def exec : RelPlan → Except RMDBError (List Bytes)
  | scan plan => do
    let tab ← db.getTable plan.tabName
    keepRows (evalConds tab.cols plan.conds) (db.rows plan.tabName)
  | join tag left right conds => do
    let ls ← exec left
    let rs ← exec right
    keepRows (evalConds ((join tag left right conds).schema db).cols conds) (ls.flatMap fun l => rs.map (l ++ ·))

end RelPlan

/-! ## What is asked for -/

namespace Database

variable (db : Database)

/-- The column in the catalogue. -/
def column (target : TabCol) : Option ColMeta :=
  (db.tab target.tabName).bind fun T => T.tabMeta.cols.find? (·.name = target.colName)

/-- The value of a column in a combination of rows. -/
def value (target : TabCol) (e : TabName → Bytes) : Bytes :=
  match db.column target with
  | some col => colBytes (e target.tabName) col
  | none => []

/-- **A condition on a combination of rows**, by the values of its columns; of two strings the shorter one is filled up
with zeros. -/
def sat (cond : Condition) (e : TabName → Bytes) : Bool :=
  match db.column cond.lhsCol, db.column cond.rhsCol with
  | some col, rhsCol =>
    let rhs := if cond.isRhsVal then cond.rhsVal.data else db.value cond.rhsCol e
    let len := if cond.isRhsVal then col.len else max col.len ((rhsCol.map (·.len)).getD 0)
    evalCompare (compareValue (db.value cond.lhsCol e) rhs col.type len) cond.op
  | none, _ => false

/-- One row of each table such that all conditions hold. -/
def combinations (tables : List TabName) (conds : List Condition) : List (TabName → Bytes) :=
  (combos db.rows (fun _ => []) tables).filter fun e => conds.all (db.sat · e)

/-- **The plan answers the query**: without an error its rows are the combinations, each with its rows side by side in
the order of the plan. -/
def Answers (tables : List TabName) (conds : List Condition) (plan : Outcome RelPlan) : Prop :=
  ∃ p rows, plan = pure p ∧ p.exec db = .ok rows ∧ p.tables.Perm tables ∧
    rows.Perm ((db.combinations tables conds).map fun e => p.tables.flatMap e)

end Database

/-- A comparison of two columns of a table that is not the first. -/
def Condition.Foreign (first : TabName) (cond : Condition) : Prop := cond.isSame = true ∧ cond.lhsCol.tabName ≠ first

/-- A condition on the columns of one table. -/
def Condition.On (tabName : TabName) (cond : Condition) : Bool :=
  cond.lhsCol.tabName = tabName && (cond.isRhsVal || cond.rhsCol.tabName = tabName)

/-- A comparison within another table than the first one stands, if at all, behind conditions on the first table of
which every row of the first table fails one. -/
def Placeable (db : Database) (first : TabName) (conds : List Condition) : Prop :=
  ∀ pre cond post, conds = pre ++ cond :: post → cond.Foreign first →
    ∀ rec ∈ db.rows first, ∃ d ∈ pre, d.On first = true ∧ db.sat d (fun _ => rec) = false

/-- Strings that are compared have columns of one length. -/
def Condition.SameLength (db : Database) (cond : Condition) : Prop :=
  cond.isRhsVal = false → ∀ lhs rhs, db.column cond.lhsCol = some lhs → db.column cond.rhsCol = some rhs →
    lhs.type = .string → lhs.len = rhs.len

/-! ## Rows -/

theorem keepRows_map {α : Type} {p : Bytes → Except RMDBError Bool} {q : α → Bool} {f : α → Bytes} : ∀ {es : List α},
    (∀ e ∈ es, p (f e) = .ok (q e)) → keepRows p (es.map f) = .ok ((es.filter q).map f)
  | [], _ => rfl
  | e :: es, h => by
    have ih := keepRows_map fun e' he => h e' (List.mem_cons_of_mem _ he)
    rw [List.map_cons, keepRows, h e List.mem_cons_self, ih]
    cases hq : q e <;> simp [hq, bind, Except.bind, pure, Except.pure]

theorem ok_of_keepRows {p : Bytes → Except RMDBError Bool} : ∀ {recs out : List Bytes}, keepRows p recs = .ok out →
    ∀ rec ∈ recs, ∃ b, p rec = .ok b
  | rec :: recs, out, h, rec', hrec => by
    obtain ⟨b, hb, h⟩ := bind_eq_ok.1 h
    obtain ⟨rest, hrest, -⟩ := bind_eq_ok.1 h
    rcases List.mem_cons.1 hrec with rfl | hrec
    · exact ⟨b, hb⟩
    · exact ok_of_keepRows hrest rec' hrec

/-- A plan that is executed has its scans executed. -/
theorem RelPlan.exec_scan {db : Database} : ∀ {plan : RelPlan} {rows : List Bytes}, plan.exec db = .ok rows →
    ∀ p ∈ plan.scans, ∃ rs, (RelPlan.scan p).exec db = .ok rs
  | .scan q, rows, h, p, hp => by
    rw [List.mem_singleton.1 hp]
    exact ⟨rows, h⟩
  | .join _ l r _, rows, h, p, hp => by
    obtain ⟨ls, hl, h⟩ := bind_eq_ok.1 h
    obtain ⟨rs, hr, -⟩ := bind_eq_ok.1 h
    rcases List.mem_append.1 hp with hp | hp
    · exact exec_scan hl p hp
    · exact exec_scan hr p hp

/-! ## Columns of a plan -/

theorem find?_congr_of_mem {α : Type} {p q : α → Bool} : ∀ {as : List α}, (∀ a ∈ as, p a = q a) →
    as.find? p = as.find? q
  | [], _ => rfl
  | a :: as, h => by
    rw [List.find?_cons, List.find?_cons, h a List.mem_cons_self,
      find?_congr_of_mem fun b hb => h b (List.mem_cons_of_mem _ hb)]

theorem getCol_append_left {cols cols' : List ColMeta} {target : TabCol} {col : ColMeta}
    (h : getCol cols target = .ok col) : getCol (cols ++ cols') target = .ok col := by
  unfold getCol at h ⊢
  split at h
  · next hfind =>
    cases h
    rw [List.find?_append, hfind]
    rfl
  · cases h

theorem getCol_append_right {cols cols' : List ColMeta} {target : TabCol} (off : Int)
    (hnot : ∀ col ∈ cols, col.tabName ≠ target.tabName) {col : ColMeta} (h : getCol cols' target = .ok col) :
    getCol (cols ++ cols'.map fun c => { c with offset := c.offset + off }) target =
      .ok { col with offset := col.offset + off } := by
  unfold getCol at h ⊢
  split at h
  · next c hfind =>
    cases h
    have hnone : cols.find? (fun c => decide (c.tabName = target.tabName ∧ c.name = target.colName)) = none := by
      rw [List.find?_eq_none]
      intro c hc
      simp [hnot c hc]
    have hmap : (cols'.map fun c => { c with offset := c.offset + off }).find?
        (fun c => decide (c.tabName = target.tabName ∧ c.name = target.colName)) =
          some { col with offset := col.offset + off } := by
      rw [List.find?_map]
      exact congrArg (Option.map _) hfind
    rw [List.find?_append, hnone, hmap]
    rfl
  · cases h

section columns

variable {db : Database}

theorem Database.column_eq {target : TabCol} {tables : List TabName} {T : Table} {col : ColMeta}
    (h : db.Has tables target T col) : db.column target = some col := by
  obtain ⟨-, hT, hcol⟩ := h
  rw [TabMeta.getCol] at hcol
  split at hcol
  · next hfind =>
    cases hcol
    rw [Database.column, hT, Option.bind_some, hfind]
  · cases hcol

/-- A column of a table by its table and name. -/
theorem Database.getCol_schema {target : TabCol} {tables : List TabName} {T : Table} {col : ColMeta}
    (h : db.Has tables target T col) : getCol (db.schema target.tabName).cols target = .ok col := by
  obtain ⟨-, hT, hcol⟩ := h
  rw [TabMeta.getCol] at hcol
  split at hcol
  · next hfind =>
    cases hcol
    have hname : T.tabMeta.name = target.tabName := db.named hT
    have hp : T.tabMeta.cols.find? (fun c => decide (c.tabName = target.tabName ∧ c.name = target.colName)) =
        T.tabMeta.cols.find? (·.name = target.colName) := by
      apply find?_congr_of_mem
      intro c hc
      simp [T.named c hc, hname]
    rw [Database.schema, hT, getCol, hp, hfind]
  · cases hcol

theorem RelPlan.tabName_mem : ∀ {plan : RelPlan}, ∀ col ∈ (plan.schema db).cols, col.tabName ∈ plan.tables
  | .scan p, col, hcol => by
    rw [schema, Database.schema] at hcol
    split at hcol
    · next T hT =>
      rw [T.named col hcol, db.named hT]
      exact List.mem_singleton.2 rfl
    · cases hcol
  | .join _ l r _, col, hcol => by
    refine List.mem_append.2 ?_
    rcases List.mem_append.1 hcol with hcol | hcol
    · exact .inl (tabName_mem col hcol)
    · obtain ⟨c, hc, rfl⟩ := List.mem_map.1 hcol
      exact .inr (tabName_mem c hc)

/-- The rows of a combination have the length of their tables. -/
def Database.Fits (db : Database) (tables : List TabName) (e : TabName → Bytes) : Prop :=
  ∀ t ∈ tables, (e t).length = (db.schema t).len

theorem RelPlan.length_flatMap {e : TabName → Bytes} : ∀ {plan : RelPlan}, db.Fits plan.tables e →
    (plan.tables.flatMap e).length = (plan.schema db).len
  | .scan p, h => by
    have hp := h p.tabName (List.mem_singleton.2 rfl)
    simpa [tables, tree, JoinTree.leaves, schema] using hp
  | .join tag l r cs, h => by
    have htab : (join tag l r cs).tables = l.tables ++ r.tables := rfl
    have hl : db.Fits l.tables e := fun t ht => h t (htab ▸ List.mem_append_left _ ht)
    have hr : db.Fits r.tables e := fun t ht => h t (htab ▸ List.mem_append_right _ ht)
    rw [htab, List.flatMap_append, List.length_append, length_flatMap hl, length_flatMap hr]
    rfl

/-- **A column of a plan**: the executor finds it where the row of its table lies. -/
theorem RelPlan.getCol_schema {target : TabCol} {tables : List TabName} {T : Table} {col : ColMeta}
    (h : db.Has tables target T col) {e : TabName → Bytes} : ∀ {plan : RelPlan}, target.tabName ∈ plan.tables →
    plan.tables.Nodup → db.Fits plan.tables e → ∃ pre post, plan.tables.flatMap e = pre ++ e target.tabName ++ post ∧
      getCol (plan.schema db).cols target = .ok { col with offset := col.offset + pre.length }
  | .scan p, ht, _, _ => by
    have hp : target.tabName = p.tabName := List.mem_singleton.1 ht
    refine ⟨[], [], by simp [RelPlan.tables, tree, JoinTree.leaves, hp], ?_⟩
    have hcol := Database.getCol_schema h
    rw [hp] at hcol
    rw [schema, hcol]
    simp
  | .join tag l r cs, ht, hn, hfit => by
    have htab : (join tag l r cs).tables = l.tables ++ r.tables := rfl
    obtain ⟨hnl, hnr, hdisj⟩ := List.nodup_append.1 hn
    have hl : db.Fits l.tables e := fun t h => hfit t (htab ▸ List.mem_append_left _ h)
    have hr : db.Fits r.tables e := fun t h => hfit t (htab ▸ List.mem_append_right _ h)
    by_cases hm : target.tabName ∈ l.tables
    · obtain ⟨pre, post, hrec, hcol⟩ := getCol_schema h hm hnl hl
      refine ⟨pre, post ++ r.tables.flatMap e, ?_, getCol_append_left hcol⟩
      rw [htab, List.flatMap_append, hrec, List.append_assoc]
    · have hm' : target.tabName ∈ r.tables := (List.mem_append.1 ht).resolve_left hm
      obtain ⟨pre, post, hrec, hcol⟩ := getCol_schema h hm' hnr hr
      have hnot : ∀ c ∈ (l.schema db).cols, c.tabName ≠ target.tabName := by
        intro c hc he
        exact hm (he ▸ tabName_mem c hc)
      refine ⟨l.tables.flatMap e ++ pre, post, ?_, ?_⟩
      · rw [htab, List.flatMap_append, hrec]
        simp only [List.append_assoc]
      · have hright := getCol_append_right ((l.schema db).len : Int) hnot hcol
        rw [schema, Plan.joinSchema, hright, List.length_append, length_flatMap hl]
        congr 2
        push_cast
        omega

theorem compareValue_len {type : ColType} (h : type ≠ .string) (a b : Bytes) (len len' : Int) :
    compareValue a b type len = compareValue a b type len' := by
  cases type with
  | string => exact absurd rfl h
  | _ => rfl

/-- Two columns that are compared, at the longer length. -/
theorem Condition.SameLength.compareValue_max {cond : Condition} (hlen : cond.SameLength db)
    (hv : cond.isRhsVal = false) {col col' : ColMeta} (hl : db.column cond.lhsCol = some col)
    (hr : db.column cond.rhsCol = some col') (a b : Bytes) :
    compareValue a b col.type (max col.len col'.len) = compareValue a b col.type col.len := by
  by_cases hs : col.type = .string
  · rw [hlen hv col col' hl hr hs, max_self]
  · exact compareValue_len hs _ _ _ _

/-- The bytes of a column, wherever its row lies. -/
theorem take_drop_column {row : Bytes} {col : ColMeta} (hin : col.Inside row.length) (pre post : Bytes) {n : Nat}
    (hn : n ≤ col.len.toNat) :
    ((pre ++ row ++ post).drop (col.offset + pre.length).toNat).take n = (colBytes row col).take n := by
  obtain ⟨h1, h2, h3⟩ := hin
  have hoff : (col.offset + pre.length).toNat = pre.length + col.offset.toNat := by omega
  rw [hoff, List.append_assoc, List.drop_append, List.drop_eq_nil_of_le (by omega), List.nil_append,
    Nat.add_sub_cancel_left, List.drop_append_of_le_length (by omega), colBytes, List.take_take, Nat.min_eq_left hn,
    List.take_append_of_le_length (by rw [List.length_drop]; omega)]

/-- A column of a plan, as `evalCond` reads it. -/
theorem RelPlan.column_data {target : TabCol} {tables : List TabName} {T : Table} {col : ColMeta}
    (h : db.Has tables target T col) {e : TabName → Bytes} {plan : RelPlan} (ht : target.tabName ∈ plan.tables)
    (hn : plan.tables.Nodup) (hfit : db.Fits plan.tables e) :
    ∃ c, getCol (plan.schema db).cols target = .ok c ∧ c.type = col.type ∧ c.len = col.len ∧
      ∀ n ≤ col.len.toNat, ((plan.tables.flatMap e).drop c.offset.toNat).take n = (db.value target e).take n := by
  obtain ⟨pre, post, hrec, hcol⟩ := getCol_schema h ht hn hfit
  refine ⟨_, hcol, rfl, rfl, fun n hle => ?_⟩
  have hlen := hfit _ ht
  have hin : col.Inside (e target.tabName).length := by
    rw [hlen, Database.schema, h.2.1]
    exact T.inside col h.mem
  rw [hrec, take_drop_column hin pre post hle, Database.value, Database.column_eq h]

/-- **A condition at a plan with its tables** is evaluated without an error, and to what it says. -/
theorem RelPlan.evalCond_eq {tables : List TabName} {cond : Condition} (hc : Checked db tables cond)
    (hlen : cond.SameLength db) {e : TabName → Bytes} {plan : RelPlan} (hl : cond.lhsCol.tabName ∈ plan.tables)
    (hr : cond.isRhsVal = false → cond.rhsCol.tabName ∈ plan.tables) (hn : plan.tables.Nodup)
    (hfit : db.Fits plan.tables e) :
    evalCond (plan.schema db).cols cond (plan.tables.flatMap e) = .ok (db.sat cond e) := by
  obtain ⟨T, col, hhas⟩ := hc.lhs
  obtain ⟨c, hcol, htype, hclen, hdata⟩ := column_data hhas hl hn hfit
  have hsized := T.sized col hhas.mem
  rw [evalCond, hcol, Database.sat, Database.column_eq hhas]
  simp only [bind, Except.bind, pure, Except.pure, htype, hclen]
  cases hv : cond.isRhsVal
  · obtain ⟨T', col', hhas'⟩ := hc.rhs hv
    obtain ⟨c', hcol', -, -, hdata'⟩ := column_data hhas' (hr hv) hn hfit
    have htypes := hc.types T col T' col' hv hhas hhas'
    have hsized' := T'.sized col' hhas'.mem
    have hwidth : col.type.width col.len ≤ col'.len.toNat := by
      have hw := hsized'.width_le
      cases ht : col.type with
      | string =>
        rw [hlen hv col col' (Database.column_eq hhas) (Database.column_eq hhas') ht]
        exact Nat.le_refl _
      | _ =>
        rw [← htypes, ht] at hw
        exact hw
    simp only [hcol', Bool.false_eq_true, if_false, Database.column_eq hhas', Option.map_some, Option.getD_some]
    rw [compareValue_congr (hdata _ hsized.width_le) (hdata' _ hwidth),
      hlen.compareValue_max hv (Database.column_eq hhas) (Database.column_eq hhas')]
  · simp only [if_true]
    rw [compareValue_congr (hdata _ hsized.width_le) rfl]

end columns

/-! ## Conditions -/

section conditions

variable {db : Database}

/-- What a condition says depends on the rows of its tables. -/
theorem Database.sat_congr {cond : Condition} {e e' : TabName → Bytes} (h : ∀ t ∈ cond.tabs, e t = e' t) :
    db.sat cond e = db.sat cond e' := by
  have hl : e cond.lhsCol.tabName = e' cond.lhsCol.tabName := h _ (by simp [Condition.tabs])
  have hr : e cond.rhsCol.tabName = e' cond.rhsCol.tabName := h _ (by simp [Condition.tabs])
  simp only [sat, value, hl, hr]

/-- Of a condition on one table it depends on the row of that table. -/
theorem Database.sat_of_on {cond : Condition} {t : TabName} (hon : cond.On t = true) (e : TabName → Bytes) :
    (db.sat cond fun _ => e t) = db.sat cond e := by
  simp only [Condition.On, Bool.and_eq_true, decide_eq_true_eq, Bool.or_eq_true] at hon
  obtain ⟨hl, hr⟩ := hon
  rcases hr with hv | hr
  · simp only [sat, value, hl, hv, if_true]
  · simp only [sat, value, hl, hr]

/-- A comparison of two columns with its sides exchanged. -/
theorem Database.sat_swap {tables : List TabName} {cond : Condition} (hc : Checked db tables cond)
    (hv : cond.isRhsVal = false) (e : TabName → Bytes) :
    db.sat cond.swap e = db.sat cond e := by
  obtain ⟨T, col, hhas⟩ := hc.lhs
  obtain ⟨T', col', hhas'⟩ := hc.rhs hv
  have htypes := hc.types T col T' col' hv hhas hhas'
  have hcmp : compareValue (db.value cond.rhsCol e) (db.value cond.lhsCol e) col'.type (max col'.len col.len) =
      -compareValue (db.value cond.lhsCol e) (db.value cond.rhsCol e) col.type (max col.len col'.len) := by
    rw [compareValue_swap, ← htypes, max_comm]
  simp only [sat, Condition.swap, column_eq hhas, column_eq hhas', hv, Bool.false_eq_true, if_false, Option.map_some,
    Option.getD_some, hcmp, evalCompare_swap]

/-- A column of a table that is not there raises. -/
theorem evalCond_error {recCols : List ColMeta} {cond : Condition}
    (h : ∀ col ∈ recCols, col.tabName ≠ cond.lhsCol.tabName) (rec : Bytes) :
    ∃ err, evalCond recCols cond rec = .error err := by
  have hnone : recCols.find?
      (fun c => decide (c.tabName = cond.lhsCol.tabName ∧ c.name = cond.lhsCol.colName)) = none := by
    rw [List.find?_eq_none]
    intro c hc
    simp [h c hc]
  exact ⟨_, by simp only [evalCond, getCol, hnone]; rfl⟩

theorem evalConds_all {recCols : List ColMeta} {rec : Bytes} {s : Condition → Bool} : ∀ {conds : List Condition},
    (∀ c ∈ conds, evalCond recCols c rec = .ok (s c)) → evalConds recCols conds rec = .ok (conds.all s)
  | [], _ => rfl
  | c :: conds, h => by
    have ih := evalConds_all fun d hd => h d (List.mem_cons_of_mem _ hd)
    rw [evalConds, h c List.mem_cons_self]
    cases hs : s c <;> simp [hs, ih, bind, Except.bind, pure, Except.pure]

/-- Among conditions of which some raise: what comes out when none of these is reached. -/
theorem evalConds_own {recCols : List ColMeta} {rec : Bytes} {s own : Condition → Bool} : ∀ {conds : List Condition},
    (∀ c ∈ conds, own c = true → evalCond recCols c rec = .ok (s c)) →
    (∀ c ∈ conds, own c = false → ∃ err, evalCond recCols c rec = .error err) → ∀ {b : Bool},
    evalConds recCols conds rec = .ok b → b = (conds.filter own).all s
  | [], _, _, _, hb => by
    cases hb
    rfl
  | c :: conds, h, herr, b, hb => by
    have ih := evalConds_own (fun d hd => h d (List.mem_cons_of_mem _ hd))
      (fun d hd => herr d (List.mem_cons_of_mem _ hd)) (b := b)
    cases ho : own c
    · obtain ⟨err, he⟩ := herr c List.mem_cons_self ho
      rw [evalConds, he] at hb
      cases hb
    · rw [evalConds, h c List.mem_cons_self ho] at hb
      cases hs : s c
      · simp only [hs, bind, Except.bind, pure, Except.pure] at hb
        cases hb
        simp [ho, hs]
      · simp only [hs, bind, Except.bind, if_true] at hb
        simp [ho, hs, ih hb]

/-- One that raises is not reached where a condition before it fails. -/
theorem evalConds_ok_iff {recCols : List ColMeta} {rec : Bytes} {s own : Condition → Bool} :
    ∀ {conds : List Condition}, (∀ c ∈ conds, own c = true → evalCond recCols c rec = .ok (s c)) →
    (∀ c ∈ conds, own c = false → ∃ err, evalCond recCols c rec = .error err) →
    ((∃ b, evalConds recCols conds rec = .ok b) ↔
      ∀ pre c post, conds = pre ++ c :: post → own c = false → ∃ d ∈ pre, own d = true ∧ s d = false)
  | [], _, _ => by
    refine ⟨fun _ pre c post he => ?_, fun _ => ⟨true, rfl⟩⟩
    simp at he
  | c :: conds, h, herr => by
    have ih := evalConds_ok_iff (fun d hd => h d (List.mem_cons_of_mem _ hd))
      (fun d hd => herr d (List.mem_cons_of_mem _ hd))
    cases ho : own c
    · obtain ⟨err, he⟩ := herr c List.mem_cons_self ho
      rw [evalConds, he]
      constructor
      · rintro ⟨b, hb⟩
        cases hb
      · intro hall
        obtain ⟨d, hd, -⟩ := hall [] c conds rfl ho
        cases hd
    · rw [evalConds, h c List.mem_cons_self ho]
      cases hs : s c
      · refine ⟨fun _ pre c' post he ho' => ?_, fun _ => ⟨false, rfl⟩⟩
        cases pre with
        | nil =>
          cases he
          rw [ho] at ho'
          cases ho'
        | cons d pre =>
          cases he
          exact ⟨c, List.mem_cons_self, ho, hs⟩
      · change (∃ b, evalConds recCols conds rec = .ok b) ↔ _
        rw [ih]
        constructor
        · intro hall pre c' post he ho'
          cases pre with
          | nil =>
            cases he
            rw [ho] at ho'
            cases ho'
          | cons d pre =>
            cases he
            obtain ⟨d, hd, h1, h2⟩ := hall pre c' post rfl ho'
            exact ⟨d, List.mem_cons_of_mem _ hd, h1, h2⟩
        · intro hall pre c' post he ho'
          obtain ⟨d, hd, h1, h2⟩ := hall (c :: pre) c' post (by rw [he]; rfl) ho'
          rcases List.mem_cons.1 hd with rfl | hd
          · rw [hs] at h2
            cases h2
          · exact ⟨d, hd, h1, h2⟩

end conditions

/-! ## The rows of a tree -/

theorem Checked.swap {db : Database} {tables : List TabName} {cond : Condition} (h : Checked db tables cond)
    (hv : cond.isRhsVal = false) : Checked db tables cond.swap where
  lhs := h.rhs hv
  literal ht := by
    change cond.isRhsVal = true at ht
    rw [hv] at ht
    cases ht
  rhs _ := h.lhs
  types T col T' col' _ h1 h2 := (h.types T' col' T col hv h2 h1).symm

theorem Condition.SameLength.swap {db : Database} {tables : List TabName} {cond : Condition}
    (h : cond.SameLength db) (hc : Checked db tables cond) (hv : cond.isRhsVal = false) : cond.swap.SameLength db := by
  intro _ lhs rhs hl hr htype
  obtain ⟨T, col, hhas⟩ := hc.lhs
  obtain ⟨T', col', hhas'⟩ := hc.rhs hv
  have hcol : rhs = col := Option.some.inj (hr.symm.trans (Database.column_eq hhas))
  have hcol' : lhs = col' := Option.some.inj (hl.symm.trans (Database.column_eq hhas'))
  have htypes := hc.types T col T' col' hv hhas hhas'
  rw [← hcol, ← hcol'] at htypes
  exact (h hv rhs lhs hr hl (htypes.trans htype)).symm

/-- **A tree of joins gives the rows of its combinations**, where each of its scans gives rows of its table. -/
theorem RelPlan.exec_eq {db : Database} {tables : List TabName} {rows : TabName → List Bytes}
    (hrows : ∀ t, ∀ rec ∈ rows t, rec.length = (db.schema t).len) : ∀ {plan : RelPlan},
    (∀ p ∈ plan.scans, (scan p).exec db = .ok (rows p.tabName)) → plan.tables.Nodup →
    plan.tree.Placed Condition.tabs → (∀ c ∈ plan.tree.conds, Checked db tables c ∧ c.SameLength db) →
    plan.exec db = .ok ((plan.tree.eval rows (fun _ => []) db.sat).map fun e => plan.tables.flatMap e)
  | .scan p, hscan, _, _, _ => by
    rw [hscan p (List.mem_singleton.2 rfl)]
    simp [RelPlan.tables, tree, JoinTree.leaves, JoinTree.eval, Function.comp_def]
  | .join tag l r cs, hscan, hn, hplaced, hconds => by
    obtain ⟨hnl, hnr, hdisj⟩ := List.nodup_append.1 hn
    have hl := exec_eq hrows (fun p hp => hscan p (List.mem_append_left _ hp)) hnl hplaced.1
      fun c hc => hconds c (List.mem_append_left _ (List.mem_append_left _ hc))
    have hr := exec_eq hrows (fun p hp => hscan p (List.mem_append_right _ hp)) hnr hplaced.2.1
      fun c hc => hconds c (List.mem_append_left _ (List.mem_append_right _ hc))
    have htab : (join tag l r cs).tables = l.tables ++ r.tables := rfl
    have hcat : ∀ e e' : TabName → Bytes, (join tag l r cs).tables.flatMap (overlay l.tables e e') =
        l.tables.flatMap e ++ r.tables.flatMap e' := by
      intro e e'
      rw [htab, List.flatMap_append]
      congr 1
      · exact List.flatMap_congr fun t ht => overlay_of_mem ht e e'
      · exact List.flatMap_congr fun t ht => overlay_of_notMem (fun h => hdisj t h t ht rfl) e e'
    -- all pairs, before the conditions
    let pairs := (l.tree.eval rows (fun _ => []) db.sat).flatMap fun e =>
      (r.tree.eval rows (fun _ => []) db.sat).map (overlay l.tables e)
    have hpairs : ((l.tree.eval rows (fun _ => []) db.sat).map fun e => l.tables.flatMap e).flatMap (fun a =>
        ((r.tree.eval rows (fun _ => []) db.sat).map fun e => r.tables.flatMap e).map (a ++ ·)) =
          pairs.map fun e => (join tag l r cs).tables.flatMap e := by
      simp only [pairs, List.map_flatMap, List.flatMap_map, List.map_map, Function.comp_def, hcat]
    have hfit : ∀ e ∈ pairs, db.Fits (join tag l r cs).tables e := by
      intro e he t ht
      apply hrows t
      obtain ⟨a, ha, he⟩ := List.mem_flatMap.1 he
      obtain ⟨b, hb, rfl⟩ := List.mem_map.1 he
      by_cases hm : t ∈ l.tables
      · rw [overlay_of_mem hm]
        exact JoinTree.mem_eval _ _ _ ha t hm
      · rw [overlay_of_notMem hm]
        exact JoinTree.mem_eval _ _ _ hb t ((List.mem_append.1 ht).resolve_left hm)
    have heval : ∀ e ∈ pairs, evalConds ((join tag l r cs).schema db).cols cs ((join tag l r cs).tables.flatMap e) =
        .ok (cs.all (db.sat · e)) := by
      intro e he
      refine evalConds_all fun c hc => ?_
      obtain ⟨hcheck, hlen⟩ := hconds c (List.mem_append_right _ hc)
      have hl : c.lhsCol.tabName ∈ (join tag l r cs).tables := hplaced.2.2 c hc _ (by simp [Condition.tabs])
      have hr : c.rhsCol.tabName ∈ (join tag l r cs).tables := hplaced.2.2 c hc _ (by simp [Condition.tabs])
      exact evalCond_eq hcheck hlen hl (fun _ => hr) hn (hfit e he)
    rw [exec, hl, hr]
    change keepRows _ _ = _
    rw [hpairs, keepRows_map heval, tree, JoinTree.eval]
    simp only [pairs, List.filter_flatMap]
    rfl

/-! ## The scans of a query -/

/-- The conditions that the scan of a table can evaluate: the literals, and for the first table also the comparisons
within it. -/
def scanConds (first : TabName) (conds : List Condition) (t : TabName) : List Condition :=
  if t = first then conds.filter (Condition.On first) else conds.filter (Condition.isLiteralOn t)

/-- The rows of a table that meet them. -/
def Database.scanRows (db : Database) (first : TabName) (conds : List Condition) (t : TabName) : List Bytes :=
  (db.rows t).filter fun rec => (scanConds first conds t).all (db.sat · fun _ => rec)

theorem Condition.On.of_isLiteralOn {t : TabName} {cond : Condition} (h : cond.isLiteralOn t = true) :
    cond.On t = true := by
  simp only [isLiteralOn, Bool.and_eq_true, decide_eq_true_eq] at h
  simp [On, h.1, h.2]

section query

variable {db : Database} {first : TabName} {tables : List TabName} {conds : List Condition}

theorem length_of_mem_rows {t : TabName} {rec : Bytes} (h : rec ∈ db.rows t) : rec.length = (db.schema t).len := by
  unfold Database.rows at h
  split at h
  · next T hT =>
    rw [Database.schema, hT]
    exact T.row_length rec h
  · cases h

/-- A condition on one table, at the scan of that table. -/
theorem evalCond_scan {cond : Condition} (hc : Checked db tables cond) (hlen : cond.SameLength db) {t : TabName}
    (hon : cond.On t = true) {rec : Bytes} (hrec : rec ∈ db.rows t) :
    evalCond (db.schema t).cols cond rec = .ok (db.sat cond fun _ => rec) := by
  have hon' := hon
  simp only [Condition.On, Bool.and_eq_true, decide_eq_true_eq, Bool.or_eq_true] at hon'
  let plan : RelPlan := .scan ⟨t, [], none⟩
  have hplan : evalCond (plan.schema db).cols cond (plan.tables.flatMap fun _ => rec) =
      .ok (db.sat cond fun _ => rec) := RelPlan.evalCond_eq hc hlen (List.mem_singleton.2 hon'.1)
    (fun hv => List.mem_singleton.2 (hon'.2.resolve_left (by simp [hv])))
    (List.nodup_cons.2 ⟨List.not_mem_nil, List.nodup_nil⟩)
    (fun t' ht' => by
      rw [List.mem_singleton.1 ht']
      exact length_of_mem_rows hrec)
  simpa [plan, RelPlan.tables, RelPlan.tree, JoinTree.leaves, RelPlan.schema] using hplan

theorem exec_scan_eq (htab : ∃ T, db.tab first = some T) (p : ScanPlan) (hp : p.tabName = first) :
    (RelPlan.scan p).exec db = keepRows (evalConds (db.schema first).cols p.conds) (db.rows first) := by
  obtain ⟨T, hT⟩ := htab
  rw [RelPlan.exec, hp, Database.getTable, Database.schema, hT]
  rfl

variable (hc : ∀ c ∈ conds, Checked db tables c ∧ c.SameLength db)

include hc

/-- The scan of another table than the first. -/
theorem exec_scan_other {t : TabName} (htab : ∃ T, db.tab t = some T) (hne : t ≠ first) {p : ScanPlan}
    (hp : p.tabName = t) (hconds : p.conds = conds.filter (Condition.isLiteralOn t)) :
    (RelPlan.scan p).exec db = .ok (db.scanRows first conds t) := by
  rw [exec_scan_eq htab p hp, hconds]
  have hkeep : ∀ rec ∈ db.rows t, evalConds (db.schema t).cols (conds.filter (Condition.isLiteralOn t)) (id rec) =
      .ok ((conds.filter (Condition.isLiteralOn t)).all (db.sat · fun _ => rec)) := by
    intro rec hrec
    refine evalConds_all fun c hm => ?_
    obtain ⟨hm, hlit⟩ := List.mem_filter.1 hm
    exact evalCond_scan (hc c hm).1 (hc c hm).2 (Condition.On.of_isLiteralOn hlit) hrec
  have h := keepRows_map hkeep
  rw [List.map_id, List.map_id] at h
  rw [h, Database.scanRows, scanConds, if_neg hne]

/-- What the first table takes: its own conditions, and the comparisons within another table, which raise. -/
theorem first_conds {c : Condition} (hm : c ∈ conds.filter fun c => c.isLiteralOn first || c.isSame) :
    (c.On first = true → ∀ rec ∈ db.rows first,
      evalCond (db.schema first).cols c rec = .ok (db.sat c fun _ => rec)) ∧
    (c.On first = false → c.Foreign first ∧ ∀ rec, ∃ err, evalCond (db.schema first).cols c rec = .error err) := by
  obtain ⟨hm, hp⟩ := List.mem_filter.1 hm
  refine ⟨fun hon rec hrec => evalCond_scan (hc c hm).1 (hc c hm).2 hon hrec, fun hon => ?_⟩
  have hsame : c.isSame = true := by
    rcases Bool.or_eq_true_iff.1 hp with hlit | hsame
    · rw [Condition.On.of_isLiteralOn hlit] at hon
      cases hon
    · exact hsame
  have hne : c.lhsCol.tabName ≠ first := by
    intro he
    have he' : c.lhsCol.tabName = c.rhsCol.tabName := of_decide_eq_true hsame
    simp [Condition.On, he, ← he'] at hon
  refine ⟨⟨hsame, hne⟩, evalCond_error fun col hcol he => ?_⟩
  have hmem : col.tabName ∈ (RelPlan.scan ⟨first, [], none⟩).tables := RelPlan.tabName_mem col hcol
  exact hne (he ▸ List.mem_singleton.1 hmem)

omit hc in
theorem filter_on : (conds.filter fun c => c.isLiteralOn first || c.isSame).filter (Condition.On first) =
    conds.filter (Condition.On first) := by
  rw [List.filter_filter]
  refine List.filter_congr fun c _ => ?_
  by_cases hl : c.lhsCol.tabName = first
  · by_cases hr : c.rhsCol.tabName = first <;> cases hv : c.isRhsVal <;>
      simp [Condition.On, Condition.isLiteralOn, Condition.isSame, hl, hr, hv]
  · simp [Condition.On, hl]

/-- The scan of the first table: when it raises, and what it gives when it does not. -/
theorem exec_scan_first (htab : ∃ T, db.tab first = some T) {p : ScanPlan} (hp : p.tabName = first)
    (hconds : p.conds = conds.filter fun c => c.isLiteralOn first || c.isSame) :
    ((∃ rs, (RelPlan.scan p).exec db = .ok rs) ↔ Placeable db first conds) ∧
    ∀ rs, (RelPlan.scan p).exec db = .ok rs → rs = db.scanRows first conds first := by
  rw [exec_scan_eq htab p hp, hconds]
  have hiff : ∀ rec ∈ db.rows first,
      ((∃ b, evalConds (db.schema first).cols (conds.filter fun c => c.isLiteralOn first || c.isSame) rec = .ok b) ↔
        ∀ pre c post, (conds.filter fun c => c.isLiteralOn first || c.isSame) = pre ++ c :: post →
          c.On first = false → ∃ d ∈ pre, d.On first = true ∧ db.sat d (fun _ => rec) = false) := fun rec hrec =>
    evalConds_ok_iff (fun c hm hon => (first_conds hc hm).1 hon rec hrec)
      (fun c hm hon => ((first_conds hc hm).2 hon).2 rec)
  have hown : ∀ rec ∈ db.rows first, ∀ b,
      evalConds (db.schema first).cols (conds.filter fun c => c.isLiteralOn first || c.isSame) rec = .ok b →
        b = (scanConds first conds first).all (db.sat · fun _ => rec) := by
    intro rec hrec b hb
    have h := evalConds_own (fun c hm hon => (first_conds hc hm).1 hon rec hrec)
      (fun c hm hon => ((first_conds hc hm).2 hon).2 rec) hb
    rw [h, scanConds, if_pos rfl, filter_on]
  have hkeep : (∀ rec ∈ db.rows first, ∃ b,
      evalConds (db.schema first).cols (conds.filter fun c => c.isLiteralOn first || c.isSame) rec = .ok b) →
      keepRows (evalConds (db.schema first).cols (conds.filter fun c => c.isLiteralOn first || c.isSame))
        (db.rows first) = .ok (db.scanRows first conds first) := by
    intro h
    have hrows : ∀ rec ∈ db.rows first,
        evalConds (db.schema first).cols (conds.filter fun c => c.isLiteralOn first || c.isSame) (id rec) =
          .ok ((scanConds first conds first).all (db.sat · fun _ => rec)) := by
      intro rec hrec
      obtain ⟨b, hb⟩ := h rec hrec
      rw [id, hb, hown rec hrec b hb]
    have h' := keepRows_map hrows
    rwa [List.map_id, List.map_id] at h'
  refine ⟨⟨?_, fun hplace => ⟨_, hkeep fun rec hrec => (hiff rec hrec).2 ?_⟩⟩, ?_⟩
  · rintro ⟨rs, hrs⟩ pre c post he hforeign rec hrec
    have hnot : c.On first = false := by simp [Condition.On, hforeign.2]
    have hsplit : (conds.filter fun c => c.isLiteralOn first || c.isSame) =
        (pre.filter fun c => c.isLiteralOn first || c.isSame) ++
          c :: post.filter fun c => c.isLiteralOn first || c.isSame := by
      rw [he, List.filter_append, List.filter_cons_of_pos (by simp [hforeign.1])]
    obtain ⟨d, hd, hon, hsat⟩ := (hiff rec hrec).1 (ok_of_keepRows hrs rec hrec) _ c _ hsplit hnot
    exact ⟨d, List.mem_of_mem_filter hd, hon, hsat⟩
  · intro pre c post he hnot
    have hm : c ∈ conds.filter fun c => c.isLiteralOn first || c.isSame := by
      rw [he]
      simp
    obtain ⟨l1, l2, hl, hpre, hpost⟩ := List.filter_eq_append_iff.1 he
    obtain ⟨m1, m2, hm2, hm1, -, -⟩ := List.filter_eq_cons_iff.1 hpost
    obtain ⟨d, hd, hon, hsat⟩ := hplace (l1 ++ m1) c m2 (by rw [hl, hm2, List.append_assoc])
      ((first_conds hc hm).2 hnot).1 rec hrec
    -- a condition on the first table is one that its scan takes
    have htaken : (d.isLiteralOn first || d.isSame) = true := by
      have hd' : d ∈ conds.filter (Condition.On first) := by
        rw [List.mem_filter, hl, hm2]
        refine ⟨?_, hon⟩
        rw [← List.append_assoc]
        exact List.mem_append_left _ hd
      rw [← filter_on] at hd'
      exact (List.mem_filter.1 (List.mem_of_mem_filter hd')).2
    rcases List.mem_append.1 hd with hd | hd
    · exact ⟨d, hpre ▸ List.mem_filter.2 ⟨hd, htaken⟩, hon, hsat⟩
    · exact absurd htaken (hm1 d hd)
  · intro rs hrs
    have h := hkeep (ok_of_keepRows hrs)
    rw [hrs] at h
    exact Except.ok.inj h

end query

/-! ## The answer of the planner -/

section answers

variable {db : Database} {first : TabName} {tables : List TabName} {conds : List Condition}

/-- The conditions that are left for the joins are between two tables of the query. -/
theorem cross_of_checked {c : Condition} (hc : Checked db (first :: tables) c) (hv : c.isRhsVal = false)
    (hsame : c.isSame = false) : c.Cross (first :: tables) := by
  obtain ⟨T, col, hl⟩ := hc.lhs
  obtain ⟨T', col', hr⟩ := hc.rhs hv
  exact ⟨of_decide_eq_false hsame, ⟨hl.1, hl.tabName_ne⟩, ⟨hr.1, hr.tabName_ne⟩⟩

theorem not_isSame_of_literal {c : Condition} (hc : Checked db (first :: tables) c) (hv : c.isRhsVal = true) :
    c.isSame = false := by
  obtain ⟨T, col, hl⟩ := hc.lhs
  apply decide_eq_false
  rw [hc.literal hv]
  exact hl.tabName_ne

/-- **Each combination of the scanned rows meets all conditions of the query, or none of the comparisons that the first
table could not evaluate matters.** -/
theorem all_conds_iff (hc : ∀ c ∈ conds, Checked db (first :: tables) c) (hplace : Placeable db first conds)
    {e : TabName → Bytes} (he : e first ∈ db.rows first) :
    ((∀ t ∈ first :: tables, ∀ c ∈ scanConds first conds t, db.sat c (fun _ => e t) = true) ∧
      ∀ c ∈ conds, c.isRhsVal = false → c.isSame = false → db.sat c e = true) ↔ ∀ c ∈ conds, db.sat c e = true := by
  have hfirst : scanConds first conds first = conds.filter (Condition.On first) := if_pos rfl
  constructor
  · rintro ⟨hscan, hcross⟩ c hm
    obtain ⟨T, col, hl⟩ := (hc c hm).lhs
    have own : c.On first = true → db.sat c e = true := by
      intro hon
      have htrue := hscan first List.mem_cons_self c (hfirst ▸ List.mem_filter.2 ⟨hm, hon⟩)
      exact (Database.sat_of_on hon e).symm.trans htrue
    cases hv : c.isRhsVal
    · cases hsame : c.isSame
      · exact hcross c hm hv hsame
      · by_cases hf : c.lhsCol.tabName = first
        · have he' : c.lhsCol.tabName = c.rhsCol.tabName := of_decide_eq_true hsame
          exact own (by simp [Condition.On, hf, ← he'])
        · -- a row of the first table that was kept meets all conditions on the first table
          obtain ⟨pre, post, hsplit⟩ := List.append_of_mem hm
          obtain ⟨d, hd, hon, hsat⟩ := hplace pre c post hsplit ⟨hsame, hf⟩ (e first) he
          have hmd : d ∈ conds := hsplit ▸ List.mem_append_left _ hd
          have htrue := hscan first List.mem_cons_self d (hfirst ▸ List.mem_filter.2 ⟨hmd, hon⟩)
          rw [hsat] at htrue
          cases htrue
    · by_cases hf : c.lhsCol.tabName = first
      · exact own (by simp [Condition.On, hf, hv])
      · have hlit : c.isLiteralOn c.lhsCol.tabName = true := by simp [Condition.isLiteralOn, hv]
        have hmem : c ∈ scanConds first conds c.lhsCol.tabName := by
          rw [scanConds, if_neg hf]
          exact List.mem_filter.2 ⟨hm, hlit⟩
        exact (Database.sat_of_on (Condition.On.of_isLiteralOn hlit) e).symm.trans (hscan _ hl.1 c hmem)
  · intro hall
    refine ⟨fun t _ c hm => ?_, fun c hm _ _ => hall c hm⟩
    have hon : c ∈ conds ∧ c.On t = true := by
      unfold scanConds at hm
      split at hm
      · next ht =>
        rw [ht]
        exact List.mem_filter.1 hm
      · exact ⟨(List.mem_filter.1 hm).1, Condition.On.of_isLiteralOn (List.mem_filter.1 hm).2⟩
    exact (Database.sat_of_on hon.2 e).trans (hall c hon.1)

/-- The tree with its conditions gives the combinations of the query. -/
theorem rows_perm (hc : ∀ c ∈ conds, Checked db (first :: tables) c ∧ c.SameLength db)
    (hplace : Placeable db first conds) {plans : List ScanPlan} {plan : RelPlan}
    (hb : Built plans (conds.filter fun c => !c.isRhsVal && !c.isSame) plan)
    (hperm : plan.tables.Perm (first :: tables)) :
    (plan.tree.eval (db.scanRows first conds) (fun _ => []) db.sat).Perm (db.combinations (first :: tables) conds) := by
  have hsat : ∀ c e e', (∀ i ∈ Condition.tabs c, e i = e' i) → db.sat c e = db.sat c e' := fun _ _ _ h =>
    Database.sat_congr h
  have hscan := combos_filter db.rows (fun _ => ([] : Bytes))
    (fun t rec => (scanConds first conds t).all (db.sat · fun _ => rec)) hb.nodup
  have hcombos : combos (db.scanRows first conds) (fun _ => []) plan.tables =
      (combos db.rows (fun _ => []) plan.tables).filter fun e =>
        plan.tables.all fun t => (scanConds first conds t).all (db.sat · fun _ => e t) := hscan
  rw [JoinTree.eval_eq _ _ _ hsat hb.nodup hb.placed]
  change (List.filter _ (combos _ _ plan.tables)).Perm _
  rw [hcombos, List.filter_filter, Database.combinations]
  refine (((combos_perm db.rows (fun _ => []) hperm hb.nodup).filter _)).trans (List.Perm.of_eq ?_)
  refine List.filter_congr fun e he => ?_
  have hfirst : e first ∈ db.rows first := mem_combos _ _ he first List.mem_cons_self
  have hiff := all_conds_iff (fun c hm => (hc c hm).1) hplace hfirst
  -- the joins have the conditions between two tables, some of them exchanged
  have hjoin : plan.tree.conds.all (db.sat · e) = true ↔
      ∀ c ∈ conds, c.isRhsVal = false → c.isSame = false → db.sat c e = true := by
    have hcross : ∀ c ∈ conds.filter (fun c => !c.isRhsVal && !c.isSame), c ∈ conds ∧ c.isRhsVal = false ∧
        c.isSame = false := by
      intro c hm
      obtain ⟨hm, hp⟩ := List.mem_filter.1 hm
      simp only [Bool.and_eq_true, Bool.not_eq_true'] at hp
      exact ⟨hm, hp⟩
    have hswap : ∀ c ∈ conds.filter (fun c => !c.isRhsVal && !c.isSame), db.sat c.swap e = db.sat c e := by
      intro c hm
      obtain ⟨hm, hv, -⟩ := hcross c hm
      exact Database.sat_swap (hc c hm).1 hv e
    rw [List.all_eq_true]
    constructor
    · intro h c hm hv hs
      have hmem : c ∈ conds.filter fun c => !c.isRhsVal && !c.isSame := List.mem_filter.2 ⟨hm, by simp [hv, hs]⟩
      rcases hb.conds.mem_right hmem with hd | hd
      · exact h c hd
      · exact (hswap c hmem).symm.trans (h c.swap hd)
    · intro h d hd
      rcases hb.conds.mem_left hd with hm | hm
      · obtain ⟨hm, hv, hs⟩ := hcross d hm
        exact h d hm hv hs
      · have hsw := hswap _ hm
        rw [Condition.swap_swap] at hsw
        obtain ⟨hm, hv, hs⟩ := hcross _ hm
        exact hsw.trans (h _ hm hv hs)
  rw [Bool.eq_iff_iff, Bool.and_eq_true, hjoin, List.all_eq_true, List.all_eq_true, ← hiff, and_comm]
  simp only [List.all_eq_true, hperm.mem_iff]

end answers

theorem Knobs.joinTag_ok {knobs : Knobs} : (∃ tag, knobs.joinTag = .ok tag) ↔
    knobs.enableNestedloopJoin = true ∨ knobs.enableSortmergeJoin = true := by
  unfold Knobs.joinTag
  cases knobs.enableNestedloopJoin <;> cases knobs.enableSortmergeJoin <;> simp

/-- `c(s CHAR(2))` and `d(s CHAR(1), u CHAR(1))`, with one row each. -/
def charTables : Database := tableDatabase
  [⟨⟨"c", [⟨"c", "s", .string, 2, 0⟩], []⟩, 2, [[97, 0]], by simp, by simp [ColMeta.Inside], by simp [ColMeta.Sized],
      by simp⟩,
    ⟨⟨"d", [⟨"d", "s", .string, 1, 0⟩, ⟨"d", "u", .string, 1, 1⟩], []⟩, 2, [[97, 98]], by simp,
      by simp [ColMeta.Inside], by simp [ColMeta.Sized], by simp⟩]

/-- `SELECT * FROM c, d WHERE c.s = d.s`: the comparison reads on behind the shorter column. -/
theorem not_answers_charTables : analyzeSelect charTables ["c", "d"] [⟨⟨"c", "s"⟩, .eq, .inr ⟨"d", "s"⟩⟩] =
      .ok [⟨⟨"c", "s"⟩, .eq, false, ⟨"d", "s"⟩, ⟨.int 0, none⟩⟩] ∧
    ¬charTables.Answers ["c", "d"] [⟨⟨"c", "s"⟩, .eq, false, ⟨"d", "s"⟩, ⟨.int 0, none⟩⟩]
      (makeOneRel charTables ⟨true, false⟩ ["c", "d"] [⟨⟨"c", "s"⟩, .eq, false, ⟨"d", "s"⟩, ⟨.int 0, none⟩⟩]) := by
  refine ⟨rfl, ?_⟩
  rintro ⟨plan, rows, hplan, hexec, -, hperm⟩
  have hnil : (makeOneRel charTables ⟨true, false⟩ ["c", "d"] [⟨⟨"c", "s"⟩, .eq, false, ⟨"d", "s"⟩, ⟨.int 0, none⟩⟩] >>=
      fun plan => Outcome.ofExcept (plan.exec charTables)) = pure [] := rfl
  rw [hplan, pure_bind, hexec] at hnil
  cases hnil
  have hlen := hperm.length_eq
  rw [List.length_map] at hlen
  have hone : (charTables.combinations ["c", "d"]
      [⟨⟨"c", "s"⟩, .eq, false, ⟨"d", "s"⟩, ⟨.int 0, none⟩⟩]).length = 1 := rfl
  rw [hone] at hlen
  cases hlen

end Rmdb
