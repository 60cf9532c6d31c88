import Mathlib.Data.Multiset.AddSub
import Rmdb.Execution.Executor
import Rmdb.Execution.Scans
import Rmdb.Lib.JoinTree
import Rmdb.Optimizer.Analyze

/-!
# The join planner

- `popConds`, `getIndexCols` and `tableScans`: each table gets a scan with the conditions that are taken off the query
  for it;
- `pushConds`, `popScan` and `makeOneRel` of `planner.cpp`: the tree of joins, one join condition after the other;
- `Built`: what holds of the tree after each turn of the loop, and `makeOneRel_built` for the tree that is returned;
- `makeOneRel_complete`: each table has one scan in it, and each condition of the query stands at one node.
-/

namespace Rmdb

open Lib

/-! ## Scans -/

/-- `pop_conds`: the conditions for the scan of a table, and those that stay in the query. -/
def popConds (conds : List Condition) (tabName : TabName) : List Condition × List Condition :=
  conds.partition fun cond =>
    (tabName = cond.lhsCol.tabName && cond.isRhsVal) || cond.lhsCol.tabName = cond.rhsCol.tabName

/-- The loop of `get_index_cols` over the columns of an index: the length of the prefix that the conditions fix. -/
def matchedCols (tabName : TabName) (currConds : List Condition) : List ColMeta → Nat
  | [] => 0
  | col :: cols =>
    let onCol := currConds.filter fun cond =>
      cond.isRhsVal && cond.lhsCol.tabName = tabName && cond.lhsCol.colName = col.name
    if onCol.any (·.op = .eq) then 1 + matchedCols tabName currConds cols
    -- a range ends the prefix
    else if onCol.any (·.op ≠ .ne) then 1
    else 0

/-- `get_index_cols`: the columns of the first index with a prefix. -/
def Database.getIndexCols (db : Database) (tabName : TabName) (currConds : List Condition) :
    Except RMDBError (Option (List String)) := do
  let tab ← db.getTable tabName
  return (tab.indexes.find? fun index => 0 < matchedCols tabName currConds index.cols).map fun index =>
    index.cols.map (·.name)

/-- The first loop of `make_one_rel`: the scans, and the conditions that are left for the joins. -/
def tableScans (db : Database) : List TabName → List Condition → Except RMDBError (List ScanPlan × List Condition)
  | [], conds => .ok ([], conds)
  | tabName :: tables, conds => do
    let popped := popConds conds tabName
    let indexColNames ← db.getIndexCols tabName popped.1
    let (plans, conds) ← tableScans db tables popped.2
    return (⟨tabName, popped.1, indexColNames⟩ :: plans, conds)

/-- A comparison of two columns of one table. -/
def Condition.isSame (cond : Condition) : Bool := cond.lhsCol.tabName = cond.rhsCol.tabName

/-- A comparison of a column of the table with a literal. -/
def Condition.isLiteralOn (tabName : TabName) (cond : Condition) : Bool :=
  tabName = cond.lhsCol.tabName && cond.isRhsVal

theorem popConds_eq (conds : List Condition) (tabName : TabName) :
    popConds conds tabName = (conds.filter fun cond => cond.isLiteralOn tabName || cond.isSame,
      conds.filter fun cond => !(cond.isLiteralOn tabName || cond.isSame)) := List.partition_eq_filter_filter

theorem Database.getIndexCols_ok {db : Database} {tabName : TabName} {T : Table} (h : db.tab tabName = some T)
    (currConds : List Condition) : ∃ cols, db.getIndexCols tabName currConds = .ok cols := by
  rw [Database.getIndexCols, Database.getTable, h]
  exact ⟨_, rfl⟩

theorem tableScans_cons {db : Database} {t : TabName} {T : Table} (hT : db.tab t = some T) {tables : List TabName}
    {conds rest : List Condition} {plans : List ScanPlan}
    (h : tableScans db tables (popConds conds t).2 = .ok (plans, rest)) :
    ∃ cols, tableScans db (t :: tables) conds = .ok (⟨t, (popConds conds t).1, cols⟩ :: plans, rest) := by
  obtain ⟨cols, hcols⟩ := Database.getIndexCols_ok hT (popConds conds t).1
  exact ⟨cols, by simp [tableScans, hcols, h, bind, Except.bind, pure, Except.pure]⟩

/-- Over tables of the catalogue the scans are built. -/
theorem tableScans_ok {db : Database} : ∀ {tables : List TabName}, (∀ t ∈ tables, ∃ T, db.tab t = some T) →
    ∀ conds : List Condition, ∃ plans cross, tableScans db tables conds = .ok (plans, cross)
  | [], _, conds => ⟨[], conds, rfl⟩
  | t :: tables, htab, conds => by
    obtain ⟨T, hT⟩ := htab t List.mem_cons_self
    obtain ⟨plans, cross, h⟩ := tableScans_ok (fun t' h => htab t' (List.mem_cons_of_mem _ h)) (popConds conds t).2
    obtain ⟨cols, hcols⟩ := tableScans_cons hT h
    exact ⟨_, cross, hcols⟩

/-- Where no column is compared with one of its own table, a scan gets the literals of its table. -/
theorem tableScans_literals {db : Database} : ∀ {tables : List TabName} {conds : List Condition}, tables.Nodup →
    (∀ t ∈ tables, ∃ T, db.tab t = some T) → (∀ c ∈ conds, c.isSame = false) →
    ∃ plans, tableScans db tables conds =
        .ok (plans, conds.filter fun c => !(tables.contains c.lhsCol.tabName && c.isRhsVal)) ∧
      plans.map (·.tabName) = tables ∧ ∀ p ∈ plans, p.conds = conds.filter (Condition.isLiteralOn p.tabName)
  | [], conds, _, _, _ => ⟨[], by simp [tableScans], rfl, fun p hp => by cases hp⟩
  | t :: tables, conds, hn, htab, hc => by
    obtain ⟨ht, hn⟩ := List.nodup_cons.1 hn
    obtain ⟨T, hT⟩ := htab t List.mem_cons_self
    have hpop : popConds conds t =
        (conds.filter (Condition.isLiteralOn t), conds.filter (!Condition.isLiteralOn t ·)) := by
      rw [popConds_eq]
      congr 1 <;> exact List.filter_congr fun c h => by simp [hc c h]
    have hrest : ∀ c ∈ (popConds conds t).2, c.isSame = false := by
      rw [hpop]
      exact fun c h => hc c (List.mem_of_mem_filter h)
    obtain ⟨plans, hplans, hnames, hp⟩ := tableScans_literals hn (fun t' h => htab t' (List.mem_cons_of_mem _ h)) hrest
    obtain ⟨cols, hcols⟩ := tableScans_cons hT hplans
    refine ⟨⟨t, (popConds conds t).1, cols⟩ :: plans, ?_, by rw [List.map_cons, hnames], ?_⟩
    · rw [hcols, hpop, List.filter_filter]
      congr 2
      refine List.filter_congr fun c _ => ?_
      simp only [Condition.isLiteralOn, List.contains_cons]
      cases c.isRhsVal
      · simp
      · by_cases h : t = c.lhsCol.tabName
        · simp [h]
        · have h' : (c.lhsCol.tabName == t) = false := beq_eq_false_iff_ne.2 fun he => h he.symm
          simp [h, h']
    · intro p h
      rcases List.mem_cons.1 h with rfl | h
      · rw [hpop]
      · rw [hp p h, hpop, List.filter_filter]
        refine List.filter_congr fun c _ => ?_
        have hne : t ≠ p.tabName := by
          intro he
          apply ht
          rw [he, ← hnames]
          exact List.mem_map_of_mem h
        simp only [Condition.isLiteralOn]
        by_cases he : p.tabName = c.lhsCol.tabName
        · have hne' : t ≠ c.lhsCol.tabName := he ▸ hne
          simp [he, hne']
        · simp [he]

/-- **The scans of a query**: the first table takes every comparison within one table, whatever table that is. -/
theorem tableScans_spec {db : Database} {t : TabName} {tables : List TabName} {conds : List Condition}
    (hn : (t :: tables).Nodup) (htab : ∀ t' ∈ t :: tables, ∃ T, db.tab t' = some T)
    (hc : ∀ c ∈ conds, c.lhsCol.tabName ∈ t :: tables ∧ (c.isRhsVal = true → c.isSame = false)) :
    ∃ p ps, tableScans db (t :: tables) conds =
        .ok (p :: ps, conds.filter fun c => !c.isRhsVal && !c.isSame) ∧
      p.tabName = t ∧ p.conds = conds.filter (fun c => c.isLiteralOn t || c.isSame) ∧
      ps.map (·.tabName) = tables ∧ ∀ q ∈ ps, q.conds = conds.filter (Condition.isLiteralOn q.tabName) := by
  obtain ⟨ht, hn⟩ := List.nodup_cons.1 hn
  obtain ⟨T, hT⟩ := htab t List.mem_cons_self
  have hpop := popConds_eq conds t
  have hrest : ∀ c ∈ (popConds conds t).2, c.isSame = false := by
    rw [hpop]
    intro c h
    have hnot := (List.mem_filter.1 h).2
    rw [Bool.not_eq_true', Bool.or_eq_false_iff] at hnot
    exact hnot.2
  obtain ⟨plans, hplans, hnames, hp⟩ := tableScans_literals hn (fun t' h => htab t' (List.mem_cons_of_mem _ h)) hrest
  obtain ⟨cols, hcols⟩ := tableScans_cons hT hplans
  refine ⟨⟨t, (popConds conds t).1, cols⟩, plans, ?_, rfl, by rw [hpop], hnames, ?_⟩
  · rw [hcols, hpop, List.filter_filter]
    congr 2
    refine List.filter_congr fun c h => ?_
    obtain ⟨hmem, hsame⟩ := hc c h
    cases hv : c.isRhsVal
    · simp [Condition.isLiteralOn, hv]
    · by_cases he : t = c.lhsCol.tabName
      · simp [Condition.isLiteralOn, hv, he]
      · have hmem' : c.lhsCol.tabName ∈ tables := (List.mem_cons.1 hmem).resolve_left fun h => he h.symm
        simp [hmem']
  · intro q h
    rw [hp q h, hpop, List.filter_filter]
    refine List.filter_congr fun c hcm => ?_
    have hne : t ≠ q.tabName := by
      intro he
      apply ht
      rw [he, ← hnames]
      exact List.mem_map_of_mem h
    simp only [Condition.isLiteralOn]
    cases hv : c.isRhsVal
    · simp
    · by_cases he : q.tabName = c.lhsCol.tabName
      · have hne' : t ≠ c.lhsCol.tabName := he ▸ hne
        simp [he, hne', (hc c hcm).2 hv]
      · simp [he]

/-! ## Joins -/

inductive JoinTag
  | nestLoop | sortMerge
  deriving DecidableEq, Repr

/-- The plans below the sort. -/
inductive RelPlan
  | scan (plan : ScanPlan)
  | join (tag : JoinTag) (left right : RelPlan) (conds : List Condition)

/-- The condition with its sides exchanged. -/
def Condition.swap (cond : Condition) : Condition :=
  { cond with lhsCol := cond.rhsCol, rhsCol := cond.lhsCol, op := cond.op.swap }

/-- `push_conds`: `3` when the condition was put at a join; before, which of its sides is below, `1` the left one and
`2` the right one. -/
def pushConds (cond : Condition) : RelPlan → Nat × RelPlan
  | .scan plan =>
    (if plan.tabName = cond.lhsCol.tabName then 1 else if plan.tabName = cond.rhsCol.tabName then 2 else 0, .scan plan)
  | .join tag left right conds =>
    let l := pushConds cond left
    if l.1 = 3 then (3, .join tag l.2 right conds)
    else
      let r := pushConds cond right
      if r.1 = 3 then (3, .join tag left r.2 conds)
      else if l.1 = 0 ∨ r.1 = 0 then (l.1 + r.1, .join tag left right conds)
      else (3, .join tag left right (conds ++ [if l.1 = 2 then cond.swap else cond]))

/-- Each scan with its entry of `scantbl`, and the tables that were joined. -/
structure Scans where
  scantbl : List (ScanPlan × Bool)
  joinedTables : List TabName

/-- The loop of `pop_scan`. -/
def takeScan (table : TabName) : List (ScanPlan × Bool) → Option ScanPlan × List (ScanPlan × Bool)
  | [] => (none, [])
  | (plan, taken) :: scans =>
    if plan.tabName = table then (some plan, (plan, true) :: scans)
    else ((takeScan table scans).1, (plan, taken) :: (takeScan table scans).2)

/-- `pop_scan`. -/
def popScan (scans : Scans) (table : TabName) : Option ScanPlan × Scans :=
  match takeScan table scans.scantbl with
  | (some plan, scantbl) => (some plan, ⟨scantbl, scans.joinedTables ++ [table]⟩)
  | (none, _) => (none, scans)

/-- `pop_scan` of a table that is not joined yet. -/
def needScan (scans : Scans) (table : TabName) : Option ScanPlan × Scans :=
  if table ∈ scans.joinedTables then (none, scans) else popScan scans table

/-- A turn of the loop over the join conditions. A join that would get no child stops the process. -/
def joinCond (scans : Scans) (plan : RelPlan) (cond : Condition) : Outcome (Scans × RelPlan) :=
  let (left, scans) := needScan scans cond.lhsCol.tabName
  let isNeedReverse : Bool := cond.rhsCol.tabName ∉ scans.joinedTables
  let (right, scans) := needScan scans cond.rhsCol.tabName
  match left, right with
  | some left, some right =>
    pure (scans, .join .nestLoop (.join .nestLoop (.scan left) (.scan right) [cond]) plan [])
  | none, none => pure (scans, (pushConds cond plan).2)
  | left, right =>
    match if isNeedReverse then (right, cond.swap) else (left, cond) with
    | (some scan, cond) => pure (scans, .join .nestLoop (.scan scan) plan [cond])
    | (none, _) => Outcome.halt

def joinConds (scans : Scans) (plan : RelPlan) : List Condition → Outcome (Scans × RelPlan)
  | [] => pure (scans, plan)
  | cond :: conds => do
    let (scans, plan) ← joinCond scans plan cond
    joinConds scans plan conds

/-- The last loop of `make_one_rel`: the tables without a join condition. -/
def joinRest (plan : RelPlan) : List (ScanPlan × Bool) → RelPlan
  | [] => plan
  | (scan, taken) :: scans =>
    joinRest (if taken then plan else .join .nestLoop (.scan scan) plan []) scans

/-- The switches of the session. -/
structure Knobs where
  enableNestedloopJoin : Bool
  enableSortmergeJoin : Bool

/-- The join of the first condition. -/
def Knobs.joinTag (knobs : Knobs) : Except RMDBError JoinTag :=
  if knobs.enableNestedloopJoin then .ok .nestLoop
  else if knobs.enableSortmergeJoin then .ok .sortMerge
  else .error (.rmdb "No join executor selected!")

theorem Knobs.joinTag_error {knobs : Knobs} (h : ¬∃ tag, knobs.joinTag = .ok tag) :
    knobs.joinTag = .error (.rmdb "No join executor selected!") ∧ knobs.enableNestedloopJoin = false ∧
      knobs.enableSortmergeJoin = false := by
  unfold Knobs.joinTag at h ⊢
  cases hn : knobs.enableNestedloopJoin <;> cases hs : knobs.enableSortmergeJoin <;> simp [hn, hs] at h ⊢

/-- The first join. -/
def firstJoin (knobs : Knobs) (scans : Scans) (cond : Condition) : Outcome (Scans × RelPlan) := do
  let (left, scans) := popScan scans cond.lhsCol.tabName
  let (right, scans) := popScan scans cond.rhsCol.tabName
  let tag ← Outcome.ofExcept knobs.joinTag
  match left, right with
  | some left, some right => pure (scans, .join tag (.scan left) (.scan right) [cond])
  | _, _ => Outcome.halt

/-- `make_one_rel`. -/
def makeOneRel (db : Database) (knobs : Knobs) (tables : List TabName) (conds : List Condition) : Outcome RelPlan := do
  let (plans, conds) ← Outcome.ofExcept (tableScans db tables conds)
  match plans, conds with
  | [], _ => Outcome.halt
  | [plan], _ => pure (.scan plan)
  | plan :: plans, [] => pure (joinRest (.scan plan) ((plan, true) :: plans.map (·, false)))
  | plans, cond :: conds => do
    let scans : Scans := ⟨plans.map (·, false), List.replicate tables.length ""⟩
    let (scans, plan) ← firstJoin knobs scans cond
    let (scans, plan) ← joinConds scans plan conds
    return joinRest plan scans.scantbl

/-! ## The shape of a plan -/

/-- The tables that a condition speaks about. -/
def Condition.tabs (cond : Condition) : List TabName := [cond.lhsCol.tabName, cond.rhsCol.tabName]

namespace RelPlan

def scans : RelPlan → List ScanPlan
  | scan plan => [plan]
  | join _ left right _ => left.scans ++ right.scans

/-- The tree of the joins alone. -/
def tree : RelPlan → JoinTree TabName Condition
  | scan plan => .leaf plan.tabName
  | join _ left right conds => .join left.tree right.tree conds

/-- The tables, in the order of their columns. -/
def tables (plan : RelPlan) : List TabName := plan.tree.leaves

theorem tables_eq : ∀ plan : RelPlan, plan.tables = plan.scans.map (·.tabName)
  | scan _ => rfl
  | join _ left right _ => by
    have hl := tables_eq left
    have hr := tables_eq right
    rw [tables] at hl hr
    rw [tables, tree, JoinTree.leaves, scans, List.map_append, hl, hr]

end RelPlan

@[simp]
theorem CompOp.swap_swap (op : CompOp) : op.swap.swap = op := by
  cases op <;> rfl

theorem evalCompare_swap (cmp : Int) (op : CompOp) : evalCompare (-cmp) op.swap = evalCompare cmp op := by
  cases op <;> simp only [CompOp.swap, evalCompare, bne]
  case eq | ne => simp
  all_goals
    congr 1
    simp

@[simp]
theorem Condition.swap_swap (cond : Condition) : cond.swap.swap = cond := by
  simp [Condition.swap]

/-- The same condition, possibly with its sides exchanged. -/
def Condition.Same (d c : Condition) : Prop := d = c ∨ d = c.swap

/-- The same conditions, each as often, some of them with their sides exchanged. -/
def SameConds (ds cs : List Condition) : Prop := Multiset.Rel Condition.Same (ds : Multiset Condition) cs

namespace SameConds

theorem refl (cs : List Condition) : SameConds cs cs := Multiset.rel_refl_of_refl_on fun _ _ => .inl rfl

theorem swap (cond : Condition) : SameConds [cond.swap] [cond] := Multiset.Rel.cons (.inr rfl) Multiset.Rel.zero

theorem append {ds ds' cs cs' : List Condition} (h : SameConds ds cs) (h' : SameConds ds' cs') :
    SameConds (ds ++ ds') (cs ++ cs') := by
  unfold SameConds
  rw [← Multiset.coe_add, ← Multiset.coe_add]
  exact Multiset.Rel.add h h'

theorem of_perm {ds ds' cs : List Condition} (h : SameConds ds cs) (hp : ds'.Perm ds) : SameConds ds' cs := by
  unfold SameConds
  rw [Multiset.coe_eq_coe.2 hp]
  exact h

theorem trans_perm {ds cs cs' : List Condition} (h : SameConds ds cs) (hp : cs.Perm cs') : SameConds ds cs' := by
  unfold SameConds
  rw [← Multiset.coe_eq_coe.2 hp]
  exact h

theorem mem_left {ds cs : List Condition} (h : SameConds ds cs) {d : Condition} (hd : d ∈ ds) :
    d ∈ cs ∨ d.swap ∈ cs := by
  obtain ⟨c, hc, rfl | rfl⟩ := Multiset.exists_mem_of_rel_of_mem h (Multiset.mem_coe.2 hd)
  · exact .inl hc
  · rw [Condition.swap_swap]
    exact .inr hc

theorem mem_right {ds cs : List Condition} (h : SameConds ds cs) {c : Condition} (hc : c ∈ cs) :
    c ∈ ds ∨ c.swap ∈ ds := by
  obtain ⟨d, hd, rfl | rfl⟩ := Multiset.exists_mem_of_rel_of_mem (Multiset.rel_flip.2 h) (Multiset.mem_coe.2 hc)
  · exact .inl hd
  · exact .inr hd

end SameConds

/-- The tree so far: each of its scans is one of the plans, no table occurs twice, and the conditions that were used
stand where both of their tables are below. -/
structure Built (plans : List ScanPlan) (used : List Condition) (plan : RelPlan) : Prop where
  scans : ∀ p ∈ plan.scans, p ∈ plans
  nodup : plan.tables.Nodup
  placed : plan.tree.Placed Condition.tabs
  conds : SameConds plan.tree.conds used

namespace Built

variable {plans : List ScanPlan}

theorem scan {p : ScanPlan} (h : p ∈ plans) : Built plans [] (.scan p) where
  scans q hq := by
    rwa [List.mem_singleton.1 hq]
  nodup := by simp [RelPlan.tables, RelPlan.tree, JoinTree.leaves]
  placed := trivial
  conds := SameConds.refl []

theorem join {l r : RelPlan} {usedL usedR used cs : List Condition} (hl : Built plans usedL l)
    (hr : Built plans usedR r) (hdisj : ∀ t ∈ l.tables, t ∉ r.tables) (hcs : SameConds cs used)
    (hplaced : ∀ c ∈ cs, ∀ t ∈ c.tabs, t ∈ l.tables ++ r.tables) (tag : JoinTag) :
    Built plans (usedL ++ usedR ++ used) (.join tag l r cs) where
  scans p hp := (List.mem_append.1 hp).elim (hl.scans p) (hr.scans p)
  nodup := List.nodup_append.2 ⟨hl.nodup, hr.nodup, fun t ht _ ht' he => hdisj t ht (he ▸ ht')⟩
  placed := ⟨hl.placed, hr.placed, hplaced⟩
  conds := (hl.conds.append hr.conds).append hcs

end Built

/-! ## The push of a condition -/

/-- One more condition in the tree. -/
structure Pushed (cond : Condition) (plan plan' : RelPlan) : Prop where
  scans : plan'.scans = plan.scans
  placed : plan.tree.Placed Condition.tabs → plan'.tree.Placed Condition.tabs
  conds : ∃ c, (c = cond ∨ c = cond.swap) ∧ plan'.tree.conds.Perm (plan.tree.conds ++ [c])

theorem Pushed.tables {cond : Condition} {plan plan' : RelPlan} (h : Pushed cond plan plan') :
    plan'.tables = plan.tables := by
  rw [RelPlan.tables_eq, RelPlan.tables_eq, h.scans]

theorem Pushed.built {plans : List ScanPlan} {used : List Condition} {cond : Condition} {plan plan' : RelPlan}
    (h : Pushed cond plan plan') (hb : Built plans used plan) : Built plans (used ++ [cond]) plan' where
  scans := by
    rw [h.scans]
    exact hb.scans
  nodup := by
    rw [h.tables]
    exact hb.nodup
  placed := h.placed hb.placed
  conds := by
    obtain ⟨c, hc, hperm⟩ := h.conds
    refine SameConds.of_perm ?_ hperm
    apply hb.conds.append
    rcases hc with rfl | rfl
    · exact SameConds.refl _
    · exact SameConds.swap cond

namespace Pushed

variable {cond : Condition} {l r : RelPlan} {cs : List Condition}

/-- At this join. -/
theorem here (tag : JoinTag) {c : Condition} (hc : c = cond ∨ c = cond.swap)
    (hL : cond.lhsCol.tabName ∈ l.tables ∨ cond.lhsCol.tabName ∈ r.tables)
    (hR : cond.rhsCol.tabName ∈ l.tables ∨ cond.rhsCol.tabName ∈ r.tables) :
    Pushed cond (.join tag l r cs) (.join tag l r (cs ++ [c])) := by
  have hplaced : ∀ t ∈ c.tabs, t ∈ l.tables ++ r.tables := by
    intro t ht
    rw [List.mem_append]
    rcases hc with rfl | rfl <;> simp only [Condition.tabs, Condition.swap, List.mem_cons, List.not_mem_nil,
      or_false] at ht <;> rcases ht with rfl | rfl <;> assumption
  refine ⟨rfl, fun hp => ⟨hp.1, hp.2.1, fun d hd => ?_⟩, c, hc, ?_⟩
  · rcases List.mem_append.1 hd with hd | hd
    · exact hp.2.2 d hd
    · rw [List.mem_singleton.1 hd]
      exact hplaced
  · rw [RelPlan.tree, JoinTree.conds, RelPlan.tree, JoinTree.conds, ← List.append_assoc]

theorem joinLeft (tag : JoinTag) {l' : RelPlan} (h : Pushed cond l l') :
    Pushed cond (.join tag l r cs) (.join tag l' r cs) := by
  have htab := h.tables
  obtain ⟨hs, hp, c, hc, hperm⟩ := h
  refine ⟨by rw [RelPlan.scans, RelPlan.scans, hs], fun h => ⟨hp h.1, h.2.1, ?_⟩, c, hc, ?_⟩
  · rw [← RelPlan.tables, htab]
    exact h.2.2
  · simp only [RelPlan.tree, JoinTree.conds]
    refine ((hperm.append_right _).append_right _).trans ?_
    simp only [List.append_assoc]
    exact List.Perm.append_left _ (List.perm_append_comm.trans (by simp))

theorem joinRight (tag : JoinTag) {r' : RelPlan} (h : Pushed cond r r') :
    Pushed cond (.join tag l r cs) (.join tag l r' cs) := by
  have htab := h.tables
  obtain ⟨hs, hp, c, hc, hperm⟩ := h
  refine ⟨by rw [RelPlan.scans, RelPlan.scans, hs], fun h => ⟨h.1, hp h.2.1, ?_⟩, c, hc, ?_⟩
  · rw [← RelPlan.tables, ← RelPlan.tables, htab]
    exact h.2.2
  · simp only [RelPlan.tree, JoinTree.conds]
    refine ((hperm.append_left _).append_right _).trans ?_
    simp only [List.append_assoc]
    exact List.Perm.append_left _ (List.Perm.append_left _ List.perm_append_comm)

end Pushed

/-- **A push goes to the lowest join with both tables**; below it the side that is there is reported. -/
theorem pushConds_spec {cond : Condition} (hne : cond.lhsCol.tabName ≠ cond.rhsCol.tabName) :
    ∀ {plan : RelPlan}, plan.tables.Nodup →
    (cond.lhsCol.tabName ∈ plan.tables → cond.rhsCol.tabName ∈ plan.tables →
      ∃ plan', pushConds cond plan = (3, plan') ∧ Pushed cond plan plan') ∧
    (cond.lhsCol.tabName ∈ plan.tables → cond.rhsCol.tabName ∉ plan.tables → pushConds cond plan = (1, plan)) ∧
    (cond.lhsCol.tabName ∉ plan.tables → cond.rhsCol.tabName ∈ plan.tables → pushConds cond plan = (2, plan)) ∧
    (cond.lhsCol.tabName ∉ plan.tables → cond.rhsCol.tabName ∉ plan.tables → pushConds cond plan = (0, plan))
  | .scan p, _ => by
    have hmem : ∀ t, t ∈ (RelPlan.scan p).tables ↔ p.tabName = t := fun t => by
      rw [RelPlan.tables, RelPlan.tree, JoinTree.leaves, List.mem_singleton, eq_comm]
    simp only [hmem, pushConds]
    refine ⟨fun hl hr => absurd (hl.symm.trans hr) hne, fun hl _ => ?_, fun hl hr => ?_, fun hl hr => ?_⟩
    · rw [if_pos hl]
    · rw [if_neg hl, if_pos hr]
    · rw [if_neg hl, if_neg hr]
  | .join tag l r cs, hn => by
    obtain ⟨hnl, hnr, hdisj⟩ := List.nodup_append.1 hn
    have hmem : ∀ t, t ∈ (RelPlan.join tag l r cs).tables ↔ t ∈ l.tables ∨ t ∈ r.tables := fun t => List.mem_append
    have hone : ∀ t, t ∈ l.tables → t ∉ r.tables := fun t ht ht' => hdisj t ht t ht' rfl
    obtain ⟨l3, l1, l2, l0⟩ := pushConds_spec hne hnl
    obtain ⟨r3, r1, r2, r0⟩ := pushConds_spec hne hnr
    simp only [hmem]
    by_cases hLl : cond.lhsCol.tabName ∈ l.tables <;> by_cases hRl : cond.rhsCol.tabName ∈ l.tables
    · obtain ⟨l', hl', hpush⟩ := l3 hLl hRl
      refine ⟨fun _ _ => ⟨_, by simp [pushConds, hl'], hpush.joinLeft tag⟩, ?_, ?_, ?_⟩ <;> simp [hLl, hRl]
    · have hLr := hone _ hLl
      have hpl := l1 hLl hRl
      by_cases hRr : cond.rhsCol.tabName ∈ r.tables
      · have hpr := r2 hLr hRr
        have hpush : Pushed cond (.join tag l r cs) (.join tag l r (cs ++ [cond])) :=
          Pushed.here tag (.inl rfl) (.inl hLl) (.inr hRr)
        refine ⟨fun _ _ => ⟨_, by simp [pushConds, hpl, hpr], hpush⟩, ?_, ?_, ?_⟩ <;> simp [hLl, hRr]
      · have hpr := r0 hLr hRr
        refine ⟨?_, fun _ _ => by simp [pushConds, hpl, hpr], ?_, ?_⟩ <;> simp [hLl, hRl, hRr]
    · have hRr := hone _ hRl
      have hpl := l2 hLl hRl
      by_cases hLr : cond.lhsCol.tabName ∈ r.tables
      · have hpr := r1 hLr hRr
        have hpush : Pushed cond (.join tag l r cs) (.join tag l r (cs ++ [cond.swap])) :=
          Pushed.here tag (.inr rfl) (.inr hLr) (.inl hRl)
        refine ⟨fun _ _ => ⟨_, by simp [pushConds, hpl, hpr], hpush⟩, ?_, ?_, ?_⟩ <;> simp [hRl, hLr]
      · have hpr := r0 hLr hRr
        refine ⟨?_, ?_, fun _ _ => by simp [pushConds, hpl, hpr], ?_⟩ <;> simp [hLl, hRl, hLr]
    · have hpl := l0 hLl hRl
      by_cases hLr : cond.lhsCol.tabName ∈ r.tables <;> by_cases hRr : cond.rhsCol.tabName ∈ r.tables
      · obtain ⟨r', hr', hpush⟩ := r3 hLr hRr
        refine ⟨fun _ _ => ⟨_, by simp [pushConds, hpl, hr'], hpush.joinRight tag⟩, ?_, ?_, ?_⟩ <;> simp [hLr, hRr]
      · have hpr := r1 hLr hRr
        refine ⟨?_, fun _ _ => by simp [pushConds, hpl, hpr], ?_, ?_⟩ <;> simp [hRl, hLr, hRr]
      · have hpr := r2 hLr hRr
        refine ⟨?_, ?_, fun _ _ => by simp [pushConds, hpl, hpr], ?_⟩ <;> simp [hLl, hLr, hRr]
      · have hpr := r0 hLr hRr
        refine ⟨?_, ?_, ?_, fun _ _ => by simp [pushConds, hpl, hpr]⟩ <;> simp [hLl, hRl, hLr, hRr]

/-! ## The loop over the join conditions -/

/-- `scantbl` marks the tables of the tree, and these are the joined tables. -/
structure Flags (plans : List ScanPlan) (tables : List TabName) (scans : Scans) : Prop where
  scantbl : scans.scantbl = plans.map fun p => (p, decide (p.tabName ∈ tables))
  joined : ∀ t, t ≠ "" → (t ∈ scans.joinedTables ↔ t ∈ tables)

theorem Flags.congr {plans : List ScanPlan} {tables tables' : List TabName} {scans : Scans}
    (h : Flags plans tables scans) (ht : ∀ t, t ∈ tables ↔ t ∈ tables') : Flags plans tables' scans := by
  refine ⟨?_, fun t hne => (h.joined t hne).trans (ht t)⟩
  rw [h.scantbl]
  simp only [ht]

theorem takeScan_spec {table : TabName} (tables : List TabName) : ∀ {plans : List ScanPlan},
    (plans.map (·.tabName)).Nodup → table ∈ plans.map (·.tabName) → ∃ p ∈ plans, p.tabName = table ∧
      takeScan table (plans.map fun p => (p, decide (p.tabName ∈ tables))) =
        (some p, plans.map fun p => (p, decide (p.tabName ∈ table :: tables)))
  | q :: plans, hn, ht => by
    obtain ⟨hq, hn⟩ := List.nodup_cons.1 hn
    simp only [List.map_cons, takeScan]
    by_cases he : q.tabName = table
    · refine ⟨q, List.mem_cons_self, he, ?_⟩
      have hrest : ∀ p ∈ plans, (p.tabName ∈ table :: tables ↔ p.tabName ∈ tables) := by
        intro p hp
        have hne : p.tabName ≠ table := by
          intro h
          apply hq
          change q.tabName ∈ _
          rw [he, ← h]
          exact List.mem_map_of_mem hp
        simp [hne]
      rw [if_pos he]
      congr 2
      · simp [he]
      · exact List.map_congr_left fun p hp => by simp only [hrest p hp]
    · have hmem : table ∈ plans.map (·.tabName) := (List.mem_cons.1 ht).resolve_left fun h => he h.symm
      obtain ⟨p, hp, hpt, hscan⟩ := takeScan_spec tables hn hmem
      refine ⟨p, List.mem_cons_of_mem _ hp, hpt, ?_⟩
      rw [if_neg he, hscan]
      simp [he]

section

variable {plans : List ScanPlan} (hn : (plans.map (·.tabName)).Nodup)

include hn

theorem popScan_spec {tables : List TabName} {scans : Scans} (h : Flags plans tables scans) {table : TabName}
    (ht : table ∈ plans.map (·.tabName)) : ∃ p ∈ plans, p.tabName = table ∧
      ∃ scans', popScan scans table = (some p, scans') ∧ Flags plans (table :: tables) scans' := by
  obtain ⟨p, hp, hpt, hscan⟩ := takeScan_spec tables hn ht
  refine ⟨p, hp, hpt, ⟨plans.map fun p => (p, decide (p.tabName ∈ table :: tables)), scans.joinedTables ++ [table]⟩, ?_,
    rfl, fun t hne => ?_⟩
  · rw [popScan, h.scantbl, hscan]
  · rw [List.mem_append, List.mem_singleton, List.mem_cons, h.joined t hne, or_comm]

theorem needScan_spec {tables : List TabName} {scans : Scans} (h : Flags plans tables scans) {table : TabName}
    (hne : table ≠ "") (ht : table ∈ plans.map (·.tabName)) :
    (table ∈ tables ∧ needScan scans table = (none, scans)) ∨
    (table ∉ tables ∧ ∃ p ∈ plans, p.tabName = table ∧
      ∃ scans', needScan scans table = (some p, scans') ∧ Flags plans (table :: tables) scans') := by
  by_cases hm : table ∈ tables
  · exact .inl ⟨hm, if_pos ((h.joined table hne).2 hm)⟩
  · refine .inr ⟨hm, ?_⟩
    rw [needScan, if_neg fun hj => hm ((h.joined table hne).1 hj)]
    exact popScan_spec hn h ht

/-- A condition between two different tables of the query. -/
structure Condition.Cross (tables : List TabName) (cond : Condition) : Prop where
  ne : cond.lhsCol.tabName ≠ cond.rhsCol.tabName
  lhs : cond.lhsCol.tabName ∈ tables ∧ cond.lhsCol.tabName ≠ ""
  rhs : cond.rhsCol.tabName ∈ tables ∧ cond.rhsCol.tabName ≠ ""

/-- One turn of the loop: both tables are new, one of them is, or none. -/
theorem joinCond_spec {scans : Scans} {plan : RelPlan} {used : List Condition} (hf : Flags plans plan.tables scans)
    (hb : Built plans used plan) {cond : Condition} (hc : cond.Cross (plans.map (·.tabName))) :
    ∃ scans' plan', joinCond scans plan cond = pure (scans', plan') ∧ Flags plans plan'.tables scans' ∧
      Built plans (used ++ [cond]) plan' := by
  have hbs : ∀ p : ScanPlan, (RelPlan.scan p).tables = [p.tabName] := fun _ => rfl
  have hbj : ∀ tag l r cs, (RelPlan.join tag l r cs).tables = l.tables ++ r.tables := fun _ _ _ _ => rfl
  rcases needScan_spec hn hf hc.lhs.2 hc.lhs.1 with ⟨hL, hneedL⟩ | ⟨hL, l, hl, hlt, scans1, hneedL, hf1⟩
  · rcases needScan_spec hn hf hc.rhs.2 hc.rhs.1 with ⟨hR, hneedR⟩ | ⟨hR, r, hr, hrt, scans2, hneedR, hf2⟩
    · -- both tables are joined
      obtain ⟨plan', hpush, hp⟩ := (pushConds_spec hc.ne hb.nodup).1 hL hR
      refine ⟨scans, plan', by simp [joinCond, hneedL, hneedR, hpush], ?_, hp.built hb⟩
      rwa [hp.tables]
    · -- the right table is new
      have hrev : cond.rhsCol.tabName ∉ scans.joinedTables := fun h => hR ((hf.joined _ hc.rhs.2).1 h)
      refine ⟨scans2, .join .nestLoop (.scan r) plan [cond.swap], by simp [joinCond, hneedL, hneedR, hrev], ?_, ?_⟩
      · rw [hbj, hbs, hrt]
        exact hf2
      · have h := Built.join (Built.scan hr) hb (by simpa [hbs, hrt] using hR) (SameConds.swap cond)
          (by simp [Condition.tabs, Condition.swap, hbs, hrt, hL]) .nestLoop
        simpa using h
  · have hf1' : Flags plans (RelPlan.join .nestLoop (.scan l) plan []).tables scans1 := by
      rw [hbj, hbs, hlt]
      exact hf1
    rcases needScan_spec hn hf1 hc.rhs.2 hc.rhs.1 with ⟨hR, hneedR⟩ | ⟨hR, r, hr, hrt, scans2, hneedR, hf2⟩
    · -- the left table is new
      have hR' : cond.rhsCol.tabName ∈ plan.tables := (List.mem_cons.1 hR).resolve_left hc.ne.symm
      have hrev : cond.rhsCol.tabName ∈ scans1.joinedTables := (hf1.joined _ hc.rhs.2).2 hR
      refine ⟨scans1, .join .nestLoop (.scan l) plan [cond], by simp [joinCond, hneedL, hneedR, hrev], hf1', ?_⟩
      have h := Built.join (Built.scan hl) hb (by simpa [hbs, hlt] using hL) (SameConds.refl [cond])
        (by simp [Condition.tabs, hbs, hlt, hR']) .nestLoop
      simpa using h
    · -- both tables are new
      have hR' : cond.rhsCol.tabName ∉ plan.tables := fun h => hR (List.mem_cons_of_mem _ h)
      refine ⟨scans2, .join .nestLoop (.join .nestLoop (.scan l) (.scan r) [cond]) plan [],
        by simp [joinCond, hneedL, hneedR], ?_, ?_⟩
      · refine hf2.congr fun t => ?_
        simp only [hbj, hbs, hlt, hrt, List.mem_cons, List.mem_append, List.not_mem_nil, or_false]
        exact or_left_comm.trans or_assoc.symm
      · have hpair := Built.join (Built.scan hl) (Built.scan hr) (by simpa [hbs, hlt, hrt] using hc.ne)
          (SameConds.refl [cond]) (by simp [Condition.tabs, hbs, hlt, hrt]) .nestLoop
        have h := Built.join hpair hb (by simp [hbj, hbs, hlt, hrt, hL, hR']) (SameConds.refl [])
          (fun _ hd => by cases hd) .nestLoop
        refine { h with conds := h.conds.trans_perm ?_ }
        simpa using (List.perm_append_singleton cond used).symm

theorem joinConds_spec : ∀ {conds : List Condition} {scans : Scans} {plan : RelPlan} {used : List Condition},
    Flags plans plan.tables scans → Built plans used plan → (∀ cond ∈ conds, cond.Cross (plans.map (·.tabName))) →
    ∃ scans' plan', joinConds scans plan conds = pure (scans', plan') ∧ Flags plans plan'.tables scans' ∧
      Built plans (used ++ conds) plan'
  | [], scans, plan, used, hf, hb, _ => ⟨scans, plan, rfl, hf, by rwa [List.append_nil]⟩
  | cond :: conds, scans, plan, used, hf, hb, hc => by
    obtain ⟨scans1, plan1, h1, hf1, hb1⟩ := joinCond_spec hn hf hb (hc cond List.mem_cons_self)
    obtain ⟨scans2, plan2, h2, hf2, hb2⟩ := joinConds_spec hf1 hb1 fun c h => hc c (List.mem_cons_of_mem _ h)
    refine ⟨scans2, plan2, ?_, hf2, ?_⟩
    · rw [joinConds, h1, pure_bind]
      exact h2
    · rwa [List.append_assoc] at hb2

/-! ## The plan -/

omit hn in
/-- The tables that no condition joined are joined at last. -/
theorem joinRest_spec (f : ScanPlan → Bool) : ∀ {ps : List ScanPlan} {plan : RelPlan} {used : List Condition},
    (ps.map (·.tabName)).Nodup → (∀ p ∈ ps, p ∈ plans) → (∀ p ∈ ps, f p = true ↔ p.tabName ∈ plan.tables) →
    Built plans used plan → Built plans used (joinRest plan (ps.map fun p => (p, f p))) ∧
      ∀ t, (t ∈ plan.tables ∨ t ∈ ps.map (·.tabName)) → t ∈ (joinRest plan (ps.map fun p => (p, f p))).tables
  | [], plan, used, _, _, _, hb => ⟨hb, fun t ht => ht.elim id fun h => by cases h⟩
  | p :: ps, plan, used, hn, hps, hf, hb => by
    obtain ⟨hp, hn⟩ := List.nodup_cons.1 hn
    have hps' : ∀ q ∈ ps, q ∈ plans := fun q hq => hps q (List.mem_cons_of_mem _ hq)
    have hf' : ∀ q ∈ ps, f q = true ↔ q.tabName ∈ plan.tables := fun q hq => hf q (List.mem_cons_of_mem _ hq)
    have hfp := hf p List.mem_cons_self
    rw [List.map_cons, joinRest]
    by_cases ht : f p = true
    · rw [if_pos ht]
      obtain ⟨h1, h2⟩ := joinRest_spec f hn hps' hf' hb
      refine ⟨h1, fun t h => h2 t ?_⟩
      rw [List.map_cons, List.mem_cons] at h
      rcases h with h | rfl | h
      · exact .inl h
      · exact .inl (hfp.1 ht)
      · exact .inr h
    · rw [if_neg ht]
      have hnot : p.tabName ∉ plan.tables := fun h => ht (hfp.2 h)
      have htabs : ∀ t, t ∈ (RelPlan.join .nestLoop (.scan p) plan []).tables ↔ t = p.tabName ∨ t ∈ plan.tables :=
        fun t => List.mem_cons
      have hb' : Built plans used (.join .nestLoop (.scan p) plan []) := by
        have h := Built.join (Built.scan (hps p List.mem_cons_self)) hb
          (fun t h => by rwa [List.mem_singleton.1 h]) (SameConds.refl []) (fun _ hd => by cases hd) .nestLoop
        simpa using h
      obtain ⟨h1, h2⟩ := joinRest_spec f hn hps' (fun q hq => by
        have hne : q.tabName ≠ p.tabName := fun h => hp (List.mem_map.2 ⟨q, hq, h⟩)
        rw [htabs, hf' q hq, or_iff_right hne]) hb'
      refine ⟨h1, fun t h => h2 t ?_⟩
      rw [htabs]
      rw [List.map_cons, List.mem_cons] at h
      rcases h with h | h | h
      · exact .inl (.inr h)
      · exact .inl (.inl h)
      · exact .inr h

omit hn in
theorem Built.perm {used : List Condition} {plan : RelPlan} (h : Built plans used plan)
    (hn : (plans.map (·.tabName)).Nodup) (hall : ∀ p ∈ plans, p.tabName ∈ plan.tables) :
    plan.tables.Perm (plans.map (·.tabName)) := by
  rw [List.perm_ext_iff_of_nodup h.nodup hn]
  intro t
  constructor
  · intro ht
    rw [RelPlan.tables_eq] at ht
    obtain ⟨p, hp, rfl⟩ := List.mem_map.1 ht
    exact List.mem_map_of_mem (h.scans p hp)
  · intro ht
    obtain ⟨p, hp, rfl⟩ := List.mem_map.1 ht
    exact hall p hp

theorem firstJoin_spec {knobs : Knobs} {tag : JoinTag} (htag : knobs.joinTag = .ok tag) {scans : Scans}
    (hf : Flags plans [] scans) {cond : Condition} (hc : cond.Cross (plans.map (·.tabName))) :
    ∃ scans' plan, firstJoin knobs scans cond = pure (scans', plan) ∧ Flags plans plan.tables scans' ∧
      Built plans [cond] plan := by
  obtain ⟨l, hl, hlt, scans1, hpopL, hf1⟩ := popScan_spec hn hf hc.lhs.1
  obtain ⟨r, hr, hrt, scans2, hpopR, hf2⟩ := popScan_spec hn hf1 hc.rhs.1
  refine ⟨scans2, .join tag (.scan l) (.scan r) [cond], ?_, ?_, ?_⟩
  · simp [firstJoin, hpopL, hpopR, htag, Outcome.ofExcept_ok]
  · refine hf2.congr fun t => ?_
    simp [RelPlan.tables, RelPlan.tree, JoinTree.leaves, hlt, hrt, or_comm]
  · exact Built.join (Built.scan hl) (Built.scan hr)
      (by simpa [RelPlan.tables, RelPlan.tree, JoinTree.leaves, hlt, hrt] using hc.ne) (SameConds.refl [cond])
      (by simp [Condition.tabs, RelPlan.tables, RelPlan.tree, JoinTree.leaves, hlt, hrt]) tag

end

/-- **What the planner builds**: a tree with each scan once, and each condition between two tables above both. -/
theorem makeOneRel_built {db : Database} {knobs : Knobs} {tables : List TabName} {conds cross : List Condition}
    {plans : List ScanPlan} (hscans : tableScans db tables conds = .ok (plans, cross))
    (hn : (plans.map (·.tabName)).Nodup) (hne : plans ≠ []) (hcross : ∀ c ∈ cross, c.Cross (plans.map (·.tabName)))
    (htag : cross = [] ∨ ∃ tag, knobs.joinTag = .ok tag) :
    ∃ plan, makeOneRel db knobs tables conds = pure plan ∧ Built plans cross plan ∧
      plan.tables.Perm (plans.map (·.tabName)) := by
  unfold makeOneRel
  rw [hscans, Outcome.ofExcept_ok, pure_bind]
  match plans, cross, hne with
  | [p], [], _ => exact ⟨.scan p, rfl, Built.scan List.mem_cons_self, List.Perm.refl _⟩
  | [p], c :: _, _ =>
    have hc := hcross c List.mem_cons_self
    have h1 := hc.lhs.1
    have h2 := hc.rhs.1
    rw [List.map_singleton, List.mem_singleton] at h1 h2
    exact absurd (h1.trans h2.symm) hc.ne
  | p :: q :: ps, [], _ =>
    have hp : ∀ r ∈ q :: ps, r.tabName ≠ p.tabName := fun r hr h => (List.nodup_cons.1 hn).1 (List.mem_map.2 ⟨r, hr, h⟩)
    have hflags : (p, true) :: (q :: ps).map (·, false) = (p :: q :: ps).map fun r => (r, r.tabName == p.tabName) := by
      have hrest : (q :: ps).map (·, false) = (q :: ps).map fun r => (r, r.tabName == p.tabName) :=
        List.map_congr_left fun r hr => by rw [beq_eq_false_iff_ne.2 (hp r hr)]
      rw [hrest]
      simp
    have hb : Built (p :: q :: ps) [] (.scan p) := Built.scan List.mem_cons_self
    obtain ⟨h1, h2⟩ := joinRest_spec (fun r => r.tabName == p.tabName) hn (fun _ h => h)
      (fun r _ => by rw [beq_iff_eq]; exact List.mem_singleton.symm) hb
    rw [← hflags] at h1 h2
    exact ⟨_, rfl, h1, h1.perm hn fun r hr => h2 _ (.inr (List.mem_map_of_mem hr))⟩
  | p :: q :: ps, c :: cs, _ =>
    obtain ⟨tag, htag⟩ := htag.resolve_left (List.cons_ne_nil _ _)
    have hf : Flags (p :: q :: ps) [] ⟨(p :: q :: ps).map (·, false), List.replicate tables.length ""⟩ :=
      ⟨by simp, fun t ht => by simp [List.mem_replicate, ht]⟩
    obtain ⟨scans1, plan1, h1, hf1, hb1⟩ := firstJoin_spec hn htag hf (hcross c List.mem_cons_self)
    obtain ⟨scans2, plan2, h2, hf2, hb2⟩ := joinConds_spec hn hf1 hb1 fun d h => hcross d (List.mem_cons_of_mem _ h)
    obtain ⟨hb, hall⟩ := joinRest_spec (fun r => decide (r.tabName ∈ plan2.tables)) hn (fun _ h => h)
      (fun r _ => decide_eq_true_iff) hb2
    refine ⟨joinRest plan2 scans2.scantbl, ?_, ?_, ?_⟩
    · simp only [h1, h2, pure_bind]
    · rw [hf2.scantbl]
      exact hb
    · rw [hf2.scantbl]
      exact hb.perm hn fun r hr => hall _ (.inr (List.mem_map_of_mem hr))

/-- With both joins switched off there is no plan with a join condition. -/
theorem makeOneRel_throw {db : Database} {knobs : Knobs} {tables : List TabName} {conds cross : List Condition}
    {plans : List ScanPlan} (hscans : tableScans db tables conds = .ok (plans, cross))
    (hcross : ∀ c ∈ cross, c.Cross (plans.map (·.tabName))) (hne : cross ≠ []) {e : RMDBError}
    (htag : knobs.joinTag = .error e) : makeOneRel db knobs tables conds = throw e := by
  unfold makeOneRel
  rw [hscans, Outcome.ofExcept_ok, pure_bind]
  match plans, cross, hne with
  | [], c :: _, _ =>
    have hc := (hcross c List.mem_cons_self).lhs.1
    cases hc
  | [p], c :: _, _ =>
    have hc := hcross c List.mem_cons_self
    have h1 := hc.lhs.1
    have h2 := hc.rhs.1
    rw [List.map_singleton, List.mem_singleton] at h1 h2
    exact absurd (h1.trans h2.symm) hc.ne
  | p :: q :: ps, c :: cs, _ =>
    simp only [firstJoin, htag]
    rfl

theorem makeOneRel_error {db : Database} {knobs : Knobs} {tables : List TabName} {conds cross : List Condition}
    {plans : List ScanPlan} (hscans : tableScans db tables conds = .ok (plans, cross))
    (hcross : ∀ c ∈ cross, c.Cross (plans.map (·.tabName))) (hne : cross ≠ []) {e : RMDBError}
    (htag : knobs.joinTag = .error e) (plan : RelPlan) : makeOneRel db knobs tables conds ≠ pure plan := by
  rw [makeOneRel_throw hscans hcross hne htag]
  intro h
  cases h

/-! ## All conditions, each once -/

/-- The conditions at the nodes of a plan. -/
def RelPlan.conds : RelPlan → List Condition
  | scan plan => plan.conds
  | join _ left right conds => left.conds ++ right.conds ++ conds

theorem RelPlan.conds_perm : ∀ plan : RelPlan, plan.conds.Perm (plan.scans.flatMap (·.conds) ++ plan.tree.conds)
  | scan plan => by simp [RelPlan.conds, scans, tree, JoinTree.conds]
  | join _ left right conds => by
    have h := (left.conds_perm.append right.conds_perm).append_right conds
    refine h.trans ?_
    simp only [scans, tree, JoinTree.conds, List.flatMap_append, List.append_assoc]
    refine List.Perm.append_left _ ?_
    rw [← List.append_assoc, ← List.append_assoc (List.flatMap _ _)]
    exact List.Perm.append_right _ List.perm_append_comm

/-- A condition between columns of the tables and literals. -/
structure Condition.Over (tables : List TabName) (cond : Condition) : Prop where
  lhs : cond.lhsCol.tabName ∈ tables
  rhs : cond.isRhsVal = false → cond.rhsCol.tabName ∈ tables

/-- The condition itself, or a comparison of two columns the other way round. -/
def Condition.Mirrored (d c : Condition) : Prop := d = c ∨ (c.isRhsVal = false ∧ d = c.swap)

/-- Each scan takes its conditions off the query. -/
theorem tableScans_keeps {db : Database} : ∀ {tables : List TabName} {conds cross : List Condition}
    {plans : List ScanPlan}, tableScans db tables conds = .ok (plans, cross) →
    plans.map (·.tabName) = tables ∧ (plans.flatMap (·.conds) ++ cross).Perm conds ∧
      ∀ c ∈ cross, ∀ t ∈ tables, (c.isLiteralOn t || c.isSame) = false
  | [], conds, cross, plans, h => by
    cases h
    exact ⟨rfl, List.Perm.refl _, fun c _ t ht => by cases ht⟩
  | t :: tables, conds, cross, plans, h => by
    obtain ⟨cols, -, h⟩ := bind_eq_ok.1 h
    obtain ⟨⟨plans', cross'⟩, hrest, h⟩ := bind_eq_ok.1 h
    cases h
    obtain ⟨hnames, hperm, hnot⟩ := tableScans_keeps hrest
    rw [popConds_eq] at hperm ⊢
    refine ⟨by rw [List.map_cons, hnames], ?_, ?_⟩
    · rw [List.flatMap_cons, List.append_assoc]
      exact (List.Perm.append_left _ hperm).trans (List.filter_append_perm _ conds)
    · intro c hc t' ht'
      rcases List.mem_cons.1 ht' with rfl | ht'
      · have hmem : c ∈ _ := hperm.mem_iff.1 (List.mem_append_right _ hc)
        have hnot' := (List.mem_filter.1 hmem).2
        rwa [Bool.not_eq_true'] at hnot'
      · exact hnot c hc t' ht'

/-- The scans of a finished tree are those of the tables. -/
theorem Built.scans_perm {plans : List ScanPlan} {used : List Condition} {plan : RelPlan} (h : Built plans used plan)
    (hn : (plans.map (·.tabName)).Nodup) (hperm : plan.tables.Perm (plans.map (·.tabName))) :
    plan.scans.Perm plans := by
  have hnames : (plan.scans.map (·.tabName)).Nodup := by
    rw [← RelPlan.tables_eq]
    exact h.nodup
  rw [List.perm_ext_iff_of_nodup (List.Nodup.of_map _ hnames) (List.Nodup.of_map _ hn)]
  intro p
  constructor
  · exact h.scans p
  · intro hp
    have hmem : p.tabName ∈ plan.tables := hperm.mem_iff.2 (List.mem_map_of_mem hp)
    rw [RelPlan.tables_eq] at hmem
    obtain ⟨q, hq, hqt⟩ := List.mem_map.1 hmem
    rwa [← List.inj_on_of_nodup_map hn (h.scans q hq) hp hqt]

/-- **The plan has each table and each condition of the query once**; only with both joins switched off a query with a
condition between two tables gets no plan. -/
theorem makeOneRel_complete {db : Database} {knobs : Knobs} {tables : List TabName} {conds : List Condition}
    (hne : tables ≠ []) (hn : tables.Nodup) (htab : ∀ t ∈ tables, ∃ T, db.tab t = some T)
    (hc : ∀ c ∈ conds, c.Over tables) :
    (∃ plan, makeOneRel db knobs tables conds = pure plan ∧ (plan.scans.map (·.tabName)).Perm tables ∧
      Multiset.Rel Condition.Mirrored (plan.conds : Multiset Condition) (conds : Multiset Condition)) ∨
    (makeOneRel db knobs tables conds = throw (.rmdb "No join executor selected!") ∧
      knobs.enableNestedloopJoin = false ∧ knobs.enableSortmergeJoin = false ∧
      ∃ c ∈ conds, c.isRhsVal = false ∧ c.isSame = false) := by
  obtain ⟨plans, cross, hscans⟩ := tableScans_ok htab conds
  obtain ⟨hnames, hkept, hnot⟩ := tableScans_keeps hscans
  have hmem : ∀ c ∈ cross, c ∈ conds := fun c h => hkept.mem_iff.1 (List.mem_append_right _ h)
  -- what is left compares columns of two tables
  have hcol : ∀ c ∈ cross, c.isRhsVal = false ∧ c.isSame = false := by
    intro c h
    have hlhs := (hc c (hmem c h)).lhs
    have hpop := hnot c h _ hlhs
    rw [Bool.or_eq_false_iff] at hpop
    refine ⟨?_, hpop.2⟩
    simpa [Condition.isLiteralOn] using hpop.1
  have hcross : ∀ c ∈ cross, c.Cross (plans.map (·.tabName)) := by
    intro c h
    have hover := hc c (hmem c h)
    have hempty : ∀ t ∈ tables, t ≠ "" := by
      rintro t ht rfl
      obtain ⟨T, hT⟩ := htab _ ht
      rw [db.nonempty] at hT
      cases hT
    have hrhs := hover.rhs (hcol c h).1
    rw [hnames]
    exact ⟨of_decide_eq_false (hcol c h).2, ⟨hover.lhs, hempty _ hover.lhs⟩, ⟨hrhs, hempty _ hrhs⟩⟩
  have hnplans : (plans.map (·.tabName)).Nodup := by rwa [hnames]
  by_cases htag : cross = [] ∨ ∃ tag, knobs.joinTag = .ok tag
  · have hplans : plans ≠ [] := by
      rintro rfl
      exact hne hnames.symm
    obtain ⟨plan, hplan, hb, hperm⟩ := makeOneRel_built hscans hnplans hplans hcross htag
    refine .inl ⟨plan, hplan, ?_, ?_⟩
    · rw [← RelPlan.tables_eq, ← hnames]
      exact hperm
    · have hscan : (plan.scans.flatMap (·.conds)).Perm (plans.flatMap (·.conds)) :=
        (hb.scans_perm hnplans hperm).flatMap_right _
      rw [Multiset.coe_eq_coe.2 plan.conds_perm, Multiset.coe_eq_coe.2 hkept.symm, ← Multiset.coe_add,
        ← Multiset.coe_add]
      apply Multiset.Rel.add
      · rw [Multiset.coe_eq_coe.2 hscan]
        exact Multiset.rel_refl_of_refl_on fun _ _ => .inl rfl
      · refine Multiset.Rel.mono hb.conds fun d _ c hcm h => ?_
        exact h.imp id fun h => ⟨(hcol c (Multiset.mem_coe.1 hcm)).1, h⟩
  · obtain ⟨hcne, hnone⟩ := not_or.1 htag
    refine .inr ?_
    obtain ⟨c, hcm⟩ := List.exists_mem_of_ne_nil cross hcne
    obtain ⟨hthrow, h1, h2⟩ := Knobs.joinTag_error hnone
    exact ⟨makeOneRel_throw hscans hcross hcne hthrow, h1, h2, c, hmem c hcm, hcol c hcm⟩

/-- A table of integers. -/
def intTable (name : TabName) (cols : List String) (rows : List (List Int)) : Table where
  tabMeta := ⟨name, cols.mapIdx fun i col => ⟨name, col, .int, 4, 4 * i⟩, []⟩
  recordSize := 4 * cols.length
  rows := rows.map fun row => (List.range cols.length).flatMap fun i => intBytes (row.getD i 0)
  named := by
    simp only [List.mem_mapIdx]
    rintro _ ⟨i, hi, rfl⟩
    rfl
  inside := by
    simp only [List.mem_mapIdx]
    rintro _ ⟨i, hi, rfl⟩
    simp only [ColMeta.Inside]
    omega
  sized := by
    simp only [List.mem_mapIdx]
    rintro _ ⟨i, hi, rfl⟩
    exact Int.le_refl 4
  row_length := by
    intro rec hrec
    obtain ⟨row, -, rfl⟩ := List.mem_map.1 hrec
    simp [List.length_flatMap, Nat.mul_comm]

/-- The database with these tables. -/
def tableDatabase (tables : List Table) : Database where
  tab t := if t = "" then none else tables.find? (·.tabMeta.name = t)
  named := by
    intro t T h
    split at h
    · cases h
    · have hname := List.find?_some h
      exact of_decide_eq_true hname
  nonempty := rfl

/-- `a(x)` with one row and `b(x, y)` with two. -/
def twoTables : Database := tableDatabase [intTable "a" ["x"] [[1]], intTable "b" ["x", "y"] [[1, 1], [1, 2]]]

/-- `a.x = b.x AND b.y = 2`, as the analysis leaves it. -/
def joinQuery : List Condition :=
  [⟨⟨"a", "x"⟩, .eq, false, ⟨"b", "x"⟩, ⟨.int 0, none⟩⟩,
    ⟨⟨"b", "y"⟩, .eq, true, ⟨"", ""⟩, ⟨.int 2, some (intBytes 2)⟩⟩]

theorem makeOneRel_complete_joinQuery : ∃ plan, makeOneRel twoTables ⟨true, false⟩ ["a", "b"] joinQuery = pure plan ∧
    (plan.scans.map (·.tabName)).Perm ["a", "b"] ∧
    Multiset.Rel Condition.Mirrored (plan.conds : Multiset Condition) (joinQuery : Multiset Condition) := by
  have htab : ∀ t ∈ ["a", "b"], ∃ T, twoTables.tab t = some T := by
    simp only [List.mem_cons, List.not_mem_nil, or_false]
    rintro t (rfl | rfl)
    · exact ⟨_, rfl⟩
    · exact ⟨_, rfl⟩
  have hover : ∀ c ∈ joinQuery, c.Over ["a", "b"] := by
    simp only [joinQuery, List.mem_cons, List.not_mem_nil, or_false]
    rintro c (rfl | rfl)
    · exact ⟨by decide, fun _ => by decide⟩
    · exact ⟨by decide, nofun⟩
  refine (makeOneRel_complete (by decide) (by decide) htab hover).resolve_right ?_
  rintro ⟨-, h, -⟩
  cases h

end Rmdb
