import Rmdb.Execution.NestedLoopJoin
import Rmdb.Execution.Operators

/-!
# Iterator trees

- `Plan` and `convertPlanExecutor`: the trees that `Portal` builds of scans, joins, sorts and projections, and
  `selectRoot` with the limit on top;
- `Plan.Means`: the rows that a plan stands for, as relational algebra has them;
- `plan_delivers`: every executor that is built gives such rows, the same ones each time it is begun;
  `selectRoot_rows` is what the loop of `select_from` reads.
-/

namespace Rmdb

open Lib AbstractExecutor

/-! ## Schemas and rows -/

/-- The length of the rows, and their columns. -/
structure Schema where
  len : Nat
  cols : List ColMeta

/-- The columns lie inside of a row, and a float has its four bytes. -/
structure Schema.Wf (s : Schema) : Prop where
  inside : ∀ col ∈ s.cols, col.Inside s.len
  float_len : ∀ col ∈ s.cols, col.type = .float → 4 ≤ col.len

/-- A row of the schema; its floats are numbers. -/
structure Schema.Row (s : Schema) (rec : Bytes) : Prop where
  length : rec.length = s.len
  numbers : HasNumbers s.cols rec

/-- A scan with the rows that it gives every time it is begun. -/
structure Leaf where
  ex : AbstractExecutor
  rows : List Bytes
  delivers : ex.Delivers rows
  wf : Schema.Wf ⟨ex.tupleLen, ex.cols⟩
  row : ∀ rec ∈ rows, Schema.Row ⟨ex.tupleLen, ex.cols⟩ rec

/-! ## Plans and their executors -/

/-- The plans of a SELECT below the limit; a join with the size of its block. -/
inductive Plan
  | scan (leaf : Leaf)
  | join (maxBufferSize : Nat) (left right : Plan) (conds : List Condition)
  | sort (subplan : Plan) (selCols : List TabCol) (isDesc : List Bool)
  | projection (subplan : Plan) (selCols : List TabCol)

/-- `convert_plan_executor`, with the constructors of the executors. -/
def convertPlanExecutor : Plan → Except RMDBError AbstractExecutor
  | .scan leaf => .ok leaf.ex
  | .join maxBufferSize left right conds =>
    match convertPlanExecutor left with
    | .error e => .error e
    | .ok left =>
      match convertPlanExecutor right with
      | .error e => .error e
      | .ok right => .ok (nestedLoopJoin maxBufferSize left right conds)
  | .sort subplan selCols isDesc =>
    match convertPlanExecutor subplan with
    | .error e => .error e
    | .ok prev =>
      match selCols.mapM (getCol prev.cols) with
      | .error e => .error e
      | .ok orderCols => .ok (sortExecutor prev orderCols isDesc)
  | .projection subplan selCols =>
    match convertPlanExecutor subplan with
    | .error e => .error e
    | .ok prev =>
      match projectionCols prev.cols selCols 0 with
      | .error e => .error e
      | .ok cols => .ok (projectionExecutor prev cols)

/-- The root that `Portal::start` makes for a SELECT; without a limit `limit` is `-1`. -/
def selectRoot (limit : Int) (sub : Plan) : Except RMDBError AbstractExecutor :=
  match convertPlanExecutor sub with
  | .error e => .error e
  | .ok root => .ok (if 0 ≤ limit then limitExecutor root limit else root)

/-! ## What a plan means -/

namespace Plan

/-- The columns of the right rows behind those of the left ones. -/
def joinSchema (l r : Schema) : Schema :=
  ⟨l.len + r.len, l.cols ++ r.cols.map fun col => { col with offset := col.offset + l.len }⟩

/-- The schema of a plan whose columns exist. -/
def schema : Plan → Schema
  | .scan leaf => ⟨leaf.ex.tupleLen, leaf.ex.cols⟩
  | .join _ left right _ => joinSchema left.schema right.schema
  | .sort subplan _ _ => subplan.schema
  | .projection subplan selCols =>
    match projectionCols subplan.schema.cols selCols 0 with
    | .error _ => ⟨0, []⟩
    | .ok cols => ⟨projectionLen cols, cols.map (·.2)⟩

/-- The columns of every join condition are columns of the join. -/
def Bound : Plan → Prop
  | .scan _ => True
  | .join maxBufferSize left right conds =>
    left.Bound ∧ right.Bound ∧ ∀ cond ∈ conds, cond.Bound (join maxBufferSize left right conds).schema.cols
  | .sort subplan _ _ => subplan.Bound
  | .projection subplan _ => subplan.Bound

/-- **The rows a plan stands for**: of a join each pair of a left and a right row that meets the conditions, as often as
it occurs; of a sort the rows in the order of the keys, and equal ones as they were; of a projection the selected
columns of each row. -/
inductive Means : Plan → List Bytes → Prop
  | scan (leaf : Leaf) : Means (.scan leaf) leaf.rows
  | join {maxBufferSize : Nat} {left right : Plan} {conds : List Condition} {ls rs rows : List Bytes} :
      Means left ls → Means right rs →
      rows.Perm (product (fun l r => condsHold (joinSchema left.schema right.schema).cols conds (l ++ r)) (· ++ ·)
        ls rs) →
      Means (.join maxBufferSize left right conds) rows
  | sort {subplan : Plan} {selCols : List TabCol} {isDesc : List Bool} {orderCols : List ColMeta}
      {rows sorted : List Bytes} :
      Means subplan rows → selCols.mapM (getCol subplan.schema.cols) = .ok orderCols →
      IsStableSort (compareTuple orderCols isDesc) rows sorted → Means (.sort subplan selCols isDesc) sorted
  | projection {subplan : Plan} {selCols : List TabCol} {cols : List ColMeta} {rows : List Bytes} :
      Means subplan rows → selCols.mapM (getCol subplan.schema.cols) = .ok cols →
      Means (.projection subplan selCols) (rows.map (makeKey cols))

end Plan

/-! ## The rows of a join and of a projection -/

theorem readFloat_congr {a b : Bytes} (h : a.take 4 = b.take 4) : readFloat a = readFloat b := by
  rw [readFloat, readFloat, h]

namespace Schema

section join

variable {l r : Schema}

theorem Wf.join (hl : l.Wf) (hr : r.Wf) : (Plan.joinSchema l r).Wf := by
  constructor
  · intro col hcol
    rcases List.mem_append.1 hcol with hcol | hcol
    · obtain ⟨h1, h2, h3⟩ := hl.inside col hcol
      refine ⟨h1, h2, ?_⟩
      simp only [Plan.joinSchema]
      omega
    · obtain ⟨col, hmem, rfl⟩ := List.mem_map.1 hcol
      obtain ⟨h1, h2, h3⟩ := hr.inside col hmem
      refine ⟨?_, h2, ?_⟩ <;> simp only [Plan.joinSchema] <;> omega
  · intro col hcol hf
    rcases List.mem_append.1 hcol with hcol | hcol
    · exact hl.float_len col hcol hf
    · obtain ⟨col, hmem, rfl⟩ := List.mem_map.1 hcol
      exact hr.float_len col hmem hf

theorem Row.join (hl : l.Wf) (hr : r.Wf) {a b : Bytes} (ha : l.Row a) (hb : r.Row b) :
    (Plan.joinSchema l r).Row (a ++ b) := by
  constructor
  · rw [List.length_append, ha.length, hb.length]
    rfl
  · intro col hcol hf
    have hlen := ha.length
    rcases List.mem_append.1 hcol with hcol | hcol
    · obtain ⟨h1, h2, h3⟩ := hl.inside col hcol
      have h4 := hl.float_len col hcol hf
      have hread : readFloat ((a ++ b).drop col.offset.toNat) = readFloat (a.drop col.offset.toNat) := by
        apply readFloat_congr
        rw [List.drop_append_of_le_length (by omega), List.take_append_of_le_length (by rw [List.length_drop]; omega)]
      rw [hread]
      exact ha.numbers col hcol hf
    · obtain ⟨col, hmem, rfl⟩ := List.mem_map.1 hcol
      have hoff := (hr.inside col hmem).1
      have hdrop : (a ++ b).drop (col.offset + l.len).toNat = b.drop col.offset.toNat := by
        rw [List.drop_append, List.drop_of_length_le (by omega), List.nil_append]
        congr 1
        omega
      show ¬(readFloat ((a ++ b).drop (col.offset + l.len).toNat)).isNaN
      rw [hdrop]
      exact hb.numbers col hmem hf

end join

section projection

variable {s : Schema}

/-- The constructor looks the selected columns up. -/
theorem mapM_of_projectionCols : ∀ {selCols : List TabCol} {off : Int} {cols : List (ColMeta × ColMeta)},
    projectionCols s.cols selCols off = .ok cols → selCols.mapM (getCol s.cols) = .ok (cols.map (·.1))
  | [], off, cols, h => by
    cases h
    rfl
  | selCol :: selCols, off, cols, h => by
    obtain ⟨col, hcol, h⟩ := bind_eq_ok.1 h
    obtain ⟨rest, hrest, h⟩ := bind_eq_ok.1 h
    cases h
    rw [List.mapM_cons, hcol]
    show (selCols.mapM (getCol s.cols) >>= fun bs => pure (col :: bs)) = _
    rw [mapM_of_projectionCols hrest]
    rfl

/-- The selected columns stand side by side. -/
theorem Wf.projectionCols (hs : s.Wf) : ∀ {selCols : List TabCol} (off : Nat) {cols : List (ColMeta × ColMeta)},
    projectionCols s.cols selCols off = .ok cols →
    Wf ⟨off + projectionLen cols, cols.map (·.2)⟩
  | [], off, cols, h => by
    cases h
    exact ⟨fun _ h => by simp at h, fun _ h => by simp at h⟩
  | selCol :: selCols, off, cols, h => by
    obtain ⟨col, hcol, h⟩ := bind_eq_ok.1 h
    obtain ⟨rest, hrest, h⟩ := bind_eq_ok.1 h
    cases h
    obtain ⟨h1, h2, h3⟩ := hs.inside col (getCol_mem hcol)
    have hlen : projectionLen ((col, { col with offset := (off : Int) }) :: rest) =
        col.len.toNat + projectionLen rest := by
      simp [projectionLen]
    have hoff : (off : Int) + col.len = (off + col.len.toNat : Nat) := by omega
    rw [hoff] at hrest
    have ih := hs.projectionCols _ hrest
    constructor
    · intro c hc
      rcases List.mem_cons.1 hc with rfl | hc
      · refine ⟨by simp, h2, ?_⟩
        simp only [hlen]
        omega
      · have h4 := ih.inside c hc
        refine ⟨h4.1, h4.2.1, ?_⟩
        have h5 := h4.2.2
        simp only [hlen] at h5 ⊢
        omega
    · intro c hc hf
      rcases List.mem_cons.1 hc with rfl | hc
      · exact hs.float_len col (getCol_mem hcol) hf
      · exact ih.float_len c hc hf

/-- The floats of the selected columns are those of the row. -/
theorem Row.projectionCols (hs : s.Wf) {rec : Bytes} (hr : s.Row rec) :
    ∀ {selCols : List TabCol} {cols : List (ColMeta × ColMeta)} (front : Bytes),
      Rmdb.projectionCols s.cols selCols front.length = .ok cols →
      (front ++ cols.flatMap fun c => colBytes rec c.1).length = front.length + projectionLen cols ∧
        HasNumbers (cols.map (·.2)) (front ++ cols.flatMap fun c => colBytes rec c.1) := by
  intro selCols
  induction selCols with
  | nil =>
    intro cols front h
    cases h
    exact ⟨by simp [projectionLen], fun _ h => by simp at h⟩
  | cons selCol selCols ih =>
    intro cols front h
    obtain ⟨col, hcol, h⟩ := bind_eq_ok.1 h
    obtain ⟨rest, hrest, h⟩ := bind_eq_ok.1 h
    cases h
    have hmem := getCol_mem hcol
    have hin := hs.inside col hmem
    have hlen := length_colBytes_of_inside (hr.length.symm ▸ hin)
    obtain ⟨h1, h2, h3⟩ := hin
    have hstart : Rmdb.projectionCols s.cols selCols (front ++ colBytes rec col).length = .ok rest := by
      rw [List.length_append, hlen, Int.natCast_add, show ((col.len.toNat : Nat) : Int) = col.len by omega]
      exact hrest
    obtain ⟨hl, hn⟩ := ih (front ++ colBytes rec col) hstart
    rw [List.flatMap_cons, ← List.append_assoc]
    refine ⟨?_, fun c hc => ?_⟩
    · rw [hl, List.length_append, hlen]
      simp only [projectionLen, List.map_cons, List.sum_cons]
      omega
    · rcases List.mem_cons.1 hc with rfl | hc
      · intro hf
        have h4 := hs.float_len col hmem hf
        have hread : ∀ ys : Bytes, readFloat ((front ++ colBytes rec col ++ ys).drop front.length) =
            readFloat (rec.drop col.offset.toNat) := fun ys => by
          apply readFloat_congr
          rw [List.append_assoc, List.drop_left, List.take_append_of_le_length (by omega), colBytes, List.take_take,
            Nat.min_eq_left (by omega)]
        show ¬(readFloat (List.drop (front.length : Int).toNat _)).isNaN
        rw [Int.toNat_natCast, hread]
        exact hr.numbers col hmem hf
      · exact hn c hc

end projection

end Schema

/-! ## Every tree gives the rows it stands for -/

theorem mem_of_mapM_getCol {recCols : List ColMeta} : ∀ {selCols : List TabCol} {cols : List ColMeta},
    selCols.mapM (getCol recCols) = .ok cols → ∀ col ∈ cols, col ∈ recCols
  | [], cols, h => by
    cases h
    simp
  | selCol :: selCols, cols, h => by
    rw [List.mapM_cons] at h
    obtain ⟨col, hcol, h⟩ := bind_eq_ok.1 h
    obtain ⟨rest, hrest, h⟩ := bind_eq_ok.1 h
    cases h
    intro c hc
    rcases List.mem_cons.1 hc with rfl | hc
    · exact getCol_mem hcol
    · exact mem_of_mapM_getCol hrest c hc

/-- The executor has the schema of the plan and gives rows of it that the plan stands for. -/
structure Implements (ex : AbstractExecutor) (plan : Plan) (rows : List Bytes) : Prop where
  tupleLen : ex.tupleLen = plan.schema.len
  cols : ex.cols = plan.schema.cols
  wf : plan.schema.Wf
  row : ∀ rec ∈ rows, plan.schema.Row rec
  means : plan.Means rows
  delivers : ex.Delivers rows

namespace Implements

theorem join {maxBufferSize : Nat} {left right : Plan} {conds : List Condition} {exL exR : AbstractExecutor}
    {ls rs : List Bytes} (hl : Implements exL left ls) (hr : Implements exR right rs)
    (hb : ∀ cond ∈ conds, cond.Bound (Plan.join maxBufferSize left right conds).schema.cols) :
    ∃ rows, Implements (nestedLoopJoin maxBufferSize exL exR conds) (.join maxBufferSize left right conds) rows := by
  have hcols : NestedLoopJoin.cols exL exR = (Plan.joinSchema left.schema right.schema).cols := by
    rw [NestedLoopJoin.cols, hl.cols, hr.cols, hl.tupleLen]
    rfl
  have hperm := blockJoin_perm (matchRows exL exR conds) (· ++ ·) (blocks maxBufferSize exL.tupleLen ls) rs
  rw [blocks_flatten] at hperm
  refine ⟨blockJoin (matchRows exL exR conds) (· ++ ·) (blocks maxBufferSize exL.tupleLen ls) rs, ?_, hcols,
    hl.wf.join hr.wf, fun rec hrec => ?_, .join hl.means hr.means ?_, ?_⟩
  · show exL.tupleLen + exR.tupleLen = _
    rw [hl.tupleLen, hr.tupleLen]
    rfl
  · obtain ⟨a, ha, hrec⟩ := List.mem_flatMap.1 (hperm.mem_iff.1 hrec)
    obtain ⟨b, hb, rfl⟩ := List.mem_map.1 hrec
    exact (hl.row a ha).join hl.wf hr.wf (hr.row b (List.mem_filter.1 hb).1)
  · rw [← hcols]
    exact hperm
  · obtain ⟨boundL, hdl⟩ := hl.delivers
    obtain ⟨boundR, hdr⟩ := hr.delivers
    refine ⟨boundL + boundR + (ls.length + rs.length + ls.length * (rs.length + 1)) + 1, fun fuel hfuel => ?_⟩
    exact deliversAt_nestedLoopJoin (fun cond hc => hcols ▸ hb cond hc) (hdl fuel (by omega)) (hdr fuel (by omega))
      (fun a ha => hl.tupleLen ▸ (hl.row a ha).length) (fun b hb => hr.tupleLen ▸ (hr.row b hb).length) (by omega)

theorem sort {subplan : Plan} {prev : AbstractExecutor} {rows : List Bytes} (h : Implements prev subplan rows)
    {selCols : List TabCol} (isDesc : List Bool) {orderCols : List ColMeta}
    (hcols : selCols.mapM (getCol prev.cols) = .ok orderCols) :
    Implements (sortExecutor prev orderCols isDesc) (.sort subplan selCols isDesc)
      (stableSort (compareTuple orderCols isDesc) rows) := by
  rw [h.cols] at hcols
  have hkeys : ∀ rec ∈ rows, HasNumbers orderCols rec := fun rec hrec col hcol =>
    (h.row rec hrec).numbers col (mem_of_mapM_getCol hcols col hcol)
  have hsort := stableSort_spec (ordered_compareTuple orderCols isDesc) hkeys
  refine ⟨h.tupleLen, h.cols, h.wf, fun rec hrec => h.row rec (hsort.perm.mem_iff.1 hrec),
    .sort h.means hcols hsort, ?_⟩
  obtain ⟨bound, hd⟩ := h.delivers
  exact ⟨bound + rows.length + 1, fun fuel hfuel => deliversAt_sortExecutor (hd fuel (by omega)) (by omega)⟩

theorem projection {subplan : Plan} {prev : AbstractExecutor} {rows : List Bytes} (h : Implements prev subplan rows)
    {selCols : List TabCol} {cols : List (ColMeta × ColMeta)} (hcols : projectionCols prev.cols selCols 0 = .ok cols) :
    Implements (projectionExecutor prev cols) (.projection subplan selCols)
      (rows.map fun rec => cols.flatMap fun c => colBytes rec c.1) := by
  have hcols' := hcols
  rw [h.cols] at hcols'
  have hschema : (Plan.projection subplan selCols).schema = ⟨projectionLen cols, cols.map (·.2)⟩ := by
    rw [Plan.schema, hcols']
  have hkey : ∀ rec, (cols.flatMap fun c => colBytes rec c.1) = makeKey (cols.map (·.1)) rec := fun rec =>
    (List.flatMap_map ..).symm
  have hwf := h.wf.projectionCols 0 hcols'
  rw [Nat.zero_add] at hwf
  refine ⟨by rw [hschema]; rfl, by rw [hschema]; rfl, by rw [hschema]; exact hwf, ?_, ?_, ?_⟩
  · intro rec hrec
    obtain ⟨prevRec, hprev, rfl⟩ := List.mem_map.1 hrec
    have hrow := (h.row prevRec hprev).projectionCols h.wf [] hcols'
    rw [List.nil_append, List.length_nil, Nat.zero_add] at hrow
    rw [hschema]
    exact ⟨hrow.1, hrow.2⟩
  · simp only [hkey]
    exact .projection h.means (Schema.mapM_of_projectionCols hcols')
  · obtain ⟨bound, hd⟩ := h.delivers
    refine ⟨bound, fun fuel hfuel => deliversAt_projectionExecutor hcols (fun rec hrec col hcol => ?_) (hd fuel hfuel)⟩
    rw [(h.row rec hrec).length]
    exact h.wf.inside col (h.cols ▸ hcol)

end Implements

/-- **Every executor that is built gives rows that its plan stands for**, the same ones each time it is begun. -/
theorem plan_delivers : ∀ {plan : Plan} {ex : AbstractExecutor}, convertPlanExecutor plan = .ok ex → plan.Bound →
    ∃ rows, Implements ex plan rows
  | .scan leaf, ex, h, _ => by
    cases h
    exact ⟨leaf.rows, rfl, rfl, leaf.wf, leaf.row, .scan leaf, leaf.delivers⟩
  | .join maxBufferSize left right conds, ex, h, hb => by
    rw [convertPlanExecutor] at h
    cases hl : convertPlanExecutor left with
    | error e => rw [hl] at h; cases h
    | ok exL =>
      cases hr : convertPlanExecutor right with
      | error e => rw [hl, hr] at h; cases h
      | ok exR =>
        rw [hl, hr] at h
        cases h
        obtain ⟨ls, hls⟩ := plan_delivers hl hb.1
        obtain ⟨rs, hrs⟩ := plan_delivers hr hb.2.1
        exact hls.join hrs hb.2.2
  | .sort subplan selCols isDesc, ex, h, hb => by
    rw [convertPlanExecutor] at h
    cases hp : convertPlanExecutor subplan with
    | error e => rw [hp] at h; cases h
    | ok prev =>
      simp only [hp] at h
      cases hc : selCols.mapM (getCol prev.cols) with
      | error e => rw [hc] at h; cases h
      | ok orderCols =>
        rw [hc] at h
        cases h
        obtain ⟨rows, hrows⟩ := plan_delivers hp hb
        exact ⟨_, hrows.sort isDesc hc⟩
  | .projection subplan selCols, ex, h, hb => by
    rw [convertPlanExecutor] at h
    cases hp : convertPlanExecutor subplan with
    | error e => rw [hp] at h; cases h
    | ok prev =>
      simp only [hp] at h
      cases hc : projectionCols prev.cols selCols 0 with
      | error e => rw [hc] at h; cases h
      | ok cols =>
        rw [hc] at h
        cases h
        obtain ⟨rows, hrows⟩ := plan_delivers hp hb
        exact ⟨_, hrows.projection hc⟩

/-- **What `select_from` reads**: rows that the plan stands for, of which a limit leaves the first ones; and the same
rows from whatever state the executor is begun again. -/
theorem selectRoot_rows (limit : Int) {plan : Plan} {root : AbstractExecutor} (h : selectRoot limit plan = .ok root)
    (hb : plan.Bound) : ∃ rows, plan.Means rows ∧ ∃ bound, ∀ fuel, bound ≤ fuel → ∀ s, ∃ s',
      root.rows fuel s = pure (if 0 ≤ limit then rows.take limit.toNat else rows, s') := by
  rw [selectRoot] at h
  cases hp : convertPlanExecutor plan with
  | error e => rw [hp] at h; cases h
  | ok ex =>
    simp only [hp] at h
    obtain ⟨rows, hrows⟩ := plan_delivers hp hb
    refine ⟨rows, hrows.means, Delivers.rows ?_⟩
    by_cases hl : 0 ≤ limit
    · rw [if_pos hl] at h ⊢
      cases h
      obtain ⟨bound, hd⟩ := hrows.delivers
      exact ⟨bound, fun fuel hfuel => deliversAt_limitExecutor (hd fuel hfuel)⟩
    · rw [if_neg hl] at h ⊢
      cases h
      exact hrows.delivers

/-! ## Scans over a list -/

/-- A scan that gives the rows of a list. -/
def listScan (len : Nat) (cols : List ColMeta) (rows : List Bytes) : AbstractExecutor where
  State := List Bytes
  tupleLen := len
  cols := cols
  beginTuple _ _ := pure rows
  nextTuple _ s := pure s.tail
  isEnd s := s.isEmpty
  next
    | [] => Outcome.halt
    | rec :: _ => pure rec

theorem delivers_listScan (len : Nat) (cols : List ColMeta) (rows : List Bytes) :
    (listScan len cols rows).Delivers rows := by
  have hy : ∀ (fuel : Nat) (recs : List Bytes), (listScan len cols rows).Yields fuel recs recs := by
    intro fuel recs
    induction recs with
    | nil => rfl
    | cons rec recs ih => exact ⟨rfl, rfl, recs, rfl, ih⟩
  exact ⟨0, fun fuel _ _ => ⟨rows, rfl, hy fuel rows⟩⟩

/-- A table of one `INT` column. -/
def intLeaf (tabName name : String) (values : List Int) : Leaf where
  ex := listScan 4 [⟨tabName, name, .int, 4, 0⟩] (values.map intBytes)
  rows := values.map intBytes
  delivers := delivers_listScan _ _ _
  wf := by
    constructor <;> intro col hcol <;> obtain rfl := List.mem_singleton.1 hcol
    · exact ⟨Int.le_refl 0, (by decide : (0 : Int) ≤ 4), (by decide : (0 : Int) + 4 ≤ 4)⟩
    · exact fun _ => Int.le_refl 4
  row := by
    intro rec hrec
    obtain ⟨v, -, rfl⟩ := List.mem_map.1 hrec
    refine ⟨length_intBytes v, fun col hcol hf => ?_⟩
    obtain rfl := List.mem_singleton.1 hcol
    cases hf

/-- `select b.y, a.x from a, b where a.x = b.y order by a.x desc limit 1`, with two rows to a block. -/
def joinSortPlan : Plan :=
  .projection
    (.sort
      (.join 8 (.scan (intLeaf "a" "x" [1, 2, 3])) (.scan (intLeaf "b" "y" [2, 1]))
        [⟨⟨"a", "x"⟩, .eq, false, ⟨"b", "y"⟩, ⟨.int 0, none⟩⟩])
      [⟨"a", "x"⟩] [true])
    [⟨"b", "y"⟩, ⟨"a", "x"⟩]

theorem selectRoot_rows_joinSortPlan : ∃ root, selectRoot 1 joinSortPlan = .ok root ∧ ∃ rows, joinSortPlan.Means rows ∧
    ∃ bound, ∀ fuel, bound ≤ fuel → ∀ s, ∃ s', root.rows fuel s = pure (rows.take 1, s') := by
  refine ⟨_, rfl, selectRoot_rows 1 rfl ⟨trivial, trivial, fun cond hc => ?_⟩⟩
  obtain rfl := List.mem_singleton.1 hc
  exact ⟨⟨_, rfl⟩, .inr ⟨_, rfl⟩⟩

end Rmdb
