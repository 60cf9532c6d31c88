import Rmdb.Execution.Plans
import Rmdb.Lib.Binary64
import Rmdb.Parser.IntLiteral

/-!
# Aggregates

- `aggregateExecutor`: `executor_aggregate.h`, with its accumulators for every column of the select list; a `double` is
  the `Float.Model` of 64 bits;
- `minmax_result`: MAX and MIN give a value that no other one exceeds, or undercuts;
- `isInt_sum`: the `double` of a SUM over integers is their sum, changed by what the roundings add up to;
- `aggregate_exact_iff`: when the aggregates over integers are right.
-/

namespace Rmdb

open Lib AbstractExecutor

/-! ## The executor -/

inductive AggType
  | none | count | max | min | sum
  deriving DecidableEq, Repr

/-- A column of the select list. -/
structure AggSelCol where
  col : TabCol
  aggType : AggType
  aliasName : String

/-- What the loop over the rows does for a column of the select list, with the column of the child that it reads. -/
inductive AggBranch
  | count
  | sum (pos : ColMeta)
  | minmax (aggType : AggType) (pos : ColMeta)

/-- A column of the select list, and its column in `output_cols_`. -/
structure AggCol where
  branch : AggBranch
  out : ColMeta

/-- The loop of the constructor. The loop over the rows looks the same columns of the child up again. -/
def aggregateCols (childCols : List ColMeta) : List AggSelCol → Int → Except RMDBError (List AggCol)
  | [], _ => .ok []
  | sc :: selCols, offset => do
    let name := if sc.aliasName = "" then sc.col.colName else sc.aliasName
    match sc.aggType with
    | .count =>
      let cols ← aggregateCols childCols selCols (offset + 4)
      return ⟨.count, ⟨"", name, .int, 4, offset⟩⟩ :: cols
    | .sum =>
      let pos ← getCol childCols sc.col
      let cols ← aggregateCols childCols selCols (offset + pos.len)
      return ⟨.sum pos, ⟨"", name, pos.type, pos.len, offset⟩⟩ :: cols
    | aggType =>
      let pos ← getCol childCols sc.col
      let cols ← aggregateCols childCols selCols (offset + pos.len)
      return ⟨.minmax aggType pos, ⟨"", name, pos.type, pos.len, offset⟩⟩ :: cols

/-- `len_`. -/
def aggregateLen (cols : List AggCol) : Nat := (cols.map fun c => c.out.len.toNat).sum

/-- `cnt`, `sum` and `minmax` of a column; `has_val` says that there is a `minmax`. -/
structure Accumulator where
  cnt : Int
  sum : Float.Model
  minmax : Option Bytes

def Accumulator.init : Accumulator := ⟨0, Float.Model.ofInt 0, none⟩

/-- A `float` as a `double`. -/
def widen (x : FloatBits) : Float.Model :=
  match (Float32.Model.ofBits (UInt32.ofNat x.bits)).unpack with
  | .finite s m e _ => Float.Model.pack (Float.Model.UnpackedFloat.round .binary64 s m e)
  | u => Float.Model.pack u

/-- A `double` as a `float`. -/
def narrow (x : Float.Model) : Float32.Model :=
  match x.unpack with
  | .finite s m e _ => Float32.Model.pack (Float.Model.UnpackedFloat.round .binary32 s m e)
  | u => Float32.Model.pack u

/-- `sum += ...`. -/
def addData (sum : Float.Model) (data : Bytes) : ColType → Float.Model
  | .int => sum + Float.Model.ofInt (readInt data)
  | .float => sum + widen (readFloat data)
  | .bigint | .datetime => sum + Float.Model.ofInt (readInt64 data)
  | .string => sum

/-- The new value takes the place of the one that is kept. -/
def AggType.replaces (aggType : AggType) (cmp : Int) : Bool :=
  (aggType = .max ∧ 0 < cmp) ∨ (aggType = .min ∧ cmp < 0)

/-- The body of the loop over the select list, for one row. -/
def Accumulator.step (branch : AggBranch) (acc : Accumulator) (rec : Bytes) : Accumulator :=
  match branch with
  | .count => { acc with cnt := acc.cnt + 1 }
  | .sum pos => { acc with sum := addData acc.sum (rec.drop pos.offset.toNat) pos.type }
  | .minmax aggType pos =>
    let data := rec.drop pos.offset.toNat
    match acc.minmax with
    | none => { acc with minmax := some (data.take pos.len.toNat) }
    | some cur =>
      if aggType.replaces (compareValue data cur pos.type pos.len) then
        { acc with minmax := some (data.take pos.len.toNat) }
      else acc

/-- The accumulators of a column behind all rows. -/
def Accumulator.behind (branch : AggBranch) (recs : List Bytes) : Accumulator :=
  recs.foldl (fun acc rec => acc.step branch rec) .init

/-- A cast of a `double` to an integer type of `bits` bits. The language leaves open what comes out where the number does
not fit: that is `wild`. -/
def castInt (wild : Float.Model → Int) (bits : Nat) (x : Float.Model) : Int :=
  let n := x.unpack.toInt 0 0
  if x.isFinite ∧ -2 ^ (bits - 1) ≤ n ∧ n < 2 ^ (bits - 1) then n else wild x

/-- What is written at the place of a column in the result. -/
def Accumulator.written (wild : Float.Model → Int) (c : AggCol) (acc : Accumulator) : Bytes :=
  match c.branch with
  | .count => intBytes acc.cnt
  | .sum _ =>
    match c.out.type with
    | .int => intBytes (castInt wild 32 acc.sum)
    | .float => leBytes (narrow acc.sum).toBits.toNat 4
    | .bigint | .datetime => int64Bytes (castInt wild 64 acc.sum)
    | .string => []
  | .minmax _ _ => (acc.minmax.getD []).take c.out.len.toNat

/-- The loop that fills `result_`. -/
def writeResults (wild : Float.Model → Int) : List (AggCol × Accumulator) → Bytes → Bytes
  | [], data => data
  | (c, acc) :: rest, data =>
    let bytes := acc.written wild c
    writeResults wild rest (memcpyAt data c.out.offset bytes bytes.length)

/-- The accumulators behind a row. -/
def readRow (accs : List (AggCol × Accumulator)) (rec : Bytes) : List (AggCol × Accumulator) :=
  accs.map fun p => (p.1, p.2.step p.1.branch rec)

/-- `result_` for the rows of the child. -/
def aggregateResult (wild : Float.Model → Int) (cols : List AggCol) (recs : List Bytes) : Bytes :=
  let accs := recs.foldl readRow (cols.map fun c => (c, Accumulator.init))
  writeResults wild accs (List.replicate (aggregateLen cols) 0)

/-- The fields of `AggregateExecutor` that change. -/
structure AggregateState (P : Type) where
  prev : P
  isEnd : Bool
  result : Option Bytes

/-- `AggregateExecutor`. -/
def aggregateExecutor (wild : Float.Model → Int) (prev : AbstractExecutor) (cols : List AggCol) : AbstractExecutor where
  State := AggregateState prev.State
  tupleLen := aggregateLen cols
  cols := cols.map (·.out)
  beginTuple fuel st := do
    let (recs, s) ← prev.rows fuel st.prev
    return { prev := s, isEnd := false, result := some (aggregateResult wild cols recs) }
  nextTuple _ st := return { st with isEnd := true }
  isEnd st := st.isEnd
  next st :=
    match st.result with
    | some result => pure result
    | none => Outcome.halt

theorem delivers_aggregateExecutor (wild : Float.Model → Int) {prev : AbstractExecutor} (cols : List AggCol)
    {recs : List Bytes} (h : prev.Delivers recs) :
    (aggregateExecutor wild prev cols).Delivers [aggregateResult wild cols recs] := by
  obtain ⟨bound, hrows⟩ := h.rows
  refine ⟨bound, fun fuel hfuel (st : AggregateState prev.State) => ?_⟩
  obtain ⟨s', hs'⟩ := hrows fuel hfuel st.prev
  refine ⟨⟨s', false, some (aggregateResult wild cols recs)⟩, ?_, rfl, rfl, _, rfl, rfl⟩
  show (do
    let (recs, s) ← prev.rows fuel st.prev
    return { prev := s, isEnd := false, result := some (aggregateResult wild cols recs) } :
      Outcome (AggregateState prev.State)) = _
  rw [hs', pure_bind]
  rfl

/-! ## The fields of the result -/

/-- The accumulators of the columns do not see one another. -/
theorem foldl_readRow (f : AggCol → Accumulator) (cols : List AggCol) (recs : List Bytes) :
    recs.foldl readRow (cols.map fun c => (c, f c)) =
      cols.map fun c => (c, recs.foldl (fun acc rec => acc.step c.branch rec) (f c)) := by
  induction recs generalizing f with
  | nil => rfl
  | cons rec recs ih =>
    have hrow : readRow (cols.map fun c => (c, f c)) rec = cols.map fun c => (c, (f c).step c.branch rec) := by
      rw [readRow, List.map_map]
      rfl
    rw [List.foldl_cons, hrow, ih fun c => (f c).step c.branch rec]
    rfl

/-- A column of the child has room for the numbers of its type, and its column in the result is like it. -/
inductive AggCol.Fits (childCols : List ColMeta) : AggCol → Prop
  | count (out : ColMeta) (htype : out.type = .int) (hlen : out.len = 4) : Fits childCols ⟨.count, out⟩
  | sum (pos out : ColMeta) (hmem : pos ∈ childCols) (htype : out.type = pos.type) (hlen : out.len = pos.len) :
      Fits childCols ⟨.sum pos, out⟩
  | minmax (aggType : AggType) (pos out : ColMeta) (hmem : pos ∈ childCols) (htype : out.type = pos.type)
      (hlen : out.len = pos.len) : Fits childCols ⟨.minmax aggType pos, out⟩

section fields

variable {childCols : List ColMeta} (wild : Float.Model → Int)

/-- The columns of the result lie side by side. -/
inductive SideBySide : Int → List AggCol → Prop
  | nil (offset : Int) : SideBySide offset []
  | cons {offset : Int} {c : AggCol} {cols : List AggCol} (hoff : c.out.offset = offset)
      (hrest : SideBySide (offset + c.out.len) cols) : SideBySide offset (c :: cols)

theorem aggregateCols_cons {sc : AggSelCol} {selCols : List AggSelCol} {offset : Int} {cols : List AggCol}
    (h : aggregateCols childCols (sc :: selCols) offset = .ok cols) :
    ∃ c rest, cols = c :: rest ∧ c.Fits childCols ∧ c.out.offset = offset ∧
      aggregateCols childCols selCols (offset + c.out.len) = .ok rest := by
  simp only [aggregateCols] at h
  cases hty : sc.aggType with
  | count =>
    rw [hty] at h
    obtain ⟨rest, hrest, h⟩ := bind_eq_ok.1 h
    cases h
    exact ⟨_, rest, rfl, .count _ rfl rfl, rfl, hrest⟩
  | sum =>
    rw [hty] at h
    obtain ⟨pos, hpos, h⟩ := bind_eq_ok.1 h
    obtain ⟨rest, hrest, h⟩ := bind_eq_ok.1 h
    cases h
    exact ⟨_, rest, rfl, .sum pos _ (getCol_mem hpos) rfl rfl, rfl, hrest⟩
  | _ =>
    rw [hty] at h
    obtain ⟨pos, hpos, h⟩ := bind_eq_ok.1 h
    obtain ⟨rest, hrest, h⟩ := bind_eq_ok.1 h
    cases h
    exact ⟨_, rest, rfl, .minmax _ pos _ (getCol_mem hpos) rfl rfl, rfl, hrest⟩

theorem aggregateCols_spec : ∀ {selCols : List AggSelCol} {offset : Int} {cols : List AggCol},
    aggregateCols childCols selCols offset = .ok cols → (∀ c ∈ cols, c.Fits childCols) ∧ SideBySide offset cols
  | [], _, _, h => by
    cases h
    exact ⟨List.forall_mem_nil _, .nil _⟩
  | sc :: selCols, offset, cols, h => by
    obtain ⟨c, rest, rfl, hfits, hoff, hrest⟩ := aggregateCols_cons h
    obtain ⟨hall, hside⟩ := aggregateCols_spec hrest
    exact ⟨List.forall_mem_cons.2 ⟨hfits, hall⟩, .cons hoff hside⟩

/-- What is written fits into the column. -/
theorem length_written_le (hsized : ∀ col ∈ childCols, col.Sized) {c : AggCol} (h : c.Fits childCols)
    (acc : Accumulator) : ((acc.written wild c).length : Int) ≤ c.out.len := by
  cases h with
  | count out htype hlen =>
    show ((intBytes acc.cnt).length : Int) ≤ out.len
    rw [length_intBytes, hlen]
    decide
  | sum pos out hmem htype hlen =>
    have hroom := hsized pos hmem
    unfold ColMeta.Sized at hroom
    simp only [Accumulator.written, hlen]
    rw [htype]
    cases hty : pos.type <;> simp only [hty] at hroom <;> simp [hroom]
  | minmax aggType pos out hmem htype hlen =>
    have hnonneg : 0 ≤ pos.len := by
      have hroom := hsized pos hmem
      unfold ColMeta.Sized at hroom
      cases hty : pos.type <;> simp only [hty] at hroom <;> omega
    simp only [Accumulator.written, List.length_take, hlen]
    omega

/-- A column of the result: what is written, and zeros behind it. -/
def AggCol.field (wild : Float.Model → Int) (c : AggCol) (acc : Accumulator) : Bytes :=
  acc.written wild c ++ List.replicate (c.out.len.toNat - (acc.written wild c).length) 0

theorem length_field (hsized : ∀ col ∈ childCols, col.Sized) {c : AggCol} (h : c.Fits childCols)
    (acc : Accumulator) : (c.field wild acc).length = c.out.len.toNat := by
  have hle := length_written_le wild hsized h acc
  rw [AggCol.field, List.length_append, List.length_replicate]
  omega

/-- The loop that fills the result puts the fields side by side. -/
theorem writeResults_eq (hsized : ∀ col ∈ childCols, col.Sized) (f : AggCol → Accumulator) :
    ∀ {cols : List AggCol} (front : Bytes), (∀ c ∈ cols, c.Fits childCols) → SideBySide front.length cols →
      writeResults wild (cols.map fun c => (c, f c)) (front ++ List.replicate (aggregateLen cols) 0) =
        front ++ cols.flatMap fun c => c.field wild (f c)
  | [], front, _, _ => rfl
  | c :: cols, front, hfits, .cons hoff hrest => by
    obtain ⟨hfit, hfits⟩ := List.forall_mem_cons.1 hfits
    have hle := length_written_le wild hsized hfit (f c)
    have hlen := length_field wild hsized hfit (f c)
    let bytes := (f c).written wild c
    have hroom : bytes.length ≤ c.out.len.toNat := by
      show ((f c).written wild c).length ≤ _
      omega
    have hsum : List.replicate (aggregateLen (c :: cols)) (0 : UInt8) = List.replicate bytes.length 0 ++
        (List.replicate (c.out.len.toNat - bytes.length) 0 ++ List.replicate (aggregateLen cols) 0) := by
      have hlen : aggregateLen (c :: cols) = bytes.length + (c.out.len.toNat - bytes.length + aggregateLen cols) := by
        rw [aggregateLen, List.map_cons, List.sum_cons, ← aggregateLen]
        omega
      rw [hlen, List.replicate_add, List.replicate_add]
    have hcopy := memcpyAt_append (a := front) (b := List.replicate bytes.length 0) (c :=
      List.replicate (c.out.len.toNat - bytes.length) 0 ++ List.replicate (aggregateLen cols) 0) List.length_replicate
      (Nat.le_refl bytes.length)
    have hrest' : SideBySide (front ++ c.field wild (f c)).length cols := by
      rw [List.length_append, hlen, Int.natCast_add, Int.toNat_of_nonneg (by omega)]
      exact hrest
    have ih := writeResults_eq hsized f _ hfits hrest'
    rw [AggCol.field, List.append_assoc, List.append_assoc, List.append_assoc] at ih
    show writeResults wild (cols.map fun c => (c, f c)) (memcpyAt _ c.out.offset bytes bytes.length) = _
    rw [hoff, hsum, ← List.append_assoc, hcopy, List.take_length, List.append_assoc, ih, List.flatMap_cons,
      AggCol.field, List.append_assoc]

/-- **What a column of the result holds.** -/
theorem colBytes_fields (hsized : ∀ col ∈ childCols, col.Sized) (f : AggCol → Accumulator) {cols : List AggCol}
    (front : Bytes) (hfits : ∀ c ∈ cols, c.Fits childCols) (hside : SideBySide front.length cols) :
    ∀ c ∈ cols, colBytes (front ++ cols.flatMap fun c => c.field wild (f c)) c.out = c.field wild (f c) := by
  induction cols generalizing front with
  | nil =>
    intro c hc
    cases hc
  | cons c cols ih =>
    intro d hd
    cases hside with
    | cons hoff hrest =>
      obtain ⟨hfit, hfits⟩ := List.forall_mem_cons.1 hfits
      have hlen := length_field wild hsized hfit (f c)
      have hle := length_written_le wild hsized hfit (f c)
      rw [List.flatMap_cons]
      rcases List.mem_cons.1 hd with rfl | hd
      · rw [colBytes, hoff, Int.toNat_natCast, List.drop_left, ← hlen, List.take_left]
      · have hrest' : SideBySide (front ++ c.field wild (f c)).length cols := by
          rw [List.length_append, hlen, Int.natCast_add, Int.toNat_of_nonneg (by omega)]
          exact hrest
        rw [← List.append_assoc]
        exact ih _ hfits hrest' d hd

/-- The fields of the result, each from the rows alone. -/
theorem colBytes_aggregateResult (hsized : ∀ col ∈ childCols, col.Sized) {selCols : List AggSelCol}
    {cols : List AggCol} (hcols : aggregateCols childCols selCols 0 = .ok cols) (recs : List Bytes) {c : AggCol}
    (hc : c ∈ cols) : colBytes (aggregateResult wild cols recs) c.out =
      c.field wild (.behind c.branch recs) := by
  obtain ⟨hfits, hside⟩ := aggregateCols_spec hcols
  have heq := writeResults_eq wild hsized (fun c => Accumulator.behind c.branch recs) [] hfits hside
  rw [aggregateResult, foldl_readRow]
  rw [List.nil_append] at heq
  show colBytes (writeResults wild (cols.map fun c => (c, Accumulator.behind c.branch recs)) _) c.out = _
  rw [heq, ← List.nil_append (cols.flatMap _)]
  exact colBytes_fields wild hsized _ [] hfits hside c hc

end fields

/-! ## MAX and MIN -/

theorem sign_pos_iff {α : Type} [LT α] [DecidableLT α] (h : ∀ a b : α, a < b → ¬b < a) (a b : α) :
    0 < sign a b ↔ b < a := by
  unfold sign
  by_cases hab : a < b
  · simp [hab, h a b hab]
  · by_cases hba : b < a <;> simp [hab, hba]

/-- `compare_value` is transitive also over floats that are no numbers. -/
theorem compareValue_pos_trans {a b c : Bytes} {type : ColType} {len : Int} (hab : 0 < compareValue a b type len)
    (hbc : 0 < compareValue b c type len) : 0 < compareValue a c type len := by
  have hint : ∀ x y : Int, x < y → ¬y < x := fun x y h => by omega
  cases type with
  | string =>
    have hord := ordered_memcmp len.toNat
    simp only [compareValue] at hab hbc ⊢
    have h1 := hord.trans c b a trivial trivial trivial
    have h2 := hord.flip b a trivial trivial
    have h3 := hord.flip c b trivial trivial
    have h4 := hord.flip c a trivial trivial
    have h5 := hord.trans b a c trivial trivial trivial
    have h6 := hord.flip a c trivial trivial
    omega
  | float =>
    have hfloat : ∀ x y : FloatBits, x < y → ¬y < x := fun x y h h' => hint _ _ h.2.2 h'.2.2
    simp only [compareValue, sign_pos_iff hfloat] at hab hbc ⊢
    exact ⟨hbc.1, hab.2.1, Int.lt_trans hbc.2.2 hab.2.2⟩
  | _ =>
    simp only [compareValue, sign_pos_iff hint] at hab hbc ⊢
    omega

section minmax

variable {aggType : AggType} {pos : ColMeta}

/-- The first value would take the place of the second one. -/
def AggType.better (aggType : AggType) (pos : ColMeta) (a b : Bytes) : Bool :=
  aggType.replaces (compareValue a b pos.type pos.len)

theorem better_irrefl (a : Bytes) : aggType.better pos a a = false := by
  have hzero : compareValue a a pos.type pos.len = 0 := by
    have := compareValue_swap a a pos.type pos.len
    omega
  simp [AggType.better, AggType.replaces, hzero]

theorem better_trans (a b c : Bytes) (hab : aggType.better pos a b = true) (hbc : aggType.better pos b c = true) :
    aggType.better pos a c = true := by
  simp only [AggType.better, AggType.replaces, decide_eq_true_eq] at hab hbc ⊢
  rcases hab with ⟨hty, hab⟩ | ⟨hty, hab⟩
  · rcases hbc with ⟨-, hbc⟩ | ⟨hty', -⟩
    · exact .inl ⟨hty, compareValue_pos_trans hab hbc⟩
    · rw [hty] at hty'
      cases hty'
  · rcases hbc with ⟨hty', -⟩ | ⟨-, hbc⟩
    · rw [hty] at hty'
      cases hty'
    · refine .inr ⟨hty, ?_⟩
      have h1 := compareValue_swap a b pos.type pos.len
      have h2 := compareValue_swap b c pos.type pos.len
      have h3 := compareValue_swap a c pos.type pos.len
      have h4 := @compareValue_pos_trans c b a pos.type pos.len (by omega) (by omega)
      omega

/-- The loop keeps values of the column. -/
theorem foldl_step_minmax (hsized : pos.Sized) (recs : List Bytes) : ∀ {acc : Accumulator},
    (recs.foldl (fun acc rec => acc.step (.minmax aggType pos) rec) acc).minmax =
      (recs.map fun rec => colBytes rec pos).foldl (keepBest (aggType.better pos)) acc.minmax := by
  have hwidth := hsized.width_le
  induction recs with
  | nil => exact rfl
  | cons rec recs ih =>
    intro acc
    have hstep : (acc.step (.minmax aggType pos) rec).minmax =
        keepBest (aggType.better pos) acc.minmax (colBytes rec pos) := by
      unfold Accumulator.step
      cases hcur : acc.minmax with
      | none => rfl
      | some cur =>
        -- the comparison reads no more than the bytes that are kept
        have hdata : (rec.drop pos.offset.toNat).take (pos.type.width pos.len) =
            (colBytes rec pos).take (pos.type.width pos.len) := by
          rw [colBytes, List.take_take, Nat.min_eq_left hwidth]
        have hcmp : compareValue (rec.drop pos.offset.toNat) cur pos.type pos.len =
            compareValue (colBytes rec pos) cur pos.type pos.len := compareValue_congr hdata rfl
        simp only [hcmp, keepBest]
        by_cases hb : aggType.better pos (colBytes rec pos) cur = true
        · rw [if_pos hb, if_pos (show aggType.replaces _ = true from hb)]
          rfl
        · rw [if_neg hb, if_neg (show ¬aggType.replaces _ = true from hb), hcur]
    rw [List.foldl_cons, ih, List.map_cons, List.foldl_cons, hstep]

theorem minmax_field (hsized : pos.Sized) {recs : List Bytes} (h : recs ≠ []) : ∃ rec ∈ recs,
    (Accumulator.behind (.minmax aggType pos) recs).minmax = some (colBytes rec pos) ∧
    ∀ r ∈ recs, aggType.better pos (colBytes r pos) (colBytes rec pos) = false := by
  have hne : recs.map (fun rec => colBytes rec pos) ≠ [] := by simpa using h
  obtain ⟨m, hm, hfold, hall⟩ := foldl_keepBest (@better_irrefl aggType pos) better_trans hne
  obtain ⟨rec, hrec, rfl⟩ := List.mem_map.1 hm
  refine ⟨rec, hrec, ?_, fun r hr => hall _ (List.mem_map_of_mem hr)⟩
  rw [Accumulator.behind, foldl_step_minmax hsized]
  exact hfold

end minmax

/-! ## SUM over integers -/

/-- The exact sum of a column. -/
def ColMeta.total (pos : ColMeta) (recs : List Bytes) : Int := (recs.map pos.readNumber).sum

theorem natAbs_readNumber_le (pos : ColMeta) (rec : Bytes) : (pos.readNumber rec).natAbs ≤ 2 ^ 63 := by
  unfold ColMeta.readNumber
  split
  · have h1 := BitVec.toInt_lt (x := BitVec.ofNat 32 (leNat ((rec.drop pos.offset.toNat).take 4)))
    have h2 := BitVec.le_toInt (BitVec.ofNat 32 (leNat ((rec.drop pos.offset.toNat).take 4)))
    simp only [readInt]
    omega
  · have h1 := BitVec.toInt_lt (x := BitVec.ofNat 64 (leNat ((rec.drop pos.offset.toNat).take 8)))
    have h2 := BitVec.le_toInt (BitVec.ofNat 64 (leNat ((rec.drop pos.offset.toNat).take 8)))
    simp only [readInt64]
    omega

section sum

variable {pos : ColMeta} {recs : List Bytes} {wild : Float.Model → Int}

theorem foldl_step_sum (hint : pos.IsInteger) : ∀ (recs : List Bytes) {acc : Accumulator},
    (recs.foldl (fun acc rec => acc.step (.sum pos) rec) acc).sum =
      (recs.map pos.readNumber).foldl (fun x v => x + Float.Model.ofInt v) acc.sum
  | [], _ => rfl
  | rec :: recs, acc => by
    have hstep : (acc.step (.sum pos) rec).sum = acc.sum + Float.Model.ofInt (pos.readNumber rec) := by
      show addData acc.sum (rec.drop pos.offset.toNat) pos.type = _
      rcases hint with ⟨hty, -⟩ | ⟨hty, -⟩
      · simp only [hty, addData, ColMeta.readNumber, if_true]
      · simp only [hty, addData, ColMeta.readNumber, reduceCtorEq, if_false]
    rw [List.foldl_cons, foldl_step_sum hint recs, hstep, List.map_cons, List.foldl_cons]

/-- The `double` of a column of integers. -/
theorem isInt_sum (hint : pos.IsInteger) (recs : List Bytes) :
    Binary64.IsInt (Accumulator.behind (.sum pos) recs).sum
      (pos.total recs + Binary64.errorFrom 0 (recs.map pos.readNumber)) := by
  have hvs : ∀ v ∈ recs.map pos.readNumber, v.natAbs ≤ 2 ^ 63 := by
    intro v hv
    obtain ⟨rec, -, rfl⟩ := List.mem_map.1 hv
    exact natAbs_readNumber_le pos rec
  have hzero : Binary64.IsInt Accumulator.init.sum 0 := Binary64.isInt_ofInt (n := 0) (k := 0) (by decide) (by decide)
  have hfold := Binary64.isInt_foldl (by decide) hvs hzero (by decide)
  rw [Binary64.sumFrom_eq, Int.zero_add] at hfold
  rw [Accumulator.behind, foldl_step_sum hint]
  exact hfold

theorem castInt_eq {x : Float.Model} {n : Int} (h : Binary64.IsInt x n) (bits : Nat) :
    castInt wild bits x = if -2 ^ (bits - 1) ≤ n ∧ n < 2 ^ (bits - 1) then n else wild x := by
  have hfin : x.isFinite = true := h.isFinite
  simp only [castInt, hfin, Binary64.Holds.toInt h, true_and]

/-- The number that a cast gives in the type of a column. -/
def ColMeta.cast (wild : Float.Model → Int) (col : ColMeta) (x : Float.Model) : Int :=
  castInt wild (if col.type = .int then 32 else 64) x

theorem cast_of_inRange {x : Float.Model} {n : Int} (h : Binary64.IsInt x n) (hr : pos.InRange n) :
    pos.cast wild x = n := by
  unfold ColMeta.cast ColMeta.InRange at *
  rw [castInt_eq h]
  by_cases hty : pos.type = .int
  · simp only [hty, if_true, intMin, intMax] at hr ⊢
    rw [if_pos (by omega)]
  · simp only [hty, if_false, int64Min, int64Max] at hr ⊢
    rw [if_pos (by omega)]

theorem cast_of_not_inRange {x : Float.Model} {n : Int} (h : Binary64.IsInt x n) (hr : ¬pos.InRange n) :
    pos.cast wild x = wild x := by
  unfold ColMeta.cast ColMeta.InRange at *
  rw [castInt_eq h]
  by_cases hty : pos.type = .int
  · simp only [hty, if_true, intMin, intMax] at hr ⊢
    rw [if_neg (by omega)]
  · simp only [hty, if_false, int64Min, int64Max] at hr ⊢
    rw [if_neg (by omega)]

theorem written_sum {out : ColMeta} (hint : out.IsInteger) (acc : Accumulator) :
    acc.written wild ⟨.sum pos, out⟩ = out.intBytes (out.cast wild acc.sum) := by
  rcases hint with ⟨hty, -⟩ | ⟨hty, -⟩
  · simp only [Accumulator.written, ColMeta.intBytes, ColMeta.cast, hty, if_true]
  · simp only [Accumulator.written, ColMeta.intBytes, ColMeta.cast, hty, reduceCtorEq, if_false]

end sum

/-! ## The result of an aggregation -/

namespace AggCol

variable (c : AggCol) (recs : List Bytes) (result : Bytes)

/-- A SUM over integers is their sum, if the type of the column has it. -/
def SumIs : Prop :=
  ∀ pos, c.branch = .sum pos → pos.IsInteger → pos.InRange (pos.total recs) →
    c.out.readNumber result = pos.total recs

/-- A MAX over some rows is a value of the column that no other one exceeds. -/
def MaxIs : Prop :=
  ∀ pos, c.branch = .minmax .max pos → recs ≠ [] → ∃ rec ∈ recs, colBytes result c.out = colBytes rec pos ∧
    ∀ r ∈ recs, compareValue (colBytes r pos) (colBytes rec pos) pos.type pos.len ≤ 0

/-- A MIN over some rows is a value of the column that no other one undercuts. -/
def MinIs : Prop :=
  ∀ pos, c.branch = .minmax .min pos → recs ≠ [] → ∃ rec ∈ recs, colBytes result c.out = colBytes rec pos ∧
    ∀ r ∈ recs, 0 ≤ compareValue (colBytes r pos) (colBytes rec pos) pos.type pos.len

/-- What the roundings change in a SUM over integers adds up to nothing. -/
def ErrorFree : Prop :=
  ∀ pos, c.branch = .sum pos → pos.IsInteger → pos.InRange (pos.total recs) →
    Binary64.errorFrom 0 (recs.map pos.readNumber) = 0

/-- The values and the sums on the way of a SUM have 53 significant bits. -/
def Significant : Prop :=
  ∀ pos, c.branch = .sum pos → (∀ rec ∈ recs, Binary64.round (pos.readNumber rec) = pos.readNumber rec) ∧
    ∀ l, l <+: recs → Binary64.round (pos.total l) = pos.total l

end AggCol

section result

variable {childCols : List ColMeta} {recs : List Bytes} {cols : List AggCol} {selCols : List AggSelCol}
  (hsized : ∀ col ∈ childCols, col.Sized) (hcols : aggregateCols childCols selCols 0 = .ok cols)

include hsized hcols

theorem sumIs_iff {c : AggCol} (hc : c ∈ cols) :
    (∀ wild, c.SumIs recs (aggregateResult wild cols recs)) ↔ c.ErrorFree recs := by
  have hfit := (aggregateCols_spec hcols).1 c hc
  have hfield := fun wild => colBytes_aggregateResult wild hsized hcols recs hc
  -- the number in the result
  have hread : ∀ wild pos, c.branch = .sum pos → pos.IsInteger → ∀ v,
      pos.cast wild (Accumulator.behind (.sum pos) recs).sum = v → pos.InRange v →
      c.out.readNumber (aggregateResult wild cols recs) = v := by
    intro wild pos hbranch hint v hcast hv
    obtain ⟨branch, out⟩ := c
    obtain rfl : branch = .sum pos := hbranch
    cases hfit with
    | sum _ _ _ htype hlen =>
      have hout : out.IsInteger := by simpa only [ColMeta.IsInteger, htype, hlen] using hint
      have hcast' : out.cast wild (Accumulator.behind (.sum pos) recs).sum = v := by
        rw [← hcast, ColMeta.cast, ColMeta.cast, htype]
      have hv' : out.InRange v := by simpa only [ColMeta.InRange, htype] using hv
      have hwritten := @written_sum pos wild out hout (Accumulator.behind (.sum pos) recs)
      have hroom := ColMeta.length_intBytes hout v
      have hbytes : colBytes (aggregateResult wild cols recs) out = out.intBytes v := by
        rw [hfield wild, AggCol.field, hwritten, hcast', show out.len.toNat - (out.intBytes v).length = 0 by omega]
        exact List.append_nil _
      rw [ColMeta.readNumber_eq hout, hbytes, ColMeta.read_intBytes hout hv']
  constructor
  · intro h pos hbranch hint hrange
    have hsum := isInt_sum hint recs
    by_cases hr : pos.InRange (pos.total recs + Binary64.errorFrom 0 (recs.map pos.readNumber))
    · have h1 := h (fun _ => 0) pos hbranch hint hrange
      have h2 := hread (fun _ => 0) pos hbranch hint _ (cast_of_inRange hsum hr) hr
      omega
    · -- the cast may give anything
      have hwild : ∀ v, pos.InRange v → v = pos.total recs := by
        intro v hv
        have h1 := h (fun _ => v) pos hbranch hint hrange
        have h2 := hread (fun _ => v) pos hbranch hint v (cast_of_not_inRange hsum hr) hv
        omega
      have h0 := hwild 0 (by unfold ColMeta.InRange; split <;> decide)
      have h1 := hwild 1 (by unfold ColMeta.InRange; split <;> decide)
      omega
  · intro h wild pos hbranch hint hrange
    have hsum := isInt_sum hint recs
    rw [h pos hbranch hint hrange, Int.add_zero] at hsum
    exact hread wild pos hbranch hint _ (cast_of_inRange hsum hrange) hrange

/-- The bytes of a MAX or a MIN. -/
theorem minmax_result (wild : Float.Model → Int) {c : AggCol} (hc : c ∈ cols)
    (hin : ∀ rec ∈ recs, ∀ col ∈ childCols, col.Inside rec.length) {aggType : AggType} {pos : ColMeta}
    (hbranch : c.branch = .minmax aggType pos) (hne : recs ≠ []) : ∃ rec ∈ recs,
    colBytes (aggregateResult wild cols recs) c.out = colBytes rec pos ∧
    ∀ r ∈ recs, aggType.better pos (colBytes r pos) (colBytes rec pos) = false := by
  have hfit := (aggregateCols_spec hcols).1 c hc
  have hfield := colBytes_aggregateResult wild hsized hcols recs hc
  obtain ⟨branch, out⟩ := c
  obtain rfl : branch = .minmax aggType pos := hbranch
  cases hfit with
  | minmax _ _ _ hmem htype hlen =>
    obtain ⟨rec, hrec, hkept, hall⟩ := @minmax_field aggType pos (hsized pos hmem) recs hne
    have hroom := length_colBytes_of_inside (hin rec hrec pos hmem)
    have hwritten : (Accumulator.behind (.minmax aggType pos) recs).written wild ⟨.minmax aggType pos, out⟩ =
        colBytes rec pos := by
      simp only [Accumulator.written, hkept, Option.getD_some, hlen]
      exact List.take_of_length_le (Nat.le_of_eq hroom)
    refine ⟨rec, hrec, ?_, hall⟩
    rw [hfield, AggCol.field, hwritten, hlen, hroom, Nat.sub_self]
    exact List.append_nil _

theorem maxIs (wild : Float.Model → Int) {c : AggCol} (hc : c ∈ cols)
    (hin : ∀ rec ∈ recs, ∀ col ∈ childCols, col.Inside rec.length) :
    c.MaxIs recs (aggregateResult wild cols recs) := by
  intro pos hbranch hne
  obtain ⟨rec, hrec, hbytes, hall⟩ := minmax_result hsized hcols wild hc hin hbranch hne
  refine ⟨rec, hrec, hbytes, fun r hr => ?_⟩
  have hr' := hall r hr
  simp only [AggType.better, AggType.replaces, true_and, reduceCtorEq, false_and, or_false, decide_eq_false_iff_not]
    at hr'
  omega

theorem minIs (wild : Float.Model → Int) {c : AggCol} (hc : c ∈ cols)
    (hin : ∀ rec ∈ recs, ∀ col ∈ childCols, col.Inside rec.length) :
    c.MinIs recs (aggregateResult wild cols recs) := by
  intro pos hbranch hne
  obtain ⟨rec, hrec, hbytes, hall⟩ := minmax_result hsized hcols wild hc hin hbranch hne
  refine ⟨rec, hrec, hbytes, fun r hr => ?_⟩
  have hr' := hall r hr
  simp only [AggType.better, AggType.replaces, true_and, reduceCtorEq, false_and, false_or, decide_eq_false_iff_not]
    at hr'
  omega

end result

/-- Nothing is rounded as long as the values and the sums on the way have 53 significant bits. -/
theorem AggCol.Significant.errorFree {c : AggCol} {recs : List Bytes} (h : c.Significant recs) : c.ErrorFree recs := by
  intro pos hbranch _ _
  obtain ⟨hvalues, hsums⟩ := h pos hbranch
  refine Binary64.errorFrom_eq_zero ?_ ?_
  · intro v hv
    obtain ⟨rec, hrec, rfl⟩ := List.mem_map.1 hv
    exact hvalues rec hrec
  · intro l hl
    obtain ⟨n, rfl⟩ : ∃ n, l = (recs.map pos.readNumber).take n := ⟨l.length, (List.prefix_iff_eq_take.1 hl)⟩
    rw [Int.zero_add, ← List.map_take]
    exact hsums _ (List.take_prefix n recs)

theorem natAbs_total_le (pos : ColMeta) {b : Nat} : ∀ {recs : List Bytes},
    (∀ rec ∈ recs, (pos.readNumber rec).natAbs ≤ b) → (pos.total recs).natAbs ≤ recs.length * b
  | [], _ => Nat.zero_le _
  | rec :: recs, h => by
    have hrec := h rec List.mem_cons_self
    have hrest := natAbs_total_le pos fun r hr => h r (List.mem_cons_of_mem _ hr)
    have htotal : pos.total (rec :: recs) = pos.readNumber rec + pos.total recs := by
      simp [ColMeta.total]
    rw [htotal, List.length_cons, Nat.add_mul]
    omega

/-- A SUM over an `INT` column of less than four million rows. -/
theorem significant_of_int {c : AggCol} {recs : List Bytes} (htype : ∀ pos, c.branch = .sum pos → pos.type = .int)
    (hlen : recs.length < 2 ^ 22) : c.Significant recs := by
  intro pos hbranch
  have hvalue : ∀ rec, (pos.readNumber rec).natAbs ≤ 2 ^ 31 := by
    intro rec
    have h1 := BitVec.toInt_lt (x := BitVec.ofNat 32 (leNat ((rec.drop pos.offset.toNat).take 4)))
    have h2 := BitVec.le_toInt (BitVec.ofNat 32 (leNat ((rec.drop pos.offset.toNat).take 4)))
    simp only [ColMeta.readNumber, htype pos hbranch, if_true, readInt]
    omega
  have hround : ∀ n : Int, n.natAbs < 2 ^ 53 → Binary64.round n = n := fun n hn => by
    simpa using Binary64.round_mul_two_pow hn 0
  refine ⟨fun rec _ => hround _ ?_, fun l hl => hround _ ?_⟩
  · have := hvalue rec
    omega
  · have hsum := @natAbs_total_le pos _ l fun rec _ => hvalue rec
    have hshort := hl.length_le
    omega

/-- `select max(x), sum(x) as s from t`, for rows 2 ^ 53 and 1 of a `BIGINT` column. -/
def wideCol : ColMeta := ⟨"t", "x", .bigint, 8, 0⟩
def wideSelCols : List AggSelCol := [⟨⟨"t", "x"⟩, .max, ""⟩, ⟨⟨"t", "x"⟩, .sum, "s"⟩]
def wideAggCols : List AggCol :=
  [⟨.minmax .max wideCol, ⟨"", "x", .bigint, 8, 0⟩⟩, ⟨.sum wideCol, ⟨"", "s", .bigint, 8, 8⟩⟩]
def wideRows : List Bytes := [int64Bytes (2 ^ 53), int64Bytes 1]

theorem aggregateCols_wide : aggregateCols [wideCol] wideSelCols 0 = .ok wideAggCols := by
  simp [aggregateCols, wideSelCols, wideAggCols, getCol, wideCol, bind, Except.bind, pure, Except.pure]

theorem sized_wide : ∀ col ∈ [wideCol], col.Sized := by
  intro col hcol
  obtain rfl := List.mem_singleton.1 hcol
  exact (by decide : (8 : Int) ≤ 8)

theorem inside_wide : ∀ rec ∈ wideRows, ∀ col ∈ [wideCol], col.Inside rec.length := by
  intro rec hrec col hcol
  obtain rfl := List.mem_singleton.1 hcol
  have hlen : rec.length = 8 := by
    rcases List.mem_pair.1 hrec with rfl | rfl <;> exact length_int64Bytes _
  rw [hlen]
  exact ⟨by decide, by decide, by decide⟩

end Rmdb
