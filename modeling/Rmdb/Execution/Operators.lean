import Rmdb.Execution.Executor
import Rmdb.Lib.StableSort

/-!
# Sort, projection and limit

- `compareValue` orders the values of a column, floats that are numbers included (`ordered_compareValue`);
- `sortExecutor`, `projectionExecutor`, `limitExecutor`: `execution_sort.h`, `executor_projection.h` and
  `executor_limit.h`, each with the rows it gives when its child gives some.
-/

namespace Rmdb

open Lib AbstractExecutor

/-! ## The order of the values -/

theorem ordered_memcmp (n : Nat) : Ordered (fun _ => True) (memcmp n) := by
  induction n with
  | zero => exact ⟨fun _ _ _ _ => by simp [memcmp], fun _ _ _ _ _ _ _ _ => by simp [memcmp]⟩
  | succ n ih =>
    -- the first bytes, and then the rest
    have hhead : Ordered (fun _ => True) fun a b : Bytes => sign (a.headD 0) (b.headD 0) :=
      ordered_of_key (fun a => ((a.headD 0).toNat : Int)) fun a b _ _ => by
        simp only [sign, UInt8.lt_iff_toNat_lt, Int.ofNat_lt]
    have hlex := ordered_lexCompare (P := fun _ : Bytes => True)
      [fun a b => sign (a.headD 0) (b.headD 0), fun a b => memcmp n a.tail b.tail] (by
        intro cmp hc
        rcases List.mem_pair.1 hc with rfl | rfl
        · exact hhead
        · exact ih.comap List.tail)
    have heq : memcmp (n + 1) =
        lexCompare [fun a b => sign (a.headD 0) (b.headD 0), fun a b => memcmp n a.tail b.tail] := by
      funext a b
      simp only [memcmp, lexCompare, sign]
      grind
    rw [heq]
    exact hlex

/-- The value of a column is a number, if it is a float. -/
def IsNumber (type : ColType) (data : Bytes) : Prop := type = .float → ¬(readFloat data).isNaN

/-- **`compare_value` is an order** on the values of a column, without NaN. -/
theorem ordered_compareValue (type : ColType) (len : Int) :
    Ordered (IsNumber type) fun a b => compareValue a b type len := by
  cases type with
  | int => exact ordered_of_key readInt fun a b _ _ => rfl
  | bigint => exact ordered_of_key readInt64 fun a b _ _ => rfl
  | datetime => exact ordered_of_key readInt64 fun a b _ _ => rfl
  | string => exact (ordered_memcmp len.toNat).mono fun _ _ => trivial
  | float =>
    refine ordered_of_key (fun b => (readFloat b).signed) fun a b ha hb => ?_
    have hlt : ∀ {x y : FloatBits}, ¬x.isNaN → ¬y.isNaN → (x < y ↔ x.signed < y.signed) := fun hx hy =>
      ⟨fun h => h.2.2, fun h => ⟨hx, hy, h⟩⟩
    simp only [compareValue, sign, hlt (ha rfl) (hb rfl), hlt (hb rfl) (ha rfl)]

/-! ## Sort -/

/-- The fields of `SortExecutor` that change. -/
structure SortState (P : Type) where
  prev : P
  tuples : List Bytes
  pos : Nat

/-- `compare_tuple`. -/
def compareTuple : List ColMeta → List Bool → Bytes → Bytes → Int
  | [], _, _, _ => 0
  | col :: orderCols, isDesc, a, b =>
    let c := compareValue (a.drop col.offset.toNat) (b.drop col.offset.toNat) col.type col.len
    if c ≠ 0 then if isDesc.headD false then -c else c
    else compareTuple orderCols isDesc.tail a b

/-- `SortExecutor`. -/
def sortExecutor (prev : AbstractExecutor) (orderCols : List ColMeta) (isDesc : List Bool) : AbstractExecutor where
  State := SortState prev.State
  tupleLen := prev.tupleLen
  cols := prev.cols
  beginTuple fuel st := do
    let (tuples, s) ← prev.rows fuel st.prev
    return { prev := s, tuples := stableSort (compareTuple orderCols isDesc) tuples, pos := 0 }
  nextTuple _ st := return { st with pos := st.pos + 1 }
  isEnd st := st.tuples.length ≤ st.pos
  next st :=
    match st.tuples[st.pos]? with
    | some tuple => pure tuple
    | none => Outcome.halt

/-- The record has numbers in these columns, where they are floats. -/
def HasNumbers (cols : List ColMeta) (rec : Bytes) : Prop :=
  ∀ col ∈ cols, IsNumber col.type (rec.drop col.offset.toNat)

/-- `compare_tuple` is an order on the records that have numbers as keys. -/
theorem ordered_compareTuple : ∀ (orderCols : List ColMeta) (isDesc : List Bool),
    Ordered (HasNumbers orderCols) (compareTuple orderCols isDesc)
  | [], _ => ⟨fun _ _ _ _ => by simp [compareTuple], fun _ _ _ _ _ _ _ _ => by simp [compareTuple]⟩
  | col :: orderCols, isDesc => by
    have hcol : Ordered (HasNumbers (col :: orderCols)) fun a b =>
        compareValue (a.drop col.offset.toNat) (b.drop col.offset.toNat) col.type col.len :=
      ((ordered_compareValue col.type col.len).comap (List.drop col.offset.toNat)).mono fun rec h =>
        h col List.mem_cons_self
    have hrest : Ordered (HasNumbers (col :: orderCols)) (compareTuple orderCols isDesc.tail) :=
      (ordered_compareTuple orderCols isDesc.tail).mono fun rec h c hc => h c (List.mem_cons_of_mem _ hc)
    let key : Bytes → Bytes → Int := fun a b =>
      if isDesc.headD false then -compareValue (a.drop col.offset.toNat) (b.drop col.offset.toNat) col.type col.len
      else compareValue (a.drop col.offset.toNat) (b.drop col.offset.toNat) col.type col.len
    have hkey : Ordered (HasNumbers (col :: orderCols)) key := by
      cases hd : isDesc.headD false
      · simpa only [key, hd, Bool.false_eq_true, if_false] using hcol
      · simpa only [key, hd, if_true] using hcol.neg
    have hlex := ordered_lexCompare (P := HasNumbers (col :: orderCols))
      [key, compareTuple orderCols isDesc.tail] (by
        intro cmp hc
        rcases List.mem_pair.1 hc with rfl | rfl
        · exact hkey
        · exact hrest)
    have heq : compareTuple (col :: orderCols) isDesc = lexCompare [key, compareTuple orderCols isDesc.tail] := by
      funext a b
      simp only [compareTuple, lexCompare, key]
      grind
    rw [heq]
    exact hlex

section sort

variable {prev : AbstractExecutor} {orderCols : List ColMeta} {isDesc : List Bool} {fuel : Nat}

/-- Once sorted, the rows come one by one. -/
theorem yields_sortExecutor : ∀ {tuples : List Bytes} {st : SortState prev.State}, st.tuples.drop st.pos = tuples →
    (sortExecutor prev orderCols isDesc).Yields fuel st tuples
  | [], st, h => by
    have hlen := List.drop_eq_nil_iff.1 h
    show decide (st.tuples.length ≤ st.pos) = true
    rw [decide_eq_true hlen]
  | rec :: recs, st, h => by
    have hlt : st.pos < st.tuples.length := by
      by_contra hge
      rw [List.drop_of_length_le (by omega)] at h
      cases h
    rw [List.drop_eq_getElem_cons hlt] at h
    obtain ⟨hrec, hrest⟩ := List.cons.inj h
    refine ⟨?_, ?_, { st with pos := st.pos + 1 }, rfl, yields_sortExecutor hrest⟩
    · show decide (st.tuples.length ≤ st.pos) = false
      rw [decide_eq_false (by omega)]
    · show (match st.tuples[st.pos]? with
        | some tuple => pure tuple
        | none => Outcome.halt : Outcome Bytes) = pure rec
      rw [List.getElem?_eq_getElem hlt, hrec]

/-- **The sort gives the sorted rows of its child.** -/
theorem deliversAt_sortExecutor {recs : List Bytes} (h : prev.DeliversAt fuel recs) (hfuel : recs.length < fuel) :
    (sortExecutor prev orderCols isDesc).DeliversAt fuel (stableSort (compareTuple orderCols isDesc) recs) := by
  intro (st : SortState prev.State)
  obtain ⟨s', hs'⟩ := h.rows hfuel st.prev
  refine ⟨⟨s', stableSort (compareTuple orderCols isDesc) recs, 0⟩, ?_, yields_sortExecutor rfl⟩
  show (do
    let (tuples, s) ← prev.rows fuel st.prev
    return { prev := s, tuples := stableSort (compareTuple orderCols isDesc) tuples, pos := 0 } :
      Outcome (SortState prev.State)) = _
  rw [hs', pure_bind]
  rfl

end sort

/-! ## Projection -/

/-- The loop of the constructor of `ProjectionExecutor`: each selected column with its place in the new record. The
first of a pair is the column of the child at `sel_idxs_[i]`, the second is `cols_[i]`. -/
def projectionCols (prevCols : List ColMeta) : List TabCol → Int → Except RMDBError (List (ColMeta × ColMeta))
  | [], _ => .ok []
  | selCol :: selCols, currOffset => do
    let col ← getCol prevCols selCol
    let cols ← projectionCols prevCols selCols (currOffset + col.len)
    return (col, { col with offset := currOffset }) :: cols

/-- `len_`. -/
def projectionLen (cols : List (ColMeta × ColMeta)) : Nat := (cols.map fun c => c.2.len.toNat).sum

/-- The loop of `Next`: one selected column after the other is copied. -/
def copyCols (prevRec : Bytes) : List (ColMeta × ColMeta) → Bytes → Bytes
  | [], data => data
  | (prevCol, col) :: cols, data =>
    copyCols prevRec cols (memcpyAt data col.offset (prevRec.drop prevCol.offset.toNat) col.len)

/-- `ProjectionExecutor`. -/
def projectionExecutor (prev : AbstractExecutor) (cols : List (ColMeta × ColMeta)) : AbstractExecutor where
  State := prev.State
  tupleLen := projectionLen cols
  cols := cols.map (·.2)
  beginTuple := prev.beginTuple
  nextTuple := prev.nextTuple
  isEnd := prev.isEnd
  next s := do
    let prevRec ← prev.next s
    return copyCols prevRec cols (List.replicate (projectionLen cols) 0)

/-- The column lies inside of a record of this length. -/
def ColMeta.Inside (len : Nat) (col : ColMeta) : Prop := 0 ≤ col.offset ∧ 0 ≤ col.len ∧ col.offset + col.len ≤ len

theorem getCol_mem {recCols : List ColMeta} {target : TabCol} {col : ColMeta} (h : getCol recCols target = .ok col) :
    col ∈ recCols := by
  unfold getCol at h
  split at h
  · next hfind =>
    cases h
    exact List.mem_of_find?_eq_some hfind
  · cases h

theorem length_colBytes_of_inside {rec : Bytes} {col : ColMeta} (h : col.Inside rec.length) :
    (colBytes rec col).length = col.len.toNat := by
  obtain ⟨h1, h2, h3⟩ := h
  rw [colBytes, List.length_take, List.length_drop]
  omega

/-- The loop of `Next` puts the selected columns side by side, behind what is there already. -/
theorem copyCols_eq {prevCols : List ColMeta} {prevRec : Bytes} (hin : ∀ col ∈ prevCols, col.Inside prevRec.length) :
    ∀ {selCols : List TabCol} {cols : List (ColMeta × ColMeta)} (front : Bytes),
      projectionCols prevCols selCols front.length = .ok cols →
      copyCols prevRec cols (front ++ List.replicate (projectionLen cols) 0) =
        front ++ cols.flatMap fun c => colBytes prevRec c.1 := by
  intro selCols
  induction selCols with
  | nil =>
    intro cols front h
    cases h
    rfl
  | cons selCol selCols ih =>
    intro cols front h
    obtain ⟨col, hcol, h⟩ := bind_eq_ok.1 h
    obtain ⟨rest, hrest, h⟩ := bind_eq_ok.1 h
    cases h
    have hc := hin col (getCol_mem hcol)
    have hlen := length_colBytes_of_inside hc
    obtain ⟨h1, h2, h3⟩ := hc
    have hsum : projectionLen ((col, { col with offset := (front.length : Int) }) :: rest) =
        col.len.toNat + projectionLen rest := by
      simp [projectionLen]
    have hnat : (col.len.toNat : Int) = col.len := by omega
    have hroom : col.len.toNat ≤ (prevRec.drop col.offset.toNat).length := by
      rw [List.length_drop]
      omega
    have hcopy := memcpyAt_append (a := front) (b := List.replicate col.len.toNat 0)
      (c := List.replicate (projectionLen rest) 0) List.length_replicate hroom
    rw [hnat] at hcopy
    have hstart : projectionCols prevCols selCols (front ++ colBytes prevRec col).length = .ok rest := by
      rw [List.length_append, hlen, Int.natCast_add, hnat]
      exact hrest
    rw [copyCols, hsum, List.replicate_add, ← List.append_assoc, hcopy]
    show copyCols prevRec rest (front ++ colBytes prevRec col ++ List.replicate (projectionLen rest) 0) = _
    rw [ih (front ++ colBytes prevRec col) hstart, List.flatMap_cons, List.append_assoc]

section projection

variable {prev : AbstractExecutor} {cols : List (ColMeta × ColMeta)} {selCols : List TabCol} {fuel : Nat}

/-- **The projection gives the selected columns of the rows of its child**, in their order. -/
theorem yields_projectionExecutor (hcols : projectionCols prev.cols selCols 0 = .ok cols) :
    ∀ {recs : List Bytes} {s : prev.State}, (∀ rec ∈ recs, ∀ col ∈ prev.cols, col.Inside rec.length) →
      prev.Yields fuel s recs →
      (projectionExecutor prev cols).Yields fuel s (recs.map fun rec => cols.flatMap fun c => colBytes rec c.1)
  | [], _, _, h => h
  | rec :: recs, s, hin, ⟨hend, hnext, s', hstep, hrest⟩ => by
    refine ⟨hend, ?_, s', hstep,
      yields_projectionExecutor hcols (fun r hr => hin r (List.mem_cons_of_mem _ hr)) hrest⟩
    have hcopy := copyCols_eq (hin rec List.mem_cons_self) [] hcols
    rw [List.nil_append, List.nil_append] at hcopy
    show (do
      let prevRec ← prev.next s
      return copyCols prevRec cols (List.replicate (projectionLen cols) 0) : Outcome Bytes) = _
    rw [hnext, pure_bind, hcopy]

theorem deliversAt_projectionExecutor (hcols : projectionCols prev.cols selCols 0 = .ok cols) {recs : List Bytes}
    (hin : ∀ rec ∈ recs, ∀ col ∈ prev.cols, col.Inside rec.length) (h : prev.DeliversAt fuel recs) :
    (projectionExecutor prev cols).DeliversAt fuel (recs.map fun rec => cols.flatMap fun c => colBytes rec c.1) := by
  intro (s : prev.State)
  obtain ⟨s', hs', hy⟩ := h s
  exact ⟨s', hs', yields_projectionExecutor hcols hin hy⟩

end projection

/-! ## Limit -/

/-- `LimitExecutor`; the state is that of the child and `count_`. -/
def limitExecutor (prev : AbstractExecutor) (limit : Int) : AbstractExecutor where
  State := prev.State × Int
  tupleLen := prev.tupleLen
  cols := prev.cols
  beginTuple fuel st := do
    let s ← prev.beginTuple fuel st.1
    return (s, 0)
  nextTuple fuel st := do
    let s ← prev.nextTuple fuel st.1
    return (s, st.2 + 1)
  isEnd st := limit ≤ st.2 || prev.isEnd st.1
  next st := prev.next st.1

section limit

variable {prev : AbstractExecutor} {limit : Int} {fuel : Nat}

theorem yields_limitExecutor : ∀ {recs : List Bytes} {s : prev.State} (count : Int), prev.Yields fuel s recs →
    (limitExecutor prev limit).Yields fuel (s, count) (recs.take (limit - count).toNat)
  | recs, s, count, h => by
    by_cases hle : limit ≤ count
    · rw [show (limit - count).toNat = 0 by omega, List.take_zero]
      show (decide (limit ≤ count) || prev.isEnd s) = true
      rw [decide_eq_true hle, Bool.true_or]
    · cases recs with
      | nil =>
        rw [List.take_nil]
        show (decide (limit ≤ count) || prev.isEnd s) = true
        rw [show prev.isEnd s = true from h, Bool.or_true]
      | cons rec recs =>
        obtain ⟨hend, hnext, s', hstep, hrest⟩ := h
        have hcount : (limit - count).toNat = (limit - (count + 1)).toNat + 1 := by omega
        rw [hcount, List.take_succ_cons]
        refine ⟨?_, hnext, (s', count + 1), ?_, yields_limitExecutor (count + 1) hrest⟩
        · show (decide (limit ≤ count) || prev.isEnd s) = false
          rw [decide_eq_false hle, hend]
          rfl
        · show (do
            let s ← prev.nextTuple fuel s
            return (s, count + 1) : Outcome (prev.State × Int)) = _
          rw [hstep, pure_bind]
          rfl

/-- **The limit gives the first rows of its child.** -/
theorem deliversAt_limitExecutor {recs : List Bytes} (h : prev.DeliversAt fuel recs) :
    (limitExecutor prev limit).DeliversAt fuel (recs.take limit.toNat) := by
  intro (st : prev.State × Int)
  obtain ⟨s', hs', hy⟩ := h st.1
  refine ⟨(s', 0), ?_, by simpa only [Int.sub_zero] using yields_limitExecutor 0 hy⟩
  show (do
    let s ← prev.beginTuple fuel st.1
    return (s, 0) : Outcome (prev.State × Int)) = _
  rw [hs', pure_bind]
  rfl

end limit

end Rmdb
