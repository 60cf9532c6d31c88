import Rmdb.Execution.Scans
import Rmdb.Index.KeyOrder

/-!
# The interval of an index scan

- `setMin_le` and `le_setMax`: the ends that stand for a column without a condition;
- `ColBounds.Holds`: what the conditions on one column say about a value of it;
- `KeyInterval.Sized` and `KeyInterval.Spans`: the ends are keys, and a key is in the interval, with one step for each
  column of the index (`extend_eq`);
- `spans_keyInterval`: the key of every record that meets the conditions is in the interval.
-/

namespace Rmdb

open Lib

/-! ## The ends of a column -/

theorem memcmp_cons (n : Nat) (x : UInt8) (a b : Bytes) : memcmp (n + 1) (x :: a) b =
    if x < b.headD 0 then -1 else if b.headD 0 < x then 1 else memcmp n a b.tail := rfl

theorem memcmp_replicate_zero : ∀ (n : Nat) (b : Bytes), memcmp n (List.replicate n 0) b ≤ 0
  | 0, _ => Int.le_refl 0
  | n + 1, b => by
    have ih := memcmp_replicate_zero n b.tail
    have hb : ¬b.headD 0 < 0 := by simp [UInt8.lt_iff_toNat_lt]
    rw [List.replicate_succ, memcmp_cons, if_neg hb]
    split
    · decide
    · exact ih

theorem memcmp_replicate_last : ∀ (n : Nat) (b : Bytes), 0 ≤ memcmp n (List.replicate n 255) b
  | 0, _ => Int.le_refl 0
  | n + 1, b => by
    have ih := memcmp_replicate_last n b.tail
    have hb : ¬(255 : UInt8) < b.headD 0 := by
      have := (b.headD 0).toNat_lt
      simp only [UInt8.lt_iff_toNat_lt, UInt8.reduceToNat]
      omega
    rw [List.replicate_succ, memcmp_cons, if_neg hb]
    split
    · decide
    · exact ih

theorem readInt_bounds (b : Bytes) : -2 ^ 31 ≤ readInt b ∧ readInt b < 2 ^ 31 :=
  ⟨BitVec.le_toInt _, BitVec.toInt_lt⟩

theorem readInt64_bounds (b : Bytes) : -2 ^ 63 ≤ readInt64 b ∧ readInt64 b < 2 ^ 63 :=
  ⟨BitVec.le_toInt _, BitVec.toInt_lt⟩

theorem sign_nonpos {x y : Int} (h : x ≤ y) : sign x y ≤ 0 := by
  unfold sign
  split
  · omega
  · rw [if_neg (by omega)]

theorem sign_nonneg {x y : Int} (h : y ≤ x) : 0 ≤ sign x y := by
  unfold sign
  rw [if_neg (by omega)]
  split <;> omega

section ends
variable {type : ColType} {len : Int} (htype : type ≠ .float) (b : Bytes)
include htype

/-- No value is below `set_min`. -/
theorem setMin_le : compareValue (setMin type len) b type len ≤ 0 := by
  have hint := readInt_bounds b
  have hlong := readInt64_bounds b
  cases type with
  | int =>
    refine sign_nonpos ?_
    rw [setMin, readInt_intBytes (by decide) (by decide), intMin]
    omega
  | bigint | datetime =>
    refine sign_nonpos ?_
    rw [setMin, readInt64_int64Bytes (by decide) (by decide)]
    omega
  | float => exact absurd rfl htype
  | string => exact memcmp_replicate_zero _ _

/-- No value is above `set_max`. -/
theorem le_setMax : 0 ≤ compareValue (setMax type len) b type len := by
  have hint := readInt_bounds b
  have hlong := readInt64_bounds b
  cases type with
  | int =>
    refine sign_nonneg ?_
    rw [setMax, readInt_intBytes (by decide) (by decide), intMax]
    omega
  | bigint | datetime =>
    refine sign_nonneg ?_
    rw [setMax, readInt64_int64Bytes (by decide) (by decide)]
    omega
  | float => exact absurd rfl htype
  | string => exact memcmp_replicate_last _ _

end ends

theorem ColMeta.Exact.length_setMin {col : ColMeta} (h : col.Exact) : (setMin col.type col.len).length = col.len.toNat := by
  obtain ⟨htype, hw⟩ := h
  cases ht : col.type <;> simp_all [setMin, ColType.width]

theorem ColMeta.Exact.length_setMax {col : ColMeta} (h : col.Exact) : (setMax col.type col.len).length = col.len.toNat := by
  obtain ⟨htype, hw⟩ := h
  cases ht : col.type <;> simp_all [setMax, ColType.width]

/-! ## Keys column by column -/

theorem keyLen_append (cols : List ColMeta) (col : ColMeta) : keyLen (cols ++ [col]) = keyLen cols + col.len.toNat := by
  simp [keyLen]

/-- A comparison reads only the bytes of the values. -/
theorem compareValue_append {col : ColMeta} {a b : Bytes} (h : col.Exact) (ha : col.len.toNat ≤ a.length)
    (hb : col.len.toNat ≤ b.length) (x y : Bytes) :
    compareValue (a ++ x) (b ++ y) col.type col.len = compareValue a b col.type col.len := by
  rw [← h.2] at ha hb
  exact compareValue_congr (List.take_append_of_le_length ha) (List.take_append_of_le_length hb)

/-- The last column counts when the others are equal. -/
theorem ixCompare_append : ∀ {cols : List ColMeta} {a b : Bytes}, (∀ c ∈ cols, c.Exact) → a.length = keyLen cols →
    b.length = keyLen cols → ∀ (col : ColMeta) (x y : Bytes), ixCompare (cols ++ [col]) (a ++ x) (b ++ y) =
      if ixCompare cols a b = 0 then compareValue x y col.type col.len else ixCompare cols a b
  | [], a, b, _, ha, hb, col, x, y => by
    rw [List.length_eq_zero_iff.1 ha, List.length_eq_zero_iff.1 hb]
    simp only [List.nil_append, ixCompare, if_true]
    split
    · rfl
    · next h => exact (Decidable.not_not.1 h).symm
  | c :: cols, a, b, h, ha, hb, col, x, y => by
    have hlen : keyLen (c :: cols) = c.len.toNat + keyLen cols := rfl
    have hc := h c List.mem_cons_self
    have ih := ixCompare_append (a := a.drop c.len.toNat) (b := b.drop c.len.toNat)
      (fun d hd => h d (List.mem_cons_of_mem _ hd)) (by rw [List.length_drop]; omega) (by rw [List.length_drop]; omega)
      col x y
    rw [List.cons_append, ixCompare, ixCompare, compareValue_append hc (by omega) (by omega),
      List.drop_append_of_le_length (by omega), List.drop_append_of_le_length (by omega), ih]
    by_cases hres : compareValue a b c.type c.len = 0 <;> simp [hres]

/-! ## Ends of an interval -/

/-- An end of an interval that compares as `c` with a key lies before it, or is the key and belongs to the interval. -/
def Before (c : Int) (inclusive : Bool) : Prop := c < 0 ∨ c = 0 ∧ inclusive = true

/-- The last column decides where the others are equal. -/
theorem Before.append {c d : Int} {i j : Bool} (h : Before c i) (hd : i = true → Before d j) :
    Before (if c = 0 then d else c) j := by
  rcases h with hlt | ⟨rfl, hi⟩
  · rw [if_neg (by omega)]
    exact .inl hlt
  · rw [if_pos rfl]
    exact hd hi

theorem before_of_nonpos {d : Int} {i : Bool} (h : d ≤ 0) (hi : i = true) : Before d i :=
  (Int.lt_or_eq_of_le h).imp id fun h0 => ⟨h0, hi⟩

theorem neg_ite_zero (c d : Int) : -(if c = 0 then d else c) = if -c = 0 then -d else -c := by
  by_cases h : c = 0
  · simp [h]
  · rw [if_neg h, if_neg (by omega)]

/-! ## Conditions on one column -/

namespace ColBounds

/-- The values have the bytes of the column. -/
structure Fits (b : ColBounds) (col : ColMeta) : Prop where
  eq : ∀ v, b.eq = some v → col.len.toNat ≤ v.length
  lo : ∀ v i, b.lo = some (v, i) → col.len.toNat ≤ v.length
  hi : ∀ v i, b.hi = some (v, i) → col.len.toNat ≤ v.length

/-- What the conditions on a column say about a value of it. -/
structure Holds (b : ColBounds) (col : ColMeta) (x : Bytes) : Prop where
  eq : ∀ v, b.eq = some v → compareValue v x col.type col.len = 0
  lo : ∀ v i, b.lo = some (v, i) → Before (compareValue v x col.type col.len) i
  hi : ∀ v i, b.hi = some (v, i) → Before (-compareValue v x col.type col.len) i

variable {b : ColBounds} {col : ColMeta} {x v : Bytes} {op : CompOp}

theorem Fits.add (h : b.Fits col) (hv : col.len.toNat ≤ v.length) : (b.add v op).Fits col := by
  have hlast : ∀ {i j : Bool} {w : Bytes}, some (v, i) = some (w, j) → col.len.toNat ≤ w.length := by
    intro i j w hw
    obtain ⟨rfl, -⟩ := Prod.mk.inj (Option.some.inj hw)
    exact hv
  cases op with
  | ne => exact h
  | eq => exact ⟨fun w hw => Option.some.inj hw ▸ hv, h.lo, h.hi⟩
  | gt | ge => exact ⟨h.eq, fun w i hw => hlast hw, h.hi⟩
  | lt | le => exact ⟨h.eq, h.lo, fun w i hw => hlast hw⟩

theorem Holds.add (h : b.Holds col x) (hop : evalCompare (compareValue x v col.type col.len) op = true) :
    (b.add v op).Holds col x := by
  rw [compareValue_swap v x] at hop
  cases op with
  | ne => exact h
  | eq =>
    refine ⟨fun w hw => ?_, h.lo, h.hi⟩
    obtain rfl := Option.some.inj hw
    simpa [evalCompare] using hop
  | gt =>
    refine ⟨h.eq, fun w i hw => ?_, h.hi⟩
    obtain ⟨rfl, rfl⟩ := Prod.mk.inj (Option.some.inj hw)
    exact .inl (by simpa [evalCompare] using hop)
  | ge =>
    refine ⟨h.eq, fun w i hw => ?_, h.hi⟩
    obtain ⟨rfl, rfl⟩ := Prod.mk.inj (Option.some.inj hw)
    exact before_of_nonpos (by simpa [evalCompare] using hop) rfl
  | lt =>
    refine ⟨h.eq, h.lo, fun w i hw => ?_⟩
    obtain ⟨rfl, rfl⟩ := Prod.mk.inj (Option.some.inj hw)
    exact .inl (by simpa [evalCompare] using hop)
  | le =>
    refine ⟨h.eq, h.lo, fun w i hw => ?_⟩
    obtain ⟨rfl, rfl⟩ := Prod.mk.inj (Option.some.inj hw)
    exact before_of_nonpos (by simpa [evalCompare] using hop) rfl

end ColBounds

/-- What is kept by each condition on a column is true of the bounds of the column. -/
theorem colBounds_induction {conds : List Condition} {col : ColMeta} {Q : ColBounds → Prop} (h₀ : Q ⟨none, none, none⟩)
    (h : ∀ cond ∈ conds, cond.isRhsVal = true → cond.lhsCol.colName = col.name → ∀ b, Q b →
      Q (b.add cond.rhsVal.data cond.op)) : Q (colBounds conds col) := by
  suffices hfold : ∀ b, Q b → Q (conds.foldl (fun b cond =>
      if !cond.isRhsVal || cond.lhsCol.colName != col.name then b else b.add cond.rhsVal.data cond.op) b) from
    hfold _ h₀
  induction conds with
  | nil => exact fun b hb => hb
  | cons cond conds ih =>
    intro b hb
    refine ih (fun c hc => h c (List.mem_cons_of_mem _ hc)) _ ?_
    dsimp only
    split
    · exact hb
    · next hcond =>
      have hcond : cond.isRhsVal = true ∧ cond.lhsCol.colName = col.name := by simpa using hcond
      exact h cond List.mem_cons_self hcond.1 hcond.2 b hb

/-! ## The interval -/

namespace KeyInterval

/-- The ends are keys of these columns. -/
structure Sized (k : KeyInterval) (cols : List ColMeta) : Prop where
  low : k.low.length = keyLen cols
  high : k.high.length = keyLen cols

/-- The key, of these columns, is in the interval; the ends belong to it while the prefix is open. -/
structure Spans (k : KeyInterval) (cols : List ColMeta) (key : Bytes) : Prop where
  low : Before (ixCompare cols k.low key) k.lowInclusive
  high : Before (-ixCompare cols k.high key) k.highInclusive
  inclusive : k.prefixOpen = true → k.lowInclusive = true ∧ k.highInclusive = true

variable {k : KeyInterval} {cols : List ColMeta} {key : Bytes} {conds : List Condition} {col : ColMeta} {x : Bytes}

/-- What a new column adds to both ends, and which of them belong to the interval then. -/
theorem extend_eq (hcol : col.Exact) (hb : (colBounds conds col).Fits col) : ∃ v w i j o,
    k.extend conds col = ⟨k.low ++ v, k.high ++ w, i, j, o⟩ ∧ v.length = col.len.toNat ∧ w.length = col.len.toNat ∧
      ∀ x, (colBounds conds col).Holds col x → (k.prefixOpen = true → k.lowInclusive = true ∧ k.highInclusive = true) →
        (k.lowInclusive = true → Before (compareValue v x col.type col.len) i) ∧
        (k.highInclusive = true → Before (-compareValue w x col.type col.len) j) ∧ (o = true → i = true ∧ j = true) := by
  have hmin : ∀ x, compareValue (setMin col.type col.len) x col.type col.len ≤ 0 := setMin_le hcol.1
  have hmax : ∀ x, -compareValue (setMax col.type col.len) x col.type col.len ≤ 0 := fun x =>
    Int.neg_nonpos_of_nonneg (le_setMax hcol.1 x)
  -- a value is cut to the length of the column
  have htake : ∀ v : Bytes, ∀ x, col.len.toNat ≤ v.length →
      compareValue (v.take col.len.toNat) x col.type col.len = compareValue v x col.type col.len := by
    intro v x hv
    refine compareValue_congr ?_ rfl
    rw [hcol.2, List.take_take, Nat.min_self]
  unfold KeyInterval.extend
  by_cases hopen : k.prefixOpen = true
  · simp only [hopen, if_true]
    cases heq : (colBounds conds col).eq with
    | some v =>
      have hv := hb.eq v heq
      refine ⟨_, _, _, _, _, rfl, List.length_take_of_le hv, List.length_take_of_le hv, fun x hx hi => ?_⟩
      rw [htake v x hv, hx.eq v heq]
      exact ⟨fun h => .inr ⟨rfl, h⟩, fun h => .inr ⟨rfl, h⟩, fun _ => hi trivial⟩
    | none =>
      have hlow : ∃ v i, ((colBounds conds col).lo.map (·.1.take col.len.toNat)).getD (setMin col.type col.len) = v ∧
          ((colBounds conds col).lo.map (·.2)).getD k.lowInclusive = i ∧ v.length = col.len.toNat ∧
          ∀ x, (colBounds conds col).Holds col x → k.lowInclusive = true →
            Before (compareValue v x col.type col.len) i := by
        cases hlo : (colBounds conds col).lo with
        | none => exact ⟨_, _, rfl, rfl, hcol.length_setMin, fun x _ hi => before_of_nonpos (hmin x) hi⟩
        | some p =>
          have hv := hb.lo p.1 p.2 hlo
          refine ⟨p.1.take col.len.toNat, p.2, rfl, rfl, List.length_take_of_le hv, fun x hx _ => ?_⟩
          rw [htake p.1 x hv]
          exact hx.lo p.1 p.2 hlo
      have hhigh : ∃ w j, ((colBounds conds col).hi.map (·.1.take col.len.toNat)).getD (setMax col.type col.len) = w ∧
          ((colBounds conds col).hi.map (·.2)).getD k.highInclusive = j ∧ w.length = col.len.toNat ∧
          ∀ x, (colBounds conds col).Holds col x → k.highInclusive = true →
            Before (-compareValue w x col.type col.len) j := by
        cases hhi : (colBounds conds col).hi with
        | none => exact ⟨_, _, rfl, rfl, hcol.length_setMax, fun x _ hi => before_of_nonpos (hmax x) hi⟩
        | some p =>
          have hv := hb.hi p.1 p.2 hhi
          refine ⟨p.1.take col.len.toNat, p.2, rfl, rfl, List.length_take_of_le hv, fun x hx _ => ?_⟩
          rw [htake p.1 x hv]
          exact hx.hi p.1 p.2 hhi
      obtain ⟨v, i, hv, hi, hvlen, hvb⟩ := hlow
      obtain ⟨w, j, hw, hj, hwlen, hwb⟩ := hhigh
      dsimp only
      rw [hv, hi, hw, hj]
      exact ⟨v, w, i, j, false, rfl, hvlen, hwlen, fun x hx _ => ⟨hvb x hx, hwb x hx, by simp⟩⟩
  · rw [if_neg hopen]
    refine ⟨_, _, k.lowInclusive, k.highInclusive, k.prefixOpen, rfl, hcol.length_setMin, hcol.length_setMax,
      fun x _ _ => ⟨fun h => before_of_nonpos (hmin x) h, fun h => before_of_nonpos (hmax x) h, ?_⟩⟩
    exact fun ho => absurd ho hopen

/-- **One more column of the index.** -/
theorem Sized.extend (h : k.Sized cols) (hcol : col.Exact) (hb : (colBounds conds col).Fits col) :
    (k.extend conds col).Sized (cols ++ [col]) := by
  obtain ⟨v, w, i, j, o, heq, hv, hw, -⟩ := extend_eq (k := k) hcol hb
  rw [heq]
  exact ⟨by rw [keyLen_append, List.length_append, h.low, hv], by rw [keyLen_append, List.length_append, h.high, hw]⟩

theorem Spans.extend (h : k.Spans cols key) (hk : k.Sized cols) (hcols : ∀ c ∈ cols, c.Exact)
    (hkey : key.length = keyLen cols) (hcol : col.Exact) (hb : (colBounds conds col).Fits col)
    (hx : (colBounds conds col).Holds col x) : (k.extend conds col).Spans (cols ++ [col]) (key ++ x) := by
  obtain ⟨v, w, i, j, o, heq, -, -, hall⟩ := extend_eq (k := k) hcol hb
  obtain ⟨hlow, hhigh, ho⟩ := hall x hx h.inclusive
  rw [heq]
  refine ⟨?_, ?_, ho⟩
  · rw [ixCompare_append hcols hk.low hkey]
    exact h.low.append hlow
  · rw [ixCompare_append hcols hk.high hkey, neg_ite_zero]
    exact h.high.append hhigh

/-- The loop over the columns. -/
theorem sized_foldl : ∀ {rest cols : List ColMeta} {k : KeyInterval}, k.Sized cols →
    (∀ c ∈ rest, c.Exact ∧ (colBounds conds c).Fits c) → (rest.foldl (KeyInterval.extend conds) k).Sized (cols ++ rest)
  | [], cols, k, h, _ => by simpa using h
  | c :: rest, cols, k, h, hrest => by
    obtain ⟨hc, hb⟩ := hrest c List.mem_cons_self
    have hcat : (cols ++ [c]) ++ rest = cols ++ c :: rest := by simp
    rw [← hcat]
    exact sized_foldl (h.extend hc hb) fun d hd => hrest d (List.mem_cons_of_mem _ hd)

theorem spans_foldl {rec : Bytes} : ∀ {rest cols : List ColMeta} {k : KeyInterval}, k.Sized cols →
    (∀ c ∈ cols, c.Exact ∧ (colBytes rec c).length = c.len.toNat) →
    (∀ c ∈ rest, c.Exact ∧ (colBytes rec c).length = c.len.toNat ∧ (colBounds conds c).Fits c ∧
      (colBounds conds c).Holds c (colBytes rec c)) → k.Spans cols (makeKey cols rec) →
    (rest.foldl (KeyInterval.extend conds) k).Spans (cols ++ rest) (makeKey (cols ++ rest) rec)
  | [], cols, k, _, _, _, h => by simpa using h
  | c :: rest, cols, k, hk, hcols, hrest, h => by
    have hkey : (makeKey cols rec).length = keyLen cols := by
      rw [makeKey, List.length_flatMap, keyLen]
      exact congrArg List.sum (List.map_congr_left fun d hd => (hcols d hd).2)
    obtain ⟨hc, hlen, hb, hx⟩ := hrest c List.mem_cons_self
    have hstep := h.extend hk (fun d hd => (hcols d hd).1) hkey hc hb hx
    have hmake : makeKey cols rec ++ colBytes rec c = makeKey (cols ++ [c]) rec := by simp [makeKey]
    have hcat : (cols ++ [c]) ++ rest = cols ++ c :: rest := by simp
    rw [hmake] at hstep
    rw [← hcat]
    refine spans_foldl (hk.extend hc hb) (fun d hd => ?_) (fun d hd => hrest d (List.mem_cons_of_mem _ hd)) hstep
    rcases List.mem_append.1 hd with hd | hd
    · exact hcols d hd
    · rw [List.mem_singleton.1 hd]
      exact ⟨hc, hlen⟩

end KeyInterval

/-! ## Records that meet the conditions -/

theorem evalCond_of_evalConds {recCols : List ColMeta} {rec : Bytes} : ∀ {conds : List Condition},
    evalConds recCols conds rec = .ok true → ∀ cond ∈ conds, evalCond recCols cond rec = .ok true
  | [], _ => fun _ hc => absurd hc List.not_mem_nil
  | cond :: conds, h => by
    rw [evalConds] at h
    obtain ⟨b, hb, h⟩ := bind_eq_ok.1 h
    split at h
    · next hbt =>
      subst hbt
      exact List.forall_mem_cons.2 ⟨hb, evalCond_of_evalConds h⟩
    · cases h

/-- What `check_clause` and `create_index` make sure of: the columns of the index are found in the table, and a value has
the bytes of the column it is compared with. -/
structure Scannable (tabName : TabName) (recCols : List ColMeta) (index : IndexMeta) (conds : List Condition) : Prop where
  exact : ∀ col ∈ index.cols, col.Exact
  found : ∀ col ∈ index.cols, getCol recCols ⟨tabName, col.name⟩ = .ok col
  own : ∀ cond ∈ conds, cond.lhsCol.tabName = tabName
  valued : ∀ cond ∈ conds, cond.isRhsVal = true → ∀ col ∈ index.cols, cond.lhsCol.colName = col.name →
    col.len.toNat ≤ cond.rhsVal.data.length

section scannable
variable {tabName : TabName} {recCols : List ColMeta} {index : IndexMeta} {conds : List Condition}
  (h : Scannable tabName recCols index conds)
include h

theorem Scannable.fits {col : ColMeta} (hcol : col ∈ index.cols) : (colBounds conds col).Fits col := by
  have hstart : ColBounds.Fits ⟨none, none, none⟩ col := ⟨by simp, by simp, by simp⟩
  refine colBounds_induction (Q := fun b => b.Fits col) hstart fun cond hcond hv hname b hb => ?_
  exact hb.add (h.valued cond hcond hv col hcol hname)

/-- The ends of the interval are keys of the index. -/
theorem sized_keyInterval : (keyInterval conds index).Sized index.cols := by
  have hstart : KeyInterval.Sized ⟨[], [], true, true, true⟩ [] := ⟨rfl, rfl⟩
  exact KeyInterval.sized_foldl hstart fun c hc => ⟨h.exact c hc, h.fits hc⟩

/-- **The key of a record that meets the conditions is in the interval.** -/
theorem spans_keyInterval {rec : Bytes} (hlen : ∀ col ∈ index.cols, (colBytes rec col).length = col.len.toNat)
    (hconds : evalConds recCols conds rec = .ok true) :
    (keyInterval conds index).Spans index.cols (makeKey index.cols rec) := by
  have hsized : KeyInterval.Sized ⟨[], [], true, true, true⟩ [] := ⟨rfl, rfl⟩
  have hstart : KeyInterval.Spans ⟨[], [], true, true, true⟩ [] (makeKey [] rec) :=
    ⟨.inr ⟨rfl, rfl⟩, .inr ⟨rfl, rfl⟩, fun _ => ⟨rfl, rfl⟩⟩
  refine KeyInterval.spans_foldl hsized (by simp) (fun col hcol => ?_) hstart
  refine ⟨h.exact col hcol, hlen col hcol, h.fits hcol, ?_⟩
  have hnone : ColBounds.Holds ⟨none, none, none⟩ col (colBytes rec col) := ⟨by simp, by simp, by simp⟩
  refine colBounds_induction (Q := fun b => b.Holds col (colBytes rec col)) hnone fun cond hcond hv hname b hb => hb.add ?_
  have heval := evalCond_of_evalConds hconds cond hcond
  have htarget : cond.lhsCol = ⟨tabName, col.name⟩ := by
    rw [← h.own cond hcond, ← hname]
  rw [evalCond, htarget, h.found col hcol] at heval
  simp only [hv, if_true, bind, Except.bind, pure, Except.pure, Except.ok.injEq] at heval
  rw [← heval]
  congr 1
  refine compareValue_congr ?_ rfl
  rw [(h.exact col hcol).2, colBytes, List.take_take, Nat.min_self]

end scannable

end Rmdb
