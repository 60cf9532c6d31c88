import Mathlib.Data.List.Pairwise
import Mathlib.Data.List.TakeWhile
import Rmdb.Execution.Keys
import Rmdb.Execution.Operators
import Rmdb.Lib.Decimal
import Rmdb.Optimizer.Analyze
import Rmdb.System.TableLayout

/-!
# Integer literals

- `IsValueInt` and `intValue`: the texts of the rule `value_int` in `lex.l`, and the numbers they denote;
- `strtoll`, `lexInt`, `SvValue` and `convertSvValue`: the way of a literal from the text to its `Value`, with the split
  at the limits of `int` and the overflow of `BigintLit`;
- `setClause` and `getClause`: the SET and WHERE clauses of `do_analyze` up to the calls of the model of `analyze.cpp`;
- `castLiteral`: a literal reaches an integer column with its value, or is refused outside of the range of the column
  (`castLiteral_eq`). From it what an INSERT, a SET and a WHERE do with it (`intLiteral_exact`).
-/

namespace Rmdb

open Lib

/-! ## The text -/

/-- `sign`. -/
def IsSign (c : UInt8) : Prop := c = 43 ∨ c = 45

instance (c : UInt8) : Decidable (IsSign c) := inferInstanceAs (Decidable (_ ∨ _))

/-- The digits behind a sign. -/
def unsigned : Bytes → Bytes
  | [] => []
  | c :: s => if IsSign c then s else c :: s

/-- `value_int`. -/
def IsValueInt (yytext : Bytes) : Prop := unsigned yytext ≠ [] ∧ ∀ c ∈ unsigned yytext, IsDigit c

instance (yytext : Bytes) : Decidable (IsValueInt yytext) :=
  have : Decidable (∀ c ∈ unsigned yytext, IsDigit c) := List.decidableBAll _ _
  inferInstanceAs (Decidable (_ ∧ _))

/-- The number that a text denotes. -/
def intValue (yytext : Bytes) : Int :=
  if yytext.head? = some 45 then -(ofDigits (unsigned yytext) : Int) else ofDigits (unsigned yytext)

def int64Min : Int := -9223372036854775808
def int64Max : Int := 9223372036854775807

/-- `strtoll` with base 10, on a text without white space in front: the number, and whether `errno` is `ERANGE`. -/
def strtoll (s : Bytes) : Int × Bool :=
  let n : Int := ofDigits ((unsigned s).takeWhile fun c => decide (IsDigit c))
  let v := if s.head? = some 45 then -n else n
  if v < int64Min then (int64Min, true) else if int64Max < v then (int64Max, true) else (v, false)

theorem strtoll_eq {s : Bytes} (h : IsValueInt s) : strtoll s =
    if intValue s < int64Min then (int64Min, true)
    else if int64Max < intValue s then (int64Max, true) else (intValue s, false) := by
  have htake : (unsigned s).takeWhile (fun c => decide (IsDigit c)) = unsigned s :=
    List.takeWhile_eq_self_iff.2 fun c hc => decide_eq_true (h.2 c hc)
  rw [strtoll, htake]
  rfl

/-! ## From the text to the value -/

/-- `ast::Value`. -/
inductive SvValue
  | intLit (val : Int)
  | bigintLit (val : Int) (overflow : Bool)
  | floatLit (val : Float32)
  | stringLit (val : Bytes)
  | boolLit (val : Bool)

/-- The constructor of `BigintLit`. -/
def SvValue.ofBigint (s : Bytes) : SvValue := .bigintLit (strtoll s).1 (strtoll s).2

/-- The action of `value_int`, and the literal that the grammar makes of its token. -/
def lexInt (yytext : Bytes) : SvValue :=
  let (v, erange) := strtoll yytext
  if erange = false ∧ intMin ≤ v ∧ v ≤ intMax then .intLit v else .ofBigint yytext

/-- `convert_sv_value`. -/
def convertSvValue : SvValue → Except RMDBError Value
  | .intLit val => .ok ⟨.int val, none⟩
  | .bigintLit val overflow => if overflow then .error (.rmdb "bigint value out of range") else .ok ⟨.bigint val, none⟩
  | .floatLit val => .ok ⟨.float val, none⟩
  | .stringLit val => .ok ⟨.str val, none⟩
  | .boolLit _ => .error (.internal "Unexpected sv value type")

/-- One turn of the loop over the SET clauses in `do_analyze`. -/
def setClause (tab : TabMeta) (colName : String) (val : SvValue) : Except RMDBError SetClause := do
  let col ← tab.getCol colName
  let rhs ← convertSvValue val
  let rhs ← castValue col rhs
  return ⟨⟨tab.name, colName⟩, rhs⟩

/-- One turn of the loop of `get_clause`. -/
def getClause (expr : TabCol × CompOp × (SvValue ⊕ TabCol)) : Except RMDBError Condition :=
  match expr with
  | (lhs, op, .inl val) => do
    let rhs ← convertSvValue val
    return getCond ⟨lhs, op, .inl rhs⟩
  | (lhs, op, .inr rhsCol) => .ok (getCond ⟨lhs, op, .inr rhsCol⟩)

/-! ## The three ways of a literal -/

/-- INSERT: `do_analyze` converts the literals, `Next` makes the record of them. -/
def insertLiterals (cols : List ColMeta) (lits : List SvValue) (rec : Bytes) : Except RMDBError Bytes := do
  let vals ← lits.mapM convertSvValue
  InsertExecutor.fill cols vals rec

/-- UPDATE: `do_analyze` converts and casts the literals, `Next` gives them their bytes and copies these into a record. -/
def setLiterals (tab : TabMeta) (clauses : List (String × SvValue)) (rec : Bytes) : Except RMDBError Bytes := do
  let sets ← clauses.mapM fun clause => setClause tab clause.1 clause.2
  let sets ← UpdateExecutor.prepare tab sets
  UpdateExecutor.applySets tab sets rec

/-- WHERE: `get_clause` converts the literals, `check_clause` casts them and gives them their bytes. -/
def whereConds (db : Database) (allCols : List ColMeta) (exprs : List (TabCol × CompOp × (SvValue ⊕ TabCol))) :
    Except RMDBError (List Condition) := do
  let conds ← exprs.mapM getClause
  conds.mapM (checkCond db allCols)

/-! ## Integer columns -/

/-- A column of type INT or BIGINT, as `create_table` makes it. -/
def ColMeta.IsInteger (col : ColMeta) : Prop := (col.type = .int ∧ col.len = 4) ∨ (col.type = .bigint ∧ col.len = 8)

/-- The numbers of a column. -/
def ColMeta.InRange (col : ColMeta) (v : Int) : Prop :=
  if col.type = .int then intMin ≤ v ∧ v ≤ intMax else int64Min ≤ v ∧ v ≤ int64Max

/-- The member of a `Value` for the type of the column. -/
def ColMeta.datum (col : ColMeta) (v : Int) : Datum := if col.type = .int then .int v else .bigint v

/-- The bytes of a number in the column. -/
def ColMeta.intBytes (col : ColMeta) (v : Int) : Bytes :=
  if col.type = .int then Rmdb.intBytes v else int64Bytes v

/-- The number that the column has in a record. -/
def ColMeta.readNumber (col : ColMeta) (rec : Bytes) : Int :=
  if col.type = .int then readInt (rec.drop col.offset.toNat) else readInt64 (rec.drop col.offset.toNat)

/-- A literal on its way to a column. -/
def castLiteral (col : ColMeta) (val : SvValue) : Except RMDBError Value := do
  let val ← convertSvValue val
  castValue col val

section literal
variable {s : Bytes} (hs : IsValueInt s)
include hs

/-- The literals at both sides of the limits of `int` and of `int64_t`. -/
theorem lexInt_eq :
    (intMin ≤ intValue s ∧ intValue s ≤ intMax ∧ lexInt s = .intLit (intValue s)) ∨
    ((intValue s < intMin ∨ intMax < intValue s) ∧ int64Min ≤ intValue s ∧ intValue s ≤ int64Max ∧
      lexInt s = .bigintLit (intValue s) false) ∨
    ((intValue s < int64Min ∨ int64Max < intValue s) ∧ ∃ v, lexInt s = .bigintLit v true) := by
  have hstr := strtoll_eq hs
  by_cases hlow : intValue s < int64Min
  · rw [if_pos hlow] at hstr
    exact .inr (.inr ⟨.inl hlow, int64Min, by simp [lexInt, SvValue.ofBigint, hstr]⟩)
  · rw [if_neg hlow] at hstr
    by_cases hhigh : int64Max < intValue s
    · rw [if_pos hhigh] at hstr
      exact .inr (.inr ⟨.inr hhigh, int64Max, by simp [lexInt, SvValue.ofBigint, hstr]⟩)
    · rw [if_neg hhigh] at hstr
      by_cases hint : intMin ≤ intValue s ∧ intValue s ≤ intMax
      · exact .inl ⟨hint.1, hint.2, by simp [lexInt, hstr, hint]⟩
      · refine .inr (.inl ⟨by omega, by omega, by omega, ?_⟩)
        simp only [lexInt, SvValue.ofBigint, hstr, true_and, if_neg hint]

variable {col : ColMeta} (hcol : col.IsInteger)
include hcol

/-- **A literal reaches a column with its value**, or is refused, exactly outside of the range of the column. -/
theorem castLiteral_eq : (col.InRange (intValue s) ∧
      castLiteral col (lexInt s) = .ok ⟨col.datum (intValue s), none⟩) ∨
    (¬col.InRange (intValue s) ∧ ∃ e, castLiteral col (lexInt s) = .error e) := by
  rcases lexInt_eq hs with ⟨hlow, hhigh, hlex⟩ | ⟨hint, hlow, hhigh, hlex⟩ | ⟨hout, v, hlex⟩
  · -- an `int`: a BIGINT column takes it as well
    rw [hlex]
    rcases hcol with ⟨hty, -⟩ | ⟨hty, -⟩
    · refine .inl ⟨by simp [ColMeta.InRange, hty, hlow, hhigh], ?_⟩
      simp [castLiteral, convertSvValue, castValue, ColMeta.datum, hty, Value.type, Datum.type, bind, Except.bind]
    · refine .inl ⟨?_, ?_⟩
      · simp only [intMin, intMax] at hlow hhigh
        simp only [ColMeta.InRange, hty, reduceCtorEq, if_false, int64Min, int64Max]
        omega
      · simp [castLiteral, convertSvValue, castValue, ColMeta.datum, hty, Value.type, Datum.type, Value.castTo, bind,
          Except.bind]
  · -- an `int64_t`: an INT column refuses it
    rw [hlex]
    rcases hcol with ⟨hty, -⟩ | ⟨hty, -⟩
    · refine .inr ⟨?_, .incompatibleType col.type.str "BIGINT", ?_⟩
      · simp only [ColMeta.InRange, hty, if_true]
        omega
      · simp [castLiteral, convertSvValue, castValue, hty, Value.type, Datum.type, Value.castTo, bind, Except.bind,
          ColType.str, hint]
    · refine .inl ⟨by simp [ColMeta.InRange, hty, hlow, hhigh], ?_⟩
      simp [castLiteral, convertSvValue, castValue, ColMeta.datum, hty, Value.type, Datum.type, bind, Except.bind]
  · rw [hlex]
    refine .inr ⟨?_, _, rfl⟩
    simp only [ColMeta.InRange]
    simp only [intMin, intMax, int64Min, int64Max] at hout ⊢
    split <;> omega

end literal

/-! ## Lists of literals -/

section mapM
variable {α β γ : Type} {f : α → Except RMDBError β} {g : β → Except RMDBError γ}

theorem mapM_cons_ok {x : α} {xs : List α} {zs : List β} :
    (x :: xs).mapM f = .ok zs ↔ ∃ y ys, f x = .ok y ∧ xs.mapM f = .ok ys ∧ zs = y :: ys := by
  rw [List.mapM_cons, bind_eq_ok]
  constructor
  · rintro ⟨y, hy, h⟩
    obtain ⟨ys, hys, h⟩ := bind_eq_ok.1 h
    cases h
    exact ⟨y, ys, hy, hys, rfl⟩
  · rintro ⟨y, ys, hy, hys, rfl⟩
    exact ⟨y, hy, bind_eq_ok.2 ⟨ys, hys, rfl⟩⟩

theorem length_of_mapM_ok : ∀ {xs : List α} {zs : List β}, xs.mapM f = .ok zs → zs.length = xs.length
  | [], _, h => by
    cases h
    rfl
  | _ :: _, _, h => by
    obtain ⟨_, _, -, hys, rfl⟩ := mapM_cons_ok.1 h
    rw [List.length_cons, List.length_cons, length_of_mapM_ok hys]

/-- An element in the middle of a list. -/
theorem mapM_append_cons_ok {x : α} {back : List α} : ∀ {front : List α} {zs : List β},
    (front ++ x :: back).mapM f = .ok zs ↔
      ∃ ys y ys', front.mapM f = .ok ys ∧ f x = .ok y ∧ back.mapM f = .ok ys' ∧ zs = ys ++ y :: ys'
  | [], zs => by
    rw [List.nil_append, mapM_cons_ok]
    constructor
    · rintro ⟨y, ys, hy, hys, rfl⟩
      exact ⟨[], y, ys, rfl, hy, hys, rfl⟩
    · rintro ⟨ys, y, ys', hnil, hy, hys, rfl⟩
      cases hnil
      exact ⟨y, ys', hy, hys, rfl⟩
  | w :: front, zs => by
    rw [List.cons_append, mapM_cons_ok]
    constructor
    · rintro ⟨v, vs, hv, hvs, rfl⟩
      obtain ⟨ys, y, ys', hys, hy, hys', rfl⟩ := mapM_append_cons_ok.1 hvs
      exact ⟨v :: ys, y, ys', mapM_cons_ok.2 ⟨v, ys, hv, hys, rfl⟩, hy, hys', rfl⟩
    · rintro ⟨vs, y, ys', hvs, hy, hys', rfl⟩
      obtain ⟨v, ys, hv, hys, rfl⟩ := mapM_cons_ok.1 hvs
      exact ⟨v, ys ++ y :: ys', hv, mapM_append_cons_ok.2 ⟨ys, y, ys', hys, hy, hys', rfl⟩, rfl⟩

/-- A list goes through exactly when this element does and the others do. -/
theorem mapM_insert_ok {x : α} {front back : List α} : (∃ zs, (front ++ x :: back).mapM f = .ok zs) ↔
    (∃ y, f x = .ok y) ∧ ∃ zs, (front ++ back).mapM f = .ok zs := by
  have happ : ∀ {zs : List β}, (front ++ back).mapM f = .ok zs ↔
      ∃ ys ys', front.mapM f = .ok ys ∧ back.mapM f = .ok ys' ∧ zs = ys ++ ys' := by
    intro zs
    rw [List.mapM_append, bind_eq_ok]
    simp only [bind_eq_ok, pure, Except.pure, Except.ok.injEq]
    constructor
    · rintro ⟨ys, hys, ys', hys', rfl⟩
      exact ⟨ys, ys', hys, hys', rfl⟩
    · rintro ⟨ys, ys', hys, hys', rfl⟩
      exact ⟨ys, hys, ys', hys', rfl⟩
  constructor
  · rintro ⟨zs, h⟩
    obtain ⟨ys, y, ys', hys, hy, hys', rfl⟩ := mapM_append_cons_ok.1 h
    exact ⟨⟨y, hy⟩, ys ++ ys', happ.2 ⟨ys, ys', hys, hys', rfl⟩⟩
  · rintro ⟨⟨y, hy⟩, zs, h⟩
    obtain ⟨ys, ys', hys, hys', rfl⟩ := happ.1 h
    exact ⟨_, mapM_append_cons_ok.2 ⟨ys, y, ys', hys, hy, hys', rfl⟩⟩

/-- Two loops, one behind the other. -/
theorem mapM_mapM_ok : ∀ {xs : List α} {zs : List γ},
    (xs.mapM f >>= fun ys => ys.mapM g) = .ok zs ↔ (xs.mapM fun x => f x >>= g) = .ok zs
  | [], zs => Iff.rfl
  | x :: xs, zs => by
    rw [bind_eq_ok, mapM_cons_ok]
    constructor
    · rintro ⟨ws, hws, h⟩
      obtain ⟨y, ys, hy, hys, rfl⟩ := mapM_cons_ok.1 hws
      obtain ⟨z, zs', hz, hzs, rfl⟩ := mapM_cons_ok.1 h
      exact ⟨z, zs', bind_eq_ok.2 ⟨y, hy, hz⟩, mapM_mapM_ok.1 (bind_eq_ok.2 ⟨ys, hys, hzs⟩), rfl⟩
    · rintro ⟨z, zs', hx, hxs, rfl⟩
      obtain ⟨y, hy, hz⟩ := bind_eq_ok.1 hx
      obtain ⟨ys, hys, hzs⟩ := bind_eq_ok.1 (mapM_mapM_ok.2 hxs)
      exact ⟨y :: ys, mapM_cons_ok.2 ⟨y, ys, hy, hys, rfl⟩, mapM_cons_ok.2 ⟨z, zs', hz, hzs, rfl⟩⟩

end mapM

/-! ## The copies of a statement -/

/-- A literal for a column, with its bytes. -/
def store (col : ColMeta) (lit : SvValue) : Except RMDBError (ColMeta × Value) := do
  let val ← castLiteral col lit
  let val ← val.initRaw col.len
  return (col, val)

/-- The loops that copy values into a record. -/
def copyAll (cs : List (ColMeta × Value)) (rec : Bytes) : Bytes :=
  cs.foldl (fun rec c => memcpyAt rec c.1.offset c.2.data c.1.len) rec

@[simp] theorem length_copyAll (cs : List (ColMeta × Value)) (rec : Bytes) : (copyAll cs rec).length = rec.length := by
  induction cs generalizing rec with
  | nil => rfl
  | cons c cs ih => rw [copyAll, List.foldl_cons, ← copyAll, ih, length_memcpyAt]

theorem store_ok {col : ColMeta} {lit : SvValue} {c : ColMeta × Value} : store col lit = .ok c ↔
    ∃ val val', convertSvValue lit = .ok val ∧ castValue col val = .ok val' ∧ val'.initRaw col.len = .ok c.2 ∧
      c.1 = col := by
  rw [store, bind_eq_ok]
  constructor
  · rintro ⟨val', hval', h⟩
    obtain ⟨val, hval, hcast⟩ := bind_eq_ok.1 hval'
    obtain ⟨v, hv, h⟩ := bind_eq_ok.1 h
    cases h
    exact ⟨val, val', hval, hcast, hv, rfl⟩
  · obtain ⟨col', v⟩ := c
    rintro ⟨val, val', hval, hcast, hv, rfl⟩
    exact ⟨val', bind_eq_ok.2 ⟨val, hval, hcast⟩, bind_eq_ok.2 ⟨v, hv, rfl⟩⟩

/-- An INSERT copies each value into its column, if all are accepted. -/
theorem insertLiterals_ok : ∀ {cols : List ColMeta} {lits : List SvValue} {rec rec' : Bytes},
    cols.length = lits.length → (insertLiterals cols lits rec = .ok rec' ↔
      ∃ cs, (cols.zip lits).mapM (fun p => store p.1 p.2) = .ok cs ∧ copyAll cs rec = rec')
  | [], [], rec, rec', _ => by
    simp [insertLiterals, InsertExecutor.fill, copyAll, pure, Except.pure, bind, Except.bind]
  | col :: cols, lit :: lits, rec, rec', h => by
    have ih : ∀ {rec₁}, _ := fun {rec₁} => @insertLiterals_ok cols lits rec₁ rec' (Nat.succ.inj h)
    rw [insertLiterals, bind_eq_ok, List.zip_cons_cons]
    constructor
    · rintro ⟨vals, hvals, hfill⟩
      obtain ⟨val, vals, hval, hrest, rfl⟩ := mapM_cons_ok.1 hvals
      unfold InsertExecutor.fill at hfill
      obtain ⟨val', hcast, hfill⟩ := bind_eq_ok.1 hfill
      obtain ⟨v, hraw, hfill⟩ := bind_eq_ok.1 hfill
      obtain ⟨cs, hcs, hcopy⟩ := ih.1 (bind_eq_ok.2 ⟨vals, hrest, hfill⟩)
      exact ⟨(col, v) :: cs, mapM_cons_ok.2 ⟨_, cs, store_ok.2 ⟨val, val', hval, hcast, hraw, rfl⟩, hcs, rfl⟩, hcopy⟩
    · rintro ⟨cs, hcs, hcopy⟩
      obtain ⟨c, cs, hc, hrest, rfl⟩ := mapM_cons_ok.1 hcs
      obtain ⟨val, val', hval, hcast, hraw, rfl⟩ := store_ok.1 hc
      obtain ⟨vals, hvals, hfill⟩ := bind_eq_ok.1 (ih.2 ⟨cs, hrest, hcopy⟩)
      refine ⟨val :: vals, mapM_cons_ok.2 ⟨val, vals, hval, hvals, rfl⟩, ?_⟩
      unfold InsertExecutor.fill
      exact bind_eq_ok.2 ⟨val', hcast, bind_eq_ok.2 ⟨c.2, hraw, hfill⟩⟩

/-! ## SET -/

theorem type_castTo {val val' : Value} {target : ColType} (h : val.castTo target = some val') :
    val'.type = target ∧ val'.raw = val.raw := by
  unfold Value.castTo at h
  split at h
  all_goals simp_all [Value.type, Datum.type]
  all_goals aesop

theorem castValue_ok {col : ColMeta} {val val' : Value} (h : castValue col val = .ok val') :
    col.type = val'.type ∧ val'.raw = val.raw := by
  unfold castValue at h
  split at h
  · next htype =>
    cases h
    exact ⟨htype, rfl⟩
  · split at h
    · next hcast =>
      cases h
      exact ⟨(type_castTo hcast).1.symm, (type_castTo hcast).2⟩
    · cases h

theorem raw_convertSvValue {lit : SvValue} {val : Value} (h : convertSvValue lit = .ok val) : val.raw = none := by
  cases lit with
  | bigintLit n overflow => cases overflow <;> cases h; rfl
  | boolLit b => cases h
  | _ => cases h; rfl

/-- The clauses with their columns. -/
def storeSet (tab : TabMeta) (clause : String × SvValue) : Except RMDBError (ColMeta × Value) := do
  let col ← tab.getCol clause.1
  store col clause.2

section set
variable {tab : TabMeta}

/-- What `do_analyze` and `Next` make of a SET clause together. -/
theorem setClause_ok {colName : String} {lit : SvValue} {set : SetClause} (h : setClause tab colName lit = .ok set) :
    set.lhs = ⟨tab.name, colName⟩ ∧ ∃ col, tab.getCol colName = .ok col ∧ castValue col set.rhs = .ok set.rhs ∧
      set.rhs.raw = none ∧ ∀ c, store col lit = .ok c ↔ set.rhs.initRaw col.len = .ok c.2 ∧ c.1 = col := by
  obtain ⟨col, hcol, h⟩ := bind_eq_ok.1 h
  obtain ⟨val, hval, h⟩ := bind_eq_ok.1 h
  obtain ⟨val', hcast, h⟩ := bind_eq_ok.1 h
  cases h
  obtain ⟨htype, hraw⟩ := castValue_ok hcast
  refine ⟨rfl, col, hcol, by rw [castValue, if_pos htype], hraw.trans (raw_convertSvValue hval), fun c => ?_⟩
  rw [store_ok]
  constructor
  · rintro ⟨v, v', hv, hv', hinit, hc⟩
    rw [hval] at hv
    cases hv
    rw [hcast] at hv'
    cases hv'
    exact ⟨hinit, hc⟩
  · rintro ⟨hinit, hc⟩
    exact ⟨val, val', hval, hcast, hinit, hc⟩

theorem prepare_cons_ok {set : SetClause} {sets sets' : List SetClause} {col : ColMeta}
    (hcol : tab.getCol set.lhs.colName = .ok col) (hcast : castValue col set.rhs = .ok set.rhs)
    (hraw : set.rhs.raw = none) : UpdateExecutor.prepare tab (set :: sets) = .ok sets' ↔
      ∃ v rest, set.rhs.initRaw col.len = .ok v ∧ UpdateExecutor.prepare tab sets = .ok rest ∧
        sets' = { set with rhs := v } :: rest := by
  have heq : UpdateExecutor.prepare tab (set :: sets) = (do
      let v ← set.rhs.initRaw col.len
      let rest ← UpdateExecutor.prepare tab sets
      return { set with rhs := v } :: rest) := by
    conv_lhs => unfold UpdateExecutor.prepare
    simp [hcol, hcast, hraw, bind, Except.bind]
  rw [heq, bind_eq_ok]
  constructor
  · rintro ⟨v, hinit, h⟩
    obtain ⟨rest, hrest, h⟩ := bind_eq_ok.1 h
    cases h
    exact ⟨v, rest, hinit, hrest, rfl⟩
  · rintro ⟨v, rest, hinit, hrest, rfl⟩
    exact ⟨v, hinit, bind_eq_ok.2 ⟨rest, hrest, rfl⟩⟩

/-- An UPDATE copies the value of each clause into its column, if all are accepted. -/
theorem setLiterals_ok : ∀ {clauses : List (String × SvValue)} {rec rec' : Bytes},
    setLiterals tab clauses rec = .ok rec' ↔
      ∃ cs, clauses.mapM (storeSet tab) = .ok cs ∧ copyAll cs rec = rec'
  | [], rec, rec' => by
    simp [setLiterals, UpdateExecutor.prepare, UpdateExecutor.applySets, copyAll, pure, Except.pure, bind, Except.bind]
  | clause :: clauses, rec, rec' => by
    have ih : ∀ {rec₁}, _ := fun {rec₁} => @setLiterals_ok clauses rec₁ rec'
    rw [setLiterals, bind_eq_ok]
    constructor
    · rintro ⟨sets, hsets, h⟩
      obtain ⟨set, sets, hset, hrest, rfl⟩ := mapM_cons_ok.1 hsets
      obtain ⟨hlhs, col, hcol, hcast, hraw, hstore⟩ := setClause_ok hset
      have hname : tab.getCol set.lhs.colName = .ok col := by rw [hlhs, hcol]
      obtain ⟨sets', hprep, h⟩ := bind_eq_ok.1 h
      obtain ⟨v, rest, hinit, hprepare, rfl⟩ := (prepare_cons_ok hname hcast hraw).1 hprep
      unfold UpdateExecutor.applySets at h
      simp only [hname, bind, Except.bind] at h
      obtain ⟨cs, hcs, hcopy⟩ := ih.1 (bind_eq_ok.2 ⟨sets, hrest, bind_eq_ok.2 ⟨rest, hprepare, h⟩⟩)
      have hc : storeSet tab clause = .ok (col, v) := bind_eq_ok.2 ⟨col, hcol, (hstore (col, v)).2 ⟨hinit, rfl⟩⟩
      exact ⟨(col, v) :: cs, mapM_cons_ok.2 ⟨_, cs, hc, hcs, rfl⟩, hcopy⟩
    · rintro ⟨cs, hcs, hcopy⟩
      obtain ⟨c, cs, hc, hrest, rfl⟩ := mapM_cons_ok.1 hcs
      obtain ⟨sets, hsets, h⟩ := bind_eq_ok.1 (ih.2 ⟨cs, hrest, hcopy⟩)
      obtain ⟨sets', hprep, h⟩ := bind_eq_ok.1 h
      obtain ⟨col, hcol, hc⟩ := bind_eq_ok.1 hc
      obtain ⟨val, val', hval, hcast, hinit, hfst⟩ := store_ok.1 hc
      have hset : setClause tab clause.1 clause.2 = .ok ⟨⟨tab.name, clause.1⟩, val'⟩ :=
        bind_eq_ok.2 ⟨col, hcol, bind_eq_ok.2 ⟨val, hval, bind_eq_ok.2 ⟨val', hcast, rfl⟩⟩⟩
      obtain ⟨htype, hraw⟩ := castValue_ok hcast
      have hprep' := (@prepare_cons_ok tab ⟨⟨tab.name, clause.1⟩, val'⟩ _ _ _ hcol (by rw [castValue, if_pos htype])
        (hraw.trans (raw_convertSvValue hval))).2 ⟨c.2, sets', hinit, hprep, rfl⟩
      refine ⟨_, mapM_cons_ok.2 ⟨_, sets, hset, hsets, rfl⟩, bind_eq_ok.2 ⟨_, hprep', ?_⟩⟩
      unfold UpdateExecutor.applySets
      simp only [hcol, bind, Except.bind, ← hfst]
      exact h

end set

/-! ## The bytes of a number -/

section number
variable {col : ColMeta}

theorem ColMeta.readNumber_eq (hcol : col.IsInteger) (rec : Bytes) :
    col.readNumber rec = if col.type = .int then readInt (colBytes rec col) else readInt64 (colBytes rec col) := by
  rcases hcol with ⟨hty, hlen⟩ | ⟨hty, hlen⟩
  · simp [ColMeta.readNumber, colBytes, hty, hlen, readInt, List.take_take]
  · simp [ColMeta.readNumber, colBytes, hty, hlen, readInt64, List.take_take]

theorem ColMeta.length_intBytes (hcol : col.IsInteger) (v : Int) : ((col.intBytes v).length : Int) = col.len := by
  rcases hcol with ⟨hty, hlen⟩ | ⟨hty, hlen⟩
  · simp [ColMeta.intBytes, hty, hlen]
  · simp [ColMeta.intBytes, hty, hlen]

/-- The numbers of the column are read back from their bytes. -/
theorem ColMeta.read_intBytes (hcol : col.IsInteger) {v : Int} (h : col.InRange v) :
    (if col.type = .int then readInt (col.intBytes v) else readInt64 (col.intBytes v)) = v := by
  rcases hcol with ⟨hty, -⟩ | ⟨hty, -⟩
  · simp only [ColMeta.InRange, hty, if_true, intMin, intMax] at h
    simp only [ColMeta.intBytes, hty, if_true]
    exact readInt_intBytes (by omega) (by omega)
  · simp only [ColMeta.InRange, hty, reduceCtorEq, if_false, int64Min, int64Max] at h
    simp only [ColMeta.intBytes, hty, reduceCtorEq, if_false]
    exact readInt64_int64Bytes (by omega) (by omega)

/-- A copy into a column that lies in the record. -/
theorem colBytes_memcpyAt {rec src : Bytes} (hin : col.Inside rec.length) (hsrc : (src.length : Int) = col.len) :
    colBytes (memcpyAt rec col.offset src col.len) col = src := by
  obtain ⟨h1, h2, h3⟩ := hin
  refine List.ext_getElem? fun i => ?_
  simp only [colBytes, memcpyAt, List.getElem?_take, List.getElem?_drop, List.getElem?_mapIdx]
  by_cases hi : i < col.len.toNat
  · rw [if_pos hi, List.getElem?_eq_getElem (by omega), List.getElem?_eq_getElem (by omega), Option.map_some,
      if_pos (by omega)]
    congr 1
    rw [List.getD_eq_getElem?_getD, show ((col.offset.toNat + i : Nat) - col.offset : Int).toNat = i by omega,
      List.getElem?_eq_getElem (by omega), Option.getD_some]
  · rw [if_neg hi, List.getElem?_eq_none (by omega)]

/-- The bytes of one column lie in front of those of the other. -/
def ColMeta.Apart (a b : ColMeta) : Prop := a.offset + a.len ≤ b.offset ∨ b.offset + b.len ≤ a.offset

instance : Std.Symm ColMeta.Apart := ⟨fun _ _ => Or.symm⟩

/-- A copy leaves the columns beside it alone. -/
theorem colBytes_memcpyAt_of_apart {c : ColMeta} {rec src : Bytes} (h : c.Apart col) (hoff : 0 ≤ col.offset) :
    colBytes (memcpyAt rec c.offset src c.len) col = colBytes rec col := by
  refine List.ext_getElem? fun i => ?_
  simp only [colBytes, memcpyAt, List.getElem?_take, List.getElem?_drop, List.getElem?_mapIdx]
  by_cases hi : i < col.len.toNat
  · have hout : ¬(c.offset ≤ ((col.offset.toNat + i : Nat) : Int) ∧
        ((col.offset.toNat + i : Nat) : Int) < c.offset + c.len) := by
      unfold ColMeta.Apart at h
      omega
    simp only [if_pos hi, if_neg hout, Option.map_id']
  · rw [if_neg hi, if_neg hi]

theorem colBytes_copyAll_of_apart (hoff : 0 ≤ col.offset) : ∀ {cs : List (ColMeta × Value)} {rec : Bytes},
    (∀ c ∈ cs, c.1.Apart col) → colBytes (copyAll cs rec) col = colBytes rec col
  | [], _, _ => rfl
  | c :: cs, rec, h => by
    rw [copyAll, List.foldl_cons, ← copyAll,
      colBytes_copyAll_of_apart hoff fun d hd => h d (List.mem_cons_of_mem _ hd),
      colBytes_memcpyAt_of_apart (h c List.mem_cons_self) hoff]

/-- **The copy of a number is what the column has after all copies**, if those behind it are for other bytes. -/
theorem readNumber_copyAll (hcol : col.IsInteger) {v : Int} (hv : col.InRange v) {val : Value}
    (hval : val.data = col.intBytes v) {front back : List (ColMeta × Value)} {rec : Bytes}
    (hin : col.Inside rec.length) (hback : ∀ c ∈ back, c.1.Apart col) :
    col.readNumber (copyAll (front ++ (col, val) :: back) rec) = v := by
  have hcopy : copyAll (front ++ (col, val) :: back) rec =
      copyAll back (memcpyAt (copyAll front rec) col.offset (col.intBytes v) col.len) := by
    rw [copyAll, List.foldl_append, List.foldl_cons, ← hval]
    rfl
  rw [hcopy, ColMeta.readNumber_eq hcol, colBytes_copyAll_of_apart hin.1 hback,
    colBytes_memcpyAt (by rwa [length_copyAll]) (ColMeta.length_intBytes hcol v), ColMeta.read_intBytes hcol hv]

end number

/-! ## The layout of a table with rows -/

/-- The columns lie in the record, one beside the other. -/
def Laid (cols : List ColMeta) (recordSize : Nat) : Prop :=
  (∀ col ∈ cols, col.Inside recordSize) ∧ cols.Pairwise ColMeta.Apart

theorem mem_tableCols {tabName : TabName} {col : ColMeta} : ∀ {colDefs : List ColDef} {off : Int},
    col ∈ (SmManager.tableCols tabName colDefs off).1 → ∃ d ∈ colDefs, col.type = d.type ∧ col.len = d.len
  | [], _, h => by simp [SmManager.tableCols] at h
  | d :: colDefs, off, h => by
    simp only [SmManager.tableCols] at h
    rcases List.mem_cons.1 h with rfl | h
    · exact ⟨d, List.mem_cons_self, rfl, rfl⟩
    · obtain ⟨d', hd', heq⟩ := mem_tableCols h
      exact ⟨d', List.mem_cons_of_mem _ hd', heq⟩

/-- Columns that lie in a record lie there one behind the other. -/
theorem tableCols_pairwise {tabName : TabName} {n : Int} (hn : n ≤ intMax) : ∀ {colDefs : List ColDef} {off : Int},
    (∀ col ∈ (SmManager.tableCols tabName colDefs off).1, 0 ≤ col.offset ∧ 0 ≤ col.len ∧ col.offset + col.len ≤ n) →
    (∀ col ∈ (SmManager.tableCols tabName colDefs off).1, off ≤ col.offset) ∧
      (SmManager.tableCols tabName colDefs off).1.Pairwise fun a b => a.offset + a.len ≤ b.offset
  | [], off, _ => by simp [SmManager.tableCols]
  | d :: colDefs, off, h => by
    have hmax : intMax < 2 ^ 31 := by decide
    simp only [SmManager.tableCols, List.forall_mem_cons, List.pairwise_cons] at h ⊢
    obtain ⟨⟨h1, h2, h3⟩, htail⟩ := h
    rw [toInt32_of_isInt (v := off + d.len) ⟨by omega, by omega⟩] at htail ⊢
    obtain ⟨hoff, hpair⟩ := tableCols_pairwise hn htail
    refine ⟨⟨Int.le_refl _, fun col hcol => ?_⟩, hoff, hpair⟩
    have := hoff col hcol
    omega

/-- A text that was accepted fits into its column. -/
theorem len_nonneg_of_store {col : ColMeta} {lit : SvValue} {c : ColMeta × Value} (h : store col lit = .ok c)
    (hty : col.type = .string) : 0 ≤ col.len := by
  obtain ⟨val, val', -, hcast, hinit, -⟩ := store_ok.1 h
  have htype := (castValue_ok hcast).1
  rw [hty] at htype
  obtain ⟨datum, raw⟩ := val'
  cases datum with
  | str b =>
    simp only [Value.initRaw] at hinit
    split at hinit
    · cases hinit
    · omega
  | _ => cases htype

/-- Only a table whose columns have bytes of their own gets a row: a column of negative length refuses every value. -/
theorem laid_of_insert {tabName : TabName} {fields : List (String × TypeDef)} {lits : List SvValue} {rec rec' : Bytes}
    (hlen : (SmManager.tableCols tabName (planFields fields) 0).1.length = lits.length)
    (hin : ∀ c ∈ (SmManager.tableCols tabName (planFields fields) 0).1, 0 ≤ c.offset ∧ c.offset + c.len ≤ rec.length)
    (hmax : rec.length ≤ intMax)
    (h : insertLiterals (SmManager.tableCols tabName (planFields fields) 0).1 lits rec = .ok rec') :
    Laid (SmManager.tableCols tabName (planFields fields) 0).1 rec.length := by
  obtain ⟨cs, hcs, -⟩ := (insertLiterals_ok hlen).1 h
  have hlens : ∀ c ∈ (SmManager.tableCols tabName (planFields fields) 0).1, 0 ≤ c.len := by
    intro c hc
    obtain ⟨d, hd, hty, hl⟩ := mem_tableCols hc
    obtain ⟨⟨name, ty⟩, -, rfl⟩ := List.mem_map.1 hd
    cases ty with
    | char n =>
      obtain ⟨lit, hlit⟩ : ∃ lit, (c, lit) ∈ (SmManager.tableCols tabName (planFields fields) 0).1.zip lits := by
        rw [← List.map_fst_zip (Nat.le_of_eq hlen)] at hc
        obtain ⟨⟨c', lit⟩, hmem, rfl⟩ := List.mem_map.1 hc
        exact ⟨lit, hmem⟩
      obtain ⟨front, back, hsplit⟩ := List.append_of_mem hlit
      rw [hsplit] at hcs
      obtain ⟨_, y, _, -, hy, -, -⟩ := mapM_append_cons_ok.1 hcs
      exact len_nonneg_of_store hy hty
    | _ => simp [hl, TypeDef.typeLen]
  have hall : ∀ c ∈ (SmManager.tableCols tabName (planFields fields) 0).1,
      0 ≤ c.offset ∧ 0 ≤ c.len ∧ c.offset + c.len ≤ rec.length :=
    fun c hc => ⟨(hin c hc).1, hlens c hc, (hin c hc).2⟩
  exact ⟨hall, (tableCols_pairwise hmax hall).2.imp fun h => .inl h⟩

theorem Laid.apart {cols : List ColMeta} {n : Nat} (h : Laid cols n) {a b : ColMeta} (ha : a ∈ cols) (hb : b ∈ cols)
    (hne : a ≠ b) : a.Apart b :=
  h.2.forall ha hb hne

/-! ## Integer literals in statements -/

section statements
variable {s : Bytes} (hs : IsValueInt s) {col : ColMeta} (hcol : col.IsInteger)
include hs hcol

/-- A literal is stored with its value, or refused, exactly outside of the range of the column. -/
theorem store_literal : (col.InRange (intValue s) ∧ ∃ val, val.type = col.type ∧ val.data = col.intBytes (intValue s) ∧
      castLiteral col (lexInt s) = .ok ⟨val.val, none⟩ ∧ store col (lexInt s) = .ok (col, val)) ∨
    (¬col.InRange (intValue s) ∧ (∃ e, castLiteral col (lexInt s) = .error e) ∧
      ¬∃ c, store col (lexInt s) = .ok c) := by
  rcases castLiteral_eq hs hcol with ⟨hin, hcast⟩ | ⟨hout, e, hcast⟩
  · refine .inl ⟨hin, ⟨col.datum (intValue s), some (col.intBytes (intValue s))⟩, ?_⟩
    rcases hcol with ⟨hty, -⟩ | ⟨hty, -⟩
    all_goals
      rw [store, hcast]
      simp [Value.type, Datum.type, ColMeta.datum, ColMeta.intBytes, Value.data, Value.initRaw, hty, bind, Except.bind,
        pure, Except.pure]
  · refine .inr ⟨hout, ⟨e, hcast⟩, ?_⟩
    rintro ⟨c, hc⟩
    rw [store, hcast] at hc
    cases hc

theorem store_literal_iff : (∃ c, store col (lexInt s) = .ok c) ↔ col.InRange (intValue s) := by
  rcases store_literal hs hcol with ⟨hin, val, -, -, -, hstore⟩ | ⟨hout, -, hstore⟩
  · exact ⟨fun _ => hin, fun _ => ⟨_, hstore⟩⟩
  · exact ⟨fun h => absurd h hstore, fun h => absurd h hout⟩

theorem store_literal_ok {c : ColMeta × Value} (h : store col (lexInt s) = .ok c) :
    col.InRange (intValue s) ∧ c.1 = col ∧ c.2.data = col.intBytes (intValue s) := by
  rcases store_literal hs hcol with ⟨hin, val, -, hdata, -, hstore⟩ | ⟨-, -, hstore⟩
  · rw [h] at hstore
    cases hstore
    exact ⟨hin, rfl, hdata⟩
  · exact absurd ⟨c, h⟩ hstore

/-- INSERT of the literal among others. -/
theorem insert_literal {front back : List ColMeta} {fl bl : List SvValue} {rec : Bytes}
    (hf : front.length = fl.length) (hb : back.length = bl.length) :
    ((∃ rec', insertLiterals (front ++ col :: back) (fl ++ lexInt s :: bl) rec = .ok rec') ↔
      col.InRange (intValue s) ∧ ∃ rec', insertLiterals (front ++ back) (fl ++ bl) rec = .ok rec') ∧
    ∀ rec', Laid (front ++ col :: back) rec.length →
      insertLiterals (front ++ col :: back) (fl ++ lexInt s :: bl) rec = .ok rec' →
      col.readNumber rec' = intValue s := by
  have hlen : (front ++ col :: back).length = (fl ++ lexInt s :: bl).length := by simp [hf, hb]
  have hlen' : (front ++ back).length = (fl ++ bl).length := by simp [hf, hb]
  have hzip : (front ++ col :: back).zip (fl ++ lexInt s :: bl) = front.zip fl ++ (col, lexInt s) :: back.zip bl := by
    rw [List.zip_append hf, List.zip_cons_cons]
  constructor
  · simp only [insertLiterals_ok hlen, insertLiterals_ok hlen', exists_comm (α := Bytes), exists_and_left,
      exists_eq', and_true, hzip, List.zip_append hf, mapM_insert_ok, store_literal_iff hs hcol]
  · intro rec' hlaid h
    obtain ⟨cs, hcs, rfl⟩ := (insertLiterals_ok hlen).1 h
    rw [hzip] at hcs
    obtain ⟨fc, c, bc, -, hc, hbc, rfl⟩ := mapM_append_cons_ok.1 hcs
    obtain ⟨hin, hfst, hdata⟩ := store_literal_ok hs hcol hc
    obtain ⟨_, val⟩ := c
    subst hfst
    refine readNumber_copyAll hcol hin hdata (hlaid.1 _ (by simp)) fun d hd => ?_
    obtain ⟨p, hp, hd⟩ := mem_of_mapM_ok hbc d hd
    obtain ⟨_, _, -, -, -, hfst⟩ := store_ok.1 hd
    rw [hfst]
    have hpair := (List.pairwise_cons.1 (List.pairwise_append.1 hlaid.2).2.1).1
    exact Or.symm (hpair p.1 (List.of_mem_zip hp).1)

/-- SET to the literal, among other clauses. -/
theorem set_literal {tab : TabMeta} {colName : String} (htab : tab.getCol colName = .ok col)
    {front back : List (String × SvValue)} {rec : Bytes} :
    ((∃ rec', setLiterals tab (front ++ (colName, lexInt s) :: back) rec = .ok rec') ↔
      col.InRange (intValue s) ∧ ∃ rec', setLiterals tab (front ++ back) rec = .ok rec') ∧
    ∀ rec', Laid tab.cols rec.length → (∀ clause ∈ back, clause.1 ≠ colName) →
      setLiterals tab (front ++ (colName, lexInt s) :: back) rec = .ok rec' → col.readNumber rec' = intValue s := by
  have hset : storeSet tab (colName, lexInt s) = store col (lexInt s) := by
    rw [storeSet, htab]
    rfl
  have hmem : ∀ {name : String} {c : ColMeta}, tab.getCol name = .ok c → c ∈ tab.cols ∧ c.name = name := by
    intro name c h
    unfold TabMeta.getCol at h
    split at h
    · next hfind =>
      cases h
      exact ⟨List.mem_of_find?_eq_some hfind, by simpa using List.find?_some hfind⟩
    · cases h
  constructor
  · simp only [setLiterals_ok, exists_comm (α := Bytes), exists_and_left, exists_eq', and_true, mapM_insert_ok, hset,
      store_literal_iff hs hcol]
  · intro rec' hlaid hback h
    obtain ⟨cs, hcs, rfl⟩ := setLiterals_ok.1 h
    obtain ⟨fc, c, bc, -, hc, hbc, rfl⟩ := mapM_append_cons_ok.1 hcs
    rw [hset] at hc
    obtain ⟨hin, hfst, hdata⟩ := store_literal_ok hs hcol hc
    obtain ⟨_, val⟩ := c
    subst hfst
    refine readNumber_copyAll hcol hin hdata (hlaid.1 _ (hmem htab).1) fun d hd => ?_
    obtain ⟨clause, hclause, hd⟩ := mem_of_mapM_ok hbc d hd
    obtain ⟨dcol, hdcol, hd⟩ := bind_eq_ok.1 hd
    obtain ⟨_, _, -, -, -, hfst⟩ := store_ok.1 hd
    rw [hfst]
    refine hlaid.apart (hmem hdcol).1 (hmem htab).1 fun heq => hback clause hclause ?_
    rw [← (hmem hdcol).2, heq, (hmem htab).2]

/-- A comparison with the literal in `check_clause`. -/
theorem checkCond_literal {db : Database} {allCols : List ColMeta} {lhs lhs' : TabCol} {op : CompOp} {tab : TabMeta}
    (hlhs : checkColumn allCols lhs = .ok lhs') (htab : db.getTable lhs'.tabName = .ok tab)
    (hget : tab.getCol lhs'.colName = .ok col) :
    (col.InRange (intValue s) ∧ ∃ val, val.data = col.intBytes (intValue s) ∧
      (getClause (lhs, op, .inl (lexInt s)) >>= checkCond db allCols) = .ok ⟨lhs', op, true, ⟨"", ""⟩, val⟩) ∨
    (¬col.InRange (intValue s) ∧
      ¬∃ cond, (getClause (lhs, op, .inl (lexInt s)) >>= checkCond db allCols) = .ok cond) := by
  have hcheck : ∀ rhs, checkCond db allCols (getCond ⟨lhs, op, .inl rhs⟩) = (do
      let rhsVal ← checkLiteral col rhs
      if col.type ≠ rhsVal.type then .error (.incompatibleType col.type.str rhsVal.type.str)
      else return ⟨lhs', op, true, ⟨"", ""⟩, rhsVal⟩) := by
    intro rhs
    simp only [checkCond, getCond, hlhs, htab, hget, bind, Except.bind, if_true, pure, Except.pure]
  have hlit : ∀ rhs, checkLiteral col rhs = (castValue col rhs >>= fun val => val.initRaw col.len) := by
    intro rhs
    unfold checkLiteral castValue
    by_cases hty : col.type = rhs.type
    · simp [hty, bind, Except.bind, pure, Except.pure]
    · simp only [ne_eq, Ne.symm hty, not_false_eq_true, if_true, if_neg hty]
      cases rhs.castTo col.type <;> rfl
  rcases store_literal hs hcol with ⟨hin, val, htype, hdata, -, hstore⟩ | ⟨hout, -, hstore⟩
  · obtain ⟨v, v', hv, hcast, hinit, -⟩ := store_ok.1 hstore
    refine .inl ⟨hin, val, hdata, bind_eq_ok.2 ⟨_, bind_eq_ok.2 ⟨v, hv, rfl⟩, ?_⟩⟩
    rw [hcheck, hlit]
    simp only [hcast, hinit, bind, Except.bind, ne_eq, htype, not_true_eq_false, if_false]
    rfl
  · refine .inr ⟨hout, ?_⟩
    rintro ⟨cond, hcond⟩
    obtain ⟨_, hclause, hcond⟩ := bind_eq_ok.1 hcond
    obtain ⟨v, hv, hclause⟩ := bind_eq_ok.1 hclause
    cases hclause
    rw [hcheck, hlit] at hcond
    obtain ⟨val, hval, -⟩ := bind_eq_ok.1 hcond
    obtain ⟨v', hcast, hinit⟩ := bind_eq_ok.1 hval
    exact hstore ⟨(col, val), store_ok.2 ⟨v, v', hv, hcast, hinit, rfl⟩⟩

/-- WHERE with the literal, among other conditions; the condition then compares the numbers. -/
theorem where_literal {db : Database} {allCols : List ColMeta} {lhs lhs' : TabCol} {op : CompOp} {tab : TabMeta}
    (hlhs : checkColumn allCols lhs = .ok lhs') (htab : db.getTable lhs'.tabName = .ok tab)
    (hget : tab.getCol lhs'.colName = .ok col) {front back : List (TabCol × CompOp × (SvValue ⊕ TabCol))} :
    ((∃ conds, whereConds db allCols (front ++ (lhs, op, .inl (lexInt s)) :: back) = .ok conds) ↔
      col.InRange (intValue s) ∧ ∃ conds, whereConds db allCols (front ++ back) = .ok conds) ∧
    ∀ conds, whereConds db allCols (front ++ (lhs, op, .inl (lexInt s)) :: back) = .ok conds →
      ∃ cond, conds[front.length]? = some cond ∧ cond.rhsVal.data = col.intBytes (intValue s) ∧
        ∀ (recCols : List ColMeta) (recCol : ColMeta) (rec : Bytes), getCol recCols lhs' = .ok recCol →
          recCol.type = col.type →
          evalCond recCols cond rec = .ok (evalCompare (sign (recCol.readNumber rec) (intValue s)) op) := by
  have hcond := @checkCond_literal s hs col hcol db allCols lhs lhs' op tab hlhs htab hget
  have hone : (∃ cond, (getClause (lhs, op, .inl (lexInt s)) >>= checkCond db allCols) = .ok cond) ↔
      col.InRange (intValue s) := by
    rcases hcond with ⟨hin, val, -, h⟩ | ⟨hout, h⟩
    · exact ⟨fun _ => hin, fun _ => ⟨_, h⟩⟩
    · exact ⟨fun h' => absurd h' h, fun h' => absurd h' hout⟩
  have hall : ∀ {exprs conds}, whereConds db allCols exprs = .ok conds ↔
      (exprs.mapM fun expr => getClause expr >>= checkCond db allCols) = .ok conds := mapM_mapM_ok
  constructor
  · simp only [hall, mapM_insert_ok, hone]
  · intro conds h
    obtain ⟨fc, cond, bc, hfc, hc, -, rfl⟩ := mapM_append_cons_ok.1 (hall.1 h)
    obtain ⟨hin, val, hdata, h⟩ := hcond.resolve_right fun h => h.2 ⟨cond, hc⟩
    rw [hc] at h
    cases h
    refine ⟨⟨lhs', op, true, ⟨"", ""⟩, val⟩, ?_, hdata, ?_⟩
    · rw [← length_of_mapM_ok hfc, List.getElem?_append_right (Nat.le_refl _), Nat.sub_self, List.getElem?_cons_zero]
    · intro recCols recCol rec hrec hty
      simp only [evalCond, hrec, if_true, bind, Except.bind, pure, Except.pure, hdata]
      congr 2
      have hread := ColMeta.read_intBytes hcol hin
      rcases hcol with ⟨hcty, -⟩ | ⟨hcty, -⟩
      · rw [if_pos hcty] at hread
        simp only [compareValue, ColMeta.readNumber, hty, hcty, hread, if_true]
      · rw [if_neg (by simp [hcty])] at hread
        simp only [compareValue, ColMeta.readNumber, hty, hcty, hread, reduceCtorEq, if_false]

end statements

/-- `2147483648`, the first number that is no `int`. -/
def bigText : Bytes := [50, 49, 52, 55, 52, 56, 51, 54, 52, 56]

/-- The column of `CREATE TABLE t (b BIGINT);` -/
def bigCol : ColMeta := ⟨"t", "b", .bigint, 8, 0⟩

end Rmdb
