import Mathlib.Tactic.Ring
import Rmdb.Common.Defs

/-!
# Values and conditions

- `Value` with `castTo` and `initRaw` of `common.h`, and the bytes of a value in a record;
- `TabCol`, `Condition` and `SetClause`;
- `compareValue` and `evalCompare` of `executor_abstract.h`, over the bytes of a record.
-/

namespace Rmdb

/-! ## Bytes of a number -/

/-- The low `k` bytes of a number, lowest first. -/
def leBytes (n : Nat) : Nat → Bytes
  | 0 => []
  | k + 1 => UInt8.ofNat (n % 256) :: leBytes (n / 256) k

/-- The number whose bytes these are. -/
def leNat : Bytes → Nat
  | [] => 0
  | b :: bs => b.toNat + 256 * leNat bs

/-- `*(int *)p`. -/
def readInt (b : Bytes) : Int := (BitVec.ofNat 32 (leNat (b.take 4))).toInt

/-- `*(int64_t *)p`. -/
def readInt64 (b : Bytes) : Int := (BitVec.ofNat 64 (leNat (b.take 8))).toInt

/-- A `float` that is compared, by its bits: the sign and then exponent and fraction. `Float32` has no order that can be
computed with here. -/
structure FloatBits where
  bits : Nat
  deriving DecidableEq, Repr

namespace FloatBits

/-- Exponent and fraction. -/
def magnitude (x : FloatBits) : Nat := x.bits % 2 ^ 31

def isNaN (x : FloatBits) : Prop := 0x7f800000 < x.magnitude

/-- Exponent and fraction with the sign: the order of the numbers, with one zero. -/
def signed (x : FloatBits) : Int := if x.bits < 2 ^ 31 then x.magnitude else -x.magnitude

instance (x : FloatBits) : Decidable x.isNaN := inferInstanceAs (Decidable (_ < _))

/-- `a < b` of two `float`s; a NaN compares with nothing. -/
instance : LT FloatBits := ⟨fun a b => ¬a.isNaN ∧ ¬b.isNaN ∧ a.signed < b.signed⟩

instance : DecidableLT FloatBits := fun a b => inferInstanceAs (Decidable (¬a.isNaN ∧ ¬b.isNaN ∧ a.signed < b.signed))

end FloatBits

/-- `*(float *)p`. -/
def readFloat (b : Bytes) : FloatBits := ⟨leNat (b.take 4)⟩

/-- The two's complement bytes of an `int`. -/
def intBytes (v : Int) : Bytes := leBytes (BitVec.ofInt 32 v).toNat 4

def int64Bytes (v : Int) : Bytes := leBytes (BitVec.ofInt 64 v).toNat 8

def floatBytes (v : Float32) : Bytes := leBytes v.toBits.toNat 4

@[simp] theorem length_leBytes (n k : Nat) : (leBytes n k).length = k := by
  induction k generalizing n with
  | zero => rfl
  | succ k ih => simp [leBytes, ih]

theorem leNat_leBytes (n k : Nat) : leNat (leBytes n k) = n % 256 ^ k := by
  induction k generalizing n with
  | zero => simp [leBytes, leNat, Nat.mod_one]
  | succ k ih =>
    have h := Nat.mod_mul (x := n) (a := 256) (b := 256 ^ k)
    rw [leBytes, leNat, ih, Nat.pow_succ', h]
    simp

/-- A number that `k` bytes hold is read back. -/
theorem leNat_leBytes_of_lt {n k : Nat} (h : n < 256 ^ k) : leNat (leBytes n k) = n := by
  rw [leNat_leBytes, Nat.mod_eq_of_lt h]

@[simp] theorem length_intBytes (v : Int) : (intBytes v).length = 4 := length_leBytes _ _

@[simp] theorem length_int64Bytes (v : Int) : (int64Bytes v).length = 8 := length_leBytes _ _

theorem leNat_lt : ∀ bs : Bytes, leNat bs < 256 ^ bs.length
  | [] => by simp [leNat]
  | b :: bs => by
    have ih := leNat_lt bs
    have hb := b.toNat_lt
    rw [leNat, List.length_cons, Nat.pow_succ]
    omega

/-- The values of an `int` are read back. -/
theorem readInt_intBytes {v : Int} (h : -2 ^ 31 ≤ v) (h' : v < 2 ^ 31) : readInt (intBytes v) = v := by
  have ht : (intBytes v).take 4 = intBytes v := List.take_of_length_le (by simp)
  rw [readInt, ht, intBytes, leNat_leBytes_of_lt (by simpa using (BitVec.ofInt 32 v).isLt), BitVec.ofNat_toNat,
    BitVec.setWidth_eq, BitVec.toInt_ofInt, Int.bmod_eq_of_le (by omega) (by omega)]

/-- The values of an `int64_t` are read back. -/
theorem readInt64_int64Bytes {v : Int} (h : -2 ^ 63 ≤ v) (h' : v < 2 ^ 63) : readInt64 (int64Bytes v) = v := by
  have ht : (int64Bytes v).take 8 = int64Bytes v := List.take_of_length_le (by simp)
  rw [readInt64, ht, int64Bytes, leNat_leBytes_of_lt (by simpa using (BitVec.ofInt 64 v).isLt), BitVec.ofNat_toNat,
    BitVec.setWidth_eq, BitVec.toInt_ofInt, Int.bmod_eq_of_le (by omega) (by omega)]

/-! ## Values -/

def intMin : Int := -2147483648
def intMax : Int := 2147483647

/-- The member of the union that is set. -/
inductive Datum
  | int (v : Int)
  | float (v : Float32)
  | bigint (v : Int)
  | datetime (v : Int)
  | str (v : Bytes)

def Datum.type : Datum → ColType
  | .int _ => .int
  | .float _ => .float
  | .bigint _ => .bigint
  | .datetime _ => .datetime
  | .str _ => .string

structure Value where
  val : Datum
  raw : Option Bytes

def Value.type (v : Value) : ColType := v.val.type

/-- The digits at the positions `ps` of a text as a number; `none` at the first other character. -/
def digitsAt (s : Bytes) (ps : List Nat) : Option Nat :=
  ps.foldlM (fun n p => do
    let c ← s[p]?
    if 48 ≤ c ∧ c ≤ 57 then some (n * 10 + (c.toNat - 48)) else none) 0

/-- `month_days`, with the leap day. -/
def daysIn (year month : Nat) : Nat :=
  let leap := (year % 4 = 0 ∧ year % 100 ≠ 0) ∨ year % 400 = 0
  if month = 2 ∧ leap then 29 else [31, 28, 31, 30, 31, 30, 31, 31, 30, 31, 30, 31].getD (month - 1) 0

/-- `parse_datetime`. -/
def parseDatetime (s : Bytes) : Option Int := do
  guard (s.length = 19)
  guard (s[4]? = some 45 ∧ s[7]? = some 45 ∧ s[10]? = some 32 ∧ s[13]? = some 58 ∧ s[16]? = some 58)
  let year ← digitsAt s [0, 1, 2, 3]
  let month ← digitsAt s [5, 6]
  let day ← digitsAt s [8, 9]
  let hour ← digitsAt s [11, 12]
  let minute ← digitsAt s [14, 15]
  let second ← digitsAt s [17, 18]
  guard (1000 ≤ year ∧ year ≤ 9999)
  guard (1 ≤ month ∧ month ≤ 12)
  guard (hour ≤ 23 ∧ minute ≤ 59 ∧ second ≤ 59)
  guard (1 ≤ day ∧ day ≤ daysIn year month)
  return ((((year * 100 + month) * 100 + day) * 100 + hour) * 100 + minute) * 100 + second

/-- `cast_to`: the value in the column's type, `none` where the cast is refused. -/
def Value.castTo (v : Value) (target : ColType) : Option Value :=
  match target, v.val with
  | .int, .int _ | .float, .float _ | .bigint, .bigint _ | .datetime, .datetime _ | .string, .str _ => some v
  | .bigint, .int n => some { v with val := .bigint n }
  | .int, .bigint n => if n < intMin ∨ n > intMax then none else some { v with val := .int n }
  | .float, .int n | .float, .bigint n => some { v with val := .float (Float32.ofInt n) }
  | .datetime, .str s => (parseDatetime s).map fun n => { v with val := .datetime n }
  | _, _ => none

/-- `init_raw`; `len` is the size of the number for every type but the string. -/
def Value.initRaw (v : Value) (len : Int) : Except RMDBError Value :=
  match v.val with
  | .int n => .ok { v with raw := some (intBytes n) }
  | .bigint n | .datetime n => .ok { v with raw := some (int64Bytes n) }
  | .float x => .ok { v with raw := some (floatBytes x) }
  | .str s =>
    if len < s.length then .error .stringOverflow
    else .ok { v with raw := some (s ++ List.replicate (len.toNat - s.length) 0) }

/-- `raw->data`. -/
def Value.data (v : Value) : Bytes := v.raw.getD []

/-! ## Conditions -/

structure TabCol where
  tabName : String
  colName : String
  deriving DecidableEq, Repr

inductive CompOp
  | eq | ne | lt | gt | le | ge
  deriving DecidableEq, Repr

structure Condition where
  lhsCol : TabCol
  op : CompOp
  isRhsVal : Bool
  rhsCol : TabCol
  rhsVal : Value

structure SetClause where
  lhs : TabCol
  rhs : Value

/-- The sign of a comparison. -/
def sign {α : Type} [LT α] [DecidableLT α] (a b : α) : Int := if a < b then -1 else if b < a then 1 else 0

/-- `memcmp`. -/
def memcmp : Nat → Bytes → Bytes → Int
  | 0, _, _ => 0
  | n + 1, a, b =>
    let x := a.headD 0
    let y := b.headD 0
    if x < y then -1 else if y < x then 1 else memcmp n a.tail b.tail

/-- `compare_value`, which is also what `ix_compare` does with one column. -/
def compareValue (lhs rhs : Bytes) (type : ColType) (len : Int) : Int :=
  match type with
  | .int => sign (readInt lhs) (readInt rhs)
  | .bigint | .datetime => sign (readInt64 lhs) (readInt64 rhs)
  | .float => sign (readFloat lhs) (readFloat rhs)
  | .string => memcmp len.toNat lhs rhs

def evalCompare (cmp : Int) : CompOp → Bool
  | .eq => cmp == 0
  | .ne => cmp != 0
  | .lt => cmp < 0
  | .gt => 0 < cmp
  | .le => cmp ≤ 0
  | .ge => 0 ≤ cmp

/-! ## What a comparison reads -/

/-- The bytes of a value that `compareValue` reads. -/
def ColType.width (type : ColType) (len : Int) : Nat :=
  match type with
  | .int | .float => 4
  | .bigint | .datetime => 8
  | .string => len.toNat

theorem memcmp_congr : ∀ {n : Nat} {a a' b b' : Bytes}, a.take n = a'.take n → b.take n = b'.take n →
    memcmp n a b = memcmp n a' b'
  | 0, _, _, _, _, _, _ => rfl
  | n + 1, a, a', b, b', ha, hb => by
    have key : ∀ {x y : Bytes}, x.take (n + 1) = y.take (n + 1) →
        x.headD 0 = y.headD 0 ∧ x.tail.take n = y.tail.take n := by
      intro x y h
      cases x <;> cases y <;> simp_all
    obtain ⟨h1, h2⟩ := key ha
    obtain ⟨h3, h4⟩ := key hb
    simp only [memcmp, h1, h3, memcmp_congr h2 h4]

theorem compareValue_congr {a a' b b' : Bytes} {type : ColType} {len : Int}
    (ha : a.take (type.width len) = a'.take (type.width len))
    (hb : b.take (type.width len) = b'.take (type.width len)) :
    compareValue a b type len = compareValue a' b' type len := by
  cases type with
  | int => simp only [compareValue, readInt, show a.take 4 = a'.take 4 from ha, show b.take 4 = b'.take 4 from hb]
  | float => simp only [compareValue, readFloat, show a.take 4 = a'.take 4 from ha, show b.take 4 = b'.take 4 from hb]
  | bigint | datetime =>
    simp only [compareValue, readInt64, show a.take 8 = a'.take 8 from ha, show b.take 8 = b'.take 8 from hb]
  | string => exact memcmp_congr ha hb

theorem sign_swap {α : Type} [LT α] [DecidableLT α] (h : ∀ a b : α, a < b → ¬b < a) (a b : α) :
    sign b a = -sign a b := by
  by_cases h1 : a < b
  · simp [sign, h1, h a b h1]
  · by_cases h2 : b < a <;> simp [sign, h1, h2]

theorem memcmp_swap (n : Nat) (a b : Bytes) : memcmp n b a = -memcmp n a b := by
  induction n generalizing a b with
  | zero => rfl
  | succ n ih =>
    simp only [memcmp, UInt8.lt_iff_toNat_lt, ih a.tail]
    split <;> split <;> omega

/-- A comparison with its sides exchanged, also of floats that are no numbers. -/
theorem compareValue_swap (a b : Bytes) (type : ColType) (len : Int) :
    compareValue b a type len = -compareValue a b type len := by
  have hint : ∀ x y : Int, x < y → ¬y < x := fun x y h => by omega
  cases type with
  | int => exact sign_swap hint _ _
  | bigint => exact sign_swap hint _ _
  | datetime => exact sign_swap hint _ _
  | string => exact memcmp_swap _ _ _
  | float =>
    have hfloat : ∀ x y : FloatBits, x < y → ¬y < x := fun x y h h' => hint _ _ h.2.2 h'.2.2
    exact sign_swap hfloat _ _

end Rmdb
