import Rmdb.Execution.Operators
import Rmdb.Index.Key

/-!
# The order of the keys

- `ordered_ixCompare`: `ix_compare` is a total preorder on keys without FLOAT columns;
- `ixCompare_eq_zero_iff`: two such keys of the length of the columns compare equal only when they are equal, byte by
  byte;
- `ExactCols` and `ExactCols.Key`: columns whose keys are exact in this sense, and the keys with their linear order.
-/

namespace Rmdb

open Lib

/-! ## Equal values -/

theorem leNat_inj : ∀ {a b : Bytes}, a.length = b.length → leNat a = leNat b → a = b
  | [], [], _, _ => rfl
  | x :: a, y :: b, hlen, h => by
    have hx := x.toNat_lt
    have hy := y.toNat_lt
    simp only [leNat] at h
    have hxy : x.toNat = y.toNat := by omega
    rw [UInt8.toNat_inj.1 hxy, leNat_inj (Nat.succ.inj hlen) (by omega)]

/-- The first bytes of a number of `8 * n` bits are determined by it. -/
theorem take_eq_of_toInt {n : Nat} {a b : Bytes} (ha : n ≤ a.length) (hb : n ≤ b.length)
    (h : (BitVec.ofNat (8 * n) (leNat (a.take n))).toInt = (BitVec.ofNat (8 * n) (leNat (b.take n))).toInt) :
    a.take n = b.take n := by
  have hla : (a.take n).length = n := List.length_take_of_le ha
  have hlb : (b.take n).length = n := List.length_take_of_le hb
  have hlt : ∀ c : Bytes, c.length = n → leNat c < 2 ^ (8 * n) := by
    intro c hc
    have h1 := leNat_lt c
    rw [hc] at h1
    rwa [Nat.pow_mul]
  have hn := congrArg BitVec.toNat (BitVec.eq_of_toInt_eq h)
  rw [BitVec.toNat_ofNat, BitVec.toNat_ofNat, Nat.mod_eq_of_lt (hlt _ hla), Nat.mod_eq_of_lt (hlt _ hlb)] at hn
  exact leNat_inj (hla.trans hlb.symm) hn

theorem sign_eq_zero_iff (x y : Int) : sign x y = 0 ↔ x = y := by
  unfold sign
  split
  · omega
  · split <;> omega

theorem memcmp_eq_zero_iff : ∀ {n : Nat} {a b : Bytes}, n ≤ a.length → n ≤ b.length →
    (memcmp n a b = 0 ↔ a.take n = b.take n)
  | 0, _, _, _, _ => by simp [memcmp]
  | n + 1, x :: a, y :: b, ha, hb => by
    have ih := memcmp_eq_zero_iff (Nat.le_of_succ_le_succ ha) (Nat.le_of_succ_le_succ hb)
    simp only [memcmp, List.headD_cons, List.tail_cons, List.take_succ_cons, List.cons.injEq]
    by_cases hxy : x = y
    · subst hxy
      simpa using ih
    · have hne : x.toNat ≠ y.toNat := fun h => hxy (UInt8.toNat_inj.1 h)
      simp only [hxy, false_and, iff_false, UInt8.lt_iff_toNat_lt]
      split
      · decide
      · rw [if_pos (by omega)]
        decide

/-- Without FLOAT, values compare equal when their bytes are equal. -/
theorem compareValue_eq_zero_iff {type : ColType} {len : Int} {a b : Bytes} (htype : type ≠ .float)
    (ha : type.width len ≤ a.length) (hb : type.width len ≤ b.length) :
    compareValue a b type len = 0 ↔ a.take (type.width len) = b.take (type.width len) := by
  cases type with
  | int =>
    refine (sign_eq_zero_iff _ _).trans ⟨take_eq_of_toInt (n := 4) ha hb, fun h => ?_⟩
    rw [readInt, readInt, show a.take 4 = b.take 4 from h]
  | bigint | datetime =>
    refine (sign_eq_zero_iff _ _).trans ⟨take_eq_of_toInt (n := 8) ha hb, fun h => ?_⟩
    rw [readInt64, readInt64, show a.take 8 = b.take 8 from h]
  | float => exact absurd rfl htype
  | string => exact memcmp_eq_zero_iff ha hb

/-! ## Keys -/

/-- `ix_compare` is a total preorder where `compare_value` is one on each column. -/
theorem ordered_ixCompare : ∀ {cols : List ColMeta}, (∀ col ∈ cols, col.type ≠ .float) →
    Ordered (fun _ => True) (ixCompare cols)
  | [], _ => ⟨fun _ _ _ _ => by simp [ixCompare], fun _ _ _ _ _ _ _ _ => by simp [ixCompare]⟩
  | col :: cols, h => by
    have hcol : Ordered (fun _ => True) fun a b => compareValue a b col.type col.len :=
      (ordered_compareValue col.type col.len).mono fun _ _ hf => absurd hf (h col List.mem_cons_self)
    have hrest : Ordered (fun _ => True) fun a b : Bytes =>
        ixCompare cols (a.drop col.len.toNat) (b.drop col.len.toNat) :=
      (ordered_ixCompare fun c hc => h c (List.mem_cons_of_mem _ hc)).comap (List.drop col.len.toNat)
    have hlex := ordered_lexCompare (P := fun _ : Bytes => True)
      [fun a b => compareValue a b col.type col.len,
        fun a b => ixCompare cols (a.drop col.len.toNat) (b.drop col.len.toNat)] (by
        intro cmp hc
        rcases List.mem_pair.1 hc with rfl | rfl
        · exact hcol
        · exact hrest)
    have heq : ixCompare (col :: cols) = lexCompare [fun a b => compareValue a b col.type col.len,
        fun a b => ixCompare cols (a.drop col.len.toNat) (b.drop col.len.toNat)] := by
      funext a b
      simp only [ixCompare, lexCompare]
      grind
    rw [heq]
    exact hlex

/-- The column has values of its type's length, and is no FLOAT. -/
def ColMeta.Exact (col : ColMeta) : Prop := col.type ≠ .float ∧ col.type.width col.len = col.len.toNat

/-- The bytes of a key. -/
def keyLen (cols : List ColMeta) : Nat := (cols.map fun col => col.len.toNat).sum

/-- **Keys that compare equal are equal.** -/
theorem ixCompare_eq_zero_iff : ∀ {cols : List ColMeta} {a b : Bytes}, (∀ col ∈ cols, col.Exact) →
    a.length = keyLen cols → b.length = keyLen cols → (ixCompare cols a b = 0 ↔ a = b)
  | [], a, b, _, ha, hb => by
    rw [List.length_eq_zero_iff.1 ha, List.length_eq_zero_iff.1 hb]
    simp [ixCompare]
  | col :: cols, a, b, h, ha, hb => by
    obtain ⟨htype, hwidth⟩ := h col List.mem_cons_self
    have hlen : keyLen (col :: cols) = col.len.toNat + keyLen cols := rfl
    have hcol : compareValue a b col.type col.len = 0 ↔
        a.take (col.type.width col.len) = b.take (col.type.width col.len) :=
      compareValue_eq_zero_iff htype (by omega) (by omega)
    have hrest := ixCompare_eq_zero_iff (a := a.drop col.len.toNat) (b := b.drop col.len.toNat)
      (fun c hc => h c (List.mem_cons_of_mem _ hc)) (by rw [List.length_drop]; omega) (by rw [List.length_drop]; omega)
    rw [hwidth] at hcol
    have hsplit : a = b ↔ a.take col.len.toNat = b.take col.len.toNat ∧
        a.drop col.len.toNat = b.drop col.len.toNat := by
      constructor
      · rintro rfl
        exact ⟨rfl, rfl⟩
      · rintro ⟨h1, h2⟩
        rw [← List.take_append_drop col.len.toNat a, h1, h2, List.take_append_drop]
    rw [hsplit, ← hcol, ← hrest]
    simp only [ixCompare]
    grind

/-- The columns of an index with exact keys. -/
structure ExactCols where
  cols : List ColMeta
  exact : ∀ col ∈ cols, col.Exact

namespace ExactCols

variable (S : ExactCols)

/-- The keys of the index. -/
def Key : Type := { key : IxKey S.cols // List.length key = keyLen S.cols }

variable {S}

/-- `ix_compare` of two keys. -/
def cmp (a b : S.Key) : Int := ixCompare S.cols a.1 b.1

theorem cmp_eq_zero_iff {a b : S.Key} : cmp a b = 0 ↔ a = b :=
  (ixCompare_eq_zero_iff S.exact a.2 b.2).trans Subtype.ext_iff.symm

theorem ordered_cmp : Ordered (fun _ : S.Key => True) cmp :=
  (ordered_ixCompare fun col hcol => (S.exact col hcol).1).comap Subtype.val

instance : DecidableEq S.Key := inferInstanceAs (DecidableEq { key : Bytes // key.length = keyLen S.cols })

/-- The keys with the order of `ix_compare`. -/
instance : LinearOrder S.Key where
  le a b := cmp a b ≤ 0
  lt a b := cmp a b < 0
  compare a b := compare (cmp a b) 0
  le_refl a := Int.le_of_eq (cmp_eq_zero_iff.2 rfl)
  le_trans a b c hab hbc := ordered_cmp.trans a b c trivial trivial trivial hab hbc
  le_antisymm a b hab hba := by
    have h1 := ordered_cmp.flip a b trivial trivial
    exact cmp_eq_zero_iff.1 (by omega)
  le_total a b := ordered_cmp.total trivial trivial
  lt_iff_le_not_ge a b := by
    have h1 := ordered_cmp.flip a b trivial trivial
    omega
  toDecidableLE a b := Int.decLe (cmp a b) 0
  toDecidableEq := inferInstance
  toDecidableLT a b := Int.decLt (cmp a b) 0
  compare_eq_compareOfLessAndEq a b := by
    show compare (cmp a b) 0 = if cmp a b < 0 then .lt else if a = b then .eq else .gt
    rw [LinearOrder.compare_eq_compareOfLessAndEq, compareOfLessAndEq]
    simp only [cmp_eq_zero_iff]

end ExactCols

end Rmdb
