import Mathlib.Logic.Function.Basic
import Mathlib.Tactic.IntervalCases

/-!
# The slot bitmap of a page

- `Bitmap`: the bytes from the bitmap's address on, with the operations of `bitmap.h`;
- `Bitmap.count`: the number of set bits among the first ones, as `RecoveryManager::undo` counts them;
- after the first section only `isSet` is used: the bytes never show again.
-/

namespace Rmdb

/-- `char *bm`, by distance from the first byte. -/
abbrev Bitmap := Int → BitVec 8

namespace Bitmap

def bitmapWidth : Int := 8
def bitmapHighestBit : BitVec 8 := 0x80

def getBucket (pos : Int) : Int := pos / bitmapWidth

def getBit (pos : Int) : BitVec 8 := bitmapHighestBit >>> (pos % bitmapWidth).toNat

/-- Clear the first `size` bytes. -/
def init (bm : Bitmap) (size : Int) : Bitmap := fun i => if 0 ≤ i ∧ i < size then 0 else bm i

def set (bm : Bitmap) (pos : Int) : Bitmap :=
  Function.update bm (getBucket pos) (bm (getBucket pos) ||| getBit pos)

def reset (bm : Bitmap) (pos : Int) : Bitmap :=
  Function.update bm (getBucket pos) (bm (getBucket pos) &&& ~~~getBit pos)

def isSet (bm : Bitmap) (pos : Int) : Bool := bm (getBucket pos) &&& getBit pos != 0

/-- The loop of `next_bit` at position `i`, with `k` positions left. -/
def scan (bit : Bool) (bm : Bitmap) (maxN : Int) : Nat → Int → Int
  | 0, _ => maxN
  | k + 1, i => if bm.isSet i == bit then i else scan bit bm maxN k (i + 1)

def nextBit (bit : Bool) (bm : Bitmap) (maxN curr : Int) : Int :=
  scan bit bm maxN (maxN - (curr + 1)).toNat (curr + 1)

def firstBit (bit : Bool) (bm : Bitmap) (maxN : Int) : Int := nextBit bit bm maxN (-1)

/-- How many of the first `k` bits are set. -/
def count (bm : Bitmap) : Nat → Int
  | 0 => 0
  | k + 1 => count bm k + if bm.isSet k then 1 else 0

/-! ## Single bits -/

theorem getBit_ne_zero (pos : Int) : getBit pos ≠ 0 := by
  have h : (pos % 8).toNat < 8 := by omega
  simp only [getBit, bitmapWidth, bitmapHighestBit]
  interval_cases (pos % 8).toNat <;> decide

theorem getBit_and_of_ne {i j : Int} (h : i % 8 ≠ j % 8) : getBit i &&& getBit j = 0 := by
  have hi : (i % 8).toNat < 8 := by omega
  have hj : (j % 8).toNat < 8 := by omega
  have hne : (i % 8).toNat ≠ (j % 8).toNat := by omega
  simp only [getBit, bitmapWidth, bitmapHighestBit]
  generalize (i % 8).toNat = a at *
  generalize (j % 8).toNat = b at *
  interval_cases a <;> interval_cases b <;> first | decide | exact absurd rfl hne

theorem not_getBit_and_of_ne {i j : Int} (h : i % 8 ≠ j % 8) : ~~~getBit i &&& getBit j = getBit j := by
  have hi : (i % 8).toNat < 8 := by omega
  have hj : (j % 8).toNat < 8 := by omega
  have hne : (i % 8).toNat ≠ (j % 8).toNat := by omega
  simp only [getBit, bitmapWidth, bitmapHighestBit]
  generalize (i % 8).toNat = a at *
  generalize (j % 8).toNat = b at *
  interval_cases a <;> interval_cases b <;> first | decide | exact absurd rfl hne

variable (bm : Bitmap) {pos i : Int}

@[simp] theorem isSet_set_self : (bm.set pos).isSet pos = true := by
  have hne := getBit_ne_zero pos
  simp only [isSet, set, Function.update_self, BitVec.and_or_distrib_right, BitVec.and_self, bne_iff_ne, ne_eq]
  exact fun h => hne (BitVec.or_eq_zero_iff.1 h).2

@[simp] theorem isSet_reset_self : (bm.reset pos).isSet pos = false := by
  have h : ~~~getBit pos &&& getBit pos = 0 := BitVec.not_and_self _
  simp [isSet, reset, BitVec.and_assoc, h]

/-- Setting a bit leaves the others. -/
theorem isSet_set_of_ne (h : i ≠ pos) : (bm.set pos).isSet i = bm.isSet i := by
  unfold isSet set
  by_cases hb : getBucket i = getBucket pos
  · have hne : pos % 8 ≠ i % 8 := by simp only [getBucket, bitmapWidth] at hb; omega
    rw [hb, Function.update_self, BitVec.and_or_distrib_right, getBit_and_of_ne hne]
    simp
  · rw [Function.update_of_ne hb]

theorem isSet_reset_of_ne (h : i ≠ pos) : (bm.reset pos).isSet i = bm.isSet i := by
  unfold isSet reset
  by_cases hb : getBucket i = getBucket pos
  · have hne : pos % 8 ≠ i % 8 := by simp only [getBucket, bitmapWidth] at hb; omega
    rw [hb, Function.update_self, BitVec.and_assoc, not_getBit_and_of_ne hne]
  · rw [Function.update_of_ne hb]

theorem isSet_set : (bm.set pos).isSet i = if i = pos then true else bm.isSet i := by
  split
  · next h => rw [h, isSet_set_self]
  · next h => exact bm.isSet_set_of_ne h

theorem isSet_reset : (bm.reset pos).isSet i = if i = pos then false else bm.isSet i := by
  split
  · next h => rw [h, isSet_reset_self]
  · next h => exact bm.isSet_reset_of_ne h

/-- The bitmap of a zeroed page. -/
def zero : Bitmap := fun _ => 0

@[simp] theorem init_zero (size : Int) : zero.init size = zero := by
  funext i
  simp [init, zero]

@[simp] theorem isSet_zero : zero.isSet i = false := by simp [isSet, zero]

/-! ## Searching and counting -/

/-- `scan` stops at a matching position, or has seen none. -/
theorem scan_spec (bit : Bool) (maxN : Int) (k : Nat) (i : Int) :
    (bm.isSet (scan bit bm maxN k i) = bit ∧ i ≤ scan bit bm maxN k i ∧ scan bit bm maxN k i < i + k) ∨
      scan bit bm maxN k i = maxN ∧ ∀ j, i ≤ j → j < i + k → bm.isSet j ≠ bit := by
  induction k generalizing i with
  | zero => exact .inr ⟨rfl, by intros; omega⟩
  | succ k ih =>
    by_cases h : bm.isSet i = bit
    · simp [scan, h]
    · simp only [scan, beq_iff_eq, h, if_false]
      rcases ih (i + 1) with ⟨h1, h2, h3⟩ | ⟨h1, h2⟩
      · exact .inl ⟨h1, by omega, by omega⟩
      · refine .inr ⟨h1, fun j hj hj' => ?_⟩
        rcases eq_or_lt_of_le hj with rfl | hlt
        · exact h
        · exact h2 j (by omega) (by omega)

/-- The first clear bit, or all of them are set and the result is their number. -/
theorem firstBit_false {n : Int} (hn : 0 ≤ n) :
    (0 ≤ firstBit false bm n ∧ firstBit false bm n < n ∧ bm.isSet (firstBit false bm n) = false) ∨
      firstBit false bm n = n ∧ ∀ i, 0 ≤ i → i < n → bm.isSet i = true := by
  have h := scan_spec bm false n n.toNat 0
  simp only [firstBit, nextBit, show (-1 + 1 : Int) = 0 from rfl, Int.sub_zero]
  rcases h with ⟨h1, h2, h3⟩ | ⟨h1, h2⟩
  · exact .inl ⟨h2, by omega, h1⟩
  · exact .inr ⟨h1, fun i hi hi' => by simpa using h2 i hi (by omega)⟩

theorem count_nonneg (k : Nat) : 0 ≤ count bm k := by
  induction k with
  | zero => exact le_rfl
  | succ k ih =>
    simp only [count]
    split <;> omega

theorem count_le (k : Nat) : count bm k ≤ k := by
  induction k with
  | zero => exact le_rfl
  | succ k ih =>
    simp only [count]
    split <;> omega

/-- The count reaches the number of positions exactly when every one is set. -/
theorem count_eq_iff (k : Nat) : count bm k = k ↔ ∀ i : Int, 0 ≤ i → i < k → bm.isSet i = true := by
  induction k with
  | zero => exact ⟨fun _ i h h' => by omega, fun _ => rfl⟩
  | succ k ih =>
    have hle := count_le bm k
    constructor
    · intro h i hi hi'
      by_cases hk : bm.isSet k = true
      · simp only [count, hk, if_true] at h
        rcases eq_or_lt_of_le (show i ≤ k by omega) with rfl | hlt
        · exact hk
        · exact ih.1 (by omega) i hi hlt
      · simp only [count, hk] at h
        simp at h
        omega
    · intro h
      have hk := h k (by omega) (by omega)
      have := ih.2 fun i hi hi' => h i hi (by omega)
      simp only [count, hk, if_true, this]
      omega

theorem count_congr {bm bm' : Bitmap} (k : Nat) (h : ∀ i : Int, 0 ≤ i → i < k → bm'.isSet i = bm.isSet i) :
    count bm' k = count bm k := by
  induction k with
  | zero => rfl
  | succ k ih =>
    simp only [count, h k (by omega) (by omega), ih fun i hi hi' => h i hi (by omega)]

theorem count_set {k : Nat} (hpos : 0 ≤ pos) (hk : pos < k) (hclear : bm.isSet pos = false) :
    count (bm.set pos) k = count bm k + 1 := by
  induction k with
  | zero => omega
  | succ k ih =>
    rcases eq_or_lt_of_le (show pos ≤ k by omega) with rfl | hlt
    · have : count (bm.set k) k = count bm k := count_congr k fun i _ hi => bm.isSet_set_of_ne (by omega)
      simp [count, this, hclear]
    · simp only [count, ih hlt, bm.isSet_set_of_ne (show (k : Int) ≠ pos by omega)]
      omega

theorem count_reset {k : Nat} (hpos : 0 ≤ pos) (hk : pos < k) (hset : bm.isSet pos = true) :
    count (bm.reset pos) k = count bm k - 1 := by
  induction k with
  | zero => omega
  | succ k ih =>
    rcases eq_or_lt_of_le (show pos ≤ k by omega) with rfl | hlt
    · have : count (bm.reset k) k = count bm k := count_congr k fun i _ hi => bm.isSet_reset_of_ne (by omega)
      simp [count, this, hset]
    · simp only [count, ih hlt, bm.isSet_reset_of_ne (show (k : Int) ≠ pos by omega)]
      omega

@[simp] theorem count_zero (k : Nat) : count zero k = 0 := by
  induction k with
  | zero => rfl
  | succ k ih => simp [count, ih]

end Bitmap

end Rmdb
