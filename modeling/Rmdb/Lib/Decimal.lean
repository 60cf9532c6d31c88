import Mathlib.Data.List.Induction
import Mathlib.Tactic.Ring

/-!
# Decimal text

- `digit`, `IsDigit` and `ofDigits`: a text of digits and the number it denotes, the highest digit first;
- `fixedDigits`: a number with a fixed count of digits, the inverse of `ofDigits` on texts of that length
  (`ofDigits_fixedDigits`, `fixedDigits_ofDigits`), and monotone (`fixedDigits_lt_iff`);
- `decimal`: a number without leading zeros.
-/

namespace Rmdb.Lib

/-- The character of a digit. -/
def digit (d : Nat) : UInt8 := UInt8.ofNat (48 + d)

def IsDigit (c : UInt8) : Prop := 48 ≤ c ∧ c ≤ 57

instance (c : UInt8) : Decidable (IsDigit c) := inferInstanceAs (Decidable (_ ∧ _))

def digitVal (c : UInt8) : Nat := c.toNat - 48

/-- The number that a text of digits denotes. -/
def ofDigits (s : List UInt8) : Nat := s.foldl (fun n c => n * 10 + digitVal c) 0

/-- The lowest `w` digits of a number. -/
def fixedDigits : Nat → Nat → List UInt8
  | 0, _ => []
  | w + 1, n => fixedDigits w (n / 10) ++ [digit (n % 10)]

/-! ## Digits -/

theorem toNat_digit {d : Nat} (h : d < 10) : (digit d).toNat = 48 + d := by
  rw [digit, UInt8.toNat_ofNat']
  omega

theorem isDigit_iff {c : UInt8} : IsDigit c ↔ 48 ≤ c.toNat ∧ c.toNat ≤ 57 := by
  rw [IsDigit, UInt8.le_iff_toNat_le, UInt8.le_iff_toNat_le]
  rfl

theorem isDigit_digit {d : Nat} (h : d < 10) : IsDigit (digit d) := by
  rw [isDigit_iff, toNat_digit h]
  omega

@[simp] theorem digitVal_digit {d : Nat} (h : d < 10) : digitVal (digit d) = d := by
  rw [digitVal, toNat_digit h]
  omega

theorem digit_digitVal {c : UInt8} (h : IsDigit c) : digit (digitVal c) = c := by
  rw [isDigit_iff] at h
  apply UInt8.toNat_inj.1
  rw [toNat_digit (by rw [digitVal]; omega), digitVal]
  omega

theorem digitVal_lt {c : UInt8} (h : IsDigit c) : digitVal c < 10 := by
  rw [isDigit_iff] at h
  rw [digitVal]
  omega

/-! ## The number of a text -/

theorem foldl_digits (s : List UInt8) (n : Nat) :
    s.foldl (fun n c => n * 10 + digitVal c) n = n * 10 ^ s.length + ofDigits s := by
  induction s generalizing n with
  | nil => simp [ofDigits]
  | cons c s ih =>
    have h0 : ofDigits (c :: s) = (0 * 10 + digitVal c) * 10 ^ s.length + ofDigits s := ih _
    rw [List.foldl_cons, ih, h0, List.length_cons, Nat.pow_succ']
    ring

theorem ofDigits_append (s t : List UInt8) : ofDigits (s ++ t) = ofDigits s * 10 ^ t.length + ofDigits t := by
  rw [ofDigits, List.foldl_append, foldl_digits]
  rfl

theorem ofDigits_concat (s : List UInt8) (c : UInt8) : ofDigits (s ++ [c]) = ofDigits s * 10 + digitVal c := by
  rw [ofDigits, List.foldl_append]
  rfl

theorem ofDigits_lt {s : List UInt8} (h : ∀ c ∈ s, IsDigit c) : ofDigits s < 10 ^ s.length := by
  induction s using List.reverseRecOn with
  | nil => decide
  | append_singleton s c ih =>
    have hs := ih fun d hd => h d (List.mem_append_left _ hd)
    have hc := digitVal_lt (h c (by simp))
    rw [ofDigits_concat, List.length_append, List.length_singleton, Nat.pow_succ]
    omega

/-! ## A fixed count of digits -/

@[simp] theorem length_fixedDigits (w n : Nat) : (fixedDigits w n).length = w := by
  induction w generalizing n with
  | zero => rfl
  | succ w ih => simp [fixedDigits, ih]

theorem isDigit_of_mem_fixedDigits {w n : Nat} {c : UInt8} (h : c ∈ fixedDigits w n) : IsDigit c := by
  induction w generalizing n with
  | zero => cases h
  | succ w ih =>
    rcases List.mem_append.1 h with h | h
    · exact ih h
    · rw [List.mem_singleton.1 h]
      exact isDigit_digit (Nat.mod_lt _ (by decide))

theorem ofDigits_fixedDigits (w n : Nat) : ofDigits (fixedDigits w n) = n % 10 ^ w := by
  induction w generalizing n with
  | zero => simp [fixedDigits, ofDigits, Nat.mod_one]
  | succ w ih =>
    rw [fixedDigits, ofDigits_concat, ih, digitVal_digit (Nat.mod_lt _ (by decide)), Nat.pow_succ', Nat.mod_mul]
    omega

/-- A text of digits is that of its number. -/
theorem fixedDigits_ofDigits {s : List UInt8} (h : ∀ c ∈ s, IsDigit c) : fixedDigits s.length (ofDigits s) = s := by
  induction s using List.reverseRecOn with
  | nil => rfl
  | append_singleton s c ih =>
    have hc := h c (by simp)
    have hlt := digitVal_lt hc
    have hdiv : (ofDigits s * 10 + digitVal c) / 10 = ofDigits s := by omega
    have hmod : (ofDigits s * 10 + digitVal c) % 10 = digitVal c := by omega
    rw [ofDigits_concat, List.length_append, List.length_singleton, fixedDigits, hdiv, hmod, digit_digitVal hc,
      ih fun d hd => h d (List.mem_append_left _ hd)]

theorem ofDigits_fixedDigits_of_lt {w n : Nat} (h : n < 10 ^ w) : ofDigits (fixedDigits w n) = n := by
  rw [ofDigits_fixedDigits, Nat.mod_eq_of_lt h]

theorem fixedDigits_inj {w n m : Nat} (hn : n < 10 ^ w) (hm : m < 10 ^ w) (h : fixedDigits w n = fixedDigits w m) :
    n = m := by
  rw [← ofDigits_fixedDigits_of_lt hn, h, ofDigits_fixedDigits_of_lt hm]

/-! ## The order of texts -/

/-- Texts are compared by their first parts, and then by the others. -/
theorem append_lt_append_iff {a a' b b' : List UInt8} (h : a.length = a'.length) :
    a ++ b < a' ++ b' ↔ a < a' ∨ a = a' ∧ b < b' := by
  induction a generalizing a' with
  | nil =>
    have ha' : a' = [] := List.length_eq_zero_iff.1 h.symm
    simp [ha']
  | cons x a ih =>
    obtain ⟨y, a', rfl⟩ := List.exists_cons_of_length_eq_add_one h.symm
    have ih' := @ih a' (by simpa using h)
    simp only [List.cons_append, List.cons_lt_cons_iff, ih', List.cons.injEq]
    tauto

theorem digit_lt_digit_iff {d e : Nat} (hd : d < 10) (he : e < 10) : digit d < digit e ↔ d < e := by
  rw [UInt8.lt_iff_toNat_lt, toNat_digit hd, toNat_digit he]
  omega

/-- With a fixed count of digits the order of the texts is that of the numbers. -/
theorem fixedDigits_lt_iff {w n m : Nat} (hn : n < 10 ^ w) (hm : m < 10 ^ w) :
    fixedDigits w n < fixedDigits w m ↔ n < m := by
  induction w generalizing n m with
  | zero =>
    simp only [Nat.pow_zero] at hn hm
    simp [fixedDigits]
    omega
  | succ w ih =>
    rw [Nat.pow_succ] at hn hm
    have hn' : n / 10 < 10 ^ w := by omega
    have hm' : m / 10 < 10 ^ w := by omega
    have hd := digit_lt_digit_iff (Nat.mod_lt n (show 0 < 10 by decide)) (Nat.mod_lt m (show 0 < 10 by decide))
    have heq : fixedDigits w (n / 10) = fixedDigits w (m / 10) ↔ n / 10 = m / 10 :=
      ⟨fixedDigits_inj hn' hm', fun h => by rw [h]⟩
    rw [fixedDigits, fixedDigits, append_lt_append_iff (by simp), ih hn' hm', heq, List.cons_lt_cons_iff, hd]
    simp only [List.not_lt_nil, and_false, or_false]
    omega

/-! ## Without leading zeros -/

/-- The digits of a number, the highest one not zero unless it is the only one. -/
def decimal (n : Nat) : List UInt8 := if n < 10 then [digit n] else decimal (n / 10) ++ [digit (n % 10)]

theorem decimal_of_lt {n : Nat} (h : n < 10) : decimal n = [digit n] := by
  rw [decimal, if_pos h]

theorem decimal_of_le {n : Nat} (h : 10 ≤ n) : decimal n = decimal (n / 10) ++ [digit (n % 10)] := by
  rw [decimal, if_neg (by omega)]

theorem decimal_ne_nil (n : Nat) : decimal n ≠ [] := by
  by_cases h : n < 10
  · simp [decimal_of_lt h]
  · simp [decimal_of_le (Nat.le_of_not_lt h)]

theorem isDigit_of_mem_decimal {n : Nat} {c : UInt8} (h : c ∈ decimal n) : IsDigit c := by
  induction n using Nat.strongRecOn with
  | _ n ih =>
    by_cases hn : n < 10
    · rw [decimal_of_lt hn, List.mem_singleton] at h
      rw [h]
      exact isDigit_digit hn
    · rw [decimal_of_le (Nat.le_of_not_lt hn)] at h
      rcases List.mem_append.1 h with h | h
      · exact ih (n / 10) (by omega) h
      · rw [List.mem_singleton.1 h]
        exact isDigit_digit (Nat.mod_lt _ (by decide))

theorem ofDigits_decimal (n : Nat) : ofDigits (decimal n) = n := by
  induction n using Nat.strongRecOn with
  | _ n ih =>
    by_cases hn : n < 10
    · rw [decimal_of_lt hn, ← List.nil_append [digit n], ofDigits_concat, digitVal_digit hn]
      simp [ofDigits]
    · rw [decimal_of_le (Nat.le_of_not_lt hn), ofDigits_concat, ih (n / 10) (by omega),
        digitVal_digit (Nat.mod_lt _ (by decide))]
      omega

/-- As many digits as the number has, as a power of ten. -/
theorem length_decimal_le_iff {n w : Nat} (hw : 0 < w) : (decimal n).length ≤ w ↔ n < 10 ^ w := by
  induction w generalizing n with
  | zero => cases hw
  | succ w ih =>
    by_cases hn : n < 10
    · rw [decimal_of_lt hn, List.length_singleton]
      have hpow : 10 ≤ 10 ^ (w + 1) := by
        rw [Nat.pow_succ]
        have := Nat.pos_of_neZero (10 ^ w)
        omega
      omega
    · rw [decimal_of_le (Nat.le_of_not_lt hn), List.length_append, List.length_singleton, Nat.add_le_add_iff_right,
        Nat.pow_succ]
      by_cases hw' : w = 0
      · subst hw'
        have hne := List.length_pos_iff.2 (decimal_ne_nil (n / 10))
        omega
      · rw [ih (Nat.pos_of_ne_zero hw')]
        omega

/-- Padded with zeros a number has its fixed count of digits. -/
theorem replicate_append_decimal {n w : Nat} (hw : 0 < w) (h : n < 10 ^ w) :
    List.replicate (w - (decimal n).length) 48 ++ decimal n = fixedDigits w n := by
  have hlen := (length_decimal_le_iff hw).2 h
  have hdig : ∀ c ∈ List.replicate (w - (decimal n).length) (48 : UInt8) ++ decimal n, IsDigit c := by
    intro c hc
    rcases List.mem_append.1 hc with hc | hc
    · rw [List.eq_of_mem_replicate hc]
      decide
    · exact isDigit_of_mem_decimal hc
  have hzero : ∀ k, ofDigits (List.replicate k (48 : UInt8)) = 0 := by
    intro k
    induction k with
    | zero => rfl
    | succ k ih => rw [List.replicate_succ', ofDigits_concat, ih]; rfl
  have hval : ofDigits (List.replicate (w - (decimal n).length) 48 ++ decimal n) = n := by
    rw [ofDigits_append, hzero, ofDigits_decimal]
    omega
  have hw' : (List.replicate (w - (decimal n).length) (48 : UInt8) ++ decimal n).length = w := by
    rw [List.length_append, List.length_replicate]
    omega
  have h' := fixedDigits_ofDigits hdig
  rw [hval, hw'] at h'
  exact h'.symm

end Rmdb.Lib
