import Mathlib

/-!
# Integers in doubles

Over the model of the binary format of 64 bits, what it does with integers:

- `round`: the integer that a double holds for another one, which is the nearest of 53 significant bits;
- `Holds` and `IsInt`: a double is an integer; `holds_normalize`, `Holds.add` and `Holds.toInt` say what a conversion
  from an integer, a sum and a conversion back give;
- `sumFrom` and `errorFrom`: integers that are added up in a double, and by how much the roundings change their sum;
  `isInt_foldl` is for any number of them.
-/

namespace Rmdb.Lib.Binary64

open Float.Model Float.Model.UnpackedFloat

/-! ## Mantissas -/

/-- `m / 2 ^ k` to the nearest number, to the even one of two. -/
def roundShift (m k : Nat) : Nat :=
  if 2 ^ k < 2 * (m % 2 ^ k) ∨ 2 * (m % 2 ^ k) = 2 ^ k ∧ m / 2 ^ k % 2 = 1 then m / 2 ^ k + 1 else m / 2 ^ k

/-- What is left of a mantissa, and the two bits that say how far it is from it. -/
structure Shifted (em : ExtendedMantissa) (m k : Nat) : Prop where
  mantissa : em.mantissa = m / 2 ^ k
  roundBit : em.roundBit = decide (2 ^ k ≤ 2 * (m % 2 ^ k))
  stickyBit : em.stickyBit = decide (m % 2 ^ k ≠ 0 ∧ 2 * (m % 2 ^ k) ≠ 2 ^ k)

theorem shifted_zero (m : Nat) : Shifted (.ofMantissaAndAccuracy m .exact) m 0 := by
  constructor <;> simp [ExtendedMantissa.ofMantissaAndAccuracy, Nat.mod_one]

theorem Shifted.shiftRightOne {em : ExtendedMantissa} {m k : Nat} (h : Shifted em m k) :
    Shifted em.shiftRightOne m (k + 1) := by
  obtain ⟨hm, hr, hs⟩ := h
  have hpow : 0 < 2 ^ k := Nat.two_pow_pos k
  have hlt : m % 2 ^ k < 2 ^ k := Nat.mod_lt _ hpow
  have hmod : m % 2 ^ (k + 1) = m % 2 ^ k + 2 ^ k * (m / 2 ^ k % 2) := Nat.mod_pow_succ
  have hdiv : m / 2 ^ (k + 1) = m / 2 ^ k / 2 := by rw [Nat.pow_succ, Nat.div_div_eq_div_mul]
  have hbit := Nat.mod_two_eq_zero_or_one (m / 2 ^ k)
  refine ⟨?_, ?_, ?_⟩
  · rw [ExtendedMantissa.shiftRightOne, hm, hdiv]
  · show (em.mantissa % 2 != 0) = _
    rw [hm, hmod, Nat.pow_succ]
    rcases hbit with hb | hb <;> simp [hb] <;> omega
  · show (em.roundBit || em.stickyBit) = _
    rw [hr, hs, hmod, Nat.pow_succ]
    rcases hbit with hb | hb <;> simp only [hb, Nat.mul_zero, Nat.mul_one, Nat.add_zero, ← Bool.decide_or] <;>
      congr 1 <;> apply propext <;> omega

theorem shifted_shiftRight (m : Nat) : ∀ k, Shifted (ExtendedMantissa.ofMantissaAndAccuracy m .exact >>> k) m k
  | 0 => shifted_zero m
  | k + 1 => (shifted_shiftRight m k).shiftRightOne

theorem Shifted.roundedMantissa {em : ExtendedMantissa} {m k : Nat} (h : Shifted em m k) :
    em.roundedMantissa = roundShift m k := by
  obtain ⟨q, b, s⟩ := em
  obtain ⟨rfl, rfl, rfl⟩ := h
  have hpow : 0 < 2 ^ k := Nat.two_pow_pos k
  have hbit := Nat.mod_two_eq_zero_or_one (m / 2 ^ k)
  unfold roundShift
  generalize m / 2 ^ k = q at *
  generalize m % 2 ^ k = r at *
  generalize 2 ^ k = p at *
  by_cases hhalf : p ≤ 2 * r
  · by_cases hrest : r ≠ 0 ∧ 2 * r ≠ p
    · rw [decide_eq_true hhalf, decide_eq_true hrest, if_pos (by omega)]
      rfl
    · rw [decide_eq_true hhalf, decide_eq_false hrest]
      show q + q % 2 = _
      rcases hbit with hb | hb
      · rw [hb, if_neg (by omega), Nat.add_zero]
      · rw [hb, if_pos (by omega)]
  · by_cases hrest : r ≠ 0 ∧ 2 * r ≠ p
    · rw [decide_eq_false hhalf, decide_eq_true hrest, if_neg (by omega)]
      rfl
    · rw [decide_eq_false hhalf, decide_eq_false hrest, if_neg (by omega)]
      rfl

/-- The bits of the mantissa that are dropped. -/
theorem roundShift_mul_pow (m j k : Nat) : roundShift (m * 2 ^ j) (k + j) = roundShift m k := by
  have hpow : 0 < 2 ^ j := Nat.two_pow_pos j
  have hdiv : m * 2 ^ j / 2 ^ (k + j) = m / 2 ^ k := by rw [Nat.pow_add, Nat.mul_div_mul_right _ _ hpow]
  have hmod : m * 2 ^ j % 2 ^ (k + j) = m % 2 ^ k * 2 ^ j := by rw [Nat.pow_add, Nat.mul_mod_mul_right]
  simp only [roundShift, hdiv, hmod]
  simp only [Nat.pow_add, ← Nat.mul_assoc, Nat.mul_lt_mul_right hpow, Nat.mul_left_inj hpow.ne']

theorem roundShift_zero (m : Nat) : roundShift m 0 = m := by
  simp [roundShift, Nat.mod_one]

theorem roundShift_le {m k b : Nat} (h : m < b * 2 ^ k) : roundShift m k ≤ b := by
  have hdiv : m / 2 ^ k < b := (Nat.div_lt_iff_lt_mul (Nat.two_pow_pos k)).2 h
  unfold roundShift
  split <;> omega

theorem le_roundShift {m k a : Nat} (h : a * 2 ^ k ≤ m) : a ≤ roundShift m k := by
  have hdiv : a ≤ m / 2 ^ k := (Nat.le_div_iff_mul_le (Nat.two_pow_pos k)).2 h
  unfold roundShift
  split <;> omega

/-! ## Rounding -/

/-- The 53 bits of a number that are kept. -/
def significand (m : Nat) : Nat := roundShift (m * 2 ^ 52) m.log2

theorem log2_mul_two_pow {m : Nat} (hm : 0 < m) (k : Nat) : (m * 2 ^ k).log2 = m.log2 + k := by
  have hpow : 0 < 2 ^ k := Nat.two_pow_pos k
  obtain ⟨h1, h2⟩ := (Nat.log2_eq_iff hm.ne').1 rfl
  refine (Nat.log2_eq_iff (Nat.mul_pos hm hpow).ne').2 ⟨?_, ?_⟩
  · rw [Nat.pow_add]
    exact Nat.mul_le_mul_right _ h1
  · rw [Nat.add_right_comm, Nat.pow_add]
    exact Nat.mul_lt_mul_of_pos_right h2 hpow

theorem significand_mul_two_pow {m : Nat} (hm : 0 < m) (k : Nat) : significand (m * 2 ^ k) = significand m := by
  rw [significand, log2_mul_two_pow hm, Nat.mul_right_comm, roundShift_mul_pow]
  rfl

theorem le_significand {m : Nat} (hm : 0 < m) : 2 ^ 52 ≤ significand m := by
  refine le_roundShift ?_
  rw [Nat.mul_comm]
  exact Nat.mul_le_mul_right _ (Nat.log2_self_le hm.ne')

theorem significand_le {m : Nat} : significand m ≤ 2 ^ 53 := by
  refine roundShift_le ?_
  have hlt : m < 2 ^ (m.log2 + 1) := Nat.lt_log2_self
  rw [Nat.pow_succ] at hlt
  omega

/-- The double with this significand, which may be one bit too long. -/
def ofSignificand (s : Sign) (m : Nat) (e : Int) : UnpackedFloat :=
  if m = 2 ^ 53 then .finite s (2 ^ 52) (e + 1) (by decide)
  else if h : 0 < m then .finite s m e h else .zero s

theorem targetExponent_eq {m : Nat} {e t : Int} (ht : m.log2 + e - 52 = t) (hmin : -1074 ≤ t) :
    Format.binary64.targetExponent (totalExponent m e) = t := by
  simp only [Format.targetExponent, totalExponent, Format.mantissaBits, Format.minExponent]
  omega

/-- How a double is rounded. -/
theorem round_eq (s : Sign) {m : Nat} (hm : 0 < m) {e t : Int} (ht : m.log2 + e - 52 = t) (hmin : -1074 ≤ t) :
    UnpackedFloat.round .binary64 s m e = ofSignificand s (significand m) t := by
  -- the mantissa is made 53 bits long, and then cut to 53 bits
  let d := 52 - m.log2
  let k := m.log2 - 52
  have hdec : decreaseExponent m e t = (m * 2 ^ d, e - d) := by
    have hd : (e - t).toNat = d := by omega
    simp only [decreaseExponent, hd, Nat.shiftLeft_eq]
  have htarget : Format.binary64.targetExponent (totalExponent (m * 2 ^ d) (e - d)) = t := by
    refine targetExponent_eq ?_ hmin
    rw [log2_mul_two_pow hm]
    omega
  have hshift : shiftToTargetExponent .binary64 (m * 2 ^ d) (e - d) .exact =
      (ExtendedMantissa.ofMantissaAndAccuracy (m * 2 ^ d) .exact >>> k, t) := by
    have hk : (t - (e - d)).toNat = k := by omega
    have hback : e - d + (k : Int) = t := by omega
    simp only [shiftToTargetExponent, htarget, shiftToExponent, hk, hback]
  have hround : (ExtendedMantissa.ofMantissaAndAccuracy (m * 2 ^ d) .exact >>> k).roundedMantissa = significand m := by
    have hpow := roundShift_mul_pow (m * 2 ^ d) (52 - d) k
    rw [(shifted_shiftRight _ k).roundedMantissa, ← hpow, Nat.mul_assoc, ← Nat.pow_add, significand]
    congr 2
    · congr 1
      omega
    · omega
  have hlo := le_significand hm
  have hhi := significand_le (m := m)
  unfold UnpackedFloat.round roundWithAccuracy
  simp only [targetExponent_eq ht hmin, hdec, hshift, hround]
  by_cases hcarry : significand m = 2 ^ 53
  · have hnext : shiftToTargetExponent .binary64 (2 ^ 53) t .exact =
        (ExtendedMantissa.ofMantissaAndAccuracy (2 ^ 53) .exact >>> 1, t + 1) := by
      have htgt : Format.binary64.targetExponent (totalExponent (2 ^ 53) t) = t + 1 :=
        targetExponent_eq (by rw [Nat.log2_two_pow]; omega) (by omega)
      have hone : (t + 1 - t).toNat = 1 := by omega
      simp only [shiftToTargetExponent, htgt, shiftToExponent, hone, Int.natCast_one]
    have hmant : (ExtendedMantissa.ofMantissaAndAccuracy 9007199254740992 .exact >>> 1).mantissa = 4503599627370496 :=
      (shifted_shiftRight _ 1).mantissa
    simp only [hcarry, hnext, ofSignificand, if_true]
    simp only [Nat.reducePow, hmant, Nat.reduceEqDiff, dif_neg, not_false_eq_true]
  · have hlog : (significand m).log2 = 52 := (Nat.log2_eq_iff (by omega)).2 ⟨hlo, by omega⟩
    have hnext : shiftToTargetExponent .binary64 (significand m) t .exact =
        (ExtendedMantissa.ofMantissaAndAccuracy (significand m) .exact >>> 0, t) := by
      have htgt : Format.binary64.targetExponent (totalExponent (significand m) t) = t :=
        targetExponent_eq (by rw [hlog]; omega) hmin
      have hzero : (t - t).toNat = 0 := by omega
      simp only [shiftToTargetExponent, htgt, shiftToExponent, hzero, Int.natCast_zero, Int.add_zero]
    have hmant := (shifted_shiftRight (significand m) 0).mantissa
    rw [Nat.pow_zero, Nat.div_one] at hmant
    have hpos : 0 < significand m := by omega
    simp only [hnext, hmant, ofSignificand, hcarry, hpos, hpos.ne', dif_pos, dif_neg, if_false, not_false_eq_true]

/-- Only the number counts, not how it is written as a mantissa and an exponent. -/
theorem round_congr (s : Sign) {m n : Nat} (hm : 0 < m) (hn : 0 < n) {e f : Int} (j k : Nat)
    (hmul : m * 2 ^ j = n * 2 ^ k) (he : e - j = f - k) (hmin : -1022 ≤ m.log2 + e) :
    UnpackedFloat.round .binary64 s m e = UnpackedFloat.round .binary64 s n f := by
  have hlog : m.log2 + j = n.log2 + k := by rw [← log2_mul_two_pow hm, hmul, log2_mul_two_pow hn]
  have hsig : significand m = significand n := by
    rw [← significand_mul_two_pow hm j, hmul, significand_mul_two_pow hn]
  rw [round_eq s hm rfl (by omega), round_eq s hn rfl (by omega), hsig]
  congr 1
  omega

/-! ## Integers -/

/-- A number with its 53 leading bits, rounded to the nearest and to the even one of two. -/
def roundNat (n : Nat) : Nat := roundShift n (n.log2 - 52) * 2 ^ (n.log2 - 52)

/-- The number that a double holds for this one. -/
def round (n : Int) : Int := if n < 0 then -roundNat n.natAbs else roundNat n.natAbs

theorem roundNat_mul (n : Nat) : roundNat n * 2 ^ 52 = significand n * 2 ^ n.log2 := by
  unfold roundNat significand
  by_cases hlog : 52 ≤ n.log2
  · have hsplit : n.log2 = n.log2 - 52 + 52 := by omega
    have hsig := roundShift_mul_pow n 52 (n.log2 - 52)
    rw [← hsplit] at hsig
    rw [hsig, Nat.mul_assoc, ← Nat.pow_add, ← hsplit]
  · have hzero : n.log2 - 52 = 0 := by omega
    have hsplit : n * 2 ^ 52 = n * 2 ^ (52 - n.log2) * 2 ^ n.log2 := by
      rw [Nat.mul_assoc, ← Nat.pow_add, Nat.sub_add_cancel (by omega)]
    have hsig := roundShift_mul_pow (n * 2 ^ (52 - n.log2)) n.log2 0
    rw [Nat.zero_add, roundShift_zero] at hsig
    rw [hzero, roundShift_zero, Nat.pow_zero, Nat.mul_one, hsplit, hsig]

/-- A number of 53 significant bits. -/
theorem roundNat_of_eq {m n j : Nat} (hlo : 2 ^ 52 ≤ m) (hhi : m < 2 ^ 53) (heq : m * 2 ^ j = n * 2 ^ 52) :
    n.log2 = j ∧ roundNat n = n := by
  have hm : 0 < m := by omega
  have hn : 0 < n := by
    have hpos : 0 < m * 2 ^ j := Nat.mul_pos hm (Nat.two_pow_pos j)
    rw [heq] at hpos
    exact Nat.pos_of_mul_pos_right hpos
  have hlogm : m.log2 = 52 := (Nat.log2_eq_iff hm.ne').2 ⟨hlo, hhi⟩
  have hlog : m.log2 + j = n.log2 + 52 := by rw [← log2_mul_two_pow hm, heq, log2_mul_two_pow hn]
  have hsig : significand n = m := by
    have hself := roundShift_mul_pow m 52 0
    rw [roundShift_zero] at hself
    rw [← significand_mul_two_pow hn 52, ← heq, significand_mul_two_pow hm, significand, hlogm]
    exact hself
  have hnj : n.log2 = j := by omega
  refine ⟨hnj, ?_⟩
  have hmul := roundNat_mul n
  rw [hsig, hnj, heq] at hmul
  exact Nat.eq_of_mul_eq_mul_right (by decide) hmul

/-- The double, taken apart, is this integer. -/
inductive Holds : UnpackedFloat → Int → Prop
  | zero : Holds (.zero .positive) 0
  | finite {s : Sign} {m j n : Nat} (h : 0 < m) (hlo : 2 ^ 52 ≤ m) (hhi : m < 2 ^ 53) (hj : j ≤ 1023)
      (heq : m * 2 ^ j = n * 2 ^ 52) : Holds (.finite s m (j - 52) h) (s.apply n)

@[simp] theorem round_zero : round 0 = 0 := by decide

theorem round_natCast (n : Nat) : round n = roundNat n := by
  rw [round, if_neg (by omega), Int.natAbs_natCast]

theorem round_neg_natCast (n : Nat) : round (-n) = -roundNat n := by
  rcases Nat.eq_zero_or_pos n with rfl | hn
  · decide
  · rw [round, if_pos (by omega), Int.natAbs_neg, Int.natAbs_natCast]

theorem round_apply (s : Sign) (n : Nat) : round (s.apply n) = s.apply (roundNat n) := by
  cases s with
  | positive => exact round_natCast n
  | negative => exact round_neg_natCast n

/-- What a double holds is not rounded again. -/
theorem Holds.round_eq {u : UnpackedFloat} {n : Int} (h : Holds u n) : round n = n := by
  cases h with
  | zero => exact round_zero
  | finite _ hlo hhi _ heq => rw [round_apply, (roundNat_of_eq hlo hhi heq).2]

theorem holds_round (s : Sign) {n : Nat} (hn : 0 < n) (hlog : n.log2 < 1023) :
    Holds (UnpackedFloat.round .binary64 s n 0) (s.apply (roundNat n)) := by
  have hlo := le_significand hn
  have hhi := significand_le (m := n)
  have hmul := roundNat_mul n
  rw [Binary64.round_eq s hn (show (n.log2 : Int) + 0 - 52 = n.log2 - 52 by omega) (by omega), ofSignificand]
  by_cases hcarry : significand n = 2 ^ 53
  · have hexp : (n.log2 : Int) - 52 + 1 = (n.log2 + 1 : Nat) - 52 := by omega
    rw [if_pos hcarry, hexp]
    refine .finite _ (by decide) (by decide) (by omega) ?_
    rw [hmul, hcarry, Nat.pow_succ]
    omega
  · rw [if_neg hcarry, dif_pos (by omega)]
    exact .finite _ hlo (by omega) (by omega) hmul.symm

/-- An integer as a double. -/
theorem holds_normalize {n : Int} (hlog : n.natAbs.log2 < 1023) :
    Holds (UnpackedFloat.normalize .binary64 n 0 .positive) (round n) := by
  unfold UnpackedFloat.normalize
  rcases Int.lt_trichotomy n 0 with hlt | rfl | hgt
  · have habs : (-n).toNat = n.natAbs := by omega
    have hn : n = Sign.negative.apply n.natAbs := by
      simp only [Sign.apply]
      omega
    rw [show compare n 0 = .lt from Int.compare_eq_lt.2 hlt]
    conv => rhs; rw [hn, round_apply]
    rw [habs]
    exact holds_round _ (by omega) hlog
  · exact .zero
  · have habs : n.toNat = n.natAbs := by omega
    have hn : n = Sign.positive.apply n.natAbs := by
      simp only [Sign.apply]
      omega
    rw [show compare n 0 = .gt from Int.compare_eq_gt.2 hgt]
    conv => rhs; rw [hn, round_apply]
    rw [habs]
    exact holds_round _ (by omega) hlog

theorem normalize_congr {m n : Int} {j : Nat} (h : m * 2 ^ j = n * 2 ^ 52) :
    UnpackedFloat.normalize .binary64 m (j - 52) .positive = UnpackedFloat.normalize .binary64 n 0 .positive := by
  have hpow : (0 : Int) < 2 ^ j := Int.pow_pos (by decide)
  have habs : m.natAbs * 2 ^ j = n.natAbs * 2 ^ 52 := by
    have heq := congrArg Int.natAbs h
    rw [Int.natAbs_mul, Int.natAbs_mul, Int.natAbs_pow, Int.natAbs_pow] at heq
    exact heq
  unfold UnpackedFloat.normalize
  rcases Int.lt_trichotomy m 0 with hlt | rfl | hgt
  · have hneg : n < 0 := by
      have := Int.mul_neg_of_neg_of_pos hlt hpow
      omega
    rw [show compare m 0 = .lt from Int.compare_eq_lt.2 hlt, show compare n 0 = .lt from Int.compare_eq_lt.2 hneg]
    have h1 : (-m).toNat = m.natAbs := by omega
    have h2 : (-n).toNat = n.natAbs := by omega
    simp only [h1, h2]
    exact round_congr _ (by omega) (by omega) j 52 habs (by omega) (by omega)
  · have hzero : n = 0 := by omega
    rw [hzero]
    rfl
  · have hpos : 0 < n := by
      have := Int.mul_pos hgt hpow
      omega
    rw [show compare m 0 = .gt from Int.compare_eq_gt.2 hgt, show compare n 0 = .gt from Int.compare_eq_gt.2 hpos]
    have h1 : m.toNat = m.natAbs := by omega
    have h2 : n.toNat = n.natAbs := by omega
    simp only [h1, h2]
    exact round_congr _ (by omega) (by omega) j 52 habs (by omega) (by omega)

theorem apply_mul (s : Sign) (n : Int) (c : Int) : s.apply n * c = s.apply (n * c) := by
  cases s with
  | positive => rfl
  | negative => exact Int.neg_mul n c

/-- **A sum of doubles is the sum, rounded.** -/
theorem Holds.add {u v : UnpackedFloat} {a b : Int} (hu : Holds u a) (hv : Holds v b)
    (hlog : (a + b).natAbs.log2 < 1023) : Holds (UnpackedFloat.add .binary64 u v) (round (a + b)) := by
  cases hu with
  | zero =>
    cases hv with
    | zero => exact .zero
    | finite h hlo hhi hj heq =>
      rw [Int.zero_add, (Holds.finite h hlo hhi hj heq).round_eq]
      exact .finite h hlo hhi hj heq
  | @finite s₁ m₁ j₁ n₁ h₁ hlo₁ hhi₁ hj₁ heq₁ =>
    cases hv with
    | zero =>
      rw [Int.add_zero, (Holds.finite h₁ hlo₁ hhi₁ hj₁ heq₁).round_eq]
      exact .finite h₁ hlo₁ hhi₁ hj₁ heq₁
    | @finite s₂ m₂ j₂ n₂ h₂ hlo₂ hhi₂ hj₂ heq₂ =>
      have hmin : min ((j₁ : Int) - 52) (j₂ - 52) = (min j₁ j₂ : Nat) - 52 := by omega
      have hd₁ : ((j₁ : Int) - 52 - ((min j₁ j₂ : Nat) - 52)).toNat = j₁ - min j₁ j₂ := by omega
      have hd₂ : ((j₂ : Int) - 52 - ((min j₁ j₂ : Nat) - 52)).toNat = j₂ - min j₁ j₂ := by omega
      simp only [UnpackedFloat.add, hmin, decreaseExponent, hd₁, hd₂, Nat.shiftLeft_eq]
      have hback : ∀ {m j n : Nat} (s : Sign), min j₁ j₂ ≤ j → m * 2 ^ j = n * 2 ^ 52 →
          s.apply (m * 2 ^ (j - min j₁ j₂) : Nat) * 2 ^ min j₁ j₂ = s.apply n * 2 ^ 52 := by
        intro m j n s hle heq
        have hnat : m * 2 ^ (j - min j₁ j₂) * 2 ^ min j₁ j₂ = n * 2 ^ 52 := by
          rw [Nat.mul_assoc, ← Nat.pow_add, Nat.sub_add_cancel hle, heq]
        rw [apply_mul, apply_mul]
        congr 1
        exact_mod_cast hnat
      rw [normalize_congr (n := s₁.apply n₁ + s₂.apply n₂)]
      · exact holds_normalize hlog
      · rw [Int.add_mul, Int.add_mul, hback s₁ (Nat.min_le_left _ _) heq₁,
          hback s₂ (Nat.min_le_right _ _) heq₂]

/-- The cast of a double to an integer. -/
theorem Holds.toInt {u : UnpackedFloat} {n : Int} (h : Holds u n) (lo hi : Int) : u.toInt lo hi = n := by
  cases h with
  | zero => rfl
  | @finite s m j n h hlo hhi hj heq =>
    have key : ∀ {M k : Nat}, M = n * 2 ^ k →
        (ExtendedMantissa.ofMantissaAndAccuracy M .exact >>> k).mantissa = n := by
      intro M k hM
      rw [(shifted_shiftRight M k).mantissa, hM, Nat.mul_div_cancel _ (Nat.two_pow_pos k)]
    simp only [UnpackedFloat.toInt, roundToInt, decreaseExponent, shiftToExponent, Nat.shiftLeft_eq]
    congr 2
    apply key
    by_cases hle : j ≤ 52
    · have h1 : ((j : Int) - 52 - 0).toNat = 0 := by omega
      have h2 : (0 - ((j : Int) - 52 - (0 : Nat))).toNat = 52 - j := by omega
      rw [h1, h2, Nat.pow_zero, Nat.mul_one]
      refine Nat.eq_of_mul_eq_mul_right (Nat.two_pow_pos j) ?_
      rw [heq, Nat.mul_assoc, ← Nat.pow_add, Nat.sub_add_cancel hle]
    · have h1 : ((j : Int) - 52 - 0).toNat = j - 52 := by omega
      have h2 : (0 - ((j : Int) - 52 - (j - 52 : Nat))).toNat = 0 := by omega
      rw [h1, h2, Nat.pow_zero, Nat.mul_one]
      refine Nat.eq_of_mul_eq_mul_right (Nat.two_pow_pos 52) ?_
      rw [← heq, Nat.mul_assoc, ← Nat.pow_add, Nat.sub_add_cancel (by omega)]

/-! ## The bits of a double -/

/-- The bits of a double give it back. -/
theorem Holds.unpack_pack {u : UnpackedFloat} {n : Int} (h : Holds u n) :
    UnpackedFloat.unpack .binary64 (UnpackedFloat.pack .binary64 u) = u := by
  cases h with
  | zero => rfl
  | @finite s m j n h hlo hhi hj heq =>
    have hlog : m.log2 = 52 := (Nat.log2_eq_iff h.ne').2 ⟨hlo, hhi⟩
    have hbias : ((j : Int) - 52 + (Format.exponentBias .binary64 : Nat) + (52 : Nat)).toNat = j + 1023 := by
      show ((j : Int) - 52 + 1023 + 52).toNat = _
      omega
    have hpack : UnpackedFloat.pack .binary64 (.finite s m (j - 52) h) =
        packComponents .binary64 s (BitVec.ofNat _ (j + 1023)) (BitVec.ofNat _ m) := by
      unfold UnpackedFloat.pack
      simp only [hbias, hlog]
      have hfits : ¬2 ^ Format.exponentBits .binary64 ≤ j + 1023 + 1 := by
        show ¬2048 ≤ j + 1023 + 1
        omega
      rw [if_neg hfits, if_pos (show (52 : Nat) + 1 = Format.mantissaBits .binary64 from rfl)]
    have hexp : (BitVec.ofNat 11 (j + 1023)).toNat = j + 1023 := by
      rw [BitVec.toNat_ofNat, Nat.mod_eq_of_lt (by omega)]
    have hne : BitVec.ofNat 11 (j + 1023) ≠ -1#11 ∧ BitVec.ofNat 11 (j + 1023) ≠ 0#11 := by
      constructor <;> intro heq <;> have hnat := congrArg BitVec.toNat heq <;> rw [hexp] at hnat
      · have hmax : (-1#11).toNat = 2047 := by decide
        omega
      · have hmin : (0#11).toNat = 0 := rfl
        omega
    have hmant : (1#1 ++ BitVec.ofNat 52 m).toNat = m := by
      rw [BitVec.toNat_append, ← Nat.shiftLeft_add_eq_or_of_lt (BitVec.isLt _), BitVec.toNat_ofNat,
        BitVec.toNat_ofNat]
      show 2 ^ 52 + m % 2 ^ 52 = m
      omega
    rw [hpack]
    unfold UnpackedFloat.unpack
    simp only [unpackMantissa_packComponents, unpackExponent_packComponents, unpackSign_packComponents,
      Sign.ofBitVec_toBitVec, hexp, hne.1, hne.2, if_false, hmant]
    have hbias' : Format.exponentBias .binary64 = 1023 := rfl
    have hback : ((j + 1023 : Nat) : Int) - ((1023 : Nat) + (52 : Nat)) = j - 52 := by omega
    simp only [hbias', hback]

/-! ## Sums -/

/-- The double is this integer. -/
def IsInt (x : Float.Model) (n : Int) : Prop := Holds x.unpack n

theorem IsInt.isFinite {x : Float.Model} {n : Int} (h : IsInt x n) : x.isFinite = true := by
  unfold Float.Model.isFinite
  unfold IsInt at h
  generalize x.unpack = u at h
  cases h <;> rfl

theorem isInt_pack {u : UnpackedFloat} {n : Int} (h : Holds u n) : IsInt (Float.Model.pack u) n := by
  show Holds (UnpackedFloat.unpack .binary64 (UnpackedFloat.pack .binary64 u)) n
  rw [h.unpack_pack]
  exact h

theorem log2_lt_of_le {n k b : Nat} (h : n ≤ 2 ^ k) (hk : k < b) : n.log2 < b := by
  rcases Nat.eq_zero_or_pos n with rfl | hn
  · rw [Nat.log2_zero]
    omega
  · exact (Nat.log2_lt hn.ne').2 (Nat.lt_of_le_of_lt h (Nat.pow_lt_pow_right (by decide) hk))

theorem isInt_ofInt {n : Int} {k : Nat} (h : n.natAbs ≤ 2 ^ k) (hk : k < 1023) :
    IsInt (Float.Model.ofInt n) (round n) :=
  isInt_pack (holds_normalize (log2_lt_of_le h hk))

theorem IsInt.add {x y : Float.Model} {a b : Int} (hx : IsInt x a) (hy : IsInt y b) {k : Nat}
    (h : (a + b).natAbs ≤ 2 ^ k) (hk : k < 1023) : IsInt (x + y) (round (a + b)) :=
  isInt_pack (Holds.add hx hy (log2_lt_of_le h hk))

theorem roundNat_two_pow (k : Nat) : roundNat (2 ^ k) = 2 ^ k :=
  (roundNat_of_eq (m := 2 ^ 52) (j := k) (Nat.le_refl _) (by decide) (Nat.mul_comm _ _)).2

theorem roundNat_le {n k : Nat} (h : n ≤ 2 ^ k) : roundNat n ≤ 2 ^ k := by
  rcases Nat.eq_or_lt_of_le h with rfl | hlt
  · exact Nat.le_of_eq (roundNat_two_pow k)
  · rcases Nat.eq_zero_or_pos n with rfl | hn
    · exact Nat.zero_le _
    · have hlog : n.log2 < k := (Nat.log2_lt hn.ne').2 hlt
      have hpow : 2 ^ (n.log2 + 1) ≤ 2 ^ k := Nat.pow_le_pow_right (by decide) hlog
      have hmul := roundNat_mul n
      have hsig := Nat.mul_le_mul_right (2 ^ n.log2) (significand_le (m := n))
      rw [Nat.pow_succ] at hpow
      omega

/-- A number that is little more than a power of two is rounded down to it. -/
theorem roundNat_le_of_le_add {n k : Nat} (h : n ≤ 2 ^ (k + 53) + 2 ^ k) : roundNat n ≤ 2 ^ (k + 53) := by
  by_cases hle : n ≤ 2 ^ (k + 53)
  · exact roundNat_le hle
  · have hpow : 2 ^ (k + 53) = 2 ^ 52 * 2 ^ (k + 1) := by rw [← Nat.pow_add]; congr 1; omega
    have hsucc : 2 ^ (k + 1) = 2 ^ k * 2 := Nat.pow_succ 2 k
    have hpos : 0 < 2 ^ k := Nat.two_pow_pos k
    have hlog : n.log2 = k + 53 := by
      refine (Nat.log2_eq_iff (by omega)).2 ⟨by omega, ?_⟩
      rw [Nat.pow_succ]
      omega
    have hshift : n.log2 - 52 = k + 1 := by omega
    have hdiv : n / 2 ^ (k + 1) = 2 ^ 52 := by
      apply Nat.div_eq_of_lt_le <;> omega
    have hmod : 2 * (n % 2 ^ (k + 1)) ≤ 2 ^ (k + 1) := by
      have := Nat.div_add_mod n (2 ^ (k + 1))
      rw [hdiv] at this
      rw [Nat.mul_comm] at hpow
      omega
    rw [roundNat, hshift, roundShift, hdiv, if_neg (by omega), hpow]

theorem natAbs_round (n : Int) : (round n).natAbs = roundNat n.natAbs := by
  unfold round
  split <;> omega

theorem round_eq_self {n : Int} (h : roundNat n.natAbs = n.natAbs) : round n = n := by
  unfold round
  split <;> omega

theorem roundNat_mul_two_pow {n : Nat} (h : n < 2 ^ 53) (k : Nat) : roundNat (n * 2 ^ k) = n * 2 ^ k := by
  rcases Nat.eq_zero_or_pos n with rfl | hn
  · rw [Nat.zero_mul]
    decide
  · have hlog : n.log2 < 53 := (Nat.log2_lt hn.ne').2 h
    obtain ⟨hlo, hhi⟩ := (Nat.log2_eq_iff hn.ne').1 rfl
    have hpow : 2 ^ (52 - n.log2) * 2 ^ n.log2 = 2 ^ 52 := by rw [← Nat.pow_add]; congr 1; omega
    have hpos : 0 < 2 ^ (52 - n.log2) := Nat.two_pow_pos _
    refine (roundNat_of_eq (m := n * 2 ^ (52 - n.log2)) (j := n.log2 + k) ?_ ?_ ?_).2
    · rw [← hpow, Nat.mul_comm]
      exact Nat.mul_le_mul_right _ hlo
    · have htop : 2 ^ (n.log2 + 1) * 2 ^ (52 - n.log2) = 2 ^ 53 := by rw [← Nat.pow_add]; congr 1; omega
      rw [← htop]
      exact Nat.mul_lt_mul_of_pos_right hhi hpos
    · rw [Nat.mul_assoc, Nat.mul_assoc, ← Nat.pow_add, ← Nat.pow_add]
      congr 2
      omega

/-- Numbers of 53 significant bits are not rounded. -/
theorem round_mul_two_pow {n : Int} (h : n.natAbs < 2 ^ 53) (k : Nat) : round (n * 2 ^ k) = n * 2 ^ k := by
  refine round_eq_self ?_
  rw [Int.natAbs_mul, Int.natAbs_pow]
  exact roundNat_mul_two_pow h k

/-- Numbers that are added up in a double, one by one. -/
def sumFrom (acc : Int) : List Int → Int
  | [] => acc
  | v :: vs => sumFrom (round (acc + round v)) vs

/-- By how much the roundings change the sum. -/
def errorFrom (acc : Int) : List Int → Int
  | [] => 0
  | v :: vs => round (acc + round v) - (acc + v) + errorFrom (round (acc + round v)) vs

theorem sumFrom_eq : ∀ (acc : Int) (vs : List Int), sumFrom acc vs = acc + vs.sum + errorFrom acc vs
  | acc, [] => by simp [sumFrom, errorFrom]
  | acc, v :: vs => by
    rw [sumFrom, errorFrom, sumFrom_eq _ vs, List.sum_cons]
    omega

/-- Nothing is lost as long as the values and the sums on the way have 53 significant bits. -/
theorem errorFrom_eq_zero : ∀ {vs : List Int} {acc : Int}, (∀ v ∈ vs, round v = v) →
    (∀ l, l <+: vs → round (acc + l.sum) = acc + l.sum) → errorFrom acc vs = 0
  | [], _, _, _ => rfl
  | v :: vs, acc, hv, hsum => by
    have hstep : round (acc + round v) = acc + v := by
      have hone := hsum [v] (List.prefix_append [v] vs)
      rw [hv v List.mem_cons_self]
      simpa using hone
    rw [errorFrom, hstep, errorFrom_eq_zero (fun w hw => hv w (List.mem_cons_of_mem _ hw)) fun l hl => ?_]
    · omega
    · have hl' := hsum (v :: l) (List.cons_prefix_cons.2 ⟨rfl, hl⟩)
      rwa [List.sum_cons, ← Int.add_assoc] at hl'

/-- **What a double that values are added to holds**, for any number of them: it never overflows. -/
theorem isInt_foldl {k : Nat} (hk : k < 900) : ∀ {vs : List Int} {x : Float.Model} {acc : Int},
    (∀ v ∈ vs, v.natAbs ≤ 2 ^ k) → IsInt x acc → acc.natAbs ≤ 2 ^ (k + 53) →
    IsInt (vs.foldl (fun x v => x + Float.Model.ofInt v) x) (sumFrom acc vs)
  | [], _, _, _, h, _ => h
  | v :: vs, x, acc, hv, h, hacc => by
    have hpow : 2 ^ (k + 53) = 2 ^ k * 2 ^ 53 := Nat.pow_add 2 k 53
    have hsucc : 2 ^ (k + 54) = 2 ^ k * 2 ^ 54 := Nat.pow_add 2 k 54
    have hround : (round v).natAbs ≤ 2 ^ k := by
      rw [natAbs_round]
      exact roundNat_le (hv v List.mem_cons_self)
    have hsum : (acc + round v).natAbs ≤ 2 ^ (k + 53) + 2 ^ k := by omega
    have hnext : (round (acc + round v)).natAbs ≤ 2 ^ (k + 53) := by
      rw [natAbs_round]
      exact roundNat_le_of_le_add hsum
    have hadd := h.add (isInt_ofInt (hv v List.mem_cons_self) (by omega)) (k := k + 54) (by omega) (by omega)
    have hrest : ∀ w ∈ vs, w.natAbs ≤ 2 ^ k := fun w hw => hv w (List.mem_cons_of_mem _ hw)
    have hfold := isInt_foldl hk hrest hadd hnext
    exact hfold

end Rmdb.Lib.Binary64
