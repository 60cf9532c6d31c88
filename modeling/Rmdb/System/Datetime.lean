import Rmdb.Index.Key
import Rmdb.Lib.Calendar
import Rmdb.Lib.Decimal

/-!
# The codec of DATETIME

- `datetimeToStr` of `common.h`, with `zeroPadded` for the conversions of its `snprintf`;
- `DateTime.text` and `DateTime.encode`: the text of a date and its number;
- `parseDatetime_iff`: the texts that `parse_datetime` accepts are those of the dates from 1000 to 9999;
- `datetime_codec`: the accepted texts are written back, and their order is that of the numbers and of time.
-/

namespace Rmdb

open Lib

/-- `%0wd`. -/
def zeroPadded (w : Nat) (n : Int) : Bytes :=
  let sign : Bytes := if n < 0 then [45] else []
  let digits := decimal n.natAbs
  sign ++ List.replicate (w - (sign.length + digits.length)) 48 ++ digits

/-- `datetime_to_str`; the buffer holds 19 characters and the terminator. -/
def datetimeToStr (v : Int) : Bytes :=
  let second := v.tmod 100
  let v := v.tdiv 100
  let minute := v.tmod 100
  let v := v.tdiv 100
  let hour := v.tmod 100
  let v := v.tdiv 100
  let day := v.tmod 100
  let v := v.tdiv 100
  let month := v.tmod 100
  let v := v.tdiv 100
  let year := v.bmod (2 ^ 32)
  (zeroPadded 4 year ++ [45] ++ zeroPadded 2 month ++ [45] ++ zeroPadded 2 day ++ [32] ++ zeroPadded 2 hour ++ [58] ++
    zeroPadded 2 minute ++ [58] ++ zeroPadded 2 second).take 19

namespace Lib.DateTime

/-- `YYYY-MM-DD HH:MM:SS`. -/
def text (x : DateTime) : Bytes :=
  fixedDigits 4 x.year ++ [45] ++ fixedDigits 2 x.month ++ [45] ++ fixedDigits 2 x.day ++ [32] ++
    fixedDigits 2 x.hour ++ [58] ++ fixedDigits 2 x.minute ++ [58] ++ fixedDigits 2 x.second

/-- The number `YYYYMMDDHHMMSS`. -/
def encode (x : DateTime) : Nat :=
  ((((x.year * 100 + x.month) * 100 + x.day) * 100 + x.hour) * 100 + x.minute) * 100 + x.second

/-- The year has four digits, the first one not zero. -/
def InRange (x : DateTime) : Prop := 1000 ≤ x.year ∧ x.year ≤ 9999

end Lib.DateTime

/-! ## Reading digits -/

theorem foldlM_digitsAt {s A B C : Bytes} (n : Nat) (hs : s = A ++ B ++ C) (hB : ∀ c ∈ B, IsDigit c) :
    (List.range' A.length B.length).foldlM (fun n p => do
      let c ← s[p]?
      if 48 ≤ c ∧ c ≤ 57 then some (n * 10 + (c.toNat - 48)) else none) n =
        some (B.foldl (fun n c => n * 10 + digitVal c) n) := by
  induction B generalizing A n with
  | nil => rfl
  | cons b B ih =>
    have hb := hB b List.mem_cons_self
    have hget : s[A.length]? = some b := by
      rw [hs, List.append_assoc, List.getElem?_append_right (Nat.le_refl _)]
      simp
    have hih := ih (A := A ++ [b]) (n * 10 + digitVal b) (by rw [hs]; simp) fun c hc => hB c (List.mem_cons_of_mem _ hc)
    rw [List.length_cons, List.range'_succ, List.foldlM_cons, hget]
    rw [List.length_append, List.length_singleton] at hih
    simp only [Option.bind_eq_bind, Option.bind_some, if_pos (show 48 ≤ b ∧ b ≤ 57 from hb), List.foldl_cons]
    exact hih

/-- Digits are read as their number. -/
theorem digitsAt_eq {s A B C : Bytes} (hs : s = A ++ B ++ C) (hB : ∀ c ∈ B, IsDigit c) :
    digitsAt s (List.range' A.length B.length) = some (ofDigits B) := foldlM_digitsAt 0 hs hB

theorem isDigit_of_foldlM {s : Bytes} : ∀ {ps : List Nat} {n m : Nat}, ps.foldlM (fun n p => do
      let c ← s[p]?
      if 48 ≤ c ∧ c ≤ 57 then some (n * 10 + (c.toNat - 48)) else none) n = some m →
    ∀ p ∈ ps, ∃ c, s[p]? = some c ∧ IsDigit c
  | [], _, _, _ => by simp
  | p :: ps, n, m, h => by
    rw [List.foldlM_cons] at h
    obtain ⟨n', hn', h⟩ := Option.bind_eq_some_iff.1 h
    obtain ⟨c, hc, hif⟩ := Option.bind_eq_some_iff.1 hn'
    split at hif
    · next hdig =>
      intro q hq
      rcases List.mem_cons.1 hq with rfl | hq
      · exact ⟨c, hc, hdig⟩
      · exact isDigit_of_foldlM h q hq
    · cases hif

/-- What is read is a text of digits. -/
theorem of_digitsAt {s A B C : Bytes} {n : Nat} (hs : s = A ++ B ++ C)
    (h : digitsAt s (List.range' A.length B.length) = some n) : n < 10 ^ B.length ∧ B = fixedDigits B.length n := by
  have hB : ∀ c ∈ B, IsDigit c := by
    intro c hc
    obtain ⟨i, hi, rfl⟩ := List.getElem_of_mem hc
    have hmem : A.length + i ∈ List.range' A.length B.length := by
      rw [List.mem_range'_1]
      omega
    obtain ⟨c, hget, hc⟩ := isDigit_of_foldlM h _ hmem
    rw [hs, List.append_assoc, List.getElem?_append_right (Nat.le_add_right _ _), Nat.add_sub_cancel_left,
      List.getElem?_append_left hi, List.getElem?_eq_getElem hi] at hget
    cases hget
    exact hc
  rw [digitsAt_eq hs hB] at h
  cases h
  exact ⟨ofDigits_lt hB, (fixedDigits_ofDigits hB).symm⟩

/-! ## The accepted texts -/

theorem daysIn_eq (year : Nat) {month : Nat} (h : 1 ≤ month) (h' : month ≤ 12) :
    daysIn year month = monthLength year month := by
  have hleap : ((year % 4 = 0 ∧ year % 100 ≠ 0) ∨ year % 400 = 0) ↔ IsLeap year := by
    simp only [IsLeap, Nat.dvd_iff_mod_eq_zero, ne_eq]
  simp only [daysIn, hleap]
  have hm : month ∈ List.range' 1 12 := by
    rw [List.mem_range'_1]
    omega
  simp only [List.range', List.mem_cons, List.not_mem_nil, or_false] at hm
  rcases hm with rfl | rfl | rfl | rfl | rfl | rfl | rfl | rfl | rfl | rfl | rfl | rfl <;> simp [monthLength]

/-- The steps of `parse_datetime` that return. -/
theorem parseDatetime_eq_some {s : Bytes} {v : Int} : parseDatetime s = some v ↔ s.length = 19 ∧
    (s[4]? = some 45 ∧ s[7]? = some 45 ∧ s[10]? = some 32 ∧ s[13]? = some 58 ∧ s[16]? = some 58) ∧
    ∃ year month day hour minute second, digitsAt s (List.range' 0 4) = some year ∧
      digitsAt s (List.range' 5 2) = some month ∧ digitsAt s (List.range' 8 2) = some day ∧
      digitsAt s (List.range' 11 2) = some hour ∧ digitsAt s (List.range' 14 2) = some minute ∧
      digitsAt s (List.range' 17 2) = some second ∧ (1000 ≤ year ∧ year ≤ 9999) ∧ (1 ≤ month ∧ month ≤ 12) ∧
      (hour ≤ 23 ∧ minute ≤ 59 ∧ second ≤ 59) ∧ (1 ≤ day ∧ day ≤ daysIn year month) ∧
      v = ((((((year * 100 + month) * 100 + day) * 100 + hour) * 100 + minute) * 100 + second : Nat) : Int) := by
  have hpos : List.range' 0 4 = [0, 1, 2, 3] ∧ List.range' 5 2 = [5, 6] ∧ List.range' 8 2 = [8, 9] ∧
      List.range' 11 2 = [11, 12] ∧ List.range' 14 2 = [14, 15] ∧ List.range' 17 2 = [17, 18] := by decide
  simp only [parseDatetime, hpos, Option.bind_eq_bind, Option.bind_eq_some_iff, Option.pure_def, Option.some.injEq,
    Option.guard_eq_some', exists_const]
  constructor
  · rintro ⟨hlen, hsep, year, hy, month, hmo, day, hd, hour, hh, minute, hmi, second, hs, h1, h2, h3, h4, rfl⟩
    exact ⟨hlen, hsep, year, month, day, hour, minute, second, hy, hmo, hd, hh, hmi, hs, h1, h2, h3, h4, by push_cast; rfl⟩
  · rintro ⟨hlen, hsep, year, month, day, hour, minute, second, hy, hmo, hd, hh, hmi, hs, h1, h2, h3, h4, rfl⟩
    exact ⟨hlen, hsep, year, hy, month, hmo, day, hd, hour, hh, minute, hmi, second, hs, h1, h2, h3, h4, by push_cast; rfl⟩

/-- The six fields of a text between their separators. -/
def datetimeLayout (year month day hour minute second : Bytes) : Bytes :=
  year ++ [45] ++ month ++ [45] ++ day ++ [32] ++ hour ++ [58] ++ minute ++ [58] ++ second

theorem exists_datetimeLayout {s : Bytes} (hlen : s.length = 19) (hsep : s[4]? = some 45 ∧ s[7]? = some 45 ∧
    s[10]? = some 32 ∧ s[13]? = some 58 ∧ s[16]? = some 58) : ∃ a b c d e f, s = datetimeLayout a b c d e f ∧
      a.length = 4 ∧ b.length = 2 ∧ c.length = 2 ∧ d.length = 2 ∧ e.length = 2 ∧ f.length = 2 := by
  match s, hlen with
  | [y0, y1, y2, y3, s0, m0, m1, s1, d0, d1, s2, h0, h1, s3, i0, i1, s4, t0, t1], _ =>
    obtain ⟨hs0, hs1, hs2, hs3, hs4⟩ := hsep
    cases hs0
    cases hs1
    cases hs2
    cases hs3
    cases hs4
    exact ⟨[y0, y1, y2, y3], [m0, m1], [d0, d1], [h0, h1], [i0, i1], [t0, t1], rfl, rfl, rfl, rfl, rfl, rfl, rfl⟩

section layout
variable {a b c d e f s : Bytes} (hs : s = datetimeLayout a b c d e f) (ha : a.length = 4) (hb : b.length = 2)
  (hc : c.length = 2) (hd : d.length = 2) (he : e.length = 2) (hf : f.length = 2)
include hs ha hb hc hd he hf

theorem datetimeLayout_fixed : s.length = 19 ∧ s[4]? = some 45 ∧ s[7]? = some 45 ∧ s[10]? = some 32 ∧
    s[13]? = some 58 ∧ s[16]? = some 58 := by
  subst hs
  match a, b, c, d, e, f, ha, hb, hc, hd, he, hf with
  | [_, _, _, _], [_, _], [_, _], [_, _], [_, _], [_, _], _, _, _, _, _, _ => exact ⟨rfl, rfl, rfl, rfl, rfl, rfl⟩

omit hf in
/-- Each field with what stands before it. -/
theorem datetimeLayout_fields : ∃ A B C D E a' b' c' d' e', s = [] ++ a ++ a' ∧ s = A ++ b ++ b' ∧ s = B ++ c ++ c' ∧
    s = C ++ d ++ d' ∧ s = D ++ e ++ e' ∧ s = E ++ f ++ [] ∧ A.length = 5 ∧ B.length = 8 ∧ C.length = 11 ∧
    D.length = 14 ∧ E.length = 17 := by
  refine ⟨a ++ [45], a ++ [45] ++ b ++ [45], a ++ [45] ++ b ++ [45] ++ c ++ [32],
    a ++ [45] ++ b ++ [45] ++ c ++ [32] ++ d ++ [58], a ++ [45] ++ b ++ [45] ++ c ++ [32] ++ d ++ [58] ++ e ++ [58],
    [45] ++ b ++ [45] ++ c ++ [32] ++ d ++ [58] ++ e ++ [58] ++ f, [45] ++ c ++ [32] ++ d ++ [58] ++ e ++ [58] ++ f,
    [32] ++ d ++ [58] ++ e ++ [58] ++ f, [58] ++ e ++ [58] ++ f, [58] ++ f, ?_⟩
  simp [hs, datetimeLayout, ha, hb, hc, hd, he]

end layout

/-- **What `parse_datetime` accepts**: the text of a date from the year 1000 to 9999. -/
theorem parseDatetime_iff {s : Bytes} {v : Int} :
    parseDatetime s = some v ↔ ∃ x : DateTime, x.InRange ∧ s = x.text ∧ v = x.encode := by
  rw [parseDatetime_eq_some]
  constructor
  · rintro ⟨hlen, hsep, year, month, day, hour, minute, second, hy, hmo, hd, hh, hmi, hse, hyear, hmonth, htime, hday, rfl⟩
    obtain ⟨a, b, c, d, e, f, hs, ha, hb, hc, hd', he, hf⟩ := exists_datetimeLayout hlen hsep
    obtain ⟨A, B, C, D, E, a', b', c', d', e', h1, h2, h3, h4, h5, h6, hA, hB, hC, hD, hE⟩ :=
      datetimeLayout_fields hs ha hb hc hd' he
    rw [daysIn_eq year hmonth.1 hmonth.2] at hday
    obtain ⟨-, ra⟩ := of_digitsAt h1 (by rwa [ha])
    obtain ⟨-, rb⟩ := of_digitsAt h2 (by rwa [hA, hb])
    obtain ⟨-, rc⟩ := of_digitsAt h3 (by rwa [hB, hc])
    obtain ⟨-, rd⟩ := of_digitsAt h4 (by rwa [hC, hd'])
    obtain ⟨-, re⟩ := of_digitsAt h5 (by rwa [hD, he])
    obtain ⟨-, rf⟩ := of_digitsAt h6 (by rwa [hE, hf])
    rw [ha] at ra
    rw [hb] at rb
    rw [hc] at rc
    rw [hd'] at rd
    rw [he] at re
    rw [hf] at rf
    refine ⟨⟨year, month, day, hour, minute, second, hmonth.1, hmonth.2, hday.1, hday.2, by omega, by omega, by omega⟩,
      hyear, ?_, rfl⟩
    rw [hs, ra, rb, rc, rd, re, rf]
    rfl
  · rintro ⟨x, hx, hs, rfl⟩
    have hs' : s = datetimeLayout (fixedDigits 4 x.year) (fixedDigits 2 x.month) (fixedDigits 2 x.day)
        (fixedDigits 2 x.hour) (fixedDigits 2 x.minute) (fixedDigits 2 x.second) := hs
    have hl : ∀ w n, (fixedDigits w n).length = w := length_fixedDigits
    obtain ⟨hlen, hsep⟩ := datetimeLayout_fixed hs' (hl _ _) (hl _ _) (hl _ _) (hl _ _) (hl _ _) (hl _ _)
    obtain ⟨A, B, C, D, E, a', b', c', d', e', h1, h2, h3, h4, h5, h6, hA, hB, hC, hD, hE⟩ :=
      datetimeLayout_fields hs' (hl _ _) (hl _ _) (hl _ _) (hl _ _) (hl _ _)
    have hread : ∀ {P Q : Bytes} {p w n : Nat}, s = P ++ fixedDigits w n ++ Q → P.length = p → n < 10 ^ w →
        digitsAt s (List.range' p w) = some n := by
      intro P Q p w n hs hp hn
      have h := digitsAt_eq hs fun c hc => isDigit_of_mem_fixedDigits hc
      rwa [hp, hl, ofDigits_fixedDigits_of_lt hn] at h
    have hday := x.day_le
    have hlen' := monthLength_le x.year x.month
    refine ⟨hlen, hsep, x.year, x.month, x.day, x.hour, x.minute, x.second, hread h1 rfl ?_, hread h2 hA ?_,
      hread h3 hB ?_, hread h4 hC ?_, hread h5 hD ?_, hread h6 hE ?_, hx, ⟨x.month_pos, x.month_le⟩, ?_,
      ⟨x.day_pos, ?_⟩, rfl⟩
    · have := hx.2
      omega
    · have := x.month_le
      omega
    · omega
    · have := x.hour_lt
      omega
    · have := x.minute_lt
      omega
    · have := x.second_lt
      omega
    · exact ⟨Nat.le_of_lt_succ x.hour_lt, Nat.le_of_lt_succ x.minute_lt, Nat.le_of_lt_succ x.second_lt⟩
    · rwa [daysIn_eq x.year x.month_pos x.month_le]

/-! ## Writing a date -/

/-- A number with room for its digits. -/
theorem zeroPadded_eq {w n : Nat} (hw : 0 < w) (h : n < 10 ^ w) : zeroPadded w n = fixedDigits w n := by
  rw [← replicate_append_decimal hw h, zeroPadded, if_neg (by omega)]
  simp

theorem natCast_tmod_tdiv (a : Nat) : (a : Int).tmod 100 = (a % 100 : Nat) ∧ (a : Int).tdiv 100 = (a / 100 : Nat) :=
  ⟨(Int.ofNat_tmod a 100).symm, (Int.ofNat_tdiv a 100).symm⟩

/-- `datetime_to_str` writes the text of the number. -/
theorem datetimeToStr_encode {x : DateTime} (h : x.InRange) : datetimeToStr x.encode = x.text := by
  have hmonth : x.month < 100 := Nat.lt_of_le_of_lt x.month_le (by decide)
  have hday : x.day < 100 := Nat.lt_of_le_of_lt (x.day_le.trans (monthLength_le _ _)) (by decide)
  have hhour : x.hour < 100 := Nat.lt_trans x.hour_lt (by decide)
  have hminute : x.minute < 100 := Nat.lt_trans x.minute_lt (by decide)
  have hsecond : x.second < 100 := Nat.lt_trans x.second_lt (by decide)
  have hdigit : ∀ {a b : Nat}, b < 100 → (a * 100 + b) % 100 = b ∧ (a * 100 + b) / 100 = a := by
    intro a b hb
    omega
  have hyear : ((x.year : Nat) : Int).bmod (2 ^ 32) = x.year := by
    have := h.2
    exact Int.bmod_eq_of_le (by omega) (by omega)
  unfold datetimeToStr DateTime.encode
  simp only [natCast_tmod_tdiv, hdigit hsecond, hdigit hminute, hdigit hhour, hdigit hday, hdigit hmonth, hyear]
  rw [zeroPadded_eq (by decide) (Nat.lt_of_le_of_lt h.2 (by decide)), zeroPadded_eq (by decide) hmonth,
    zeroPadded_eq (by decide) hday, zeroPadded_eq (by decide) hhour, zeroPadded_eq (by decide) hminute,
    zeroPadded_eq (by decide) hsecond]
  exact List.take_of_length_le (by simp)

/-! ## The order of dates -/

/-- One more field in the order of texts. -/
theorem field_lt_iff {P Q : Bytes} {c : UInt8} {w n m : Nat} (h : P.length = Q.length) (hn : n < 10 ^ w)
    (hm : m < 10 ^ w) : P ++ [c] ++ fixedDigits w n < Q ++ [c] ++ fixedDigits w m ↔ P < Q ∨ P = Q ∧ n < m := by
  have hc : P ++ [c] < Q ++ [c] ↔ P < Q := by
    rw [append_lt_append_iff h]
    simp
  rw [append_lt_append_iff (by simp [h]), hc, fixedDigits_lt_iff hn hm, List.append_left_inj]

theorem field_eq_iff {P Q : Bytes} {c : UInt8} {w n m : Nat} (hn : n < 10 ^ w) (hm : m < 10 ^ w) :
    P ++ [c] ++ fixedDigits w n = Q ++ [c] ++ fixedDigits w m ↔ P = Q ∧ n = m := by
  constructor
  · intro h
    obtain ⟨h1, h2⟩ := List.append_inj' h (by simp)
    exact ⟨List.append_cancel_right h1, fixedDigits_inj hn hm h2⟩
  · rintro ⟨rfl, rfl⟩
    rfl

section order
variable {x y : DateTime} (hx : x.InRange) (hy : y.InRange)

theorem DateTime.two_digits (x : DateTime) : x.month < 10 ^ 2 ∧ x.day < 10 ^ 2 ∧ x.hour < 10 ^ 2 ∧ x.minute < 10 ^ 2 ∧
    x.second < 10 ^ 2 := by
  have h1 := x.month_le
  have h2 := x.day_le
  have h3 := monthLength_le x.year x.month
  have h4 := x.hour_lt
  have h5 := x.minute_lt
  have h6 := x.second_lt
  omega

theorem encode_lt_iff : x.encode < y.encode ↔ x.Before y := by
  have h1 := DateTime.two_digits x
  have h2 := DateTime.two_digits y
  simp only [DateTime.encode, DateTime.Before]
  omega

include hx hy

theorem text_lt_iff : x.text < y.text ↔ x.Before y := by
  obtain ⟨hmo, hd, hh, hmi, hs⟩ := DateTime.two_digits x
  obtain ⟨hmo', hd', hh', hmi', hs'⟩ := DateTime.two_digits y
  have hye : x.year < 10 ^ 4 := Nat.lt_of_le_of_lt hx.2 (by decide)
  have hye' : y.year < 10 ^ 4 := Nat.lt_of_le_of_lt hy.2 (by decide)
  have hyear : fixedDigits 4 x.year = fixedDigits 4 y.year ↔ x.year = y.year :=
    ⟨fixedDigits_inj hye hye', fun h => by rw [h]⟩
  unfold DateTime.text
  rw [field_lt_iff (by simp) hs hs', field_lt_iff (by simp) hmi hmi', field_lt_iff (by simp) hh hh',
    field_lt_iff (by simp) hd hd', field_lt_iff (by simp) hmo hmo', fixedDigits_lt_iff hye hye', field_eq_iff hmi hmi',
    field_eq_iff hh hh', field_eq_iff hd hd', field_eq_iff hmo hmo', hyear]
  simp only [DateTime.Before]
  omega

omit hy in
/-- Numbers of dates are values of `int64_t`. -/
theorem encode_lt : x.encode < 10 ^ 14 := by
  have h1 := DateTime.two_digits x
  have h2 := hx.2
  simp only [DateTime.encode]
  omega

end order

theorem sign_congr {α β : Type} [LT α] [DecidableLT α] [LT β] [DecidableLT β] {a b : α} {c d : β} (h : a < b ↔ c < d)
    (h' : b < a ↔ d < c) : sign a b = sign c d := by
  simp only [sign, h, h']

/-- **The codec of DATETIME**: the accepted texts are those of the dates and times from 1000 to 9999, each is written
back from its number, and scans and index keys compare the numbers as the texts and the instants are ordered. -/
theorem datetime_codec :
    (∀ s, (parseDatetime s).isSome ↔ ∃ x : DateTime, x.InRange ∧ s = x.text) ∧
    (∀ s v, parseDatetime s = some v → datetimeToStr v = s) ∧
    ∀ x y : DateTime, x.InRange → y.InRange → ∃ v w, parseDatetime x.text = some v ∧ parseDatetime y.text = some w ∧
      (v < w ↔ x.text < y.text) ∧ (v < w ↔ x.instant < y.instant) ∧
      compareValue (int64Bytes v) (int64Bytes w) .datetime 8 = sign x.text y.text ∧
      compareValue (int64Bytes v) (int64Bytes w) .datetime 8 = sign x.instant y.instant ∧
      ∀ tabName name offset, ixCompare [⟨tabName, name, .datetime, 8, offset⟩] (int64Bytes v) (int64Bytes w) =
        compareValue (int64Bytes v) (int64Bytes w) .datetime 8 := by
  refine ⟨fun s => ?_, fun s v h => ?_, fun x y hx hy => ?_⟩
  · rw [Option.isSome_iff_exists]
    constructor
    · rintro ⟨v, h⟩
      obtain ⟨x, hx, hs, -⟩ := parseDatetime_iff.1 h
      exact ⟨x, hx, hs⟩
    · rintro ⟨x, hx, hs⟩
      exact ⟨x.encode, parseDatetime_iff.2 ⟨x, hx, hs, rfl⟩⟩
  · obtain ⟨x, hx, rfl, rfl⟩ := parseDatetime_iff.1 h
    exact datetimeToStr_encode hx
  · have hcast : ∀ a b : DateTime, ((a.encode : Int) < b.encode ↔ a.Before b) := by
      intro a b
      rw [Int.ofNat_lt, encode_lt_iff]
    have hread : ∀ a : DateTime, a.InRange → readInt64 (int64Bytes a.encode) = a.encode := by
      intro a ha
      have := encode_lt ha
      exact readInt64_int64Bytes (by omega) (by omega)
    have hcmp : compareValue (int64Bytes x.encode) (int64Bytes y.encode) .datetime 8 =
        sign (x.encode : Int) (y.encode : Int) := by
      simp only [compareValue, hread x hx, hread y hy]
    have htext : ∀ a b : DateTime, a.InRange → b.InRange → ((a.encode : Int) < b.encode ↔ a.text < b.text) :=
      fun a b ha hb => (hcast a b).trans (text_lt_iff ha hb).symm
    have hinst : ∀ a b : DateTime, ((a.encode : Int) < b.encode ↔ a.instant < b.instant) :=
      fun a b => (hcast a b).trans (DateTime.instant_lt_iff a b).symm
    refine ⟨x.encode, y.encode, parseDatetime_iff.2 ⟨x, hx, rfl, rfl⟩, parseDatetime_iff.2 ⟨y, hy, rfl, rfl⟩,
      htext x y hx hy, hinst x y, ?_, ?_, fun tabName name offset => ?_⟩
    · rw [hcmp]
      exact sign_congr (htext x y hx hy) (htext y x hy hx)
    · rw [hcmp]
      exact sign_congr (hinst x y) (hinst y x)
    · simp only [ixCompare]
      split <;> simp_all

end Rmdb
