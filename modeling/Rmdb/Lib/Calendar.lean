import Mathlib.Tactic.Common

/-!
# The Gregorian calendar

- `DateTime`: a date and a time of day; its fields say that the date exists;
- `DateTime.instant`: the seconds that have passed since the beginning of the year 0;
- `DateTime.instant_lt_iff`: of two dates the one with the lower year is earlier, of one year the one with the lower
  month, and so on.
-/

namespace Rmdb.Lib

/-- A year with a 29th of February. -/
def IsLeap (year : Nat) : Prop := (4 ∣ year ∧ ¬100 ∣ year) ∨ 400 ∣ year

instance (year : Nat) : Decidable (IsLeap year) := inferInstanceAs (Decidable (_ ∨ _))

/-- The days of a month. -/
def monthLength (year month : Nat) : Nat :=
  match month with
  | 2 => if IsLeap year then 29 else 28
  | 4 | 6 | 9 | 11 => 30
  | _ => 31

def yearLength (year : Nat) : Nat := if IsLeap year then 366 else 365

def daysBeforeYear : Nat → Nat
  | 0 => 0
  | year + 1 => daysBeforeYear year + yearLength year

/-- The days of a year before the first of a month. -/
def daysBeforeMonth (year : Nat) : Nat → Nat
  | 0 | 1 => 0
  | month + 1 => daysBeforeMonth year month + monthLength year month

structure DateTime where
  year : Nat
  month : Nat
  day : Nat
  hour : Nat
  minute : Nat
  second : Nat
  month_pos : 1 ≤ month
  month_le : month ≤ 12
  day_pos : 1 ≤ day
  day_le : day ≤ monthLength year month
  hour_lt : hour < 24
  minute_lt : minute < 60
  second_lt : second < 60

theorem monthLength_le (year month : Nat) : monthLength year month ≤ 31 := by
  unfold monthLength
  split <;> try split
  all_goals decide

theorem daysBeforeMonth_succ (year : Nat) {month : Nat} (h : 1 ≤ month) :
    daysBeforeMonth year (month + 1) = daysBeforeMonth year month + monthLength year month := by
  obtain ⟨m, rfl⟩ : ∃ m, month = m + 1 := ⟨month - 1, by omega⟩
  rfl

/-- The months of a year follow each other. -/
theorem daysBeforeMonth_add_le (year : Nat) {month month' : Nat} (h : 1 ≤ month) (hlt : month < month') :
    daysBeforeMonth year month + monthLength year month ≤ daysBeforeMonth year month' := by
  induction month' with
  | zero => cases hlt
  | succ n ih =>
    rcases Nat.lt_succ_iff_lt_or_eq.1 hlt with hn | rfl
    · have hle := ih hn
      rw [daysBeforeMonth_succ year (by omega)]
      omega
    · exact Nat.le_of_eq (daysBeforeMonth_succ year h).symm

/-- The months take the whole year. -/
theorem daysBeforeMonth_twelve (year : Nat) : daysBeforeMonth year 12 + monthLength year 12 = yearLength year := by
  simp only [daysBeforeMonth, monthLength, yearLength]
  split <;> rfl

theorem daysBeforeMonth_add_le_year (year : Nat) {month : Nat} (h : 1 ≤ month) (hle : month ≤ 12) :
    daysBeforeMonth year month + monthLength year month ≤ yearLength year := by
  rw [← daysBeforeMonth_twelve]
  rcases Nat.lt_or_eq_of_le hle with hlt | rfl
  · have := daysBeforeMonth_add_le year h hlt
    omega
  · exact Nat.le_refl _

/-- The years follow each other. -/
theorem daysBeforeYear_add_le {year year' : Nat} (h : year < year') :
    daysBeforeYear year + yearLength year ≤ daysBeforeYear year' := by
  induction year' with
  | zero => cases h
  | succ n ih =>
    rcases Nat.lt_succ_iff_lt_or_eq.1 h with hn | rfl
    · have hle := ih hn
      rw [daysBeforeYear]
      omega
    · exact Nat.le_refl _

namespace DateTime

/-- The days that have passed. -/
def days (x : DateTime) : Nat := daysBeforeYear x.year + daysBeforeMonth x.year x.month + (x.day - 1)

/-- The seconds that have passed. -/
def instant (x : DateTime) : Nat := ((x.days * 24 + x.hour) * 60 + x.minute) * 60 + x.second

/-- The earlier one at the first field that differs. -/
def Before (x y : DateTime) : Prop :=
  x.year < y.year ∨ x.year = y.year ∧ (x.month < y.month ∨ x.month = y.month ∧ (x.day < y.day ∨ x.day = y.day ∧
    (x.hour < y.hour ∨ x.hour = y.hour ∧ (x.minute < y.minute ∨ x.minute = y.minute ∧ x.second < y.second))))

theorem days_lt_of_year {x y : DateTime} (h : x.year < y.year) : x.days < y.days := by
  have h1 := daysBeforeYear_add_le h
  have h2 := daysBeforeMonth_add_le_year x.year x.month_pos x.month_le
  have h3 := x.day_le
  have h4 := x.day_pos
  simp only [days]
  omega

theorem days_lt_of_month {x y : DateTime} (hy : x.year = y.year) (h : x.month < y.month) : x.days < y.days := by
  have h1 := daysBeforeMonth_add_le x.year x.month_pos h
  have h2 := x.day_le
  have h3 := x.day_pos
  simp only [days, ← hy]
  omega

theorem days_lt_of_day {x y : DateTime} (hy : x.year = y.year) (hm : x.month = y.month) (h : x.day < y.day) :
    x.days < y.days := by
  have h1 := x.day_pos
  simp only [days, ← hy, ← hm]
  omega

theorem Before.instant_lt {x y : DateTime} (h : x.Before y) : x.instant < y.instant := by
  have hx : x.hour < 24 ∧ x.minute < 60 ∧ x.second < 60 := ⟨x.hour_lt, x.minute_lt, x.second_lt⟩
  have hdays : x.days < y.days → x.instant < y.instant := by
    intro hd
    simp only [instant]
    omega
  rcases h with h | ⟨hyear, h | ⟨hmonth, h | ⟨hday, h⟩⟩⟩
  · exact hdays (days_lt_of_year h)
  · exact hdays (days_lt_of_month hyear h)
  · exact hdays (days_lt_of_day hyear hmonth h)
  · have hd : x.days = y.days := by simp only [days, hyear, hmonth, hday]
    simp only [instant]
    omega

theorem before_trichotomy (x y : DateTime) : x.Before y ∨ x.instant = y.instant ∨ y.Before x := by
  have heq : x.year = y.year → x.month = y.month → x.day = y.day → x.hour = y.hour → x.minute = y.minute →
      x.second = y.second → x.instant = y.instant := by
    intro h1 h2 h3 h4 h5 h6
    simp only [instant, days, h1, h2, h3, h4, h5, h6]
  by_cases h : x.year = y.year ∧ x.month = y.month ∧ x.day = y.day ∧ x.hour = y.hour ∧ x.minute = y.minute ∧
      x.second = y.second
  · obtain ⟨h1, h2, h3, h4, h5, h6⟩ := h
    exact .inr (.inl (heq h1 h2 h3 h4 h5 h6))
  · simp only [Before]
    omega

/-- **The order of time** is that of the fields, the year first. -/
theorem instant_lt_iff (x y : DateTime) : x.instant < y.instant ↔ x.Before y := by
  constructor
  · intro h
    rcases before_trichotomy x y with hb | heq | hb
    · exact hb
    · omega
    · have := hb.instant_lt
      omega
  · exact Before.instant_lt

end DateTime

end Rmdb.Lib
