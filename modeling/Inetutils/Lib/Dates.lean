import Mathlib.Algebra.Order.Ring.Int

/-! # The calendar

The dates of the Gregorian calendar, with the time of the day, for all whole numbers of seconds
before and after the beginning of 1970. -/

namespace Inetutils.Lib.Calendar

structure Date where
  year : ℤ
  month : ℤ
  day : ℤ
  hour : ℤ
  minute : ℤ
  second : ℤ
  deriving DecidableEq

def leap (y : ℤ) : ℤ := if y % 4 = 0 ∧ (y % 100 ≠ 0 ∨ y % 400 = 0) then 1 else 0

/-- The days from the beginning of the year 1 to that of `y`. -/
def yearStart (y : ℤ) : ℤ := 365 * (y - 1) + (y - 1) / 4 - (y - 1) / 100 + (y - 1) / 400

/-- The days of the year in front of a month; 13 is the end of the year. -/
def monthStart (y m : ℤ) : ℤ :=
  if m ≤ 2 then 31 * (m - 1) else (153 * (m - 3) + 2) / 5 + 59 + leap y

/-- The days from the beginning of the year 1 to that of 1970. -/
def epoch : ℤ := 719162

namespace Date

def days (d : Date) : ℤ := yearStart d.year + monthStart d.year d.month + (d.day - 1)

def seconds (d : Date) : ℤ := (d.days - epoch) * 86400 + d.hour * 3600 + d.minute * 60 + d.second

structure Valid (d : Date) : Prop where
  month : 1 ≤ d.month ∧ d.month ≤ 12
  day : 1 ≤ d.day ∧ monthStart d.year d.month + d.day ≤ monthStart d.year (d.month + 1)
  hour : 0 ≤ d.hour ∧ d.hour < 24
  minute : 0 ≤ d.minute ∧ d.minute < 60
  second : 0 ≤ d.second ∧ d.second < 60

def Before (a b : Date) : Prop :=
  a.year < b.year ∨ a.year = b.year ∧
    (a.month < b.month ∨ a.month = b.month ∧ (a.day < b.day ∨ a.day = b.day ∧
    (a.hour < b.hour ∨ a.hour = b.hour ∧
      (a.minute < b.minute ∨ a.minute = b.minute ∧ a.second < b.second))))

instance (a b : Date) : Decidable (a.Before b) := by
  unfold Before
  infer_instance

end Date

def yearOf (n : ℤ) : ℤ × ℤ :=
  let y := n * 400 / 146097 + 1
  if n < yearStart y then (y - 1, n - yearStart (y - 1))
  else if yearStart (y + 1) ≤ n then (y + 1, n - yearStart (y + 1))
  else (y, n - yearStart y)

def monthOf (y n : ℤ) : ℤ :=
  if n < 59 + leap y then n / 31 + 1 else (5 * (n - 59 - leap y) + 2) / 153 + 3

def date (t : ℤ) : Date :=
  let p := yearOf (t / 86400 + epoch)
  let m := monthOf p.1 p.2
  ⟨p.1, m, p.2 - monthStart p.1 m + 1, t % 86400 / 3600, t % 3600 / 60, t % 60⟩

/-! ### Years and months -/

theorem leap_cases (y : ℤ) : leap y = 0 ∨ leap y = 1 := by
  unfold leap
  split
  · exact .inr rfl
  · exact .inl rfl

theorem yearStart_succ (y : ℤ) : yearStart (y + 1) = yearStart y + 365 + leap y := by
  unfold yearStart leap
  rw [add_sub_cancel_right]
  split <;> omega

theorem monthStart_end (y : ℤ) : monthStart y 13 = 365 + leap y := by
  unfold monthStart
  omega

theorem yearOf_spec (n : ℤ) : yearStart (yearOf n).1 + (yearOf n).2 = n ∧ 0 ≤ (yearOf n).2 ∧
    (yearOf n).2 < 365 + leap (yearOf n).1 := by
  have hlow : yearStart (n * 400 / 146097 + 1 - 1) ≤ n := by
    unfold yearStart
    omega
  have hhigh : n < yearStart (n * 400 / 146097 + 1 + 1 + 1) := by
    unfold yearStart
    omega
  unfold yearOf
  generalize n * 400 / 146097 + 1 = y at hlow hhigh ⊢
  have h0 := yearStart_succ (y - 1)
  have h1 := yearStart_succ y
  have h2 := yearStart_succ (y + 1)
  rw [Int.sub_add_cancel] at h0
  dsimp only
  split_ifs
  · dsimp only
    omega
  · dsimp only
    omega
  · dsimp only
    omega

theorem monthOf_spec {y n : ℤ} (h0 : 0 ≤ n) (h1 : n < 365 + leap y) : 1 ≤ monthOf y n ∧
    monthOf y n ≤ 12 ∧ monthStart y (monthOf y n) ≤ n ∧ n < monthStart y (monthOf y n + 1) := by
  unfold monthOf monthStart
  rcases leap_cases y with hy | hy
  · rw [hy] at h1 ⊢
    split_ifs <;> omega
  · rw [hy] at h1 ⊢
    split_ifs <;> omega

theorem valid_date (t : ℤ) : (date t).Valid := by
  obtain ⟨-, h0, h1⟩ := yearOf_spec (t / 86400 + epoch)
  obtain ⟨hm, hm', hd, hd'⟩ := monthOf_spec h0 h1
  refine ⟨⟨hm, hm'⟩, ?_, ?_, ?_, ?_⟩
  · dsimp only [date]
    omega
  all_goals
    dsimp only [date]
    omega

theorem seconds_date (t : ℤ) : (date t).seconds = t := by
  obtain ⟨hyear, -, -⟩ := yearOf_spec (t / 86400 + epoch)
  have hdays : (date t).days = t / 86400 + epoch := by
    dsimp only [date, Date.days]
    omega
  rw [Date.seconds, hdays]
  dsimp only [date]
  omega

/-! ### The order -/

theorem yearStart_mono {y z : ℤ} (h : y < z) : yearStart y + 365 + leap y ≤ yearStart z := by
  rw [← yearStart_succ]
  unfold yearStart
  omega

theorem monthStart_mono {y m k : ℤ} (hm : 1 ≤ m) (h : m ≤ k) : monthStart y m ≤ monthStart y k := by
  unfold monthStart
  rcases leap_cases y with hy | hy
  · rw [hy]
    split_ifs <;> omega
  · rw [hy]
    split_ifs <;> omega

variable {a b : Date}

namespace Date

def time (d : Date) : ℤ := d.hour * 3600 + d.minute * 60 + d.second

theorem Valid.time_lt (h : a.Valid) : 0 ≤ a.time ∧ a.time < 86400 := by
  obtain ⟨-, -, hhour, hminute, hsecond⟩ := h
  unfold time
  omega

theorem Valid.days_lt (h : a.Valid) :
    yearStart a.year ≤ a.days ∧ a.days < yearStart a.year + 365 + leap a.year := by
  obtain ⟨hm, hm'⟩ := h.month
  have hfirst := monthStart_mono (y := a.year) (le_refl 1) hm
  have hlast := monthStart_mono (y := a.year) (m := a.month + 1) (k := 13) (by omega) (by omega)
  rw [monthStart_end] at hlast
  have hone : monthStart a.year 1 = 0 := rfl
  have hday := h.day
  unfold days
  omega

theorem Valid.days_lt_days (ha : a.Valid) (hb : b.Valid) (h : a.year < b.year ∨ a.year = b.year ∧
    (a.month < b.month ∨ a.month = b.month ∧ a.day < b.day)) : a.days < b.days := by
  rcases h with hyear | ⟨hyear, hmonth | ⟨hmonth, hday⟩⟩
  · have hstart := yearStart_mono hyear
    have hda := ha.days_lt
    have hdb := hb.days_lt
    omega
  · have hm := ha.month.1
    have hstart := monthStart_mono (y := a.year) (m := a.month + 1) (k := b.month) (by omega) hmonth
    have hda := ha.day
    have hdb := hb.day
    unfold days
    rw [← hyear]
    omega
  · unfold days
    rw [hyear, hmonth]
    omega

theorem seconds_eq (d : Date) : d.seconds = (d.days - epoch) * 86400 + d.time := by
  unfold seconds time
  omega

theorem Before.seconds_lt (h : a.Before b) (ha : a.Valid) (hb : b.Valid) :
    a.seconds < b.seconds := by
  rw [seconds_eq, seconds_eq]
  by_cases hday : a.year = b.year ∧ a.month = b.month ∧ a.day = b.day
  · obtain ⟨hyear, hmonth, hday⟩ := hday
    have hdays : a.days = b.days := by
      unfold days
      rw [hyear, hmonth, hday]
    have hma := ha.minute
    have hmb := hb.minute
    have hsa := ha.second
    have hsb := hb.second
    unfold Before at h
    unfold time
    omega
  · have hdays := ha.days_lt_days hb (by unfold Before at h; omega)
    have hta := ha.time_lt
    have htb := hb.time_lt
    omega

/-- **The order of the components is that of the seconds.** -/
theorem seconds_lt_iff (ha : a.Valid) (hb : b.Valid) : a.seconds < b.seconds ↔ a.Before b := by
  refine ⟨fun h => ?_, fun h => h.seconds_lt ha hb⟩
  by_contra hnot
  by_cases hab : b.Before a
  · exact absurd (hab.seconds_lt hb ha) (not_lt.2 h.le)
  · have heq : a = b := by
      unfold Before at hnot hab
      obtain ⟨y, m, d, hh, mm, ss⟩ := a
      obtain ⟨y', m', d', hh', mm', ss'⟩ := b
      simp only [Date.mk.injEq]
      dsimp only at hnot hab
      omega
    exact absurd h (by rw [heq]; exact lt_irrefl _)

end Date

end Inetutils.Lib.Calendar
