import Mathlib.Tactic.IntervalCases
import Mathlib.Data.Int.Interval

/-!
# The calendar

`days_to_ymd` and `ymd_to_days` convert between days since 1970 and dates by eras of 400 years
that start in March. Both are compared with the number of a day in a year that starts in March
(`serial`), from which the date can be read off (`dateOf`).
-/

namespace AxiomDb.Calendar

/-- `if y >= 0 { y } else { y - (k - 1) } / k` -/
def eraOf (k y : Int) : Int := (if 0 ≤ y then y else y - (k - 1)).tdiv k

/-- `days_to_ymd` in `result.rs`. -/
def daysToYmd (days : Int) : Int × Int × Int :=
  let z := days + 719468
  let era := eraOf 146097 z
  let doe := z - era * 146097
  let yoe := (doe - doe / 1460 + doe / 36524 - doe / 146096) / 365
  let y := yoe + era * 400
  let doy := doe - (365 * yoe + yoe / 4 - yoe / 100)
  let mp := (5 * doy + 2) / 153
  let d := doy - (153 * mp + 2) / 5 + 1
  let m := if mp < 10 then mp + 3 else mp - 9
  (if m ≤ 2 then y + 1 else y, m, d)

/-- `ymd_to_days` in `prepared.rs`. -/
def ymdToDays (year month day : Int) : Int :=
  let y := if month ≤ 2 then year - 1 else year
  let m := if month ≤ 2 then month + 9 else month - 3
  let era := eraOf 400 y
  let yoe := y - era * 400
  let doy := (153 * m + 2) / 5 + day - 1
  let doe := yoe * 365 + yoe / 4 - yoe / 100 + doy
  era * 146097 + doe - 719468

def isLeap (year : Int) : Bool := (year % 4 = 0 && year % 100 ≠ 0) || year % 400 = 0

/-- `days_in_month` in `coerce_helpers.rs`. -/
def daysInMonth (year month : Int) : Int :=
  if month ∈ [1, 3, 5, 7, 8, 10, 12] then 31
  else if month ∈ [4, 6, 9, 11] then 30
  else if month = 2 then if isLeap year then 29 else 28
  else 0

/-- The same formula, of a date that is checked, with a result that is checked. -/
def ymdToDaysChecked (year month day : Int) : Option Int :=
  if ¬(1 ≤ month ∧ month ≤ 12) then none
  else if day < 1 then none
  else if daysInMonth year month < day then none
  else
    let days := ymdToDays year month day
    if days < -2 ^ 31 ∨ 2 ^ 31 - 1 < days then none else some days

/-- A date of the Gregorian calendar. -/
def IsDate (year month day : Int) : Prop :=
  1 ≤ month ∧ month ≤ 12 ∧ 1 ≤ day ∧ day ≤ daysInMonth year month

def nextDate (year month day : Int) : Int × Int × Int :=
  if day < daysInMonth year month then (year, month, day + 1)
  else if month < 12 then (year, month + 1, 1)
  else (year + 1, 1, 1)

/-- A day by the year that starts in March, and its number in it. -/
def serial (y doy : Int) : Int := 365 * y + y / 4 - y / 100 + y / 400 + doy - 719468

/-- The year that starts in March has the day. -/
def HasDay (y doy : Int) : Prop := 0 ≤ doy ∧ doy ≤ 365 ∧ (doy = 365 → isLeap (y + 1) = true)

def dateOf (y doy : Int) : Int × Int × Int :=
  let mp := (5 * doy + 2) / 153
  let m := if mp < 10 then mp + 3 else mp - 9
  (if m ≤ 2 then y + 1 else y, m, doy - (153 * mp + 2) / 5 + 1)

variable {y m d doy : Int}

theorem isLeap_iff : isLeap y ↔ y % 4 = 0 ∧ y % 100 ≠ 0 ∨ y % 400 = 0 := by
  simp [isLeap]

theorem eraOf_eq {k : Int} (hk : k = 400 ∨ k = 146097) (y : Int) : eraOf k y = y / k := by
  rcases hk with rfl | rfl
  all_goals
    rw [eraOf, Int.tdiv_eq_ediv, Int.sign_eq_one_of_pos (by decide)]
    split <;> split <;> omega

theorem ymdToDays_eq (y m d : Int) : ymdToDays y m d =
    if m ≤ 2 then serial (y - 1) ((153 * (m + 9) + 2) / 5 + d - 1)
    else serial y ((153 * (m - 3) + 2) / 5 + d - 1) := by
  simp only [ymdToDays, serial, eraOf_eq (.inl rfl)]
  split <;> omega

section Era

/-! An era is 400 years: the centuries `c`, the cycles of four years `q` and the years `r`. -/

variable {c q r : Int} (hc : 0 ≤ c ∧ c ≤ 3) (hq : 0 ≤ q ∧ q ≤ 24) (hr : 0 ≤ r ∧ r ≤ 3)
include hq hr

theorem yoe_div : (100 * c + 4 * q + r) / 4 = 25 * c + q ∧ (100 * c + 4 * q + r) / 100 = c := by
  omega

include hc

theorem serial_split (era doy : Int) : serial (100 * c + 4 * q + r + era * 400) doy + 719468 =
    36524 * c + 1461 * q + 365 * r + doy + era * 146097 := by
  obtain ⟨h4, h100⟩ := yoe_div (c := c) hq hr
  have h400 : (100 * c + 4 * q + r + era * 400) / 400 = era := by omega
  rw [serial, h400]
  omega

theorem year_of_era {doe : Int} (hd : 0 ≤ doy ∧ doy ≤ 365)
    (hleap : doy = 365 → r = 3 ∧ (q = 24 → c = 3))
    (hdoe : doe = 36524 * c + 1461 * q + 365 * r + doy) :
    (doe - doe / 1460 + doe / 36524 - doe / 146096) / 365 = 100 * c + 4 * q + r := by
  -- only the last day of the era is not in the century that the quotient gives
  have hlo : 36524 * c ≤ doe := by omega
  have hhi : doe ≤ 36524 * c + 36523 ∨ doe = 146096 ∧ c = 3 := by omega
  have hcentury : doe / 36524 - doe / 146096 = c := by omega
  have hlow : doe / 1460 ≤ 25 * c + q + doy := by omega
  have hhigh : 25 * c + q + doy ≤ doe / 1460 + 364 := by omega
  generalize doe / 1460 = k at *
  generalize doe / 36524 = k at *
  generalize doe / 146096 = k at *
  omega

end Era

theorem daysToYmd_serial (h : HasDay y doy) : daysToYmd (serial y doy) = dateOf y doy := by
  obtain ⟨h0, h365, hleap⟩ := h
  rw [isLeap_iff] at hleap
  obtain ⟨era, c, q, r, hc, hq, hr, rfl⟩ : ∃ era c q r : Int, (0 ≤ c ∧ c ≤ 3) ∧ (0 ≤ q ∧ q ≤ 24) ∧
      (0 ≤ r ∧ r ≤ 3) ∧ y = 100 * c + 4 * q + r + era * 400 :=
    ⟨y / 400, y % 400 / 100, y % 100 / 4, y % 4, by omega, by omega, by omega, by omega⟩
  have hlast : doy = 365 → r = 3 ∧ (q = 24 → c = 3) := by omega
  have hz := serial_split hc hq hr era doy
  obtain ⟨h4, h100⟩ := yoe_div (c := c) hq hr
  generalize hdoe : 36524 * c + 1461 * q + 365 * r + doy = doe at hz
  have hera : (doe + era * 146097) / 146097 = era := by omega
  have hdoy : doe - (365 * (100 * c + 4 * q + r) + (25 * c + q) - c) = doy := by omega
  have hyoe := year_of_era hc hq hr ⟨h0, h365⟩ hlast hdoe.symm
  simp only [daysToYmd, hz, eraOf_eq (.inr rfl), hera, add_sub_cancel_right, hyoe, h4, h100, hdoy, dateOf]

theorem exists_serial (days : Int) : ∃ y doy, HasDay y doy ∧ serial y doy = days := by
  obtain ⟨era, doe, hdoe, hdays⟩ : ∃ era doe, (0 ≤ doe ∧ doe < 146097) ∧
      days = doe + era * 146097 - 719468 :=
    ⟨(days + 719468) / 146097, (days + 719468) % 146097, by omega, by omega⟩
  obtain ⟨c, x, hc, hx, rfl⟩ : ∃ c x : Int, (0 ≤ c ∧ c ≤ 3) ∧
      (0 ≤ x ∧ (x ≤ 36523 ∨ x = 36524 ∧ c = 3)) ∧ doe = 36524 * c + x :=
    ⟨min (doe / 36524) 3, doe - 36524 * min (doe / 36524) 3, by omega, by omega, by omega⟩
  obtain ⟨q, w, hq, hw, rfl⟩ : ∃ q w, (0 ≤ q ∧ q ≤ 24) ∧ (0 ≤ w ∧ w ≤ 1460) ∧ x = 1461 * q + w :=
    ⟨x / 1461, x % 1461, by omega, by omega, by omega⟩
  obtain ⟨r, doy, hr, hd, rfl⟩ : ∃ r doy : Int, (0 ≤ r ∧ r ≤ 3) ∧
      (0 ≤ doy ∧ (doy ≤ 364 ∨ doy = 365 ∧ r = 3)) ∧ w = 365 * r + doy :=
    ⟨min (w / 365) 3, w - 365 * min (w / 365) 3, by omega, by omega, by omega⟩
  have hz := serial_split hc hq hr era doy
  refine ⟨100 * c + 4 * q + r + era * 400, doy, ⟨by omega, by omega, fun h => ?_⟩, by omega⟩
  rw [isLeap_iff]
  omega

theorem dateOf_spec {y' : Int} (h : HasDay y' doy) (hd : dateOf y' doy = (y, m, d)) :
    IsDate y m d ∧ ymdToDays y m d = serial y' doy := by
  obtain ⟨h0, h365, hleap⟩ := h
  simp only [dateOf, Prod.mk.injEq] at hd
  generalize hmp : (5 * doy + 2) / 153 = mp at hd
  have hlo : 0 ≤ mp := by omega
  have hhi : mp ≤ 11 := by omega
  have hcancel (k : Int) : k + (doy - k + 1) - 1 = doy := by omega
  obtain ⟨rfl, rfl, rfl⟩ := hd
  rw [isLeap_iff] at hleap
  interval_cases mp
  all_goals
    simp [IsDate, daysInMonth, isLeap_iff, ymdToDays_eq, hcancel]
    try omega

theorem exists_hasDay (h : IsDate y m d) : ∃ y' doy, HasDay y' doy ∧ dateOf y' doy = (y, m, d) := by
  obtain ⟨hlo, hhi, h1, hd⟩ := h
  refine ⟨if m ≤ 2 then y - 1 else y, (153 * (if m ≤ 2 then m + 9 else m - 3) + 2) / 5 + d - 1, ?_⟩
  interval_cases m
  all_goals
    simp [HasDay, dateOf, daysInMonth, isLeap_iff] at hd ⊢
    try omega

/-- The day after a date is one, with the next number. -/
theorem nextDate_spec {y2 m2 d2 : Int} (h : IsDate y m d) (hn : nextDate y m d = (y2, m2, d2)) :
    IsDate y2 m2 d2 ∧ ymdToDays y2 m2 d2 = ymdToDays y m d + 1 := by
  obtain ⟨hlo, hhi, h1, hd⟩ := h
  rw [nextDate] at hn
  split at hn
  next hlt =>
    cases hn
    refine ⟨⟨hlo, hhi, by omega, hlt⟩, ?_⟩
    simp only [ymdToDays_eq, serial]
    split <;> omega
  next hlast =>
    have hd : d = daysInMonth y m := by omega
    interval_cases m
    all_goals
      simp [daysInMonth, isLeap_iff] at hd hn
      obtain ⟨rfl, rfl, rfl⟩ := hn
      simp [IsDate, daysInMonth, isLeap_iff, ymdToDays_eq, serial]
      try omega

theorem ymdToDaysChecked_eq_some {n : Int} : ymdToDaysChecked y m d = some n ↔
    IsDate y m d ∧ ymdToDays y m d = n ∧ -2 ^ 31 ≤ n ∧ n < 2 ^ 31 := by
  rw [ymdToDaysChecked, IsDate]
  split_ifs <;> simp <;> omega

theorem daysToYmd_ymdToDays (h : IsDate y m d) : daysToYmd (ymdToDays y m d) = (y, m, d) := by
  obtain ⟨y', doy, hday, hdate⟩ := exists_hasDay h
  rw [(dateOf_spec hday hdate).2, daysToYmd_serial hday, hdate]

theorem daysToYmd_spec {days : Int} (h : daysToYmd days = (y, m, d)) :
    IsDate y m d ∧ ymdToDays y m d = days := by
  obtain ⟨y', doy, hday, rfl⟩ := exists_serial days
  rw [daysToYmd_serial hday] at h
  exact dateOf_spec hday h

/-- The conversions are inverse: the days are in order those of the dates that there are, from
1970-01-01 on, and the checked one takes exactly these, in its range. -/
theorem daysToYmd_inverse (days y m d : Int) :
    (daysToYmd days = (y, m, d) ↔ IsDate y m d ∧ ymdToDays y m d = days) ∧
    (ymdToDaysChecked y m d = some days ↔
      daysToYmd days = (y, m, d) ∧ -2 ^ 31 ≤ days ∧ days < 2 ^ 31) ∧
    (daysToYmd days = (y, m, d) → daysToYmd (days + 1) = nextDate y m d) ∧
    daysToYmd 0 = (1970, 1, 1) := by
  have hiff : daysToYmd days = (y, m, d) ↔ IsDate y m d ∧ ymdToDays y m d = days := by
    refine ⟨daysToYmd_spec, fun ⟨hdate, hdays⟩ => ?_⟩
    rw [← hdays, daysToYmd_ymdToDays hdate]
  refine ⟨hiff, ?_, fun h => ?_, by decide⟩
  · rw [ymdToDaysChecked_eq_some, hiff, and_assoc]
  · obtain ⟨hdate, rfl⟩ := daysToYmd_spec h
    obtain ⟨⟨y', m', d'⟩, hn⟩ : ∃ date, nextDate y m d = date := ⟨_, rfl⟩
    obtain ⟨hnext, hdays⟩ := nextDate_spec hdate hn
    rw [← hdays, daysToYmd_ymdToDays hnext, hn]

end AxiomDb.Calendar
