import MLton.Basis.Time

/-!
# Basis/Date — dates, and their normalisation

Days are numbered, so that carries out of the hours are carries of days, and the day with a number is found by the
cycles of 400, 100, 4 and 1 years.  `int` is unbounded here: nothing is said about operations that overflow.
-/

namespace MLton.Date

/-- The exceptions that the functions here raise. -/
inductive Exn where
  | date
  | fail (message : String)
  | sysErr
  deriving DecidableEq

/-- `weekday`. -/
inductive Weekday where
  | mon | tue | wed | thu | fri | sat | sun
  deriving DecidableEq

/-- `month`. -/
inductive Month where
  | jan | feb | mar | apr | may | jun | jul | aug | sep | oct | nov | dec
  deriving DecidableEq

/-- `t`. -/
structure T where
  day : ℤ
  hour : ℤ
  isDst : Option Bool
  minute : ℤ
  month : Month
  offset : Option ℤ
  second : ℤ
  weekDay : Weekday
  year : ℤ
  yearDay : ℤ
  deriving DecidableEq

/-- `tmoz`. -/
structure Tmoz where
  tmHour : ℤ
  tmIsdst : ℤ
  tmMday : ℤ
  tmMin : ℤ
  tmMon : ℤ
  tmSec : ℤ
  tmWday : ℤ
  tmYday : ℤ
  tmYear : ℤ

/-- `toweekday`. -/
def toweekday : ℤ → Except Exn Weekday
  | 0 => .ok .sun
  | 1 => .ok .mon
  | 2 => .ok .tue
  | 3 => .ok .wed
  | 4 => .ok .thu
  | 5 => .ok .fri
  | 6 => .ok .sat
  | _ => .error (.fail "Internal error: Date.toweekday")

/-- `fromwday`. -/
def fromwday : Weekday → ℤ
  | .sun => 0
  | .mon => 1
  | .tue => 2
  | .wed => 3
  | .thu => 4
  | .fri => 5
  | .sat => 6

/-- `tomonth`. -/
def tomonth : ℤ → Except Exn Month
  | 0 => .ok .jan
  | 1 => .ok .feb
  | 2 => .ok .mar
  | 3 => .ok .apr
  | 4 => .ok .may
  | 5 => .ok .jun
  | 6 => .ok .jul
  | 7 => .ok .aug
  | 8 => .ok .sep
  | 9 => .ok .oct
  | 10 => .ok .nov
  | 11 => .ok .dec
  | _ => .error (.fail "Internal error: Date.tomonth")

/-- `frommonth`. -/
def frommonth : Month → ℤ
  | .jan => 0
  | .feb => 1
  | .mar => 2
  | .apr => 3
  | .may => 4
  | .jun => 5
  | .jul => 6
  | .aug => 7
  | .sep => 8
  | .oct => 9
  | .nov => 10
  | .dec => 11

theorem tomonth_frommonth : ∀ m : Month, tomonth (frommonth m) = .ok m
  | .jan | .feb | .mar | .apr | .may | .jun | .jul | .aug | .sep | .oct | .nov | .dec => rfl

/-- `tmozToDate`. -/
def tmozToDate (tm : Tmoz) (offset : Option ℤ) : Except Exn T := do
  let month ← tomonth tm.tmMon
  let weekDay ← toweekday tm.tmWday
  pure {
    day := tm.tmMday
    hour := tm.tmHour
    isDst := if tm.tmIsdst = 0 then some false else if tm.tmIsdst = 1 then some true else none
    minute := tm.tmMin
    month := month
    offset := offset
    second := tm.tmSec
    weekDay := weekDay
    yearDay := tm.tmYday
    year := tm.tmYear + 1900 }

/-- `leapyear`. -/
abbrev leapyear (y : ℤ) : Prop := y % 4 = 0 ∧ y % 100 ≠ 0 ∨ y % 400 = 0

/-- `monthdays`. -/
def monthdays (year : ℤ) : Month → ℤ
  | .jan => 31
  | .feb => if leapyear year then 29 else 28
  | .mar => 31
  | .apr => 30
  | .may => 31
  | .jun => 30
  | .jul => 31
  | .aug => 31
  | .sep => 30
  | .oct => 31
  | .nov => 30
  | .dec => 31

/-- `okDate`. -/
abbrev okDate (d : T) : Prop :=
  1 ≤ d.day ∧ d.day ≤ monthdays d.year d.month ∧ 0 ≤ d.hour ∧ d.hour ≤ 23 ∧ 0 ≤ d.minute ∧ d.minute ≤ 59 ∧
    0 ≤ d.second ∧ d.second ≤ 61

/-- `dateToTmoz`. -/
def dateToTmoz (d : T) : Except Exn Tmoz :=
  if ¬ okDate d then .error .date
  else .ok {
    tmHour := d.hour
    tmIsdst :=
      match d.isDst with
      | some false => 0
      | some true => 1
      | none => -1
    tmMday := d.day
    tmMin := d.minute
    tmMon := frommonth d.month
    tmSec := d.second
    tmWday := fromwday d.weekDay
    tmYday := d.yearDay
    tmYear := d.year - 1900 }

/-- `dayinyear`. -/
def dayinyear (year : ℤ) (month : Month) (day : ℤ) : ℤ :=
  let monthno := frommonth month
  day - 1 + 31 * monthno -
    (if monthno > 1 then (27 + 4 * monthno) / 10 - (if leapyear year then 1 else 0) else 0)

/-- `todaynumber`. -/
def todaynumber (year : ℤ) (month : Month) (day : ℤ) : ℤ :=
  let prioryears := year - 1
  dayinyear year month day + 1 + 365 * prioryears + prioryears / 4 - prioryears / 100 + prioryears / 400

theorem monthdays_pos (year : ℤ) (m : Month) : 28 ≤ monthdays year m := by
  cases m <;> grind [monthdays]

/-- The `loop` of `fromdaynumber`. -/
def loop (year month day : ℤ) : Except Exn (ℤ × Month × ℤ) :=
  match tomonth month with
  | .error e => .error e
  | .ok m => if monthdays year m < day then loop year (month + 1) (day - monthdays year m) else .ok (year, m, day)
termination_by day.toNat
decreasing_by
  have := monthdays_pos year m
  omega

/-- `fromdaynumber`. -/
def fromdaynumber (n : ℤ) : Except Exn (ℤ × Month × ℤ) :=
  let d0 := n - 1
  let n400 := d0 / 146097
  let d1 := d0 % 146097
  let n100 := d1 / 36524
  let d2 := d1 % 36524
  let n4 := d2 / 1461
  let d3 := d2 % 1461
  let n1 := d3 / 365
  let day := 1 + d3 % 365
  let year := 400 * n400 + 100 * n100 + n4 * 4 + n1 + 1
  if n100 = 4 ∨ n1 = 4 then .ok (year - 1, .dec, 31) else loop year 0 day

/-- `weekday`. -/
def weekday (daynumber : ℤ) : Except Exn Weekday := toweekday (daynumber % 7)

section

variable (localtime : Tmoz → Except Exn Tmoz)

/-- `normalizedate`; `localtime` is what the C library makes of a local time. -/
def normalizedate (yr0 : ℤ) (mo0 : Month) (dy0 hr0 mn0 sec0 : ℤ) (offset : Option ℤ) : Except Exn T := do
  let mn1 := mn0 + sec0 / 60
  let second := sec0 % 60
  let hr1 := hr0 + mn1 / 60
  let minute := mn1 % 60
  let dayno := todaynumber yr0 mo0 dy0 + hr1 / 24
  let hour := hr1 % 24
  let (year, month, day) ← fromdaynumber dayno
  let weekDay ← weekday dayno
  let date1 : T := {
    day := day
    hour := hour
    isDst :=
      match offset with
      | none => none
      | some _ => some false
    minute := minute
    month := month
    offset := offset
    second := second
    weekDay := weekDay
    year := year
    yearDay := dayinyear year month day }
  if year < 1970 ∨ year > 2037 then pure date1
  else
    match offset with
    | none => do
      let tm ← dateToTmoz date1
      let tm ← localtime tm
      tmozToDate tm offset
    | some _ => pure date1

/-- `date`. -/
def date (year : ℤ) (month : Month) (day hour minute second : ℤ) (offset : Option Time) : Except Exn T :=
  if year < 0 then .error .date
  else
    let (dayoffset, offset') : ℤ × Option ℤ :=
      match offset with
      | none => (0, none)
      | some time =>
          let secs := Time.toSeconds time
          let secoffset := if secs ≤ 82800 then -secs else 86400 - secs
          (secs.tdiv 86400, some secoffset)
    let day' := day + dayoffset
    normalizedate localtime year month day' hour minute second offset'

end

/-- `offset`. -/
def offset (d : T) : Option Time := d.offset.map fun secs => Time.fromSeconds ((86400 + secs) % 86400)

end MLton.Date

/-!
## Normalisation is calendar arithmetic

The number of a day counts the days of the proleptic Gregorian calendar (`todaynumber_tomorrow`), and the day with a
number is the one that has it.  So a date denotes the instant of the fields it is normalised from.  Its offset is kept
with the opposite sign, and given out as it is kept.
-/

namespace MLton.Date

/-! ## The calendar -/

/-- The days of the calendar. -/
def Valid (year : ℤ) (month : Month) (day : ℤ) : Prop := 1 ≤ day ∧ day ≤ monthdays year month

/-- The month after a month of the same year. -/
def Month.next : Month → Option Month
  | .jan => some .feb
  | .feb => some .mar
  | .mar => some .apr
  | .apr => some .may
  | .may => some .jun
  | .jun => some .jul
  | .jul => some .aug
  | .aug => some .sep
  | .sep => some .oct
  | .oct => some .nov
  | .nov => some .dec
  | .dec => none

/-- The day after a day. -/
def tomorrow (year : ℤ) (month : Month) (day : ℤ) : ℤ × Month × ℤ :=
  if day < monthdays year month then (year, month, day + 1)
  else
    match month.next with
    | some month => (year, month, 1)
    | none => (year + 1, .jan, 1)

/-- The weekday after a weekday. -/
def Weekday.next : Weekday → Weekday
  | .mon => .tue
  | .tue => .wed
  | .wed => .thu
  | .thu => .fri
  | .fri => .sat
  | .sat => .sun
  | .sun => .mon

section Days

variable {year year' day day' n : ℤ} {m m' : Month}

/-- The days of a year before a month. -/
def before (year : ℤ) (m : Month) : ℤ := dayinyear year m 1

/-- The number of the first day of a year. -/
def newYear (year : ℤ) : ℤ := todaynumber year .jan 1

/-- The days of a year. -/
def yeardays (year : ℤ) : ℤ := if leapyear year then 366 else 365

theorem dayinyear_eq (year : ℤ) (m : Month) (day : ℤ) : dayinyear year m day = before year m + (day - 1) := by
  simp only [before, dayinyear]
  ring

theorem newYear_eq (year : ℤ) :
    newYear year = 1 + 365 * (year - 1) + (year - 1) / 4 - (year - 1) / 100 + (year - 1) / 400 := by
  simp [newYear, todaynumber, dayinyear, frommonth]

theorem todaynumber_eq (year : ℤ) (m : Month) (day : ℤ) :
    todaynumber year m day = newYear year + before year m + (day - 1) := by
  rw [newYear_eq, todaynumber, dayinyear_eq]
  ring

theorem before_jan (year : ℤ) : before year .jan = 0 := by
  simp [before, dayinyear, frommonth]

/-- A month begins when the one before ends. -/
theorem before_next (year : ℤ) (h : m.next = some m') : before year m' = before year m + monthdays year m := by
  cases m <;> cases h <;> simp only [before, dayinyear, frommonth, monthdays] <;> split_ifs <;> omega

/-- A year ends with its last month. -/
theorem before_last (year : ℤ) (h : m.next = none) : before year m + monthdays year m = yeardays year := by
  cases m <;> cases h
  simp only [before, dayinyear, frommonth, monthdays, yeardays]
  split_ifs <;> omega

/-- A year begins when the one before ends. -/
theorem newYear_succ (year : ℤ) : newYear (year + 1) = newYear year + yeardays year := by
  rw [newYear_eq, newYear_eq, yeardays]
  split_ifs <;> omega

/-- **The number of a day counts the days.** -/
theorem todaynumber_tomorrow (h : Valid year m day) :
    todaynumber (tomorrow year m day).1 (tomorrow year m day).2.1 (tomorrow year m day).2.2 =
      todaynumber year m day + 1 := by
  simp only [tomorrow]
  split
  · simp only [todaynumber_eq]
    ring
  · next hlast =>
    have hday : day = monthdays year m := by
      have := h.2
      omega
    split
    · next m' hm =>
      rw [todaynumber_eq, todaynumber_eq, before_next _ hm, hday]
      ring
    · next hm =>
      have hyear := before_last year hm
      rw [todaynumber_eq, todaynumber_eq, newYear_succ, before_jan, ← hyear, hday]
      ring

/-! ## The day with a number -/

theorem yeardays_pos (year : ℤ) : 365 ≤ yeardays year := by
  rw [yeardays]
  split_ifs <;> omega

/-- Years follow one another. -/
theorem newYear_le (h : year < year') : newYear year + yeardays year ≤ newYear year' := by
  rw [← newYear_succ]
  have hle : year + 1 ≤ year' := h
  induction year', hle using Int.leInduction with
  | base => exact le_refl _
  | succ year' hle ih =>
    have := yeardays_pos year'
    rw [newYear_succ year']
    have := ih (by omega)
    omega

theorem before_nonneg (year : ℤ) (m : Month) : 0 ≤ before year m := by
  cases m <;> simp only [before, dayinyear, frommonth] <;> split_ifs <;> omega

/-- Months follow one another. -/
theorem before_le (year : ℤ) (h : frommonth m < frommonth m') : before year m + monthdays year m ≤ before year m' := by
  cases hm : m.next with
  | none =>
    cases m <;> cases hm
    cases m' <;> simp [frommonth] at h
  | some k =>
    rw [← before_next _ hm]
    cases m <;> cases hm <;> cases m' <;> simp [frommonth] at h <;> simp only [before, dayinyear, frommonth] <;>
      split_ifs <;> omega

theorem before_add_le (year : ℤ) (m : Month) : before year m + monthdays year m ≤ yeardays year := by
  by_cases hm : m = .dec
  · subst hm
    exact le_of_eq (before_last _ rfl)
  · have hlt : frommonth m < frommonth .dec := by cases m <;> simp [frommonth] at hm ⊢
    have := before_le year hlt
    have := monthdays_pos year .dec
    have : before year .dec + monthdays year .dec = yeardays year := before_last _ rfl
    omega

theorem frommonth_injective (h : frommonth m = frommonth m') : m = m' := by
  have := (tomonth_frommonth m).symm.trans (h ▸ tomonth_frommonth m')
  exact Except.ok.inj this

/-- The number of a day is in its year. -/
theorem Valid.bounds (h : Valid year m day) :
    newYear year ≤ todaynumber year m day ∧ todaynumber year m day < newYear year + yeardays year := by
  obtain ⟨hfrom, hto⟩ := h
  have hle := before_add_le year m
  have hnonneg := before_nonneg year m
  rw [todaynumber_eq]
  constructor <;> omega

/-- **Different days have different numbers.** -/
theorem todaynumber_injective (h : Valid year m day) (h' : Valid year' m' day')
    (heq : todaynumber year m day = todaynumber year' m' day') : year = year' ∧ m = m' ∧ day = day' := by
  have hyear : year = year' := by
    obtain hlt | heq' | hlt := lt_trichotomy year year'
    · have := newYear_le hlt
      have := h.bounds
      have := h'.bounds
      omega
    · exact heq'
    · have := newYear_le hlt
      have := h.bounds
      have := h'.bounds
      omega
  subst hyear
  rw [todaynumber_eq, todaynumber_eq] at heq
  have hmonth : frommonth m = frommonth m' := by
    obtain ⟨hfrom, hto⟩ := h
    obtain ⟨hfrom', hto'⟩ := h'
    obtain hlt | heq' | hlt := lt_trichotomy (frommonth m) (frommonth m')
    · have := before_le year hlt
      omega
    · exact heq'
    · have := before_le year hlt
      omega
  obtain rfl := frommonth_injective hmonth
  exact ⟨rfl, rfl, by omega⟩

/-- **The loop** finds the month of a day of the year. -/
theorem loop_eq (hday : 1 ≤ day) (hlast : before year m + day ≤ yeardays year) :
    ∃ m' day', loop year (frommonth m) day = .ok (year, m', day') ∧ Valid year m' day' ∧
      before year m' + day' = before year m + day := by
  induction hn : day.toNat using Nat.strongRec generalizing m day with
  | _ k ih =>
    rw [loop, tomonth_frommonth]
    by_cases hlt : monthdays year m < day
    · obtain ⟨m', hm⟩ : ∃ m', m.next = some m' := by
        cases hm : m.next with
        | some m' => exact ⟨m', rfl⟩
        | none =>
          have := before_last year hm
          omega
      have hnext : frommonth m + 1 = frommonth m' := by
        cases m <;> cases hm <;> rfl
      have hbefore := before_next year hm
      have hpos := monthdays_pos year m
      obtain ⟨m'', day', hloop, hvalid, hsum⟩ :=
        @ih (day - monthdays year m).toNat (by omega) (day - monthdays year m) m' (by omega) (by omega) rfl
      refine ⟨m'', day', ?_, hvalid, by omega⟩
      rw [← hloop, ← hnext]
      exact if_pos hlt
    · exact ⟨m, day, if_neg hlt, ⟨hday, by omega⟩, rfl⟩

/-- **The day with a number.** -/
theorem fromdaynumber_eq (n : ℤ) :
    ∃ year m day, fromdaynumber n = .ok (year, m, day) ∧ Valid year m day ∧ todaynumber year m day = n := by
  -- the cycles, and the last days of some of them
  obtain ⟨a, ha⟩ : ∃ a, (n - 1) / 146097 = a := ⟨_, rfl⟩
  obtain ⟨b, hb⟩ : ∃ b, (n - 1) % 146097 / 36524 = b := ⟨_, rfl⟩
  obtain ⟨c, hc⟩ : ∃ c, (n - 1) % 146097 % 36524 / 1461 = c := ⟨_, rfl⟩
  obtain ⟨e, he⟩ : ∃ e, (n - 1) % 146097 % 36524 % 1461 / 365 = e := ⟨_, rfl⟩
  obtain ⟨r, hr⟩ : ∃ r, (n - 1) % 146097 % 36524 % 1461 % 365 = r := ⟨_, rfl⟩
  have hn : n = 146097 * a + 36524 * b + 1461 * c + 365 * e + r + 1 := by omega
  have hcentury : 0 ≤ b ∧ b ≤ 4 ∧ (b = 4 → c = 0 ∧ e = 0 ∧ r = 0) := by omega
  have hfour : 0 ≤ c ∧ c ≤ 24 ∧ (c = 24 → e ≤ 3) := by omega
  have hyear : 0 ≤ e ∧ e ≤ 4 ∧ (e = 4 → r = 0) := by omega
  have hday : 0 ≤ r ∧ r < 365 := by omega
  simp only [fromdaynumber, ha, hb, hc, he, hr]
  clear ha hb hc he hr
  by_cases hlast : b = 4 ∨ e = 4
  · have hleap : leapyear (400 * a + 100 * b + c * 4 + e) := by
      rw [leapyear]
      omega
    have hdec : monthdays (400 * a + 100 * b + c * 4 + e) .dec = 31 := rfl
    have hbefore := @before_last .dec (400 * a + 100 * b + c * 4 + e) rfl
    rw [yeardays, if_pos hleap, hdec] at hbefore
    refine ⟨400 * a + 100 * b + c * 4 + e, .dec, 31, ?_, ⟨by norm_num, le_of_eq hdec.symm⟩, ?_⟩
    · rw [if_pos hlast, Int.add_sub_cancel]
    · rw [todaynumber_eq, newYear_eq]
      omega
  · have hfirst : newYear (400 * a + 100 * b + c * 4 + e + 1) = n - r := by
      rw [newYear_eq]
      omega
    have hpos := yeardays_pos (400 * a + 100 * b + c * 4 + e + 1)
    have hjan := before_jan (400 * a + 100 * b + c * 4 + e + 1)
    obtain ⟨m, day, hloop, hvalid, hsum⟩ := @loop_eq (400 * a + 100 * b + c * 4 + e + 1) (1 + r) .jan (by omega)
      (by omega)
    refine ⟨_, m, day, ?_, hvalid, ?_⟩
    · rw [if_neg hlast]
      exact hloop
    · rw [todaynumber_eq]
      omega

/-- **Numbers and days are mutually inverse.** -/
theorem fromdaynumber_todaynumber (h : Valid year m day) :
    fromdaynumber (todaynumber year m day) = .ok (year, m, day) := by
  obtain ⟨year', m', day', heq, hvalid, hnumber⟩ := fromdaynumber_eq (todaynumber year m day)
  obtain ⟨rfl, rfl, rfl⟩ := todaynumber_injective hvalid h hnumber
  exact heq

end Days

/-! ## Weekdays -/

theorem weekday_eq (n : ℤ) : ∃ w, weekday n = .ok w ∧ weekday (n + 1) = .ok w.next := by
  have hrange : n % 7 = 0 ∨ n % 7 = 1 ∨ n % 7 = 2 ∨ n % 7 = 3 ∨ n % 7 = 4 ∨ n % 7 = 5 ∨ n % 7 = 6 := by omega
  rw [weekday, weekday, Int.add_emod]
  obtain h | h | h | h | h | h | h := hrange <;> rw [h] <;> exact ⟨_, rfl, rfl⟩

/-- **Numbers of days are calendar arithmetic.** -/
structure Calendar : Prop where
  number : ∀ n, ∃ year m day, fromdaynumber n = .ok (year, m, day) ∧ Valid year m day ∧ todaynumber year m day = n
  day : ∀ year m day, Valid year m day → fromdaynumber (todaynumber year m day) = .ok (year, m, day)
  first : todaynumber 1 .jan 1 = 1
  tomorrow : ∀ year m day, Valid year m day →
    todaynumber (tomorrow year m day).1 (tomorrow year m day).2.1 (tomorrow year m day).2.2 =
      todaynumber year m day + 1
  weekdayFirst : weekday 1 = .ok .mon
  weekdayNext : ∀ n, ∃ w, weekday n = .ok w ∧ weekday (n + 1) = .ok w.next
  dayinyear : ∀ year m day, dayinyear year m day = todaynumber year m day - todaynumber year .jan 1

theorem calendar : Calendar where
  number := fromdaynumber_eq
  day _ _ _ := fromdaynumber_todaynumber
  first := rfl
  tomorrow _ _ _ := todaynumber_tomorrow
  weekdayFirst := rfl
  weekdayNext := weekday_eq
  dayinyear year m day := by
    rw [todaynumber_eq, dayinyear_eq]
    change _ = _ - newYear year
    ring

/-! ## Normalisation -/

section Normalisation

/-- The seconds up to an instant, on a calendar that counts them. -/
def instant (year : ℤ) (m : Month) (day hour minute second : ℤ) : ℤ :=
  ((todaynumber year m day * 24 + hour) * 60 + minute) * 60 + second

/-- A date whose fields are in range, and agree. -/
structure Normal (d : T) : Prop where
  ok : okDate d
  weekDay : weekday (todaynumber d.year d.month d.day) = .ok d.weekDay
  yearDay : d.yearDay = dayinyear d.year d.month d.day

/-- The date denotes the instant. -/
def Denotes (d : T) (i : ℤ) : Prop := instant d.year d.month d.day d.hour d.minute d.second = i

variable (localtime : Tmoz → Except Exn Tmoz) (year : ℤ) (m : Month) (day hour minute second : ℤ)

/-- **Normalisation** keeps the instant, where the offset is given. -/
theorem normalizedate_eq (secs : ℤ) :
    ∃ d, normalizedate localtime year m day hour minute second (some secs) = .ok d ∧ Normal d ∧
      Denotes d (instant year m day hour minute second) ∧ d.offset = some secs := by
  obtain ⟨mn1, hmn1⟩ : ∃ mn1, minute + second / 60 = mn1 := ⟨_, rfl⟩
  obtain ⟨hr1, hhr1⟩ : ∃ hr1, hour + mn1 / 60 = hr1 := ⟨_, rfl⟩
  obtain ⟨dayno, hdayno⟩ : ∃ dayno, todaynumber year m day + hr1 / 24 = dayno := ⟨_, rfl⟩
  obtain ⟨year', m', day', hfrom, hvalid, hnumber⟩ := fromdaynumber_eq dayno
  obtain ⟨w, hw, -⟩ := weekday_eq dayno
  refine ⟨⟨day', hr1 % 24, some false, mn1 % 60, m', some secs, second % 60, w, year', dayinyear year' m' day'⟩, ?_,
    ⟨?_, by rw [← hw, hnumber], rfl⟩, ?_, rfl⟩
  · simp only [normalizedate, hmn1, hhr1, hdayno, hfrom, hw, bind, Except.bind, pure, Except.pure]
    split <;> rfl
  · refine ⟨hvalid.1, hvalid.2, ?_⟩
    dsimp only
    omega
  · rw [Denotes, instant, instant]
    dsimp only
    omega

/-- The whole days of a time. -/
def wholeDays (t : Time) : ℤ := t.ticks.tdiv (86400 * 1000000000)

/-- A time, reduced modulo 24 hours. -/
def reduced (t : Time) : Time := ⟨t.ticks % (86400 * 1000000000)⟩

/-- The time is so many half days. -/
def HalfDays (t : Time) : Prop := 43200 * 1000000000 ∣ t.ticks

theorem tdiv_toSeconds (t : Time) : (Time.toSeconds t).tdiv 86400 = wholeDays t := by
  have hnat : ∀ n : ℕ, (n : ℤ).tdiv 1000000000 = (n / 1000000000 : ℕ) := fun n => by
    rw [Int.tdiv_eq_ediv_of_nonneg (Int.natCast_nonneg n)]
    rfl
  have hnat' : ∀ n : ℕ, ((n / 1000000000 : ℕ) : ℤ).tdiv 86400 = (n : ℤ).tdiv (86400 * 1000000000) := fun n => by
    rw [Int.tdiv_eq_ediv_of_nonneg (Int.natCast_nonneg _), Int.tdiv_eq_ediv_of_nonneg (Int.natCast_nonneg n)]
    omega
  rw [Time.toSeconds_eq, wholeDays]
  obtain ⟨n, hn | hn⟩ := t.ticks.eq_nat_or_neg
  · rw [hn, hnat, hnat']
  · rw [hn, Int.neg_tdiv, hnat, Int.neg_tdiv, hnat', Int.neg_tdiv]

/-- **`date`** denotes the instant of its fields, with the whole days of the offset. -/
theorem date_eq (hyear : 0 ≤ year) (t : Time) :
    ∃ d, date localtime year m day hour minute second (some t) = .ok d ∧ Normal d ∧
      Denotes d (instant year m (day + wholeDays t) hour minute second) ∧
      d.offset = some (if Time.toSeconds t ≤ 82800 then -Time.toSeconds t else 86400 - Time.toSeconds t) := by
  rw [date, if_neg (Int.not_lt.mpr hyear)]
  dsimp only
  rw [tdiv_toSeconds]
  exact normalizedate_eq localtime year m (day + wholeDays t) hour minute second _

/-- What is given out for the offset is the opposite of what was asked for. -/
theorem offset_eq {d : T} {t : Time}
    (h : d.offset = some (if Time.toSeconds t ≤ 82800 then -Time.toSeconds t else 86400 - Time.toSeconds t)) :
    offset d = some ⟨(-(t.ticks.tdiv 1000000000)) % 86400 * 1000000000⟩ := by
  rw [offset, h, Option.map_some, Time.toSeconds_eq]
  have hmod : (86400 + if t.ticks.tdiv 1000000000 ≤ 82800 then -t.ticks.tdiv 1000000000
      else 86400 - t.ticks.tdiv 1000000000) % 86400 = (-t.ticks.tdiv 1000000000) % 86400 := by
    split <;> omega
  rw [hmod]
  rfl

theorem offset_reduced_iff {d : T} {t : Time}
    (h : d.offset = some (if Time.toSeconds t ≤ 82800 then -Time.toSeconds t else 86400 - Time.toSeconds t)) :
    offset d = some (reduced t) ↔ HalfDays t := by
  rw [offset_eq h, Option.some.injEq, reduced, Time.mk.injEq, HalfDays]
  -- either way the time is so many seconds
  by_cases hsecs : 1000000000 ∣ t.ticks
  · obtain ⟨s, hs⟩ := hsecs
    rw [hs, Int.mul_tdiv_cancel_left _ (by norm_num)]
    omega
  · refine iff_of_false (fun heq => hsecs ?_) fun hhalf => hsecs ?_
    · omega
    · omega

/-- What `date` and `offset` are to do. -/
def Meets (t : Time) : Prop :=
  ∃ d, date localtime year m day hour minute second (some t) = .ok d ∧ Normal d ∧
    Denotes d (instant year m (day + wholeDays t) hour minute second) ∧ offset d = some (reduced t)

theorem meets_iff (hyear : 0 ≤ year) (t : Time) :
    Meets localtime year m day hour minute second t ↔ HalfDays t := by
  obtain ⟨d, hd, hnormal, hdenotes, hoffset⟩ := date_eq localtime year m day hour minute second hyear t
  rw [← offset_reduced_iff hoffset]
  constructor
  · rintro ⟨d', hd', -, -, hreduced⟩
    obtain rfl := Except.ok.inj (hd.symm.trans hd')
    exact hreduced
  · exact fun hreduced => ⟨d, hd, hnormal, hdenotes, hreduced⟩

end Normalisation

/-- **Dates are calendar arithmetic**, and the offset comes back exactly if it is so many half days. -/
theorem date_correct_iff (localtime : Tmoz → Except Exn Tmoz) (year : ℤ) (m : Month) (day hour minute second : ℤ)
    (t : Time) (hyear : 0 ≤ year) : Calendar ∧
    (∃ d, date localtime year m day hour minute second (some t) = .ok d ∧ Normal d ∧
      Denotes d (instant year m (day + wholeDays t) hour minute second)) ∧
    (Meets localtime year m day hour minute second t ↔ HalfDays t) := by
  refine ⟨calendar, ?_, ?_⟩
  · obtain ⟨d, hd, hnormal, hdenotes, -⟩ := date_eq localtime year m day hour minute second hyear t
    exact ⟨d, hd, hnormal, hdenotes⟩
  · exact meets_iff localtime year m day hour minute second hyear t

/-- The first of January 2000, with an offset of 12 hours. -/
theorem date_correct_iff_2000 : Meets .ok 2000 .jan 1 0 0 0 (Time.fromSeconds 43200) :=
  (date_correct_iff .ok 2000 .jan 1 0 0 0 (Time.fromSeconds 43200) (by norm_num)).2.2.mpr ⟨1, rfl⟩

/-- An offset of one hour comes back as one of 23 hours. -/
theorem not_meets : (∀ d, date .ok 2000 .jan 1 0 0 0 (some (Time.fromSeconds 3600)) = .ok d →
    offset d = some (Time.fromSeconds 82800)) ∧ ¬ Meets .ok 2000 .jan 1 0 0 0 (Time.fromSeconds 3600) := by
  constructor
  · intro d' hd'
    obtain ⟨d, hd, -, -, hoffset⟩ := date_eq .ok 2000 .jan 1 0 0 0 (by norm_num) (Time.fromSeconds 3600)
    obtain rfl := Except.ok.inj (hd.symm.trans hd')
    rw [offset_eq hoffset]
    rfl
  · rw [meets_iff _ _ _ _ _ _ _ (by norm_num), HalfDays, Time.fromSeconds_ticks]
    norm_num

end MLton.Date
