import Mathlib.Data.Int.Init

/-!
# The calendar

The broken-down time of a number of seconds since 1970, in UTC and without leap
seconds. Years are counted from March here: the leap day is then the last day of
its year, the long years are the last ones of their group of four, and the long
centuries the last ones of their group of four.
-/

namespace Calendar

/-- The fields of a date and a time of day. The year is the full one. -/
structure Tm where
  sec : Fin 60
  min : Fin 60
  hour : Fin 24
  mday : Nat
  mon : Fin 12
  year : Int
  wday : Fin 7
  mday_pos : 1 ≤ mday
  mday_le : mday ≤ 31
deriving DecidableEq, Repr

/-- A year that begins in March, and a day in it. -/
structure MarchDay where
  year : Int
  day : Nat
  day_le : day ≤ 365

/-- The year and the day of the day `z`, counted from the first of March of the
year 0. -/
def marchDay (z : Int) : MarchDay :=
  let rest := (z % 146097).toNat
  let century := min 3 (rest / 36524)
  let rest := rest - century * 36524
  let group := rest / 1461
  let rest := rest % 1461
  let single := min 3 (rest / 365)
  { year := z / 146097 * 400 + (century * 100 + group * 4 + single : Nat)
    day := rest - single * 365
    day_le := by
      have hrest : rest < 1461 := Nat.mod_lt _ (by decide)
      have hsingle : single = min 3 (rest / 365) := rfl
      omega }

/-- The number of the month from March on. -/
def MarchDay.month (d : MarchDay) : Nat := (5 * d.day + 2) / 153

/-- The day of the month, beginning with 1. -/
def MarchDay.mday (d : MarchDay) : Nat := d.day - (153 * d.month + 2) / 5 + 1

theorem MarchDay.mday_le (d : MarchDay) : d.mday ≤ 31 := by
  have hday := d.day_le
  unfold MarchDay.mday MarchDay.month
  omega

/-- `gmtime`. -/
def gmtime (t : Int) : Tm :=
  let days := t / 86400
  let seconds := (t % 86400).toNat
  let d := marchDay (days + 719468)
  { sec := ⟨seconds % 60, Nat.mod_lt _ (by decide)⟩
    min := ⟨seconds / 60 % 60, Nat.mod_lt _ (by decide)⟩
    hour := ⟨seconds / 3600 % 24, Nat.mod_lt _ (by decide)⟩
    mday := d.mday
    mon := ⟨(d.month + 2) % 12, Nat.mod_lt _ (by decide)⟩
    year := if d.month < 10 then d.year else d.year + 1
    wday := ⟨((days + 4) % 7).toNat, by omega⟩
    mday_pos := Nat.le_add_left 1 _
    mday_le := d.mday_le }

example : gmtime 951827696 = ⟨56, 34, 12, 29, 1, 2000, 2, by decide, by decide⟩ := by decide +kernel

end Calendar
