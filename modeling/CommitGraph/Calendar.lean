namespace CommitGraph

structure Date where
  year : Int
  month : Nat
  day : Nat
  deriving DecidableEq

namespace Date

/-- Days from the first of March of year 0 to the first of January 1970. -/
def epoch : Int := 719468

/-- Days in four hundred years. -/
def cycle : Int := 146097

/-- The date so many days after the first of January 1970. Years are counted from March, so that
a leap day is the last day of its year. -/
def ofDays (days : Int) : Date :=
  let n := days + epoch
  -- Every fourth year has a day more, but for three years out of four hundred.
  let inCycle := n % cycle
  let year := (inCycle - inCycle / 1460 + inCycle / 36524 - inCycle / 146096) / 365
  let inYear := inCycle - (365 * year + year / 4 - year / 100)
  -- From March on, five months in a row have 153 days.
  let month := (5 * inYear + 2) / 153
  let day := inYear - (153 * month + 2) / 5 + 1
  let year := year + 400 * (n / cycle)
  if month < 10 then ⟨year, (month + 3).toNat, day.toNat⟩
  else ⟨year + 1, (month - 9).toNat, day.toNat⟩

end Date

namespace Calendar

/-- The first and the last second that have a date. -/
def first : Int := -8334601228800

def last : Int := 8210266876799

def padded (width n : Nat) : String :=
  let ds := Nat.toDigits 10 n
  String.ofList (List.replicate (width - ds.length) '0' ++ ds)

/-- A year of four digits, or with a sign where four digits do not give it. -/
def yearText (y : Int) : String :=
  if 0 ≤ y ∧ y ≤ 9999 then padded 4 y.toNat
  else (if y < 0 then "-" else "+") ++ padded 4 y.natAbs

def text? (time : Int) : Option String :=
  if first ≤ time ∧ time ≤ last then
    let d := Date.ofDays (time / 86400)
    let minutes := (time % 86400).toNat / 60
    some (yearText d.year ++ "-" ++ padded 2 d.month ++ "-" ++ padded 2 d.day ++ " "
      ++ padded 2 (minutes / 60) ++ ":" ++ padded 2 (minutes % 60))
  else none

end Calendar

end CommitGraph
