import Mathlib.Tactic.IntervalCases

/-!
# Dates and datetimes in ISO 8601

The calendar dates and datetimes of Python's `datetime` module with the text that
`isoformat` writes for them. `fromisoformat` reads that text back; what it makes of any other
text depends on the version of Python and is left open.
-/

namespace IsoFormat

/-! ### Readers -/

/-- A reader takes a value off the front of a text. -/
abbrev Reader (α : Type) := StateT (List Char) Option α

/-- One character. -/
def literal (c : Char) : Reader Unit := fun text ↦
  match text with
  | [] => none
  | d :: rest => if d = c then some ((), rest) else none

/-- One decimal digit. -/
def digit : Reader Nat := fun text ↦
  match text with
  | [] => none
  | c :: rest => if c.isDigit then some (c.toNat - 48, rest) else none

/-- A number of `width` digits. -/
def number : Nat → Reader Nat
  | 0 => pure 0
  | width + 1 => do
    let high ← number width
    let low ← digit
    return 10 * high + low

/-- `f"{n:0{width}d}"` of a number that fits. -/
def padded : Nat → Nat → List Char
  | 0, _ => []
  | width + 1, n => padded width (n / 10) ++ [Nat.digitChar (n % 10)]

@[simp]
theorem literal_run (c : Char) (rest : List Char) :
    (literal c).run (c :: rest) = some ((), rest) := by
  simp [literal, StateT.run]

theorem digit_run {n : Nat} (h : n < 10) (rest : List Char) :
    digit.run (Nat.digitChar n :: rest) = some (n, rest) := by
  interval_cases n <;> rfl

/-- A padded number is read back. -/
theorem number_run {width n : Nat} (h : n < 10 ^ width) (rest : List Char) :
    (number width).run (padded width n ++ rest) = some (n, rest) := by
  induction width generalizing n rest with
  | zero =>
    obtain rfl : n = 0 := by omega
    rfl
  | succ width ih =>
    have hhigh : n / 10 < 10 ^ width := Nat.div_lt_of_lt_mul (by rw [← pow_succ']; exact h)
    have hlow : n % 10 < 10 := Nat.mod_lt n (by omega)
    simp [number, padded, ih hhigh, digit_run hlow, Nat.div_add_mod]

/-! ### Dates -/

/-- The length of a month in the proleptic Gregorian calendar. -/
def daysInMonth (year month : Nat) : Nat :=
  if month = 2 then
    if year % 4 = 0 ∧ (year % 100 ≠ 0 ∨ year % 400 = 0) then 29 else 28
  else if month = 4 ∨ month = 6 ∨ month = 9 ∨ month = 11 then 30
  else 31

/-- `datetime.date`. -/
structure Date where
  year : Nat
  month : Nat
  day : Nat
  year_range : 1 ≤ year ∧ year ≤ 9999
  month_range : 1 ≤ month ∧ month ≤ 12
  day_range : 1 ≤ day ∧ day ≤ daysInMonth year month
  deriving DecidableEq, Repr

/-- `date(year, month, day)`. -/
def Date.of? (year month day : Nat) : Option Date :=
  if h : (1 ≤ year ∧ year ≤ 9999) ∧ (1 ≤ month ∧ month ≤ 12) ∧
      1 ≤ day ∧ day ≤ daysInMonth year month then
    some ⟨year, month, day, h.1, h.2.1, h.2.2⟩
  else none

/-- The text of a date. -/
def Date.text (d : Date) : List Char :=
  padded 4 d.year ++ '-' :: (padded 2 d.month ++ '-' :: padded 2 d.day)

/-- `date.isoformat`. -/
def Date.isoformat (d : Date) : String := String.ofList d.text

/-- Reads the text of a date. -/
def date : Reader Date := do
  let year ← number 4
  literal '-'
  let month ← number 2
  literal '-'
  let day ← number 2
  StateT.lift (Date.of? year month day)

theorem daysInMonth_le (year month : Nat) : daysInMonth year month ≤ 31 := by
  unfold daysInMonth
  split_ifs <;> omega

theorem Date.of?_self (d : Date) : Date.of? d.year d.month d.day = some d := by
  rw [Date.of?, dif_pos ⟨d.year_range, d.month_range, d.day_range⟩]

/-- The text of a date is read back. -/
theorem date_run (d : Date) (rest : List Char) : date.run (d.text ++ rest) = some (d, rest) := by
  have hyear : d.year < 10 ^ 4 := by have := d.year_range; omega
  have hmonth : d.month < 10 ^ 2 := by have := d.month_range; omega
  have hday : d.day < 10 ^ 2 := by
    have := d.day_range
    have := daysInMonth_le d.year d.month
    omega
  simp [date, Date.text, number_run hyear, number_run hmonth, number_run hday, Date.of?_self]

/-! ### Datetimes -/

/-- The time of a day, or the size of an offset from UTC. -/
structure Clock where
  hour : Fin 24
  minute : Fin 60
  second : Fin 60
  microsecond : Fin 1000000
  deriving DecidableEq, Repr

/-- `datetime.timezone`: an offset is strictly between two days, and zero is not negative. -/
structure Offset where
  negative : Bool
  size : Clock
  signed : size = ⟨0, 0, 0, 0⟩ → negative = false
  deriving DecidableEq, Repr

/-- `datetime.datetime`, naive or with an offset from UTC. -/
structure DateTime where
  date : Date
  clock : Clock
  offset : Option Offset := none
  deriving DecidableEq, Repr

/-- The microseconds of a text, which leaves out zero. -/
def fractionText (n : Fin 1000000) : List Char := if n = 0 then [] else '.' :: padded 6 n

/-- Hours and minutes. -/
def Clock.minutesText (c : Clock) : List Char := padded 2 c.hour ++ ':' :: padded 2 c.minute

/-- The time of a datetime. -/
def Clock.text (c : Clock) : List Char :=
  c.minutesText ++ ':' :: (padded 2 c.second ++ fractionText c.microsecond)

/-- The size of an offset, which leaves out zero seconds. -/
def Clock.sizeText (c : Clock) : List Char :=
  c.minutesText ++
    if c.second = 0 ∧ c.microsecond = 0 then []
    else ':' :: (padded 2 c.second ++ fractionText c.microsecond)

/-- The sign of an offset. -/
def Offset.sign (o : Offset) : Char := if o.negative then '-' else '+'

/-- The text of an offset. -/
def Offset.text (o : Offset) : List Char := o.sign :: o.size.sizeText

/-- The text of a datetime. -/
def DateTime.text (d : DateTime) : List Char :=
  d.date.text ++ 'T' :: (d.clock.text ++ (d.offset.map Offset.text).getD [])

/-- `datetime.isoformat`. -/
def DateTime.isoformat (d : DateTime) : String := String.ofList d.text

/-- A number below `n`. -/
def below (width n : Nat) : Reader (Fin n) := do
  let k ← number width
  if h : k < n then return ⟨k, h⟩ else StateT.lift none

/-- Microseconds, or none. -/
def fraction : Reader (Fin 1000000) := fun text ↦
  match text with
  | '.' :: rest => (below 6 1000000).run rest
  | rest => some (0, rest)

/-- Seconds with their microseconds. -/
def seconds : Reader (Fin 60 × Fin 1000000) := do
  literal ':'
  let second ← below 2 60
  let microsecond ← fraction
  return (second, microsecond)

/-- Hours and minutes. -/
def minutes : Reader (Fin 24 × Fin 60) := do
  let hour ← below 2 24
  literal ':'
  let minute ← below 2 60
  return (hour, minute)

/-- The time of a datetime. -/
def clock : Reader Clock := do
  let (hour, minute) ← minutes
  let (second, microsecond) ← seconds
  return ⟨hour, minute, second, microsecond⟩

/-- An offset with its sign; zero has none. -/
def Offset.of (negative : Bool) (size : Clock) : Offset :=
  ⟨negative && size ≠ ⟨0, 0, 0, 0⟩, size, fun h ↦ by simp [h]⟩

/-- The size of an offset, whose seconds may be left out. -/
def offsetSize : Reader Clock := do
  let (hour, minute) ← minutes
  let rest ← get
  if rest = [] then return ⟨hour, minute, 0, 0⟩
  else
    let (second, microsecond) ← seconds
    return ⟨hour, minute, second, microsecond⟩

/-- The offset at the end of a text, or none. -/
def offset : Reader (Option Offset) := fun text ↦
  match text with
  | [] => some (none, [])
  | sign :: rest =>
    if sign = '+' ∨ sign = '-' then
      (offsetSize.run rest).map fun (size, rest) ↦
        (some (Offset.of (decide (sign = '-')) size), rest)
    else none

/-- Reads the text of a datetime. -/
def dateTime : Reader DateTime := do
  let date ← date
  literal 'T'
  let clock ← clock
  let offset ← offset
  return { date, clock, offset }

theorem below_run (width n : Nat) (h : n ≤ 10 ^ width) (k : Fin n) (rest : List Char) :
    (below width n).run (padded width k ++ rest) = some (k, rest) := by
  simp [below, number_run (k.isLt.trans_le h)]

/-- Microseconds are read back before a text that does not go on with a fraction. -/
theorem fraction_run (n : Fin 1000000) {rest : List Char} (h : rest.head? ≠ some '.') :
    fraction.run (fractionText n ++ rest) = some (n, rest) := by
  unfold fractionText
  split
  · next hn =>
    subst hn
    rw [List.nil_append]
    cases rest with
    | nil => rfl
    | cons c rest =>
      have hc : c ≠ '.' := by simpa using h
      simp [fraction, StateT.run, hc]
  · exact below_run 6 1000000 (by decide) n rest

theorem minutes_run (c : Clock) (rest : List Char) :
    minutes.run (c.minutesText ++ rest) = some ((c.hour, c.minute), rest) := by
  have hhour := below_run 2 24 (by decide) c.hour
  have hminute := below_run 2 60 (by decide) c.minute
  simp [minutes, Clock.minutesText, hhour, hminute]

theorem seconds_run (c : Clock) (rest : List Char) (h : rest.head? ≠ some '.') :
    seconds.run (':' :: (padded 2 c.second ++ fractionText c.microsecond) ++ rest) =
      some ((c.second, c.microsecond), rest) := by
  have hsecond := below_run 2 60 (by decide) c.second
  simp [seconds, hsecond, fraction_run c.microsecond h]

theorem clock_run (c : Clock) {rest : List Char} (h : rest.head? ≠ some '.') :
    clock.run (c.text ++ rest) = some (c, rest) := by
  have hseconds := seconds_run c rest h
  simp only [List.cons_append, List.append_assoc] at hseconds
  simp [clock, Clock.text, minutes_run, hseconds]

theorem offsetSize_run (c : Clock) : offsetSize.run c.sizeText = some (c, []) := by
  unfold Clock.sizeText
  split_ifs with hzero
  · obtain ⟨hsecond, hmicrosecond⟩ := hzero
    have hc : (⟨c.hour, c.minute, 0, 0⟩ : Clock) = c := by rw [← hsecond, ← hmicrosecond]
    have hminutes := minutes_run c []
    rw [List.append_nil] at hminutes
    simp [offsetSize, hminutes, hc]
  · have hseconds := seconds_run c [] (by simp)
    rw [List.append_nil] at hseconds
    simp [offsetSize, minutes_run, hseconds]

/-- The sign of an offset is that of its size. -/
theorem Offset.of_self (o : Offset) : Offset.of o.negative o.size = o := by
  obtain ⟨negative, size, signed⟩ := o
  simp only [Offset.of, Offset.mk.injEq, and_true]
  cases negative with
  | false => rfl
  | true => simpa using signed

theorem offset_run (o : Option Offset) :
    offset.run ((o.map Offset.text).getD []) = some (o, []) := by
  cases o with
  | none => rfl
  | some o =>
    have hsign : o.sign = '+' ∨ o.sign = '-' := by
      unfold Offset.sign
      split <;> simp
    have hnegative : decide (o.sign = '-') = o.negative := by
      unfold Offset.sign
      split <;> simp [*]
    have hsize : offsetSize o.size.sizeText = some (o.size, []) := offsetSize_run o.size
    simp [offset, Offset.text, StateT.run, hsign, hsize, hnegative, o.of_self]

/-- The text of a datetime is read back. -/
theorem dateTime_run (d : DateTime) : dateTime.run d.text = some (d, []) := by
  have hoffset : ((d.offset.map Offset.text).getD []).head? ≠ some '.' := by
    cases d.offset with
    | none => simp
    | some o => cases hn : o.negative <;> simp [Offset.text, Offset.sign, hn]
  simp [dateTime, DateTime.text, date_run, clock_run _ hoffset, offset_run]

/-! ### `fromisoformat` -/

/-- `date.fromisoformat`: the text of a date is read back, and `other` reads any other. -/
def Date.fromisoformat (other : String → Option Date) (s : String) : Option Date :=
  match date.run s.toList with
  | some (d, []) => some d
  | _ => other s

/-- `datetime.fromisoformat`, with the same freedom. -/
def DateTime.fromisoformat (other : String → Option DateTime) (s : String) : Option DateTime :=
  match dateTime.run s.toList with
  | some (d, []) => some d
  | _ => other s

/-- `date.fromisoformat` is the inverse of `isoformat`. -/
theorem Date.fromisoformat_isoformat (other : String → Option Date) (d : Date) :
    Date.fromisoformat other d.isoformat = some d := by
  have hrun := date_run d []
  rw [List.append_nil] at hrun
  simp [Date.fromisoformat, Date.isoformat, hrun]

/-- `datetime.fromisoformat` is the inverse of `isoformat`. -/
theorem DateTime.fromisoformat_isoformat (other : String → Option DateTime) (d : DateTime) :
    DateTime.fromisoformat other d.isoformat = some d := by
  simp [DateTime.fromisoformat, DateTime.isoformat, dateTime_run]

end IsoFormat
