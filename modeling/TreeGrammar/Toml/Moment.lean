/-
# Dates and times

A date, a time of day, or a date with a time of day that may name its distance from universal
time.  Parts of a second are kept up to the ninth decimal; what follows is dropped.
-/
import TreeGrammar.Toml.Lexical

namespace TreeGrammar.Toml

/-- A day of a year. -/
structure Date where
  year : Nat
  month : Nat
  day : Nat
deriving DecidableEq

/-- A time of day. -/
structure Time where
  hour : Nat
  minute : Nat
  /-- The second, 60 being a leap second. -/
  second : Nat
  nanosecond : Nat
deriving DecidableEq

/-- The distance of a local time from universal time. -/
inductive Offset where
  | utc
  | minutes (n : Int)
deriving DecidableEq

/-- A date, a time of day, or both. -/
inductive Moment where
  | date (d : Date)
  | time (t : Time)
  | dateTime (d : Date) (t : Time) (offset : Option Offset)
deriving DecidableEq

/-- Number of days of a month. -/
def daysIn (year month : Nat) : Nat :=
  if month = 2 then
    if year % 4 = 0 && (year % 100 ≠ 0 || year % 400 = 0) then 29 else 28
  else if [4, 6, 9, 11].contains month then 30
  else 31

/-! ### Reading -/

/-- Reads `count` digits, the value of which is from `low` to `high`. -/
def digitsWithin (count low high : Nat) : Reader Nat := fun cs =>
  let ds := cs.take count
  let n := Decimal.digitsValue ds
  if ds.length = count && ds.all Char.isDigit && low ≤ n && n ≤ high then
    some (n, cs.drop count)
  else none

/-- The text behind the character `c`. -/
def behind (c : Char) : List Char → Option (List Char)
  | [] => none
  | c' :: cs => if c' = c then some cs else none

/-- Reads a date. -/
def date? : Reader Date := fun cs => do
  let (year, cs) ← digitsWithin 4 0 9999 cs
  let (month, cs) ← digitsWithin 2 1 12 (← behind '-' cs)
  let (day, cs) ← digitsWithin 2 1 (daysIn year month) (← behind '-' cs)
  some (⟨year, month, day⟩, cs)

/-- Reads the nanoseconds behind a second, or none. -/
def nanoseconds (cs : List Char) : Nat × List Char :=
  match cs with
  | '.' :: cs' =>
    let (digits, rest) := Decimal.spanDigits cs'
    if digits.isEmpty then (0, cs)
    else (Decimal.digitsValue ((digits.take 9).rightpad 9 '0'), rest)
  | _ => (0, cs)

/-- Reads a time of day. -/
def time? : Reader Time := fun cs => do
  let (hour, cs) ← digitsWithin 2 0 23 cs
  let (minute, cs) ← digitsWithin 2 0 59 (← behind ':' cs)
  let (second, cs) ← digitsWithin 2 0 60 (← behind ':' cs)
  let (nanosecond, cs) := nanoseconds cs
  some (⟨hour, minute, second, nanosecond⟩, cs)

/-- Reads a distance from universal time. -/
def offset? : Reader Offset
  | 'Z' :: cs => some (.utc, cs)
  | 'z' :: cs => some (.utc, cs)
  | c :: cs => do
    let sign : Int ← if c = '+' then some 1 else if c = '-' then some (-1) else none
    let (hours, cs) ← digitsWithin 2 0 23 cs
    let (minutes, cs) ← digitsWithin 2 0 59 (← behind ':' cs)
    some (.minutes (sign * (60 * hours + minutes : Nat)), cs)
  | [] => none

/-- Reads a time of day behind a date. -/
def timeBehindDate? : Reader Time
  | [] => none
  | c :: cs => if c = 'T' || c = 't' || c = ' ' then time? cs else none

/-- Reads a date, a time, or both. -/
def moment? : Reader Moment := fun cs =>
  match date? cs with
  | none => (time? cs).map fun (t, cs) => (.time t, cs)
  | some (d, cs) =>
    match timeBehindDate? cs with
    | none => some (.date d, cs)
    | some (t, cs) =>
      match offset? cs with
      | none => some (.dateTime d t none, cs)
      | some (o, cs) => some (.dateTime d t (some o), cs)

/-! ### Writing -/

/-- The number with at least `width` digits. -/
def withZeros (width n : Nat) : String :=
  let digits := toString n
  "".pushn '0' (width - digits.length) ++ digits

/-- The text of a date. -/
def Date.text (d : Date) : String :=
  withZeros 4 d.year ++ "-" ++ withZeros 2 d.month ++ "-" ++ withZeros 2 d.day

/-- The text of a time; parts of a second are written without the zeros at their end. -/
def Time.text (t : Time) : String :=
  let parts := ((withZeros 9 t.nanosecond).toList.reverse.dropWhile (· = '0')).reverse
  withZeros 2 t.hour ++ ":" ++ withZeros 2 t.minute ++ ":" ++ withZeros 2 t.second ++
    if parts.isEmpty then "" else "." ++ String.ofList parts

/-- The text of a distance from universal time. -/
def Offset.text : Offset → String
  | utc => "Z"
  | minutes n =>
    (if n < 0 then "-" else "+") ++ withZeros 2 (n.natAbs / 60) ++ ":" ++
      withZeros 2 (n.natAbs % 60)

/-- The text of a moment. -/
def Moment.text : Moment → String
  | date d => d.text
  | time t => t.text
  | dateTime d t o => d.text ++ "T" ++ t.text ++ (o.map Offset.text).getD ""

end TreeGrammar.Toml
