import ChainIndexer.Text.Blank
import ChainIndexer.Text.Integer

namespace ChainIndexer

/-- An instant: seconds since the start of 1970 and nanoseconds. A leap second is the second
before it with a thousand million nanoseconds or more. -/
structure Timestamp where
  seconds : Int
  nanos : Nat
  deriving DecidableEq, Repr, Inhabited

namespace Timestamp

def ofMillis (ms : Int) : Timestamp := ⟨ms / 1000, (ms % 1000).toNat * 1000000⟩

def toMillis (t : Timestamp) : Int := t.seconds * 1000 + t.nanos / 1000000

structure Date where
  year : Int
  month : Nat
  day : Nat
  deriving DecidableEq, Repr

/-- Days are counted in eras of four hundred years that start on the first of March. -/
def dateOfDays (days : Int) : Date :=
  let z := days + 719468
  let era := z / 146097
  let doe := (z % 146097).toNat
  let yoe := (doe - doe / 1460 + doe / 36524 - doe / 146096) / 365
  let doy := doe - (365 * yoe + yoe / 4 - yoe / 100)
  let mp := (5 * doy + 2) / 153
  let month := if mp < 10 then mp + 3 else mp - 9
  ⟨(yoe : Int) + era * 400 + (if month ≤ 2 then 1 else 0), month, doy - (153 * mp + 2) / 5 + 1⟩

def daysOfDate (d : Date) : Int :=
  let y := if d.month ≤ 2 then d.year - 1 else d.year
  let era := y / 400
  let yoe := (y % 400).toNat
  let mp := if 2 < d.month then d.month - 3 else d.month + 9
  let doy := (153 * mp + 2) / 5 + d.day - 1
  let doe := yoe * 365 + yoe / 4 - yoe / 100 + doy
  era * 146097 + (doe : Int) - 719468

def isLeapYear (y : Int) : Bool := y % 4 == 0 && (y % 100 != 0 || y % 400 == 0)

def daysInMonth (y : Int) (m : Nat) : Nat :=
  if m = 2 then if isLeapYear y then 29 else 28
  else if m = 4 || m = 6 || m = 9 || m = 11 then 30 else 31

def yearText (y : Int) : String :=
  if 0 ≤ y && y ≤ 9999 then Text.padded 4 y.toNat
  else (if y < 0 then "-" else "+") ++ Text.padded 4 y.natAbs

def fractionText (nanos : Nat) : String :=
  if nanos = 0 then ""
  else if nanos % 1000000 = 0 then "." ++ Text.padded 3 (nanos / 1000000)
  else if nanos % 1000 = 0 then "." ++ Text.padded 6 (nanos / 1000)
  else "." ++ Text.padded 9 nanos

def text (t : Timestamp) : String :=
  let date := dateOfDays (t.seconds / 86400)
  let sod := (t.seconds % 86400).toNat
  let leap := 1000000000 ≤ t.nanos
  yearText date.year ++ "-" ++ Text.padded 2 date.month ++ "-" ++ Text.padded 2 date.day ++ "T" ++
    Text.padded 2 (sod / 3600) ++ ":" ++ Text.padded 2 (sod / 60 % 60) ++ ":" ++
    Text.padded 2 (sod % 60 + (if leap then 1 else 0)) ++ fractionText (t.nanos % 1000000000) ++ "Z"

def skipBlanks (s : List Char) : List Char := s.dropWhile Text.isBlank

def number? (most : Nat) (s : List Char) : Option (Nat × List Char) :=
  let ds := (s.take most).takeWhile Char.isDigit
  (Text.natural? ds).map fun n => (n, s.drop ds.length)

def field? (most : Nat) (s : List Char) : Option (Nat × List Char) := number? most (skipBlanks s)

def year? (s : List Char) : Option (Int × List Char) :=
  match skipBlanks s with
  | '-' :: r => (number? r.length r).map fun (n, r) => (-(n : Int), r)
  | '+' :: r => (number? r.length r).map fun (n, r) => ((n : Int), r)
  | r => (number? 4 r).map fun (n, r) => ((n : Int), r)

def literal? (c : Char) : List Char → Option (List Char)
  | d :: r => if c = d then some r else none
  | [] => none

def nanos? : List Char → Option (Nat × List Char)
  | '.' :: r =>
    let ds := r.takeWhile Char.isDigit
    let used := ds.take 9
    (Text.natural? used).map fun n => (n * Nat.pow 10 (9 - used.length), r.drop ds.length)
  | s => some (0, s)

def offset? (s : List Char) : Option (Int × List Char) :=
  match s with
  | 'Z' :: r => some (0, r)
  | 'z' :: r => some (0, r)
  | _ =>
    if Text.asciiUppercase (s.take 3) = ['U', 'T', 'C'] then some (0, s.drop 3)
    else do
      let (negative, s) ← match s with
        | '+' :: r => some (false, r)
        | '-' :: r => some (true, r)
        | '\u2212' :: r => some (true, r)
        | _ => none
      let hours ← Text.natural? (s.take 2)
      guard (2 ≤ s.length)
      let s := (s.drop 2).dropWhile fun c => c = ':' || Text.isBlank c
      let minutes ← Text.natural? (s.take 2)
      guard (2 ≤ s.length && minutes < 60)
      let total : Int := hours * 3600 + minutes * 60
      guard (total < 86400)
      some (if negative then -total else total, s.drop 2)

def yearHolds (y : Int) : Bool := -262143 ≤ y && y ≤ 262142

def parse? (text : String) : Option Timestamp := do
  let (year, s) ← year? text.toList
  let s ← literal? '-' (skipBlanks s)
  let (month, s) ← field? 2 s
  let s ← literal? '-' (skipBlanks s)
  let (day, s) ← field? 2 s
  guard (yearHolds year && 1 ≤ month && month ≤ 12 && 1 ≤ day && day ≤ daysInMonth year month)
  let s ← match s with
    | 'T' :: r => some r
    | 't' :: r => some r
    | ' ' :: r => some r
    | _ => none
  let (hour, s) ← field? 2 s
  let s ← literal? ':' (skipBlanks s)
  let (minute, s) ← field? 2 s
  let s ← literal? ':' (skipBlanks s)
  let (second, s) ← field? 2 s
  guard (hour < 24 && minute < 60 && second ≤ 60)
  let (nanos, s) ← nanos? s
  let (offset, s) ← offset? (skipBlanks s)
  guard (skipBlanks s).isEmpty
  let sod := hour * 3600 + minute * 60 + min second 59
  let seconds := daysOfDate ⟨year, month, day⟩ * 86400 + sod - offset
  guard (yearHolds (dateOfDays (seconds / 86400)).year)
  some ⟨seconds, nanos + (if second = 60 then 1000000000 else 0)⟩

end Timestamp

end ChainIndexer
