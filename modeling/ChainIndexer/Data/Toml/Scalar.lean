import ChainIndexer.Data
import ChainIndexer.Timestamp

namespace ChainIndexer.Data.Toml

def grouped? (digit : Char → Bool) : List Char → Option (List Char)
  | [] => none
  | [c] => if digit c then some [c] else none
  | c :: '_' :: r => if digit c then (grouped? digit r).map (c :: ·) else none
  | c :: r => if digit c then (grouped? digit r).map (c :: ·) else none

def splitSign : List Char → Bool × List Char
  | '-' :: r => (true, r)
  | '+' :: r => (false, r)
  | s => (false, s)

def whole? (s : List Char) : Option Nat := do
  let ds ← grouped? Char.isDigit s
  guard (ds.length = 1 || ds.head? != some '0')
  Text.natural? ds

def based? (base : Nat) (s : List Char) : Option Int := do
  let ds ← grouped? (fun c => ((Text.hexValue? c).filter (· < base)).isSome) s
  let n ← Text.inBase? base 0 ds
  some n

def integer? (s : List Char) : Option Int :=
  let n := match s with
    | '0' :: 'x' :: r => based? 16 r
    | '0' :: 'o' :: r => based? 8 r
    | '0' :: 'b' :: r => based? 2 r
    | _ =>
      let (negative, r) := splitSign s
      (whole? r).map fun n => if negative then -(n : Int) else n
  n.filter fun n => decide (Int64Range.Holds n)

def exponent? (s : List Char) : Option Int := do
  let (negative, r) := splitSign s
  let n ← Text.natural? (← grouped? Char.isDigit r)
  some (if negative then -(n : Int) else n)

def bounded? (x : Binary64) : Option Binary64 :=
  if x = .infinite false then none else some x

def float? (s : List Char) : Option Binary64 :=
  let (negative, r) := splitSign s
  if r = ['i', 'n', 'f'] then some (.infinite negative)
  else if r = ['n', 'a', 'n'] then some .nan
  else do
    let isMark := fun c => c = 'e' || c = 'E'
    let mantissa := r.takeWhile fun c => !isMark c
    let tail := r.drop mantissa.length
    let e ← if tail.isEmpty then some 0 else exponent? (tail.drop 1)
    let front := mantissa.takeWhile (· != '.')
    let back := mantissa.drop front.length
    let n ← whole? front
    if back.isEmpty then
      guard (!tail.isEmpty)
      bounded? (.ofDecimal negative n e)
    else
      let ds ← grouped? Char.isDigit (back.drop 1)
      let f ← Text.natural? ds
      bounded? (.ofDecimal negative (n * Nat.pow 10 ds.length + f) (e - ds.length))

def twoDigits? (high : Nat) : List Char → Option (Nat × List Char)
  | a :: b :: r => ((Text.natural? [a, b]).filter (· ≤ high)).map fun n => (n, r)
  | _ => none

def char? (c : Char) : List Char → Option (List Char)
  | d :: r => if c = d then some r else none
  | [] => none

def date? (s : List Char) : Option (List Char) := do
  guard (4 ≤ s.length)
  let year ← Text.natural? (s.take 4)
  let (month, s) ← twoDigits? 12 (← char? '-' (s.drop 4))
  let (day, s) ← twoDigits? 31 (← char? '-' s)
  guard (1 ≤ month && 1 ≤ day && day ≤ Timestamp.daysInMonth year month)
  some s

def time? (s : List Char) : Option (List Char) := do
  let (_, s) ← twoDigits? 23 s
  let (_, s) ← twoDigits? 59 (← char? ':' s)
  let (_, s) ← twoDigits? 60 (← char? ':' s)
  match s with
  | '.' :: r =>
    guard ((r.head?.map Char.isDigit).getD false)
    some (r.dropWhile Char.isDigit)
  | _ => some s

def zone? : List Char → Option (List Char)
  | 'Z' :: r => some r
  | 'z' :: r => some r
  | c :: r => do
    guard (c = '+' || c = '-')
    let (_, r) ← twoDigits? 23 r
    let (_, r) ← twoDigits? 59 (← char? ':' r)
    some r
  | [] => some []

def isDateTime (s : List Char) : Bool :=
  match date? s with
  | some [] => true
  | some (c :: r) =>
    (c = 'T' || c = 't' || c = ' ') && ((time? r).bind zone?) == some []
  | none => time? s == some []

def ofDateTime (s : List Char) : Data :=
  .record [("$__toml_private_datetime", .text (String.ofList s))]

def scalar? (s : List Char) : Option Data :=
  if s = "true".toList then some (.bool true)
  else if s = "false".toList then some (.bool false)
  else if isDateTime s then some (ofDateTime s)
  else match integer? s with
    | some n => some (.int n)
    | none => (float? s).map .float

def isWordChar (c : Char) : Bool :=
  c.isAlphanum || c = '+' || c = '-' || c = '_' || c = '.' || c = ':'

def word (s : List Char) : List Char × List Char :=
  let w := s.takeWhile isWordChar
  let r := s.drop w.length
  match r with
  | ' ' :: t =>
    let v := t.takeWhile isWordChar
    if date? w = some [] && isDateTime (w ++ ' ' :: v) then (w ++ ' ' :: v, t.drop v.length)
    else (w, r)
  | _ => (w, r)

end ChainIndexer.Data.Toml
