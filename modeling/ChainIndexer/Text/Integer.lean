import ChainIndexer.Int64Range

namespace ChainIndexer.Text

def digitValue? (c : Char) : Option Nat :=
  if c.isDigit then some (c.toNat - '0'.toNat) else none

def digits? : Nat → List Char → Option Nat
  | n, [] => some n
  | n, c :: r => (digitValue? c).bind fun d => digits? (10 * n + d) r

def natural? : List Char → Option Nat
  | [] => none
  | s => digits? 0 s

def integer? : List Char → Option Int
  | '-' :: r => (natural? r).map fun n => -(n : Int)
  | '+' :: r => (natural? r).map fun n => (n : Int)
  | s => (natural? s).map fun n => (n : Int)

def int64? (s : List Char) : Option Int :=
  (integer? s).filter fun n => decide (Int64Range.Holds n)

def hexDigit (n : Nat) : Char :=
  if n < 10 then Char.ofNat (48 + n) else Char.ofNat (87 + n)

def hex : Nat → Nat → List Char
  | 0, _ => []
  | k + 1, n => hex k (n / 16) ++ [hexDigit (n % 16)]

def hexValue? (c : Char) : Option Nat :=
  let n := c.toNat
  if 48 ≤ n && n ≤ 57 then some (n - 48)
  else if 97 ≤ n && n ≤ 102 then some (n - 87)
  else if 65 ≤ n && n ≤ 70 then some (n - 55)
  else none

def inBase? (base : Nat) : Nat → List Char → Option Nat
  | n, [] => some n
  | n, c :: r => ((hexValue? c).filter (· < base)).bind fun d => inBase? base (base * n + d) r

def padded (width n : Nat) : String :=
  let s := toString n
  String.ofList (List.replicate (width - s.length) '0') ++ s

end ChainIndexer.Text
