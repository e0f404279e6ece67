import ChainIndexer.Binary64

namespace ChainIndexer.Binary64

/-- A pair of ends in half least values; the ends belong to it when the mantissa is even. -/
structure Interval where
  low : Nat
  high : Nat
  closed : Bool

def interval (units : Nat) : Interval :=
  let s := spacing units
  let m := units / s
  let below := if m = Nat.pow 2 52 && 1 < s then s / 2 else s
  ⟨2 * units - below, 2 * units + s, m % 2 = 0⟩

def Interval.holds (i : Interval) (num den : Nat) : Bool :=
  if i.closed then i.low * den ≤ num && num ≤ i.high * den
  else i.low * den < num && num < i.high * den

structure Decimal where
  digits : Nat
  exponent : Int
  deriving DecidableEq, Repr

def Decimal.halves (d : Decimal) : Nat × Nat :=
  if 0 ≤ d.exponent then (2 * d.digits * Nat.pow 10 d.exponent.toNat * one, 1)
  else (2 * d.digits * one, Nat.pow 10 d.exponent.natAbs)

def floorAt (units : Nat) (exponent : Int) : Nat :=
  if 0 ≤ exponent then units / (one * Nat.pow 10 exponent.toNat)
  else units * Nat.pow 10 exponent.natAbs / one

def leading (units : Nat) : Int :=
  if one ≤ units then (toString (units / one)).length - 1
  else
    let scaled := units * Nat.pow 10 400 / one
    (toString scaled).length - 401

def onGrid (units : Nat) (exponent : Int) : Option Decimal :=
  let i := interval units
  let lower : Decimal := ⟨floorAt units exponent, exponent⟩
  let upper : Decimal := ⟨lower.digits + 1, exponent⟩
  let (ln, ld) := lower.halves
  let (un, ud) := upper.halves
  match i.holds ln ld && lower.digits != 0, i.holds un ud with
  | false, false => none
  | true, false => some lower
  | false, true => some upper
  | true, true => if 2 * units * ld - ln < un - 2 * units * ud then some lower else some upper

def shortest (units : Nat) : Decimal :=
  let top := leading units
  ((List.range 18).findSome? fun (n : Nat) => onGrid units (top - (n : Int))).getD ⟨units, 0⟩

def trimZeros : Nat → Decimal → Decimal
  | 0, d => d
  | k + 1, d =>
    if d.digits % 10 = 0 && d.digits != 0 then trimZeros k ⟨d.digits / 10, d.exponent + 1⟩ else d

def Decimal.positional (d : Decimal) : String :=
  let text := toString d.digits
  if 0 ≤ d.exponent then text ++ String.ofList (List.replicate d.exponent.toNat '0')
  else
    let places := d.exponent.natAbs
    let cs := text.toList
    if cs.length ≤ places then
      "0." ++ String.ofList (List.replicate (places - cs.length) '0') ++ text
    else
      String.ofList (cs.take (cs.length - places)) ++ "." ++
        String.ofList (cs.drop (cs.length - places))

def text : Binary64 → String
  | .nan => "NaN"
  | .infinite negative => if negative then "-inf" else "inf"
  | .finite negative units =>
    let body := if units = 0 then "0" else (trimZeros 400 (shortest units)).positional
    if negative then "-" ++ body else body

end ChainIndexer.Binary64
