namespace ChainIndexer

/-- A double-precision number. A finite one is a sign and a whole number of the least positive
value, which is `2 ^ -1074`. -/
inductive Binary64 where
  | nan
  | infinite (negative : Bool)
  | finite (negative : Bool) (units : Nat)
  deriving DecidableEq, Repr, Inhabited

namespace Binary64

def one : Nat := Nat.pow 2 1074

def bound : Nat := Nat.pow 2 2098

def roundDiv (num den : Nat) : Nat :=
  let q := num / den
  let r := num % den
  if 2 * r < den then q else if den < 2 * r then q + 1 else q + q % 2

/-- Fifty-three binary digits are kept. -/
def spacing (units : Nat) : Nat := Nat.pow 2 (units.log2 - 52)

def nearest (num den : Nat) : Nat :=
  let s := spacing (num / den)
  roundDiv num (den * s) * s

def ofQuotient (negative : Bool) (num den : Nat) : Binary64 :=
  let u := nearest num den
  if u < bound then .finite negative u else .infinite negative

def zero : Binary64 := .finite false 0

def ofNat (n : Nat) : Binary64 := ofQuotient false (n * one) 1

def ofInt (n : Int) : Binary64 := ofQuotient (n < 0) (n.natAbs * one) 1

def ofDecimal (negative : Bool) (digits : Nat) (exponent : Int) : Binary64 :=
  let size : Int := (toString digits).length + exponent
  if digits = 0 || size < -400 then .finite negative 0
  else if 400 < size then .infinite negative
  else if 0 ≤ exponent then ofQuotient negative (digits * Nat.pow 10 exponent.toNat * one) 1
  else ofQuotient negative (digits * one) (Nat.pow 10 exponent.natAbs)

def isNaN : Binary64 → Bool
  | .nan => true
  | _ => false

def signed (negative : Bool) (units : Nat) : Int := if negative then -(units : Int) else units

def isFinite : Binary64 → Bool
  | .finite _ _ => true
  | _ => false

def rank : Binary64 → Option Int
  | .nan => none
  | .infinite negative => some (signed negative bound)
  | .finite negative units => some (signed negative units)

def lt (a b : Binary64) : Bool :=
  match a.rank, b.rank with
  | some x, some y => x < y
  | _, _ => false

def le (a b : Binary64) : Bool :=
  match a.rank, b.rank with
  | some x, some y => x ≤ y
  | _, _ => false

def neg : Binary64 → Binary64
  | .nan => .nan
  | .infinite s => .infinite (!s)
  | .finite s u => .finite (!s) u

def add : Binary64 → Binary64 → Binary64
  | .nan, _ => .nan
  | _, .nan => .nan
  | .infinite s, .infinite t => if s = t then .infinite s else .nan
  | .infinite s, .finite _ _ => .infinite s
  | .finite _ _, .infinite t => .infinite t
  | .finite s u, .finite t v =>
    let sum := signed s u + signed t v
    if sum = 0 then .finite (s && t) 0 else ofQuotient (sum < 0) sum.natAbs 1

def sub (a b : Binary64) : Binary64 := a.add b.neg

def mul : Binary64 → Binary64 → Binary64
  | .nan, _ => .nan
  | _, .nan => .nan
  | .infinite s, .infinite t => .infinite (s != t)
  | .infinite s, .finite t v => if v = 0 then .nan else .infinite (s != t)
  | .finite s u, .infinite t => if u = 0 then .nan else .infinite (s != t)
  | .finite s u, .finite t v => ofQuotient (s != t) (u * v) one

def div : Binary64 → Binary64 → Binary64
  | .nan, _ => .nan
  | _, .nan => .nan
  | .infinite _, .infinite _ => .nan
  | .infinite s, .finite t _ => .infinite (s != t)
  | .finite s _, .infinite t => .finite (s != t) 0
  | .finite s u, .finite t v =>
    if v = 0 then if u = 0 then .nan else .infinite (s != t)
    else ofQuotient (s != t) (u * one) v

def clamp (low high x : Binary64) : Binary64 :=
  if x.lt low then low else if high.lt x then high else x

def round (low high : Int) : Binary64 → Int
  | .nan => 0
  | .infinite negative => if negative then low else high
  | .finite negative units =>
    let n := (2 * units + one) / (2 * one)
    max low (min high (signed negative n))

def toBits : Binary64 → Nat
  | .nan => 0x7FF8000000000000
  | .infinite negative => (if negative then Nat.pow 2 63 else 0) + 0x7FF0000000000000
  | .finite negative units =>
    let sign := if negative then Nat.pow 2 63 else 0
    if units < Nat.pow 2 52 then sign + units
    else
      let s := units.log2 - 52
      sign + (s + 1) * Nat.pow 2 52 + (units / Nat.pow 2 s - Nat.pow 2 52)

end Binary64

end ChainIndexer
