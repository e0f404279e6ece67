import ChainIndexer.Int64Range
import ChainIndexer.Binary64

namespace ChainIndexer

structure Duration where
  nanos : Nat
  deriving DecidableEq, Repr, Inhabited

namespace Duration

def perSecond : Nat := 1000000000

def limit : Nat := (Int64Range.unsignedHighest + 1) * perSecond

def zero : Duration := ⟨0⟩

def ofParts (secs nanos : Nat) : Duration := ⟨secs * perSecond + nanos⟩

def ofMillis (ms : Nat) : Duration := ⟨ms * 1000000⟩

def ofSecs (s : Nat) : Duration := ⟨s * perSecond⟩

def secs (d : Duration) : Nat := d.nanos / perSecond

def subsecond (d : Duration) : Nat := d.nanos % perSecond

def isZero (d : Duration) : Bool := d.nanos == 0

def ceilMillis (d : Duration) : Nat := (d.nanos + 999999) / 1000000

def wholeMillis (d : Duration) : Nat := d.nanos / 1000000

def minus (a b : Duration) : Duration := ⟨a.nanos - b.nanos⟩

def add? (a b : Duration) : Option Duration :=
  if a.nanos + b.nanos < limit then some ⟨a.nanos + b.nanos⟩ else none

instance : LT Duration := ⟨fun a b => a.nanos < b.nanos⟩

instance (a b : Duration) : Decidable (a < b) := inferInstanceAs (Decidable (a.nanos < b.nanos))

/-- Whole seconds and the rest are converted apart and then added. -/
def toSeconds (d : Duration) : Binary64 :=
  (Binary64.ofNat d.secs).add ((Binary64.ofNat d.subsecond).div (Binary64.ofNat perSecond))

def ofSeconds? : Binary64 → Option Duration
  | .finite negative units =>
    if negative && units != 0 then none
    else if (Int64Range.unsignedHighest + 1) * Binary64.one ≤ units then none
    else some ⟨Binary64.roundDiv (units * perSecond) Binary64.one⟩
  | _ => none

def scale? (d : Duration) (factor : Binary64) : Option Duration := ofSeconds? (factor.mul d.toSeconds)

def fractionText : Nat → Nat → List Char
  | 0, _ => []
  | k + 1, n =>
    if n = 0 then []
    else
      let unit := 10 ^ k
      Char.ofNat (48 + n / unit) :: fractionText k (n % unit)

def inUnit (whole fraction places : Nat) (unit : String) : String :=
  let tail := fractionText places fraction
  toString whole ++ (if tail.isEmpty then "" else "." ++ String.ofList tail) ++ unit

def text (d : Duration) : String :=
  if perSecond ≤ d.nanos then inUnit d.secs d.subsecond 9 "s"
  else if 1000000 ≤ d.nanos then inUnit (d.nanos / 1000000) (d.nanos % 1000000) 6 "ms"
  else if 1000 ≤ d.nanos then inUnit (d.nanos / 1000) (d.nanos % 1000) 3 "µs"
  else inUnit d.nanos 0 0 "ns"

end Duration

end ChainIndexer
