import ChainIndexer.Data
import ChainIndexer.Text.Integer
import ChainIndexer.Binary64.Shortest

namespace ChainIndexer.Data.Json

def skip (s : List Char) : List Char :=
  s.dropWhile fun c => c = ' ' || c = '\t' || c = '\n' || c = '\r'

def fourHex? (s : List Char) : Option (Nat × List Char) :=
  if 4 ≤ s.length then (Text.inBase? 16 0 (s.take 4)).map fun n => (n, s.drop 4) else none

def escape? : Char → Option Char
  | '"' => some '"'
  | '\\' => some '\\'
  | '/' => some '/'
  | 'b' => some '\x08'
  | 'f' => some '\x0c'
  | 'n' => some '\n'
  | 'r' => some '\r'
  | 't' => some '\t'
  | _ => none

def unicode? (s : List Char) : Option (Char × List Char) := do
  let (n, s) ← fourHex? s
  if n < 0xD800 || 0xDFFF < n then some (Char.ofNat n, s)
  else
    guard (n < 0xDC00)
    match s with
    | '\\' :: 'u' :: r =>
      let (m, r) ← fourHex? r
      guard (0xDC00 ≤ m && m ≤ 0xDFFF)
      some (Char.ofNat (0x10000 + (n - 0xD800) * 0x400 + (m - 0xDC00)), r)
    | _ => none

def stringRest? : Nat → List Char → List Char → Option (String × List Char)
  | 0, _, _ => none
  | fuel + 1, done, s =>
    match s with
    | [] => none
    | '"' :: r => some (String.ofList done.reverse, r)
    | '\\' :: 'u' :: r => do
      let (c, r) ← unicode? r
      stringRest? fuel (c :: done) r
    | '\\' :: c :: r => do
      let c ← escape? c
      stringRest? fuel (c :: done) r
    | c :: r => if c.toNat < 0x20 || c = '\\' then none else stringRest? fuel (c :: done) r

def string? (s : List Char) : Option (String × List Char) :=
  match s with
  | '"' :: r => stringRest? (r.length + 1) [] r
  | _ => none

def digits? (s : List Char) : Option (List Char × List Char) :=
  match s.takeWhile Char.isDigit with
  | [] => none
  | ds => some (ds, s.drop ds.length)

def leading (n : Nat) : List Char → Nat × Nat
  | [] => (n, 0)
  | c :: r =>
    let m := 10 * n + (c.toNat - '0'.toNat)
    if m ≤ Int64Range.unsignedHighest then leading m r else (n, r.length + 1)

def largestPower : Nat := 308

/-- The significand is rounded, and then the product once more. -/
def scaled? : Nat → Binary64 → Int → Option Binary64
  | 0, f, _ => some f
  | fuel + 1, f, e =>
    if e.natAbs ≤ largestPower then
      let power := Binary64.ofDecimal false 1 e.natAbs
      if 0 ≤ e then
        let x := f.mul power
        if x.isFinite then some x else none
      else some (f.div power)
    else if f = .zero then some f
    else if 0 ≤ e then none
    else scaled? fuel (f.div (.ofDecimal false 1 largestPower)) (e + largestPower)

def ofParts? (negative : Bool) (significand : Nat) (exponent : Int) : Option Data :=
  (scaled? 4 (.ofNat significand) exponent).map fun x => .float (if negative then x.neg else x)

def exponent? (s : List Char) : Option (Option Int × List Char) :=
  match s with
  | c :: r =>
    if c = 'e' || c = 'E' then
      let (negative, r) := match r with
        | '-' :: r => (true, r)
        | '+' :: r => (false, r)
        | r => (false, r)
      do
        let (ds, r) ← digits? r
        let n ← Text.natural? ds
        some (some (if negative then -(n : Int) else n), r)
    else some (none, s)
  | [] => some (none, s)

def fraction? (s : List Char) : Option (Option (List Char) × List Char) :=
  match s with
  | '.' :: r => (digits? r).map fun (ds, r) => (some ds, r)
  | _ => some (none, s)

def whole? (negative : Bool) (n : Nat) : Option Data :=
  if negative && (n = 0 || (n : Int) > -Int64Range.lowest) then
    some (.float (.neg (.ofNat n)))
  else some (.int (if negative then -(n : Int) else n))

def number? (s : List Char) : Option (Data × List Char) := do
  let (negative, s) := match s with
    | '-' :: r => (true, r)
    | r => (false, r)
  let (ds, s) ← digits? s
  guard (ds = ['0'] || ds.head? != some '0')
  let (fraction, s) ← fraction? s
  let (exponent, s) ← exponent? s
  let (n, dropped) := leading 0 ds
  if fraction.isNone && exponent.isNone && dropped = 0 then
    let d ← whole? negative n
    some (d, s)
  else
    let fs := fraction.getD []
    let (n, ignored) := leading n fs
    let places : Int := fs.length - ignored
    let d ← ofParts? negative n (dropped - places + exponent.getD 0)
    some (d, s)

mutual

def value? : Nat → List Char → Option (Data × List Char)
  | 0, _ => none
  | fuel + 1, s =>
    match skip s with
    | 'n' :: 'u' :: 'l' :: 'l' :: r => some (.null, r)
    | 't' :: 'r' :: 'u' :: 'e' :: r => some (.bool true, r)
    | 'f' :: 'a' :: 'l' :: 's' :: 'e' :: r => some (.bool false, r)
    | '"' :: r => (string? ('"' :: r)).map fun (t, r) => (.text t, r)
    | '[' :: r =>
      match skip r with
      | ']' :: r => some (.list [], r)
      | r => items? fuel [] r
    | '\x7b' :: r =>
      match skip r with
      | '\x7d' :: r => some (.record [], r)
      | r => fields? fuel [] r
    | r => number? r

def items? : Nat → List Data → List Char → Option (Data × List Char)
  | 0, _, _ => none
  | fuel + 1, done, s => do
    let (v, s) ← value? fuel s
    match skip s with
    | ',' :: r => items? fuel (v :: done) r
    | ']' :: r => some (.list (v :: done).reverse, r)
    | _ => none

def fields? : Nat → List (String × Data) → List Char → Option (Data × List Char)
  | 0, _, _ => none
  | fuel + 1, done, s => do
    let (k, s) ← string? (skip s)
    match skip s with
    | ':' :: r =>
      let (v, r) ← value? fuel r
      match skip r with
      | ',' :: r => fields? fuel (put k v done) r
      | '\x7d' :: r => some (.record (put k v done), r)
      | _ => none
    | _ => none

end

def parse? (text : String) : Option Data :=
  let s := text.toList
  match value? (s.length + 1) s with
  | some (v, r) => if (skip r).isEmpty then some v else none
  | none => none

def escaped (c : Char) : List Char :=
  if c = '"' then ['\\', '"']
  else if c = '\\' then ['\\', '\\']
  else if c.toNat < 0x20 then '\\' :: 'u' :: Text.hex 4 c.toNat
  else [c]

def quoted (s : String) : String := "\"" ++ String.ofList (s.toList.flatMap escaped) ++ "\""

mutual

def render : Data → String
  | .null => "null"
  | .bool b => if b then "true" else "false"
  | .int n => toString n
  | .float x => x.text
  | .text s => quoted s
  | .list items => "[" ++ ",".intercalate (renderItems items) ++ "]"
  | .record fields => "\x7b" ++ ",".intercalate (renderFields fields) ++ "\x7d"

def renderItems : List Data → List String
  | [] => []
  | d :: r => render d :: renderItems r

def renderFields : List (String × Data) → List String
  | [] => []
  | (k, d) :: r => (quoted k ++ ":" ++ render d) :: renderFields r

end

end ChainIndexer.Data.Json
