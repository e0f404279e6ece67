import ChainIndexer.Text.Blank
import ChainIndexer.Text.Integer

namespace ChainIndexer.Postgres.ConnectionText

abbrev Parameters := List (String × String)

def isPort (s : List Char) : Bool :=
  match Text.integer? s with
  | some n => s.head? != some '-' && n ≤ 65535
  | none => false

def isCount (limit : Nat) (s : List Char) : Bool :=
  match Text.integer? s with
  | some n => s.head? != some '-' && n ≤ limit
  | none => false

def isOctet (s : List Char) : Bool :=
  match Text.natural? s with
  | some n => n ≤ 255 && s.length ≤ 3 && (s.length = 1 || s.head? != some '0')
  | none => false

def isAddress4 (s : List Char) : Bool :=
  let parts := Text.splitAll '.' s
  parts.length == 4 && parts.all isOctet

def isGroup (s : List Char) : Bool :=
  !s.isEmpty && s.length ≤ 4 && s.all fun c => (Text.hexValue? c).isSome

def groups? (s : List Char) : Option Nat :=
  if s.isEmpty then some 0
  else
    let parts := Text.splitAll ':' s
    if parts.dropLast.all isGroup then
      match parts.getLast? with
      | some last =>
        if isGroup last then some parts.length
        else if isAddress4 last then some (parts.length + 1)
        else none
      | none => none
    else none

def isAddress6 (s : List Char) : Bool :=
  match Text.indexOf? [':', ':'] s with
  | none => groups? s == some 8
  | some i =>
    let front := s.take i
    match groups? front, groups? (s.drop (i + 2)) with
    | some a, some b => a + b ≤ 7 && !front.contains '.'
    | _, _ => false

def isAddress (s : List Char) : Bool := isAddress4 s || isAddress6 s

def choices : List (String × List String) :=
  [("sslmode", ["disable", "prefer", "require"]),
    ("sslnegotiation", ["postgres", "direct"]),
    ("target_session_attrs", ["any", "read-write", "read-only"]),
    ("channel_binding", ["disable", "prefer", "require"]),
    ("load_balance_hosts", ["disable", "random"])]

def free : List String := ["user", "password", "dbname", "options", "application_name", "host"]

def spans : List String :=
  ["connect_timeout", "tcp_user_timeout", "keepalives_idle", "keepalives_interval"]

def isFitting (name value : String) : Bool :=
  let v := value.toList
  if free.contains name then true
  else if spans.contains name then (Text.int64? v).isSome
  else match choices.lookup name with
    | some values => values.contains value
    | none =>
      if name = "hostaddr" then (Text.splitAll ',' v).all isAddress
      else if name = "port" then (Text.splitAll ',' v).all fun p => p.isEmpty || isPort p
      else if name = "keepalives" then isCount Int64Range.unsignedHighest v
      else if name = "keepalives_retries" then isCount 4294967295 v
      else false

def checked (name value : String) : Option (String × String) :=
  if isFitting name value then some (name, value) else none

def simple : List Char → List Char × List Char
  | [] => ([], [])
  | ['\\'] => ([], [])
  | '\\' :: c :: r => let (v, r) := simple r; (c :: v, r)
  | c :: r => if Text.isBlank c then ([], c :: r) else let (v, r) := simple r; (c :: v, r)

def quoted? : List Char → Option (List Char × List Char)
  | [] => none
  | '\'' :: r => some ([], r)
  | ['\\'] => none
  | '\\' :: c :: r => (quoted? r).map fun (v, r) => (c :: v, r)
  | c :: r => (quoted? r).map fun (v, r) => (c :: v, r)

def value? (s : List Char) : Option (List Char × List Char) :=
  match s with
  | '\'' :: r => quoted? r
  | _ =>
    match simple s with
    | ([], _) => none
    | (v, r) => some (v, r)

def skipBlanks (s : List Char) : List Char := s.dropWhile Text.isBlank

def pairs? : Nat → List Char → Option Parameters
  | 0, _ => none
  | fuel + 1, s =>
    let s := skipBlanks s
    match s.takeWhile fun c => !Text.isBlank c && c != '=' with
    | [] => some []
    | k =>
      match skipBlanks (s.drop k.length) with
      | '=' :: r => do
        let (v, r) ← value? (skipBlanks r)
        let p ← checked (String.ofList k) (String.ofList v)
        let ps ← pairs? fuel r
        some (p :: ps)
      | _ => none

def percentBytes : List Char → List UInt8
  | [] => []
  | '%' :: a :: b :: r =>
    match Text.hexValue? a, Text.hexValue? b with
    | some x, some y => UInt8.ofNat (16 * x + y) :: percentBytes r
    | _, _ => '%'.toUInt8 :: percentBytes (a :: b :: r)
  | c :: r => (String.singleton c).toUTF8.toList ++ percentBytes r

def decode? (s : List Char) : Option String :=
  String.fromUTF8? (ByteArray.mk (percentBytes s).toArray)

def cut (stops : List Char) (s : List Char) : List Char × List Char :=
  let a := s.takeWhile fun c => !stops.contains c
  (a, s.drop a.length)

def host? (s : List Char) : Option (String × String) :=
  match percentBytes s with
  | 47 :: _ => some ("host", String.ofList s)
  | _ => (decode? s).map ("host", ·)

def hostAndPort? (s : List Char) : Option (List Char × List Char) :=
  match s with
  | '[' :: r =>
    match cut [']'] r with
    | (h, ']' :: ':' :: p) => some (h, p)
    | (h, [']']) => some (h, "5432".toList)
    | _ => none
  | _ =>
    match cut [':'] s with
    | (h, _ :: p) => some (h, p)
    | (h, []) => some (h, "5432".toList)

def endpoint? (s : List Char) : Option Parameters := do
  let (h, p) ← hostAndPort? s
  let host ← host? h
  let port ← checked "port" (← decode? p)
  some [host, port]

def endpoints? (s : List Char) : Option Parameters :=
  if s.isEmpty then some []
  else ((Text.splitAll ',' s).mapM endpoint?).map List.flatten

def credentials? (s : List Char) : Option Parameters := do
  let (u, p) := cut [':'] s
  let user ← decode? u
  match p with
  | [] => some [("user", user)]
  | _ :: p => some [("user", user), ("password", String.ofList p)]

def urlParameters? : Nat → List Char → Option Parameters
  | 0, _ => none
  | fuel + 1, s =>
    if s.isEmpty then some []
    else
      match cut ['='] s with
      | (k, _ :: r) => do
        let key ← decode? k
        let (v, r) := cut ['&'] r
        let p ← if key = "host" then host? v else checked key (← decode? v)
        let ps ← urlParameters? fuel (r.drop 1)
        some (p :: ps)
      | (_, []) => none

def url? (s : List Char) : Option Parameters := do
  let (credentials, s) ← match cut ['@'] s with
    | (c, _ :: r) => (credentials? c).map (·, r)
    | (_, []) => some ([], s)
  let (h, s) := cut ['/', '?'] s
  let endpoints ← endpoints? h
  let (d, s) := match s with
    | '/' :: r => cut ['?'] r
    | _ => ([], s)
  let name ← decode? d
  let database := if name.isEmpty then [] else [("dbname", name)]
  let rest ← match s with
    | '?' :: r => urlParameters? (r.length + 1) r
    | _ => some []
  some (credentials ++ endpoints ++ database ++ rest)

def schemes : List (List Char) := ["postgres://".toList, "postgresql://".toList]

def parse? (text : String) : Option Parameters :=
  let s := text.toList
  match schemes.find? (·.isPrefixOf s) with
  | some scheme => url? (s.drop scheme.length)
  | none => pairs? (s.length + 1) s

end ChainIndexer.Postgres.ConnectionText
