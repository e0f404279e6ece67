import ChainIndexer.Text.Integer

namespace ChainIndexer.Data.Toml

def isSpace (c : Char) : Bool := c = ' ' || c = '\t'

def skipSpaces (s : List Char) : List Char := s.dropWhile isSpace

def newline? : List Char → Option (List Char)
  | '\n' :: r => some r
  | '\r' :: '\n' :: r => some r
  | _ => none

def isLineChar (c : Char) : Bool :=
  c = '\t' || (0x20 ≤ c.toNat && c.toNat != 0x7F)

def skipComment : List Char → List Char
  | '#' :: r => r.dropWhile isLineChar
  | s => s

def lineEnd? (s : List Char) : Option (List Char) :=
  match skipComment (skipSpaces s) with
  | [] => some []
  | r => newline? r

def skipLines : Nat → List Char → List Char
  | 0, s => s
  | fuel + 1, s =>
    let s := skipSpaces s
    match newline? (skipComment s) with
    | some r => skipLines fuel r
    | none => s

def isScalar (n : Nat) : Bool := n < 0xD800 || (0xDFFF < n && n < 0x110000)

def unicode? (width : Nat) (s : List Char) : Option (Char × List Char) := do
  guard (width ≤ s.length)
  let n ← Text.inBase? 16 0 (s.take width)
  guard (isScalar n)
  some (Char.ofNat n, s.drop width)

def escape? : List Char → Option (Char × List Char)
  | 'b' :: r => some ('\x08', r)
  | 'f' :: r => some ('\x0c', r)
  | 'n' :: r => some ('\n', r)
  | 'r' :: r => some ('\r', r)
  | 't' :: r => some ('\t', r)
  | '"' :: r => some ('"', r)
  | '\\' :: r => some ('\\', r)
  | 'u' :: r => unicode? 4 r
  | 'U' :: r => unicode? 8 r
  | _ => none

def basicRest? : Nat → List Char → List Char → Option (String × List Char)
  | 0, _, _ => none
  | fuel + 1, done, s =>
    match s with
    | '"' :: r => some (String.ofList done.reverse, r)
    | '\\' :: r => do
      let (c, r) ← escape? r
      basicRest? fuel (c :: done) r
    | c :: r => if isLineChar c then basicRest? fuel (c :: done) r else none
    | [] => none

def literalRest? : List Char → List Char → Option (String × List Char)
  | done, '\'' :: r => some (String.ofList done.reverse, r)
  | done, c :: r => if isLineChar c then literalRest? (c :: done) r else none
  | _, [] => none

def run (c : Char) (s : List Char) : Nat := (s.takeWhile (· = c)).length

def skipBreaks : List Char → List Char
  | '\n' :: r => skipBreaks r
  | '\r' :: '\n' :: r => skipBreaks r
  | c :: r => if isSpace c then skipBreaks r else c :: r
  | [] => []

def joined? (s : List Char) : Option (List Char) := (newline? (skipSpaces s)).map skipBreaks

def linesRest? (quote : Char) (escapes : Bool) : Nat → List Char → List Char → Option (String × List Char)
  | 0, _, _ => none
  | fuel + 1, done, s =>
    match s with
    | [] => none
    | c :: r =>
      if c = quote then
        let n := run quote s
        if n < 3 then linesRest? quote escapes fuel (List.replicate n quote ++ done) (s.drop n)
        else if n ≤ 5 then
          some (String.ofList (List.replicate (n - 3) quote ++ done).reverse, s.drop n)
        else none
      else if escapes && c = '\\' then
        match joined? r with
        | some r => linesRest? quote escapes fuel done r
        | none => do
          let (c, r) ← escape? r
          linesRest? quote escapes fuel (c :: done) r
      else match newline? s with
        | some r => linesRest? quote escapes fuel ('\n' :: done) r
        | none => if isLineChar c then linesRest? quote escapes fuel (c :: done) r else none

def skipFirstNewline (s : List Char) : List Char := (newline? s).getD s

def string? (s : List Char) : Option (String × List Char) :=
  match s with
  | '"' :: '"' :: '"' :: r =>
    let r := skipFirstNewline r
    linesRest? '"' true (r.length + 1) [] r
  | '"' :: r => basicRest? (r.length + 1) [] r
  | '\'' :: '\'' :: '\'' :: r =>
    let r := skipFirstNewline r
    linesRest? '\'' false (r.length + 1) [] r
  | '\'' :: r => literalRest? [] r
  | _ => none

def isBareKeyChar (c : Char) : Bool := c.isAlphanum || c = '-' || c = '_'

def simpleKey? (s : List Char) : Option (String × List Char) :=
  match s with
  | '"' :: r => basicRest? (r.length + 1) [] r
  | '\'' :: r => literalRest? [] r
  | _ =>
    match s.takeWhile isBareKeyChar with
    | [] => none
    | k => some (String.ofList k, s.drop k.length)

/-- Keys nest less deep than this, and so do values. -/
def deepest : Nat := 80

def keyParts? : Nat → List Char → Option (List String × List Char)
  | 0, _ => none
  | fuel + 1, s => do
    let (k, s) ← simpleKey? (skipSpaces s)
    match skipSpaces s with
    | '.' :: r =>
      let (ks, r) ← keyParts? fuel r
      some (k :: ks, r)
    | r => some ([k], r)

def key? (s : List Char) : Option (List String × List Char) := keyParts? (deepest - 1) s

end ChainIndexer.Data.Toml
