import ChainIndexer.Data.Toml.Text
import ChainIndexer.Data.Toml.Scalar
import ChainIndexer.Data.Toml.Tree

namespace ChainIndexer.Data.Toml

mutual

/-- The first number bounds the work, the second the nesting. -/
def value? : Nat → Nat → List Char → Option (Data × List Char)
  | 0, _, _ => none
  | fuel + 1, depth, s =>
    match s with
    | '"' :: _ => (string? s).map fun (t, r) => (.text t, r)
    | '\'' :: _ => (string? s).map fun (t, r) => (.text t, r)
    | '[' :: r =>
      if depth ≤ 1 then none
      else
        let r := skipLines (r.length + 1) r
        match r with
        | ']' :: r => some (.list [], r)
        | _ => items? fuel (depth - 1) [] r
    | '\x7b' :: r =>
      if depth ≤ 1 then none
      else match skipSpaces r with
        | '\x7d' :: r => some (.record [], r)
        | r => pairs? fuel (depth - 1) [] r
    | _ =>
      let (w, r) := word s
      (scalar? w).map fun d => (d, r)

def items? : Nat → Nat → List Data → List Char → Option (Data × List Char)
  | 0, _, _, _ => none
  | fuel + 1, depth, done, s => do
    let (d, s) ← value? fuel depth s
    match skipLines (s.length + 1) s with
    | ',' :: r =>
      match skipLines (r.length + 1) r with
      | ']' :: r => some (.list (d :: done).reverse, r)
      | r => items? fuel depth (d :: done) r
    | ']' :: r => some (.list (d :: done).reverse, r)
    | _ => none

def pairs? : Nat → Nat → List (List String × Data) → List Char → Option (Data × List Char)
  | 0, _, _, _ => none
  | fuel + 1, depth, done, s => do
    let (k, s) ← key? s
    let s ← char? '=' s
    let (d, s) ← value? fuel depth (skipSpaces s)
    let done := (k, d) :: done
    match skipSpaces s with
    | ',' :: r => pairs? fuel depth done r
    | '\x7d' :: r => do
      let es ← done.reverse.foldlM (fun es p => Node.insert p.1 p.2 es) []
      some (Node.toData (.table false false es), r)
    | _ => none

end

def header? (row : Bool) (s : List Char) : Option (List String × List Char) := do
  let (k, s) ← key? s
  let s ← char? ']' s
  let s ← if row then char? ']' s else some s
  let s ← lineEnd? s
  some (k, s)

def addPair (current : List String) (k : List String) (d : Data) (es : Node.Entries) :
    Option Node.Entries :=
  Node.changeAt false (fun _ es => Node.insert k d es) current false es

def lines? : Nat → List String → Node.Entries → List Char → Option Node.Entries
  | 0, _, _, _ => none
  | fuel + 1, current, es, s =>
    match skipSpaces s with
    | [] => some es
    | '#' :: r => do
      let r ← lineEnd? ('#' :: r)
      lines? fuel current es r
    | '\n' :: r => lines? fuel current es r
    | '\r' :: r => do
      let r ← newline? ('\r' :: r)
      lines? fuel current es r
    | '[' :: '[' :: r => do
      let (k, r) ← header? true r
      lines? fuel k (← Node.header true k es) r
    | '[' :: r => do
      let (k, r) ← header? false r
      lines? fuel k (← Node.header false k es) r
    | r => do
      let (k, r) ← key? r
      let r ← char? '=' r
      let (d, r) ← value? (r.length + 1) deepest (skipSpaces r)
      let r ← lineEnd? r
      lines? fuel current (← addPair current k d es) r

def skipMark : List Char → List Char
  | '\ufeff' :: r => r
  | s => s

def parse? (text : String) : Option Data := do
  let s := skipMark text.toList
  let es ← lines? (s.length + 1) [] [] s
  some (Node.toData (.table false false es))

end ChainIndexer.Data.Toml
