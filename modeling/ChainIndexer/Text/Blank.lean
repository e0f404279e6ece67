namespace ChainIndexer.Text

/-- The characters with the Unicode property White_Space. -/
def isBlank (c : Char) : Bool :=
  let n := c.toNat
  (9 ≤ n && n ≤ 13) || n == 0x20 || n == 0x85 || n == 0xA0 || n == 0x1680 ||
    (0x2000 ≤ n && n ≤ 0x200A) || n == 0x2028 || n == 0x2029 || n == 0x202F || n == 0x205F ||
    n == 0x3000

def strip (p : Char → Bool) (s : List Char) : List Char :=
  ((s.dropWhile p).reverse.dropWhile p).reverse

def trim (s : List Char) : List Char := strip isBlank s

def asciiUpper (c : Char) : Char := if c.isLower then c.toUpper else c

def asciiUppercase (s : List Char) : List Char := s.map asciiUpper

def indexOf? (pattern : List Char) : List Char → Option Nat
  | [] => if pattern.isEmpty then some 0 else none
  | c :: r =>
    if pattern.isPrefixOf (c :: r) then some 0 else (indexOf? pattern r).map (· + 1)

def occursIn (pattern : List Char) (s : List Char) : Bool := (indexOf? pattern s).isSome

def splitAll (separator : Char) : List Char → List (List Char)
  | [] => [[]]
  | c :: r =>
    if c = separator then [] :: splitAll separator r
    else match splitAll separator r with
      | [] => [[c]]
      | p :: ps => (c :: p) :: ps

theorem splitAll_ne_nil (sep : Char) (s : List Char) : splitAll sep s ≠ [] := by
  cases s with
  | nil => simp [splitAll]
  | cons c r =>
    simp only [splitAll]
    split
    · simp
    · split <;> simp

end ChainIndexer.Text
