import ChainIndexer.Statement
import ChainIndexer.Proofs.Identifier.Naming

namespace ChainIndexer.Statement

open Identifier

inductive Token where
  | word (text : List Char)
  | quoted (name : List Char)
  | constant (text : List Char)
  | number (n : Int)
  | parameter (n : Nat)
  | symbol (text : List Char)
  deriving DecidableEq, Repr

/-- The end of a name or constant may still turn out to be the first of two quotes. -/
inductive Pending where
  | nothing
  | word (seen : List Char)
  | quoted (seen : List Char)
  | quotedEnd (seen : List Char)
  | constant (seen : List Char)
  | constantEnd (seen : List Char)
  | number (sign : Int) (value : Nat)
  | parameter (value : Option Nat)
  | symbol (seen : List Char)
  | lineComment
  | blockComment (depth : Nat) (last : Char)
  | lost
  deriving DecidableEq, Repr

def isPunctuation (c : Char) : Bool := ['(', ')', '[', ']', ',', ';', '.'].contains c

def isOperator (c : Char) : Bool :=
  ['+', '-', '*', '/', '<', '>', '=', '~', '!', '@', '#', '%', '^', '&', '|', '`', '?', ':'].contains c

def digit (c : Char) : Nat := c.toNat - '0'.toNat

def opening (c : Char) : List Token × Pending :=
  if isSpace c then ([], .nothing)
  else if isLetter c then ([], .word [c])
  else if c.isDigit then ([], .number 1 (digit c))
  else if c = '"' then ([], .quoted [])
  else if c = '\'' then ([], .constant [])
  else if c = '$' then ([], .parameter none)
  else if isPunctuation c then ([.symbol [c]], .nothing)
  else if isOperator c then ([], .symbol [c])
  else ([], .lost)

def after (t : Token) (c : Char) : List Token × Pending := (t :: (opening c).1, (opening c).2)

def operatorBefore (seen : List Char) : List Token :=
  if seen.dropLast.isEmpty then [] else [.symbol seen.dropLast]

def step : Pending → Char → List Token × Pending
  | .nothing, c => opening c
  | .word seen, c => if isWordChar c then ([], .word (seen ++ [c])) else after (.word seen) c
  | .quoted seen, c => if c = '"' then ([], .quotedEnd seen) else ([], .quoted (seen ++ [c]))
  | .quotedEnd seen, c =>
    if c = '"' then ([], .quoted (seen ++ ['"'])) else after (.quoted seen) c
  | .constant seen, c =>
    if c = '\'' then ([], .constantEnd seen) else ([], .constant (seen ++ [c]))
  | .constantEnd seen, c =>
    if c = '\'' then ([], .constant (seen ++ ['\''])) else after (.constant seen) c
  | .number sign value, c =>
    if c.isDigit then ([], .number sign (10 * value + digit c)) else after (.number (sign * value)) c
  | .parameter value, c =>
    if c.isDigit then ([], .parameter (some (10 * value.getD 0 + digit c)))
    else match value with
      | some n => after (.parameter n) c
      | none => ([], .lost)
  | .symbol seen, c =>
    if seen = ['-'] ∧ c.isDigit then ([], .number (-1) (digit c))
    else if seen.getLast? = some '-' ∧ c = '-' then (operatorBefore seen, .lineComment)
    else if seen.getLast? = some '/' ∧ c = '*' then (operatorBefore seen, .blockComment 1 ' ')
    else if isOperator c then ([], .symbol (seen ++ [c]))
    else after (.symbol seen) c
  | .lineComment, c => ([], if c = '\n' ∨ c = '\r' then .nothing else .lineComment)
  | .blockComment depth last, c =>
    if last = '*' ∧ c = '/' then ([], if depth ≤ 1 then .nothing else .blockComment (depth - 1) ' ')
    else if last = '/' ∧ c = '*' then ([], .blockComment (depth + 1) ' ')
    else ([], .blockComment depth c)
  | .lost, _ => ([], .lost)

def finish : Pending → Option (List Token)
  | .nothing => some []
  | .word seen => some [.word seen]
  | .quotedEnd seen => some [.quoted seen]
  | .constantEnd seen => some [.constant seen]
  | .number sign value => some [.number (sign * value)]
  | .parameter (some n) => some [.parameter n]
  | .symbol seen => some [.symbol seen]
  | .lineComment => some []
  | .quoted _ | .constant _ | .parameter none | .blockComment _ _ | .lost => none

def lex : Pending → List Char → Option (List Token)
  | m, [] => finish m
  | m, c :: r => (lex (step m c).2 r).map ((step m c).1 ++ ·)

def tokens? (sql : String) : Option (List Token) := lex .nothing sql.toList

def scan : Pending → List Char → List Token × Pending
  | m, [] => ([], m)
  | m, c :: r => ((step m c).1 ++ (scan (step m c).2 r).1, (scan (step m c).2 r).2)

theorem lex_append (m : Pending) (s rest : List Char) :
    lex m (s ++ rest) = (lex (scan m s).2 rest).map ((scan m s).1 ++ ·) := by
  induction s generalizing m with
  | nil => simp [scan]
  | cons c r ih =>
    rw [List.cons_append, lex, ih, Option.map_map, scan]
    simp only [Function.comp_def, List.append_assoc]

theorem lex_next {m n : Pending} {c : Char} (h : step m c = ([], n)) (r : List Char) :
    lex m (c :: r) = lex n r := by
  rw [lex, h]
  exact Option.map_id'

theorem lex_complete {m : Pending} {t : Token} {rest : List Char} (hend : finish m = some [t])
    (hnext : ∀ c ∈ rest.head?, step m c = after t c) :
    lex m rest = (lex .nothing rest).map (t :: ·) := by
  cases rest with
  | nil => exact hend
  | cons c r =>
    rw [lex, lex, hnext c rfl, Option.map_map]
    rfl

theorem lex_quotedEnd (seen : List Char) {rest : List Char} (h : rest.head? ≠ some '"') :
    lex (.quotedEnd seen) rest = (lex .nothing rest).map (.quoted seen :: ·) :=
  lex_complete rfl fun c hc => by
    rw [step, if_neg]
    rintro rfl
    exact h hc

theorem lex_quoted (seen s : List Char) :
    lex (.quoted seen) s = (delimited? s).bind fun (name, rest) =>
      (lex .nothing rest).map (.quoted (seen ++ name) :: ·) := by
  fun_induction delimited? s generalizing seen with
  | case1 => rfl
  | case2 r ih =>
    rw [lex_next (n := .quotedEnd seen) rfl, lex_next (n := .quoted (seen ++ ['"'])) rfl, ih,
      Option.bind_map]
    simp only [Function.comp_def, List.append_assoc, List.singleton_append]
  | case3 r hr =>
    have hrest : r.head? ≠ some '"' := fun h => by
      obtain ⟨t, rfl⟩ := List.head?_eq_some_iff.mp h
      exact hr t rfl
    rw [lex_next (n := .quotedEnd seen) rfl, lex_quotedEnd seen hrest]
    simp
  | case4 c r _ hc ih =>
    rw [lex_next (n := .quoted (seen ++ [c])) (by rw [step, if_neg hc]), ih, Option.bind_map]
    simp only [Function.comp_def, List.append_assoc, List.singleton_append]

theorem lex_quoteChars (name : List Char) {rest : List Char} (h : rest.head? ≠ some '"') :
    lex .nothing (quoteChars name ++ rest) = (lex .nothing rest).map (.quoted name :: ·) := by
  rw [quoteChars, List.append_assoc, List.cons_append, lex_next (n := .quoted []) rfl,
    List.singleton_append, lex_quoted, delimited?_doubleQuotes name h]
  rfl

def tokensOf (text : String) : List Token := (tokens? text).getD []

theorem lex_tokensOf {text : String} {rest : List Char}
    (h : (scan .nothing text.toList).2 = .nothing ∨ rest = [] ∧ (tokens? text).isSome) :
    lex .nothing (text.toList ++ rest) = (lex .nothing rest).map (tokensOf text ++ ·) := by
  rcases h with h | ⟨rfl, h⟩
  · have hwhole : tokensOf text = (scan .nothing text.toList).1 := by
      have := lex_append .nothing text.toList []
      rw [List.append_nil, h] at this
      rw [tokensOf, tokens?, this]
      simp [lex, finish]
    rw [lex_append, h, hwhole]
  · obtain ⟨ts, hts⟩ := Option.isSome_iff_exists.mp h
    rw [List.append_nil, tokensOf, hts]
    exact hts.trans (by simp [lex, finish])

def named (name : String) : List Token :=
  ((name.toList.splitOn '.').map Token.quoted).intersperse (.symbol ['.'])

theorem lex_quoteQualified (name : String) {rest : List Char} (h : rest.head? ≠ some '"') :
    lex .nothing ((quoteQualified name).toList ++ rest) =
      (lex .nothing rest).map (named name ++ ·) := by
  rw [quoteQualified, String.toList_ofList, quoteQualifiedChars, named,
    ← Text.splitAll_eq_splitOn, ← parts]
  generalize parts name.toList = ps
  induction ps with
  | nil => simp [joinWith]
  | cons p ps ih =>
    cases ps with
    | nil => exact lex_quoteChars p h
    | cons q qs =>
      have hdot : lex .nothing ('.' :: (joinWith ['.'] ((q :: qs).map quoteChars) ++ rest)) =
          (lex .nothing (joinWith ['.'] ((q :: qs).map quoteChars) ++ rest)).map
            (.symbol ['.'] :: ·) := rfl
      rw [List.map_cons, List.map_cons, joinWith, ← List.map_cons, List.append_assoc,
        List.append_assoc, lex_quoteChars p (by simp), List.singleton_append, hdot, ih,
        Option.map_map, Option.map_map]
      rfl

theorem opening_digit {c : Char} (h : c.isDigit) : opening c = ([], .number 1 (digit c)) := by
  have hspace : isSpace c = false := isSpace_eq_false (by decide) h
  rw [opening, hspace, isLetter_eq_false_of_isDigit h, h]
  rfl

theorem lex_number (sign : Int) (value : Nat) {digits rest : List Char}
    (hdigits : ∀ c ∈ digits, c.isDigit) (h : ∀ c ∈ rest.head?, c.isDigit = false) :
    lex (.number sign value) (digits ++ rest) =
      (lex .nothing rest).map (.number (sign * Nat.ofDigitChars 10 digits value) :: ·) := by
  induction digits generalizing value with
  | nil => exact lex_complete rfl fun c hc => by rw [step, h c hc]; rfl
  | cons c r ih =>
    have hc := hdigits c (List.mem_cons_self ..)
    have hstep : step (.number sign value) c = ([], .number sign (10 * value + digit c)) := by
      rw [step, if_pos hc]
    rw [List.cons_append, lex_next hstep, ih _ fun d hd => hdigits d (List.mem_cons_of_mem _ hd), Nat.ofDigitChars_cons]
    rfl

theorem lex_digits {m : Pending} {sign : Int} {digits rest : List Char}
    (hm : ∀ c, c.isDigit → step m c = ([], .number sign (digit c)))
    (hdigits : Text.Digits digits) (h : ∀ c ∈ rest.head?, c.isDigit = false) :
    lex m (digits ++ rest) =
      (lex .nothing rest).map (.number (sign * Text.value digits) :: ·) := by
  obtain ⟨hne, hall⟩ := hdigits
  obtain ⟨c, r, rfl⟩ := List.exists_cons_of_ne_nil hne
  rw [List.cons_append, lex_next (hm c (hall c (List.mem_cons_self ..))),
    lex_number sign _ (fun d hd => hall d (List.mem_cons_of_mem _ hd)) h, Text.value,
    Nat.ofDigitChars_cons, Nat.mul_zero, Nat.zero_add]
  rfl

theorem lex_int (n : Int) {rest : List Char} (h : ∀ c ∈ rest.head?, c.isDigit = false) :
    lex .nothing (n.repr.toList ++ rest) = (lex .nothing rest).map (.number n :: ·) := by
  cases n with
  | ofNat m =>
    have := lex_digits (m := .nothing) (fun _ hc => opening_digit hc) (Text.digits_repr m) h
    rwa [Text.value_repr, Int.one_mul] at this
  | negSucc m =>
    have hminus : ∀ c, c.isDigit → step (.symbol ['-']) c = ([], .number (-1) (digit c)) :=
      fun c hc => by simp [step, hc]
    have := lex_digits hminus (Text.digits_repr (m + 1)) h
    rw [Text.value_repr] at this
    rw [Int.repr, String.toList_append, List.append_assoc]
    exact (lex_next rfl _).trans (this.trans (by rw [Int.negSucc_eq, Int.neg_one_mul]; rfl))

end ChainIndexer.Statement
