import ChainIndexer.Proofs.Statement.Token

namespace ChainIndexer.Statement

open Identifier

inductive Piece where
  | fixed (text : String)
  | tables (names : List String)
  | identifier (name : String)
  | number (n : Int)
  deriving DecidableEq, Repr

namespace Piece

abbrev table (name : String) : Piece := .tables [name]

def text : Piece → List Char
  | fixed text => text.toList
  | tables names => (", ".intercalate (names.map quoteQualified)).toList
  | identifier name => (quote name).toList
  | number n => n.repr.toList

def tokens : Piece → List Token
  | fixed text => tokensOf text
  | tables names => [Token.symbol [',']].intercalate (names.map named)
  | identifier name => [.quoted name.toList]
  | number n => [.number n]

theorem text_fixed (text : String) : (fixed text).text = text.toList := rfl

theorem text_identifier (name : String) : (identifier name).text = (quote name).toList := rfl

theorem text_number (n : Int) : (number n).text = n.repr.toList := rfl

theorem text_table (name : String) : (table name).text = (quoteQualified name).toList := by
  rw [text, List.map_singleton, String.intercalate_singleton]

def Ends (rest : List Char) : Prop := ∀ c ∈ rest.head?, c ≠ '"' ∧ c.isDigit = false

theorem ends_nil : Ends [] := fun _ h => nomatch h

theorem ends_cons {c : Char} {r : List Char} (h : c ≠ '"' ∧ c.isDigit = false) : Ends (c :: r) := by
  rintro _ ⟨⟩
  exact h

theorem Ends.not_quote {rest : List Char} (h : Ends rest) : rest.head? ≠ some '"' :=
  fun hq => (h _ hq).1 rfl

def Before (rest : List Char) : Piece → Prop
  | fixed text => (scan .nothing text.toList).2 = .nothing ∨ rest = [] ∧ (tokens? text).isSome
  | tables _ | identifier _ | number _ => Ends rest

theorem lex_tables (names : List String) {rest : List Char} (h : rest.head? ≠ some '"') :
    lex .nothing ((tables names).text ++ rest) =
      (lex .nothing rest).map ((tables names).tokens ++ ·) := by
  rw [text, tokens, String.toList_intercalate, List.map_map]
  induction names with
  | nil => exact Option.map_id'.symm
  | cons n names ih =>
    cases names with
    | nil =>
      rw [List.map_singleton, List.map_singleton, List.intercalate_singleton,
        List.intercalate_singleton, Function.comp_apply, lex_quoteQualified n h]
    | cons m ms =>
      have hcomma : scan .nothing ", ".toList = ([.symbol [',']], .nothing) := by decide
      simp only [List.map_cons, List.intercalate_cons_cons, List.append_assoc] at ih ⊢
      rw [Function.comp_apply, lex_quoteQualified n (by simp), lex_append, hcomma, ih,
        Option.map_map, Option.map_map]
      rfl

theorem lex_text (p : Piece) {rest : List Char} (h : p.Before rest) :
    lex .nothing (p.text ++ rest) = (lex .nothing rest).map (p.tokens ++ ·) := by
  cases p with
  | fixed text => exact lex_tokensOf h
  | tables names => exact lex_tables names h.not_quote
  | identifier name =>
    rw [text, quote, String.toList_ofList]
    exact lex_quoteChars name.toList h.not_quote
  | number n => exact lex_int n fun c hc => (h c hc).2

def Apart : List Piece → Prop
  | [] => True
  | p :: ps => p.Before (ps.flatMap text) ∧ Apart ps

theorem lex_pieces {ps : List Piece} (h : Apart ps) :
    lex .nothing (ps.flatMap text) = some (ps.flatMap tokens) := by
  induction ps with
  | nil => rfl
  | cons p ps ih =>
    rw [List.flatMap_cons, lex_text p h.1, ih h.2, List.flatMap_cons]
    rfl

end Piece

inductive Form where
  | createPartitionTable (partition template : String)
  | attachPartition (parent partition : String) (lower upper : Int)
  | addCheck (table : String) (check : Check)
  | validateConstraint (table name : String)
  | dropConstraint (table name : String)
  | lockExclusive (names : List String)
  | renameTable (source target : String)
  | upsertCheckpoint (table : String)
  | copyRowsById (source target idColumn : String)
  deriving DecidableEq, Repr

namespace Form

open Piece

def sql : Form → String
  | createPartitionTable partition template => Statement.createPartitionTable partition template
  | attachPartition parent partition lower upper =>
    Statement.attachPartition parent partition lower upper
  | addCheck table check => Statement.addCheck table check
  | validateConstraint table name => Statement.validateConstraint table name
  | dropConstraint table name => Statement.dropConstraint table name
  | lockExclusive names => Statement.lockExclusive names
  | renameTable source target => Statement.renameTable source target
  | upsertCheckpoint table => Statement.upsertCheckpoint table
  | copyRowsById source target idColumn => Statement.copyRowsById source target idColumn

def condition (check : Check) : List Piece :=
  match check.high with
  | some high =>
    [identifier check.column, fixed " BETWEEN ", number check.low, fixed " AND ", number high]
  | none => [identifier check.column, fixed " >= ", number check.low]

def pieces : Form → List Piece
  | createPartitionTable partition template =>
    [fixed "CREATE TABLE ", table partition, fixed " (LIKE ", table template,
      fixed " INCLUDING ALL EXCLUDING CONSTRAINTS)"]
  | attachPartition parent partition lower upper =>
    [fixed "ALTER TABLE ", table parent, fixed " ATTACH PARTITION ", table partition,
      fixed " FOR VALUES FROM (", number lower, fixed ") TO (", number upper, fixed ")"]
  | addCheck name check =>
    [fixed "ALTER TABLE ", table name, fixed " ADD CONSTRAINT ", identifier check.name,
      fixed " CHECK ("] ++ condition check ++ [fixed ") NOT VALID"]
  | validateConstraint name constraint =>
    [fixed "ALTER TABLE ", table name, fixed " VALIDATE CONSTRAINT ", identifier constraint]
  | dropConstraint name constraint =>
    [fixed "ALTER TABLE ", table name, fixed " DROP CONSTRAINT IF EXISTS ", identifier constraint]
  | lockExclusive names =>
    [fixed "LOCK TABLE ", tables names, fixed " IN ACCESS EXCLUSIVE MODE"]
  | renameTable source target =>
    [fixed "ALTER TABLE ", table source, fixed " RENAME TO ", identifier (unqualified target)]
  | upsertCheckpoint name =>
    [fixed "INSERT INTO ", table name,
      fixed " (job_name, height, updated_at) VALUES ($1, $2, $3) ",
      fixed "ON CONFLICT (job_name) DO UPDATE ",
      fixed "SET height = EXCLUDED.height, updated_at = EXCLUDED.updated_at ", fixed "WHERE ",
      table name, fixed ".height <= EXCLUDED.height"]
  | copyRowsById source target idColumn =>
    [fixed "INSERT INTO ", table target, fixed " SELECT * FROM ", table source, fixed " WHERE ",
      identifier idColumn, fixed " = ANY($1::bigint[])"]

theorem toList_condition (check : Check) :
    check.expression.toList = (condition check).flatMap text := by
  obtain ⟨name, column, low, high⟩ := check
  cases high with
  | none =>
    simp only [Check.expression, condition, List.flatMap_cons, List.flatMap_nil, text_fixed,
      text_identifier, text_number, String.toList_append, List.append_nil, toString]
  | some high =>
    simp only [Check.expression, condition, List.flatMap_cons, List.flatMap_nil, text_fixed,
      text_identifier, text_number, String.toList_append, List.append_assoc, List.append_nil,
      toString]

theorem toList_sql (form : Form) : form.sql.toList = form.pieces.flatMap text := by
  cases form with
  | createPartitionTable partition template =>
    unfold sql pieces Statement.createPartitionTable
    simp only [List.flatMap_cons, List.flatMap_nil, text_fixed, text_table, String.toList_append,
      List.append_assoc, List.append_nil]
  | attachPartition parent partition lower upper =>
    unfold sql pieces Statement.attachPartition
    simp only [List.flatMap_cons, List.flatMap_nil, text_fixed, text_table, text_number, toString,
      String.toList_append, List.append_assoc, List.append_nil]
  | addCheck table check =>
    unfold sql pieces Statement.addCheck
    simp only [List.flatMap_append, List.flatMap_cons, List.flatMap_nil, text_fixed, text_table,
      text_identifier, toList_condition, String.toList_append, List.append_assoc, List.append_nil]
  | validateConstraint table name =>
    unfold sql pieces Statement.validateConstraint
    simp only [List.flatMap_cons, List.flatMap_nil, text_fixed, text_table, text_identifier,
      String.toList_append, List.append_assoc, List.append_nil]
  | dropConstraint table name =>
    unfold sql pieces Statement.dropConstraint
    simp only [List.flatMap_cons, List.flatMap_nil, text_fixed, text_table, text_identifier,
      String.toList_append, List.append_assoc, List.append_nil]
  | lockExclusive names =>
    unfold sql pieces Statement.lockExclusive
    simp only [List.flatMap_cons, List.flatMap_nil, text, String.toList_append, List.append_assoc,
      List.append_nil]
  | renameTable source target =>
    unfold sql pieces Statement.renameTable
    simp only [List.flatMap_cons, List.flatMap_nil, text_fixed, text_table, text_identifier,
      String.toList_append, List.append_assoc, List.append_nil]
  | upsertCheckpoint table =>
    unfold sql pieces Statement.upsertCheckpoint
    simp only [List.flatMap_cons, List.flatMap_nil, text_fixed, text_table, String.toList_append,
      List.append_assoc, List.append_nil]
  | copyRowsById source target idColumn =>
    unfold sql pieces Statement.copyRowsById
    simp only [List.flatMap_cons, List.flatMap_nil, text_fixed, text_table, text_identifier,
      String.toList_append, List.append_assoc, List.append_nil]

theorem apart_pieces (form : Form) : Apart form.pieces := by
  cases form with
  | createPartitionTable partition template =>
    exact ⟨.inl rfl, ends_cons (by decide), .inl rfl, ends_cons (by decide), .inl rfl, trivial⟩
  | attachPartition parent partition lower upper =>
    exact ⟨.inl rfl, ends_cons (by decide), .inl rfl, ends_cons (by decide), .inl rfl,
      ends_cons (by decide), .inl rfl, ends_cons (by decide), .inl rfl, trivial⟩
  | addCheck table check =>
    obtain ⟨name, column, low, high⟩ := check
    cases high with
    | none =>
      exact ⟨.inl rfl, ends_cons (by decide), .inl rfl, ends_cons (by decide), .inl rfl,
        ends_cons (by decide), .inl rfl, ends_cons (by decide), .inr ⟨rfl, rfl⟩, trivial⟩
    | some high =>
      exact ⟨.inl rfl, ends_cons (by decide), .inl rfl, ends_cons (by decide), .inl rfl,
        ends_cons (by decide), .inl rfl, ends_cons (by decide), .inl rfl, ends_cons (by decide),
        .inr ⟨rfl, rfl⟩, trivial⟩
  | validateConstraint table name =>
    exact ⟨.inl rfl, ends_cons (by decide), .inl rfl, ends_nil, trivial⟩
  | dropConstraint table name =>
    exact ⟨.inl rfl, ends_cons (by decide), .inl rfl, ends_nil, trivial⟩
  | lockExclusive tables =>
    exact ⟨.inl rfl, ends_cons (by decide), .inr ⟨rfl, rfl⟩, trivial⟩
  | renameTable source target =>
    exact ⟨.inl rfl, ends_cons (by decide), .inl rfl, ends_nil, trivial⟩
  | upsertCheckpoint table =>
    exact ⟨.inl rfl, ends_cons (by decide), .inl rfl, .inl rfl, .inl rfl, .inl rfl,
      ends_cons (by decide), .inr ⟨rfl, rfl⟩, trivial⟩
  | copyRowsById source target idColumn =>
    exact ⟨.inl rfl, ends_cons (by decide), .inl rfl, ends_cons (by decide), .inl rfl,
      ends_cons (by decide), .inl rfl, trivial⟩

def tokens (form : Form) : List Token := form.pieces.flatMap Piece.tokens

theorem tokens?_sql (form : Form) : tokens? form.sql = some form.tokens := by
  rw [tokens?, toList_sql]
  exact lex_pieces form.apart_pieces

end Form

theorem readQuoted?_quote (name : String) {rest : List Char} (h : rest.head? ≠ some '"') :
    readQuoted? ((quote name).toList ++ rest) = some (name.toList, rest) := by
  rw [quote, String.toList_ofList]
  exact readQuoted?_quoteChars name.toList h

theorem readName?_quoted (name : String) :
    readName? (quoteQualified name).toList = some ((name.toList.splitOn '.').map .quoted) := by
  rw [quoteQualified, String.toList_ofList, readName?_quoteQualified, parts,
    Text.splitAll_eq_splitOn]

theorem quote_injective : Function.Injective quote := by
  intro m n h
  have hend : ([] : List Char).head? ≠ some '"' := by simp
  have hm := readQuoted?_quote m hend
  rw [h, readQuoted?_quote n hend] at hm
  exact String.toList_inj.mp (congrArg Prod.fst (Option.some.inj hm)).symm

theorem quoteQualified_injective : Function.Injective quoteQualified := by
  intro m n h
  have hm := readName?_quoteQualified m.toList
  have hn := readName?_quoteQualified n.toList
  rw [quoteQualified, quoteQualified, String.ofList_inj] at h
  rw [h, hn] at hm
  have hparts := List.map_injective_iff.mpr (fun _ _ => NamePart.quoted.inj) (Option.some.inj hm)
  rw [← String.toList_inj, ← joinWith_parts m.toList, ← joinWith_parts n.toList, hparts]

theorem names_stay_quoted :
    (∀ (name : String) (rest : List Char), rest.head? ≠ some '"' →
      readQuoted? ((quote name).toList ++ rest) = some (name.toList, rest)) ∧
    (∀ name : String,
      readName? (quoteQualified name).toList = some ((name.toList.splitOn '.').map .quoted)) ∧
    Function.Injective quote ∧ Function.Injective quoteQualified ∧
    ∀ form : Form, tokens? form.sql = some form.tokens :=
  ⟨fun name _ => readQuoted?_quote name, readName?_quoted, quote_injective,
    quoteQualified_injective, Form.tokens?_sql⟩

theorem names_stay_quoted_with_height : ".height".toList.head? ≠ some '"' ∧
    readQuoted? ((quote "we\"ird").toList ++ ".height".toList) =
      some ("we\"ird".toList, ".height".toList) :=
  have apart : ".height".toList.head? ≠ some '"' := by decide
  ⟨apart, names_stay_quoted.1 _ _ apart⟩

theorem plain_names_not_split :
    tokens? (renameTable "event" "chain.event_backup") ≠
      some (tokensOf "ALTER TABLE " ++ named "event" ++ tokensOf " RENAME TO " ++
        named "chain.event_backup") ∧
    tokens? (validateConstraint "event" "height.done") ≠
      some (tokensOf "ALTER TABLE " ++ named "event" ++ tokensOf " VALIDATE CONSTRAINT " ++
        named "height.done") := by
  constructor <;> decide +kernel

end ChainIndexer.Statement
