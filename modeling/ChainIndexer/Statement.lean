import ChainIndexer.Constraint

namespace ChainIndexer.Statement

open Identifier (quote quoteQualified unqualified)

def createCheckpointTable (table : String) : String :=
  "CREATE TABLE IF NOT EXISTS " ++ quoteQualified table ++
    " (job_name TEXT PRIMARY KEY, height BIGINT NOT NULL, updated_at TIMESTAMPTZ)"

def upsertCheckpoint (table : String) : String :=
  let t := quoteQualified table
  "INSERT INTO " ++ t ++ " (job_name, height, updated_at) VALUES ($1, $2, $3) " ++
    "ON CONFLICT (job_name) DO UPDATE " ++
    "SET height = EXCLUDED.height, updated_at = EXCLUDED.updated_at " ++
    "WHERE " ++ t ++ ".height <= EXCLUDED.height"

def createPartitionTable (partition template : String) : String :=
  "CREATE TABLE " ++ quoteQualified partition ++ " (LIKE " ++ quoteQualified template ++
    " INCLUDING ALL EXCLUDING CONSTRAINTS)"

def attachPartition (parent partition : String) (lower upper : Int) : String :=
  "ALTER TABLE " ++ quoteQualified parent ++ " ATTACH PARTITION " ++ quoteQualified partition ++
    s!" FOR VALUES FROM ({lower}) TO ({upper})"

def addCheck (table : String) (check : Check) : String :=
  "ALTER TABLE " ++ quoteQualified table ++ " ADD CONSTRAINT " ++ quote check.name ++
    " CHECK (" ++ check.expression ++ ") NOT VALID"

def validateConstraint (table name : String) : String :=
  "ALTER TABLE " ++ quoteQualified table ++ " VALIDATE CONSTRAINT " ++ quote name

def dropConstraint (table name : String) : String :=
  "ALTER TABLE " ++ quoteQualified table ++ " DROP CONSTRAINT IF EXISTS " ++ quote name

def lockExclusive (tables : List String) : String :=
  "LOCK TABLE " ++ ", ".intercalate (tables.map quoteQualified) ++ " IN ACCESS EXCLUSIVE MODE"

def renameTable (source target : String) : String :=
  "ALTER TABLE " ++ quoteQualified source ++ " RENAME TO " ++ quote (unqualified target)

def setLocalTimeout (millis : Nat) : String := s!"SET LOCAL statement_timeout = {millis}"

def selectMaxId (table idColumn : String) : String :=
  let c := quote idColumn
  "SELECT " ++ c ++ "::bigint FROM " ++ quoteQualified table ++ " ORDER BY " ++ c ++
    " DESC LIMIT 1"

def selectHeightBounds (table column : String) : String :=
  let c := quote column
  "SELECT MIN(" ++ c ++ ")::bigint, MAX(" ++ c ++ ")::bigint FROM " ++ quoteQualified table

def selectIdsAfter (table idColumn : String) : String :=
  let c := quote idColumn
  "SELECT " ++ c ++ "::bigint FROM " ++ quoteQualified table ++ " WHERE " ++ c ++
    " > $1 ORDER BY " ++ c ++ " LIMIT $2"

def copyRowsById (source target idColumn : String) : String :=
  "INSERT INTO " ++ quoteQualified target ++ " SELECT * FROM " ++ quoteQualified source ++
    " WHERE " ++ quote idColumn ++ " = ANY($1::bigint[])"

def selectCheckpoint (table : String) : String :=
  "SELECT job_name, height, updated_at FROM " ++ quoteQualified table ++ " WHERE job_name = $1"

def selectCheckpoints (table : String) : String :=
  "SELECT job_name, height, updated_at FROM " ++ quoteQualified table ++
    " WHERE job_name = ANY($1)"

def selectAllCheckpoints (table : String) : String :=
  "SELECT job_name, height, updated_at FROM " ++ quoteQualified table ++ " ORDER BY job_name"

def tableExists : String := "SELECT to_regclass($1) IS NOT NULL"

def isPartitioned : String :=
  "SELECT c.relkind = 'p' FROM pg_class c WHERE c.oid = to_regclass($1)"

def attachedPartitions : String :=
  "SELECT c.relname::text, pg_get_expr(c.relpartbound, c.oid) FROM pg_inherits i " ++
    "JOIN pg_class c ON c.oid = i.inhrelid WHERE i.inhparent = to_regclass($1)"

def checkConstraints : String :=
  "SELECT conname::text FROM pg_constraint " ++
    "WHERE conrelid = to_regclass($1) AND contype = 'c' ORDER BY conname"

def referencingForeignKeys : String :=
  "SELECT conrelid::regclass::text, conname::text FROM pg_constraint " ++
    "WHERE confrelid = to_regclass($1) AND contype = 'f' ORDER BY 1, 2"

def serialSequence : String := "SELECT pg_get_serial_sequence($1, $2)"

def setSequence : String := "SELECT setval(to_regclass($1), $2, $3)"

def activity : String :=
  "SELECT (SELECT count(*) FROM pg_stat_activity WHERE state = 'active')::bigint, " ++
    "current_setting('max_connections')::bigint"

def selectSequenceState (sequence : String) : String :=
  "SELECT last_value, is_called FROM " ++ sequence

def dropForeignKey (table name : String) : String :=
  "ALTER TABLE " ++ table ++ " DROP CONSTRAINT " ++ quote name

def ping : String := "SELECT 1"

def beginUnit (timeoutMillis : Nat) : String := "BEGIN; " ++ setLocalTimeout timeoutMillis

end ChainIndexer.Statement
