import ChainIndexer.Config
import ChainIndexer.Postgres.ConnectionText
import ChainIndexer.Postgres.Store

namespace ChainIndexer

def DatabaseConfig.settings (d : DatabaseConfig) : Postgres.Settings :=
  ⟨d.checkpointTable, d.idColumn, d.poolSize, .ofMillis d.acquireTimeoutMs,
    .ofMillis d.statementTimeoutMs⟩

namespace Postgres.Settings

def connect (s : Settings) (url : String) : Store.Result ConnectionText.Parameters := do
  (Identifier.validate s.checkpointTable).mapError .planning
  (Identifier.validate s.idColumn).mapError .planning
  match ConnectionText.parse? url with
  | some ps => .ok ps
  | none => .error (.poolConfig .invalidConnectionText)

end Postgres.Settings

end ChainIndexer
