import ChainIndexer.Config.Section
import ChainIndexer.Config.Validate
import ChainIndexer.Data.Toml

namespace ChainIndexer.Config

def decode (text : String) : Except JobError Config :=
  match (Data.Toml.parse? text).bind (Reading.config ⟨false⟩) with
  | some c => .ok c
  | none => .error (.config .invalidToml)

def fromToml (text : String) : Except JobError Config := do
  let c ← decode text
  c.validate
  .ok c

def noSuchFile : String := "No such file or directory (os error 2)"

def load (path : String) (file : Except String String) (env : List (String × String)) :
    Except JobError Config := do
  let text ← file.mapError fun reason => .config (.unreadableFile path reason)
  let c := ((← decode text).applyEnvironment env).1
  c.validate
  .ok c

end ChainIndexer.Config
