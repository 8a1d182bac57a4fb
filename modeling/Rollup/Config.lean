import Rollup.Error
import Rollup.Toml.Settings

/-!
# Configuration

How an engine commits: after how many queued entries it does so by itself, with how many workers,
and under which name chained stages are stored.
-/

namespace Rollup

/-- How an engine commits. -/
structure Config where
  /-- Queued entries that start a commit; zero leaves committing to the caller. -/
  commitThreshold : Nat := 200
  /-- Workers among which the keys of a phase are divided. -/
  commitWorkers : Nat := 4
  /-- The name of the scope that holds the next stage. -/
  chainStore : String := "chain"
deriving Repr, DecidableEq

namespace Config

/-- Whether only the caller commits. -/
def autoCommitDisabled (c : Config) : Bool := c.commitThreshold = 0

/-- Refuses a configuration without workers or without a name for chained stages. -/
def validate (c : Config) : Except ConfigError Unit :=
  if c.commitWorkers = 0 then .error .noWorkers
  else if c.chainStore = "" then .error .emptyChainStore
  else .ok ()

/-- Applies one setting. -/
def set? (c : Config) : String × Toml.Scalar → Option Config
  | (name, .integer n) =>
    if n < 0 ∨ 0x10000000000000000 ≤ n then none
    else if name = "commit_threshold" then some { c with commitThreshold := n.toNat }
    else if name = "commit_workers" then some { c with commitWorkers := n.toNat }
    else none
  | (name, .text s) => if name = "chain_store" then some { c with chainStore := s } else none

/-- The configuration that a TOML text denotes, checked or not. -/
def read? (text : String) : Option Config := do
  (← Toml.settings? text).foldlM set? {}

/-- The configuration that a TOML text denotes.  What the text leaves out has its default. -/
def ofString (text : String) : Except ConfigError Config :=
  match read? text with
  | none => .error .malformed
  | some c => c.validate.map fun _ => c

end Config

end Rollup
