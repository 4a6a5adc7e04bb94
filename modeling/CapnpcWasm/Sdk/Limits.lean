import Mathlib.Tactic.Common
import Mathlib.Tactic.Ring

/-!
# Resource limits

The budgets of a job, with the fields of the Go SDK's `Limits`.  A limit is named in
errors by its field in lower camel case.
-/

namespace Sdk

/-- A budget, as `Error.Limit` names it. -/
inductive Limit where
  | memoryPages
  | workspaceBytes
  | workspaceEntries
  | pathBytes
  | requestBytes
  | outputBytes
  | outputEntries
  | stdoutBytes
  | stderrBytes
deriving DecidableEq, Repr

def Limit.name : Limit → String
  | .memoryPages => "memoryPages"
  | .workspaceBytes => "workspaceBytes"
  | .workspaceEntries => "workspaceEntries"
  | .pathBytes => "pathBytes"
  | .requestBytes => "requestBytes"
  | .outputBytes => "outputBytes"
  | .outputEntries => "outputEntries"
  | .stdoutBytes => "stdoutBytes"
  | .stderrBytes => "stderrBytes"

/-- The generators. -/
inductive Language where
  | cpp
  | rust
  | go
  | zig
deriving DecidableEq, Repr

def Language.name : Language → String
  | .cpp => "cpp"
  | .rust => "rust"
  | .go => "go"
  | .zig => "zig"

/-- The step an error or a diagnostic comes from. -/
inductive Stage where
  | validate
  | modules
  | compiler
  | generator (language : Language)
deriving DecidableEq, Repr

structure Limits where
  memoryPages : Nat
  workspaceBytes : Nat
  workspaceEntries : Nat
  pathBytes : Nat
  requestBytes : Nat
  outputBytes : Nat
  outputEntries : Nat
  stdoutBytes : Nat
  stderrBytes : Nat
deriving DecidableEq, Repr

/-- The limits a compiler uses unless it is given others. -/
def defaultLimits : Limits where
  memoryPages := 4096
  workspaceBytes := 64 * 2 ^ 20
  workspaceEntries := 4096
  pathBytes := 4096
  requestBytes := 64 * 2 ^ 20
  outputBytes := 64 * 2 ^ 20
  outputEntries := 4096
  stdoutBytes := 64 * 2 ^ 20
  stderrBytes := 2 ^ 20

end Sdk
