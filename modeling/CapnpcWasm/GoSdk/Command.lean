import CapnpcWasm.MemoryFs.Machine

/-!
# Running a command

`run` of the Go SDK executes one guest and classifies how it ended, and `runGenerators`
runs the generators of a job in order.  A guest is what it does: operations on its output
mount and writes to its two streams, in any order, and then an ending.  The streams keep
at most their limit and remember whether they were offered more.
-/

namespace GoSdk

open Sdk

abbrev Bytes := List UInt8

/-! ## Errors -/

/-- How a job's context ended: `Close` ended it, or its caller did. -/
inductive ContextEnd where
  | closed
  | canceled
  | deadlineExceeded
deriving DecidableEq, Repr

/-- The underlying error of a failed command. -/
inductive Cause where
  | context (e : ContextEnd)
  | exceeded (limit : Limit)
  | exit (code : UInt32)
  | trap (message : String)
  | unexpectedStdout
  | emptyRequest
deriving DecidableEq, Repr

def ContextEnd.message : ContextEnd → String
  | .closed => "compiler is closed"
  | .canceled => "context canceled"
  | .deadlineExceeded => "context deadline exceeded"

def Cause.message : Cause → String
  | .context e => e.message
  | .exceeded limit => limit.name ++ " resource limit exceeded"
  | .exit code => "exited with status " ++ toString code.toNat
  | .trap message => message
  | .unexpectedStdout => "generator unexpectedly wrote to stdout"
  | .emptyRequest => "compiler emitted an empty CodeGeneratorRequest"

structure Diagnostic where
  stage : Stage
  stderr : Bytes
deriving DecidableEq, Repr

/-- The error a failed stage returns. -/
structure Error where
  stage : Stage
  exitCode : UInt32
  limit : Option Limit
  diagnostics : List Diagnostic
  stderr : Bytes
  err : Cause
deriving DecidableEq, Repr

/-- The error of a stage, with the exit status and the limit its cause names. -/
def failure (stage : Stage) (stderr : Bytes) (diagnostics : List Diagnostic) (err : Cause) :
    Error where
  stage := stage
  exitCode := match err with | .exit code => code | _ => 0
  limit := match err with | .exceeded limit => some limit | _ => none
  diagnostics := diagnostics
  stderr := stderr
  err := err

/-! ## Streams -/

structure LimitedBuffer where
  limit : Nat
  data : Bytes
  exceeded : Bool
deriving DecidableEq, Repr

def LimitedBuffer.write (b : LimitedBuffer) (data : Bytes) : LimitedBuffer :=
  if b.limit - b.data.length < data.length then
    { b with exceeded := true, data := b.data ++ data.take (b.limit - b.data.length) }
  else { b with data := b.data ++ data }

/-! ## Guests -/

/-- One thing a guest does. -/
inductive Action where
  | fs (op : MemoryFs.Op)
  | stdout (data : Bytes)
  | stderr (data : Bytes)
deriving DecidableEq, Repr

inductive Ending where
  | returned
  | exit (code : UInt32)
  | trap (message : String)
deriving DecidableEq, Repr

/-- What a guest does, how it ends, and how the job's context had ended by the time the
command is classified. -/
structure Execution where
  actions : List Action
  ending : Ending
  context : Option ContextEnd

/-- A guest as the host sees it: its output mount, if it has one, and its streams. -/
structure Instance where
  fs : Option MemoryFs.World
  stdout : LimitedBuffer
  stderr : LimitedBuffer

/-- A guest operation or write.  An operation without an answer (on no open handle, or one that
panics) leaves the mount as it is. -/
def Instance.act (g : Instance) : Action → Instance
  | .fs op => { g with fs := g.fs.map fun w => ((w.step op).map (·.1)).getD w }
  | .stdout data => { g with stdout := g.stdout.write data }
  | .stderr data => { g with stderr := g.stderr.write data }

def Ending.cause : Ending → Option Cause
  | .returned => none
  | .exit code => if code = 0 then none else some (.exit code)
  | .trap message => some (.trap message)

/-- What the execution of a command gives its caller. -/
structure Outcome where
  stdout : Bytes
  stderr : Bytes
  err : Option Cause
  /-- The output mount afterwards. -/
  output : Option MemoryFs.World

/-- Executes one command and classifies its outcome: the job's cancellation, a budget the
guest exceeded in its output, stdout or stderr, and then its exit status or trap. -/
def run (limits : Limits) (output : Option MemoryFs.World) (e : Execution) (stdoutBytes : Nat)
    (stdoutLimit : Limit) : Outcome :=
  let start : Instance := ⟨output, ⟨stdoutBytes, [], false⟩, ⟨limits.stderrBytes, [], false⟩⟩
  let g := e.actions.foldl Instance.act start
  { stdout := g.stdout.data
    stderr := g.stderr.data
    err :=
      match e.context with
      | some c => some (.context c)
      | none =>
          match g.fs.bind (·.fs.limit) with
          | some limit => some (.exceeded limit)
          | none =>
              if g.stdout.exceeded then some (.exceeded stdoutLimit)
              else if g.stderr.exceeded then some (.exceeded .stderrBytes)
              else e.ending.cause
    output := g.fs }

/-! ## Generators -/

abbrev Files := List (MemoryFs.Name × Bytes)

abbrev Outputs := AList fun _ : Language => Files

structure GenerationResult where
  outputs : Outputs
  diagnostics : List Diagnostic

/-- The command name a generator sees. -/
def argv0 : Language → String
  | .cpp => "capnpc-c++"
  | .rust => "capnpc-rust"
  | .go => "capnpc-go"
  | .zig => "capnpc-zig"

/-- A guest's execution on its arguments and standard input. -/
abbrev Guest := List String → Bytes → Execution

/-- The diagnostics with those of a stage that wrote any. -/
def diagnose (diagnostics : List Diagnostic) (stage : Stage) (stderr : Bytes) : List Diagnostic :=
  if stderr ≠ [] then diagnostics ++ [⟨stage, stderr⟩] else diagnostics

/-- One generator on an empty mount of its own. -/
def runGenerator (limits : Limits) (guest : Guest) (language : Language) (binary : Bytes) :
    Outcome :=
  run limits (some (MemoryFs.fresh 0 limits)) (guest [argv0 language] binary) limits.stdoutBytes
    .stdoutBytes

/-- The error of a generator: of its run, or for what it left on its stdout. -/
def Outcome.generatorErr (o : Outcome) : Option Cause :=
  match o.err with
  | some err => some err
  | none => if o.stdout ≠ [] then some .unexpectedStdout else none

/-- The files of the output mount. -/
def Outcome.snapshot (o : Outcome) : Files :=
  match o.output with
  | some w => w.snapshot
  | none => []

/-- Runs each generator in order, appending to the diagnostics of earlier stages. -/
def runGenerators (limits : Limits) (guests : Language → Guest) (binary : Bytes) :
    List Language → Outputs → List Diagnostic → Except Error GenerationResult
  | [], outputs, diagnostics => .ok ⟨outputs, diagnostics⟩
  | language :: languages, outputs, diagnostics =>
      let o := runGenerator limits (guests language) language binary
      let diagnostics := diagnose diagnostics (.generator language) o.stderr
      match o.generatorErr with
      | some err => .error (failure (.generator language) o.stderr diagnostics err)
      | none =>
          runGenerators limits guests binary languages (outputs.insert language o.snapshot)
            diagnostics

end GoSdk
