import CapnpcWasm.Sdk.Staged
import CapnpcWasm.TsSdk.Staging

/-!
# The engine of the TypeScript SDK

`compileStaged` and `generateStaged` run already validated jobs.  Every stage reads the
request from the buffer of the stage before it, which the filesystem of a guest shares
with the caller, and adds to one list of diagnostics.
-/

namespace TsSdk

open Sdk

variable {N H C : Type}

/-! ## Thrown values of a job -/

/-- A value `runCommand` threw, other than a cancellation. -/
inductive CommandThrown (N : Type) where
  | host (thrown : Thrown N)
  /-- A `CommandError`. -/
  | command (message stderr : JsString) (cause : Thrown N)

/-- An error over another graph of causes. -/
def Thrown.over {N M : Type} (node : N → M) : Thrown N → Thrown M
  | .error e => .error ⟨e.cls, e.message, e.cause.map node⟩
  | .value s => .value s

def CommandThrown.expose (graph : N → Thrown N) : CommandThrown N → Thrown (CommandThrown N)
  | .host thrown => thrown.over fun n => .host (graph n)
  | .command message stderr cause => .error ⟨.command stderr, message, some (.host cause)⟩

/-- A value a job threw. -/
inductive JobThrown (N : Type) where
  /-- The reason of a cancelled job, if it has one. -/
  | cancelled (reason : Option (Thrown N))
  | host (thrown : Thrown N)
  /-- The error of a stage. -/
  | failed (stage : GuestStage) (diagnostics : List Diagnostic) (failed : Failed (CommandThrown N))

/-- The diagnostics an error carries. -/
def JobThrown.diagnostics : JobThrown N → List Diagnostic
  | .failed _ diagnostics _ => diagnostics
  | _ => []

/-! ## The engine -/

/-- A guest, by its arguments, its standard input and the files mounted for it. -/
abbrev Program (N C : Type) :=
  List JsString → Bytes → List (JsString × Bytes) → Guest N (Import N C)

structure Engine (N H C : Type) where
  limits : Limits
  host : Host N H C
  compiler : Program N C
  generators : Language → Program N C

/-- A compile job whose files are private and staged by mount. -/
structure StagedCompileJob where
  files : List (JsString × Bytes)
  entrypoints : List JsString
  importPaths : List JsString
  sourcePrefix : JsString
  generators : List Language

abbrev GeneratedFiles := List (JsString × Bytes)

abbrev Outputs := AList fun _ : Language => GeneratedFiles

structure GenerationResult where
  outputs : Outputs
  diagnostics : List Diagnostic

structure CompileResult where
  request : Bytes
  outputs : Outputs
  diagnostics : List Diagnostic

/-- The command a generator is called as. -/
def command : Language → JsString
  | .cpp => text "capnpc-c++"
  | .rust => text "capnpc-rust"
  | .go => text "capnpc-go"
  | .zig => text "capnpc-zig"

def compileArgs (job : StagedCompileJob) : List JsString :=
  [text "capnp", text "compile", text "--no-standard-import"] ++
    (job.importPaths.map fun path =>
      if path ≠ [] then text "-I/src/" ++ path else text "-I/src") ++
    [text "-I/include", text "--src-prefix=/src"] ++
    (if job.sourcePrefix ≠ [] then [text "--src-prefix=/src/" ++ job.sourcePrefix] else []) ++
    [text "-o-"] ++ job.entrypoints.map fun path => text "/src/" ++ path

/-- The diagnostics with those of a stage that wrote any. -/
def diagnose (diagnostics : List Diagnostic) (stage : GuestStage) (stderr : JsString) :
    List Diagnostic :=
  if stderr ≠ [] then diagnostics ++ [⟨stage, stderr⟩] else diagnostics

/-- What a stage leaves: the control of the job, the buffer of its standard input and what
the command gave. -/
structure Ran (N : Type) where
  control : Control N
  stdin : Bytes
  outcome : Outcome N

/-- What a stage that succeeded leaves. -/
structure Executed (N : Type) where
  control : Control N
  stdin : Bytes
  diagnostics : List Diagnostic
  stdout : Bytes
  files : GeneratedFiles

namespace Engine

variable (e : Engine N H C)

/-- `runCommand` on buffers the engine owns. -/
def runCommand (program : Program N C) (args : List JsString) (stdin : Bytes)
    (files : List (JsString × Bytes)) (readonly : Bool) (control : Control N) :
    Except (Thrown N) (Ran N) := do
  let fs ← stageFiles files readonly
  let host := e.host.start e.limits readonly args ⟨fs.inodes ++ [.file stdin true]⟩
  let imports := e.host.imports e.limits readonly
  let guest := program args stdin files
  let r := (runGuest imports guest ⟨host, control, none, none⟩).1
  return {
    control := r.control
    stdin := e.host.dataAt r.host fs.inodes.length
    outcome := TsSdk.runCommand e.limits readonly imports guest host control }

/-- One stage.  `seen` is what the job sees before it starts. -/
def execute (stage : GuestStage) (program : Program N C) (args : List JsString) (stdin : Bytes)
    (files : List (JsString × Bytes)) (readonly : Bool) (diagnostics : List Diagnostic)
    (control : Control N) (seen : Seen N) : Except (JobThrown N) (Executed N) :=
  match control.cancelled seen with
  | (_, .error thrown) => .error (.host thrown)
  | (control, .ok true) => .error (.cancelled control.reason)
  | (control, .ok false) =>
      match e.runCommand program args stdin files readonly control with
      | .error thrown => .error (.failed stage diagnostics (.trapped (.host thrown)))
      | .ok ran =>
          match ran.outcome with
          | .cancelled reason _ => .error (.cancelled reason)
          | .failed message stderr cause =>
              .error (.failed stage (diagnose diagnostics stage stderr)
                (.trapped (.command message stderr cause)))
          | .done code stdout stderr files =>
              let diagnostics := diagnose diagnostics stage stderr
              if code ≠ 0 then .error (.failed stage diagnostics (.exited code))
              else .ok ⟨ran.control, ran.stdin, diagnostics, stdout, files⟩

/-- Runs each generator on the request, with the buffer as the last one left it. -/
def generate (seen : GuestStage → Seen N) : List Language → Bytes → Outputs → List Diagnostic →
    Control N → Except (JobThrown N) (GenerationResult × Bytes)
  | [], request, outputs, diagnostics, _ => .ok (⟨outputs, diagnostics⟩, request)
  | language :: selected, request, outputs, diagnostics, control =>
      match e.execute (.generator language) (e.generators language) [command language] request []
          false diagnostics control (seen (.generator language)) with
      | .error thrown => .error thrown
      | .ok generated =>
          if generated.stdout ≠ [] then
            .error (.failed (.generator language) generated.diagnostics .unexpectedStdout)
          else
            generate seen selected generated.stdin (outputs.insert language generated.files)
              generated.diagnostics generated.control

def generateStaged (seen : GuestStage → Seen N) (request : Bytes) (generators : List Language)
    (control : Control N) : Except (JobThrown N) GenerationResult :=
  (e.generate seen generators request ∅ [] control).map (·.1)

/-- The result shares the buffer of the request with the generators. -/
def compileStaged (seen : GuestStage → Seen N) (job : StagedCompileJob) (control : Control N) :
    Except (JobThrown N) CompileResult :=
  match e.execute .compiler e.compiler (compileArgs job) [] job.files true [] control
      (seen .compiler) with
  | .error thrown => .error thrown
  | .ok compiled =>
      if compiled.stdout = [] then .error (.failed .compiler compiled.diagnostics .noRequest)
      else
        (e.generate seen job.generators compiled.stdout ∅ compiled.diagnostics
          compiled.control).map fun (generated, request) =>
            ⟨request, generated.outputs, generated.diagnostics⟩

end Engine

end TsSdk
