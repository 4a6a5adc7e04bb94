import CapnpcWasm.Lib.Properties
import CapnpcWasm.TsSdk.Engine
import CapnpcWasm.TsSdk.RoundTrip

/-!
# Direct and worker execution

`createCompiler` runs a job in its caller's thread.  `createWorkerCompiler` checks and
copies the request there, posts it to a worker that stages it and runs it, and rebuilds the
error of a job that failed.  Objects are their own properties in enumeration order, and
what is posted arrives as a structured clone.

`direct` and `viaWorker` are the two as functions of a request.  They share the validator and
the engine, and differ in what becomes of the files and of a thrown value on the way:
`directFiles` against `stage` of a clone, and the value itself against a rebuilt one.
-/

namespace TsSdk

open Sdk

variable {N H C : Type}

/-! ## Copies of the input -/

/-- The own properties of an object, in the order of enumeration. -/
abbrev Record (A : Type) := List (JsString × A)

/-- `new TextEncoder().encode(text)`, which replaces lone surrogates. -/
def encodeText (text : JsString) : Bytes :=
  Text.utf8 ((Text.codePoints text).map fun code =>
    if 0xD800 ≤ code ∧ code ≤ 0xDFFF then Char.ofNat 0xFFFD else Char.ofNat code)

/-- Text is encoded, bytes are taken as they are. -/
def FileContents.encode : FileContents → Bytes
  | .text s => encodeText s
  | .bytes b => b

/-- The object the checks capture a mount in. -/
def captured (mount : Files) : Record FileContents := Properties.ofEntries mount

/-- The copy of a map of files under a prefix of their paths. -/
def copyFiles (files : Record FileContents) (above : JsString) : Record Bytes :=
  Properties.ofEntries (files.map fun (path, contents) => (above ++ path, contents.encode))

/-- The language a generator is named for. -/
def languageOf (name : JsString) : Option Language :=
  [Language.cpp, .rust, .go, .zig].find? fun l => text l.name == name

/-! ## Jobs -/

/-- The two jobs of a compiler. -/
inductive Request where
  | compile (input : CompileRequest)
  | generate (input : GenerationRequest)

/-- A job as the engine runs it. -/
inductive StagedJob where
  | compile (job : StagedCompileJob)
  | generate (request : Bytes) (generators : List Language)

/-- What either job resolves to. -/
structure JobResult where
  request : Option Bytes
  /-- The files of each language, in the order the generators ran. -/
  outputs : List (Language × Record Bytes)
  diagnostics : List Diagnostic

/-- The outputs as objects. -/
def Outputs.objects (outputs : Outputs) : List (Language × Record Bytes) :=
  outputs.entries.reverse.map fun ⟨language, files⟩ => (language, Properties.ofEntries files)

/-- A compilation has the request it generated. -/
def CompileResult.jobResult (r : CompileResult) : JobResult :=
  ⟨some r.request, Outputs.objects r.outputs, r.diagnostics⟩

/-- A generation was given its request. -/
def GenerationResult.jobResult (r : GenerationResult) : JobResult :=
  ⟨none, Outputs.objects r.outputs, r.diagnostics⟩

/-- The engine, which both modes run. -/
def Engine.runStaged (e : Engine N H C) (seen : GuestStage → Seen N) (control : Control N) :
    StagedJob → Except (JobThrown N) JobResult
  | .compile job => (e.compileStaged seen job control).map CompileResult.jobResult
  | .generate request generators =>
      (e.generateStaged seen request generators control).map GenerationResult.jobResult

/-! ## Thrown values as errors -/

/-- The values that errors of a job refer to. -/
inductive JobNode (N : Type) where
  | job (thrown : JobThrown N)
  | command (thrown : CommandThrown N)

section

variable (graph : N → Thrown N)

/-- A job that failed, as the value its caller catches. -/
def JobThrown.expose : JobThrown N → Thrown (CommandThrown N)
  | .cancelled none => .value (text "undefined")
  | .cancelled (some reason) => CommandThrown.expose graph (.host reason)
  | .host thrown => CommandThrown.expose graph (.host thrown)
  | .failed stage diagnostics why =>
      .error (engineError (CommandThrown.expose graph) stage diagnostics why)

/-- A thrown value of either kind, with the values it links to. -/
def JobNode.expose : JobNode N → Thrown (JobNode N)
  | .job thrown => (thrown.expose graph).over .command
  | .command thrown => (thrown.expose graph).over .command

end

/-! ## Direct execution -/

section

variable (limits : Limits) (supplied : List Language)

/-- The files of a job under their guest paths. -/
def directFiles (job : CompileJob) : Record Bytes :=
  Properties.extend
    (Properties.extend [] (copyFiles (captured job.sources) (text "src/")))
    (copyFiles (captured job.annotations) (text "include/"))

/-- The job the direct mode stages from a checked request. -/
def directJob : Request → Except TypeError StagedJob
  | .compile input => do
      let job ← validateCompile limits supplied input
      return .compile {
        files := directFiles job, entrypoints := job.entrypoints, importPaths := job.importPaths
        sourcePrefix := job.sourcePrefix, generators := job.generators.filterMap languageOf }
  | .generate input => do
      let job ← validateGenerate limits supplied input
      return .generate job.request (job.generators.filterMap languageOf)

/-! ## Worker execution -/

/-- A checked request with its files encoded, as it is posted. -/
structure WireCompileJob where
  files : Record Bytes
  includeFiles : Record Bytes
  importPaths : List JsString
  sourcePrefix : JsString
  entrypoints : List JsString
  generators : List Language

/-- The message of a job. -/
inductive WorkerMessage where
  | compile (request : WireCompileJob)
  | generate (request : Bytes) (generators : List Language)

/-- The message the client posts. -/
def workerMessage : Request → Except TypeError WorkerMessage
  | .compile input => do
      let job ← validateCompile limits supplied input
      return .compile {
        files := copyFiles (captured job.sources) []
        includeFiles := copyFiles (captured job.annotations) []
        importPaths := job.importPaths, sourcePrefix := job.sourcePrefix
        entrypoints := job.entrypoints, generators := job.generators.filterMap languageOf }
  | .generate input => do
      let job ← validateGenerate limits supplied input
      return .generate job.request (job.generators.filterMap languageOf)

end

/-- The structured clone of a record: a new object with its properties, added in order. -/
def structuredClone {A : Type} (record : Record A) : Record A := Properties.ofEntries record

/-- The message as it arrives. -/
def WorkerMessage.clone : WorkerMessage → WorkerMessage
  | .compile request =>
      .compile { request with
        files := structuredClone request.files
        includeFiles := structuredClone request.includeFiles }
  | .generate request generators => .generate request generators

/-- The reply as it arrives. -/
def JobResult.clone (r : JobResult) : JobResult :=
  { r with outputs := r.outputs.map fun (language, files) => (language, structuredClone files) }

/-- The worker stages a job by mount. -/
def stage (job : WireCompileJob) : Record Bytes :=
  Properties.extend
    (Properties.extend [] (job.files.map fun (path, bytes) => (text "src/" ++ path, bytes)))
    (job.includeFiles.map fun (path, bytes) => (text "include/" ++ path, bytes))

/-- The job the worker stages from it. -/
def WorkerMessage.staged : WorkerMessage → StagedJob
  | .compile job =>
      .compile {
        files := stage job, entrypoints := job.entrypoints, importPaths := job.importPaths
        sourcePrefix := job.sourcePrefix, generators := job.generators }
  | .generate request generators => .generate request generators

/-- What the worker posts back. -/
abbrev WorkerReply := Except WireError JobResult

namespace Engine

variable (e : Engine N H C) (graph : N → Thrown N) (supplied : List Language)
  (seen : GuestStage → Seen N)

/-- `createCompiler(..).compile` and `generate`. -/
def direct (request : Request) : Except (Thrown (JobNode N)) JobResult :=
  match directJob e.limits supplied request with
  | .error rejection => .error rejection.thrown
  | .ok job =>
      match e.runStaged seen ⟨none⟩ job with
      | .error thrown => .error (JobNode.expose graph (.job thrown))
      | .ok result => .ok result

/-- How the worker answers a job. -/
def onmessage (message : WorkerMessage) : WorkerReply :=
  match e.runStaged seen ⟨none⟩ message.staged with
  | .error thrown => .error (encodeError (JobNode.expose graph) (.job thrown))
  | .ok result => .ok result

/-- How the client settles a job by its reply. -/
def receive : WorkerReply → Except (Thrown Rebuilt) JobResult
  | .error error => .error (decodeError error).expose
  | .ok result => .ok result.clone

/-- `createWorkerCompiler(..)`, where nothing is stopped. -/
def viaWorker (request : Request) : Except (Thrown Rebuilt) JobResult :=
  match workerMessage e.limits supplied request with
  | .error rejection => .error rejection.thrown
  | .ok message => receive (e.onmessage graph seen message.clone)

end Engine

end TsSdk
