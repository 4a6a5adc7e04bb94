import CapnpcWasm.TsSdk.Validate

/-!
# Errors on the wire between the worker and its client

`encodeError` summarizes a thrown value and `decodeError` rebuilds an error from the
summary.  Error objects refer to their causes, and the references may form a cycle, so
thrown values are the nodes of a graph.  What `decodeError` builds is a tree, and a graph
as well.
-/

namespace TsSdk

open Sdk

/-! ## Thrown values -/

/-- The guest a job was running. -/
inductive GuestStage where
  | compiler
  | generator (language : Language)
deriving DecidableEq, Repr

def GuestStage.name : GuestStage → String
  | .compiler => "compiler"
  | .generator language => language.name

structure Diagnostic where
  stage : GuestStage
  stderr : JsString
deriving DecidableEq, Repr

inductive FailureKind where
  | exit
  | trap
  | limit
  | protocol
deriving DecidableEq, Repr

def FailureKind.name : FailureKind → String
  | .exit => "exit"
  | .trap => "trap"
  | .limit => "limit"
  | .protocol => "protocol"

/-- The fields of a `CompileError` beside its message and its cause. -/
structure CompileFailure where
  stage : GuestStage
  diagnostics : List Diagnostic
  exitCode : Option Int
  kind : FailureKind
  limit : Option Limit
deriving DecidableEq, Repr

/-- The class of an error object, with its own fields. -/
inductive ErrorClass where
  | compile (failure : CompileFailure)
  | command (stderr : JsString)
  | limit (limit : Limit)
  | dom (name : JsString)
  | type (name : JsString)
  | range (name : JsString)
  | other (name : JsString)
deriving DecidableEq, Repr

/-- The `name` of an error object. -/
def ErrorClass.name : ErrorClass → JsString
  | .compile _ => text "CompileError"
  | .command _ => text "CommandError"
  | .limit _ => text "LimitError"
  | .dom name | .type name | .range name | .other name => name

structure ErrorObject (N : Type) where
  cls : ErrorClass
  message : JsString
  cause : Option N

/-- A thrown value: an error object, or what `String()` makes of another value. -/
inductive Thrown (N : Type) where
  | error (e : ErrorObject N)
  | value (string : JsString)

/-- `new CompileError(...)`. -/
def newCompileError {N : Type} (message : JsString) (stage : GuestStage)
    (diagnostics : List Diagnostic) (exitCode : Option Int) (kind : Option FailureKind)
    (limit : Option Limit) (cause : Option N) : ErrorObject N where
  cls := .compile {
    stage := stage, diagnostics := diagnostics, exitCode := exitCode
    kind := kind.getD (if exitCode = none then .trap else .exit), limit := limit }
  message := message
  cause := cause

/-! ## The wire -/

/-- A field of a reply.  The receiver trusts no field to have its type. -/
inductive Scalar where
  | undefined
  | number (n : Int)
  | string (s : JsString)
deriving DecidableEq, Repr

inductive ErrorSummary where
  | mk (name message : Scalar) (cause : Option ErrorSummary)
deriving Repr

inductive WireError where
  | compile (message : Scalar) (stage : GuestStage) (diagnostics : List Diagnostic)
      (exitCode failure limit : Scalar) (cause : Option ErrorSummary)
  | type (message : Scalar) (cause : Option ErrorSummary)
  | range (message : Scalar) (cause : Option ErrorSummary)
  | cancel (name message : Scalar) (cause : Option ErrorSummary)
  | error (name message : Scalar) (cause : Option ErrorSummary)

/-! ## Encoding -/

def causeDepth : Nat := 4

section

variable {N : Type} (graph : N → Thrown N)

/-- The chain of causes, down to a depth. -/
def summarize : Nat → Option N → Option ErrorSummary
  | 0, _ => none
  | _ + 1, none => none
  | depth + 1, some c =>
      match graph c with
      | .error e => some (.mk (.string e.cls.name) (.string e.message) (summarize depth e.cause))
      | .value s => some (.mk (.string (text "Error")) (.string s) none)

/-- A number or its absence, as a field. -/
def Scalar.ofExitCode : Option Int → Scalar
  | none => .undefined
  | some n => .number n

def Scalar.ofLimit : Option Limit → Scalar
  | none => .undefined
  | some limit => .string (text limit.name)

def encodeError (thrown : N) : WireError :=
  match graph thrown with
  | .value s => .error (.string (text "Error")) (.string s) none
  | .error e =>
      let cause := summarize graph causeDepth e.cause
      match e.cls with
      | .compile f =>
          .compile (.string e.message) f.stage f.diagnostics (.ofExitCode f.exitCode)
            (.string (text f.kind.name)) (.ofLimit f.limit) cause
      | .dom name =>
          if name = text "TimeoutError" ∨ name = text "AbortError" then
            .cancel (.string name) (.string e.message) none
          else .error (.string name) (.string e.message) cause
      | .type _ => .type (.string e.message) cause
      | .range _ => .range (.string e.message) cause
      | _ => .error (.string e.cls.name) (.string e.message) cause

end

/-! ## Decoding -/

/-- An error that `decodeError` built. -/
inductive Rebuilt where
  | mk (cls : ErrorClass) (message : JsString) (cause : Option Rebuilt)

/-- A rebuilt error as a node. -/
def Rebuilt.expose : Rebuilt → Thrown Rebuilt
  | .mk cls message cause => .error ⟨cls, message, cause⟩

def Rebuilt.cause : Rebuilt → Option Rebuilt
  | .mk _ _ cause => cause

def Rebuilt.ofObject (e : ErrorObject Rebuilt) : Rebuilt := .mk e.cls e.message e.cause

/-- `text(value)`. -/
def Scalar.text : Scalar → JsString
  | .undefined => TsSdk.text "undefined"
  | .number n => TsSdk.text (toString n)
  | .string s => s

/-- `new Error(message, { cause })`. -/
def plainError (message : JsString) (cause : Option Rebuilt) : ErrorObject Rebuilt :=
  ⟨.other (TsSdk.text "Error"), message, cause⟩

/-- Gives an error a name that is not its own. -/
def named (error : ErrorObject Rebuilt) : Scalar → ErrorObject Rebuilt
  | .string n =>
      if n ≠ TsSdk.text "Error" ∧ n ≠ error.cls.name then { error with cls := .other n } else error
  | _ => error

def decodeDepth : Nat := 8

def restore : Nat → Option ErrorSummary → Option Rebuilt
  | 0, _ => none
  | _ + 1, none => none
  | depth + 1, some (.mk name message cause) =>
      some (.ofObject (named (plainError message.text (restore depth cause)) name))

def failureKinds : List FailureKind := [.exit, .trap, .limit, .protocol]

/-- A known failure kind. -/
def Scalar.failureKind (s : Scalar) : Option FailureKind :=
  failureKinds.find? fun k => s = .string (TsSdk.text k.name)

/-- A number, and nothing else. -/
def Scalar.exitCode : Scalar → Option Int
  | .number n => some n
  | _ => none

/-- The fields of `defaultLimits`. -/
def limitFields : List Limit :=
  [.memoryPages, .workspaceBytes, .workspaceEntries, .pathBytes, .requestBytes, .outputBytes,
    .outputEntries, .stdoutBytes, .stderrBytes]

/-- A known limit. -/
def Scalar.limit (s : Scalar) : Option Limit :=
  limitFields.find? fun l => s = .string (TsSdk.text l.name)

def decodeError : WireError → Rebuilt
  | .compile message stage diagnostics exitCode failure limit cause =>
      .ofObject (newCompileError message.text stage diagnostics exitCode.exitCode
        failure.failureKind limit.limit (restore decodeDepth cause))
  | .type message cause => .mk (.type (TsSdk.text "TypeError")) message.text (restore decodeDepth cause)
  | .range message cause =>
      .mk (.range (TsSdk.text "RangeError")) message.text (restore decodeDepth cause)
  | .cancel name message _ =>
      .mk (.dom (if name = .string (TsSdk.text "AbortError") then TsSdk.text "AbortError"
        else TsSdk.text "TimeoutError")) message.text none
  | .error name message cause =>
      .ofObject (named (plainError message.text (restore decodeDepth cause)) name)

/-! ## The errors of a job -/

/-- What made the engine give up a stage. -/
inductive Failed (N : Type) where
  /-- `runCommand` threw a value other than a cancellation. -/
  | trapped (cause : N)
  | exited (code : Int)
  | noRequest
  | unexpectedStdout

section

variable {N : Type} (graph : N → Thrown N)

/-- The limit that stopped the guest, if a budget did. -/
def limitOf (cause : N) : Option Limit :=
  match graph cause with
  | .error ⟨.command _, _, some inner⟩ =>
      match graph inner with
      | .error ⟨.limit limit, _, _⟩ => some limit
      | _ => none
  | _ => none

/-- The message of an error, and any other value as a string. -/
def Thrown.message : Thrown N → JsString
  | .error e => e.message
  | .value s => s

/-- The `CompileError` the engine throws. -/
def engineError (stage : GuestStage) (diagnostics : List Diagnostic) : Failed N → ErrorObject N
  | .trapped cause =>
      let limit := limitOf graph cause
      newCompileError (text (stage.name ++ " trapped: ") ++ (graph cause).message) stage diagnostics
        none (some (if limit = none then .trap else .limit)) limit (some cause)
  | .exited code =>
      newCompileError (text (stage.name ++ " exited with status " ++ toString code)) stage
        diagnostics (some code) none none none
  | .noRequest =>
      newCompileError (text "compiler emitted no request") stage diagnostics none
        (some .protocol) none none
  | .unexpectedStdout =>
      newCompileError (text (stage.name ++ " generator unexpectedly wrote to stdout")) stage
        diagnostics none (some .protocol) none none

end

end TsSdk
