import CapnpcWasm.GoSdk.Publication
import CapnpcWasm.GoSdk.Validate
import CapnpcWasm.Lib.Checks
import CapnpcWasm.Sdk.Staged

/-!
# Jobs of the Go SDK

`Compile` and `Generate`, from the checks on the request to the result.  A guest is a
function of its arguments, its standard input and the files mounted for it.  A generator
depends on nothing else of the job, so a job is a pipeline of stages.
-/

namespace GoSdk

open Sdk MemoryFs Checks

/-! ## Jobs -/

/-- The compiler's execution on its arguments, the workspace and the include files. -/
abbrev CompilerGuest := List Name → Contents → Contents → Execution

structure Compiler where
  limits : Limits
  /-- The languages a module was supplied for. -/
  supplied : List Language
  compiler : CompilerGuest
  generators : Language → Guest

structure Result where
  request : Bytes
  outputs : Outputs
  diagnostics : List Diagnostic

/-- The error of a job: of its request, or of the stage that failed. -/
inductive JobError where
  | rejected (rejection : Rejection)
  | failed (error : Error)

def JobError.diagnostics : JobError → List Diagnostic
  | .rejected _ => []
  | .failed error => error.diagnostics

def compileArgs (request : Request) : List Name :=
  [text "capnp", text "compile", text "--no-standard-import"] ++
    (request.importPaths.map fun root =>
      if root = [] then text "-I/src" else text "-I/src/" ++ root) ++
    [text "-I/include", text "--src-prefix=/src"] ++
    (if request.sourcePrefix ≠ [] then [text "--src-prefix=/src/" ++ request.sourcePrefix] else []) ++
    [text "-o-"] ++ request.entrypoints.map fun entry => text "/src/" ++ entry

/-- The language a generator is named for. -/
def languageOf (name : Name) : Option Language :=
  [Language.cpp, .rust, .go, .zig].find? fun l => text l.name == name

namespace Compiler

variable (c : Compiler)

/-- The smaller of the two budgets bounds the compiler's stdout and names the failure. -/
def stdoutBudget : Nat × Limit :=
  if c.limits.requestBytes < c.limits.stdoutBytes then (c.limits.requestBytes, .requestBytes)
  else (c.limits.stdoutBytes, .stdoutBytes)

def runCompiler (request : Request) : Outcome :=
  run c.limits none (c.compiler (compileArgs request) request.files request.includeFiles)
    c.stdoutBudget.1 c.stdoutBudget.2

end Compiler

/-- The error of the compiler: of its run, or for a request it did not emit. -/
def Outcome.compilerErr (o : Outcome) : Option Cause :=
  match o.err with
  | some err => some err
  | none => if o.stdout = [] then some .emptyRequest else none

namespace Compiler

variable (c : Compiler)

def compile (request : Request) : Except JobError Result :=
  match validate c.limits c.supplied request with
  | .error rejection => .error (.rejected rejection)
  | .ok () =>
      let o := c.runCompiler request
      let diagnostics := diagnose [] .compiler o.stderr
      match o.compilerErr with
      | some err => .error (.failed (failure .compiler o.stderr diagnostics err))
      | none =>
          match runGenerators c.limits c.generators o.stdout (request.generators.filterMap languageOf)
              ∅ diagnostics with
          | .error e => .error (.failed e)
          | .ok generated => .ok ⟨o.stdout, generated.outputs, generated.diagnostics⟩

def generate (request : GenerationRequest) : Except JobError GenerationResult :=
  match validateGenerate c.limits c.supplied request with
  | .error rejection => .error (.rejected rejection)
  | .ok () =>
      (runGenerators c.limits c.generators request.request
        (request.generators.filterMap languageOf) ∅ []).mapError .failed

end Compiler

/-! ## Stages -/

/-- How a stage failed, and what it wrote to stderr. -/
structure StageError where
  stage : Stage
  stderr : Bytes
  err : Cause

def StageError.failure (e : StageError) (diagnostics : List Diagnostic) : Error :=
  GoSdk.failure e.stage e.stderr diagnostics e.err

/-- A stage by its outcome, what went wrong and what it gives. -/
def stageReport {O : Type} (stage : Stage) (o : Outcome) (err : Option Cause) (output : O) :
    Report Diagnostic StageError O where
  notes := diagnose [] stage o.stderr
  result :=
    match err with
    | some err => .error ⟨stage, o.stderr, err⟩
    | none => .ok output

theorem stageReport_some {O : Type} {stage : Stage} {o : Outcome} {err : Cause} {output : O} :
    (stageReport stage o (some err) output).result = .error ⟨stage, o.stderr, err⟩ := rfl

theorem stageReport_none {O : Type} {stage : Stage} {o : Outcome} {output : O} :
    (stageReport stage o none output).result = .ok output := rfl

def Compiler.compilerStage (c : Compiler) (request : Request) :
    Report Diagnostic StageError Bytes :=
  let o := c.runCompiler request
  stageReport .compiler o o.compilerErr o.stdout

def Compiler.generatorStage (c : Compiler) (binary : Bytes) (language : Language) :
    Report Diagnostic StageError Files :=
  let o := runGenerator c.limits (c.generators language) language binary
  stageReport (.generator language) o o.generatorErr o.snapshot

theorem diagnose_append (diagnostics : List Diagnostic) (stage : Stage) (stderr : Bytes) :
    diagnose diagnostics stage stderr = diagnostics ++ diagnose [] stage stderr := by
  rw [diagnose, diagnose]
  split
  · rw [List.nil_append]
  · rw [List.append_nil]

variable {c : Compiler}

/-- What `runGenerators` makes of its stages. -/
def ofStages : Except (StageError × List Diagnostic) (Outputs × List Diagnostic) →
    Except Error GenerationResult
  | .error (e, diagnostics) => .error (e.failure diagnostics)
  | .ok (outputs, diagnostics) => .ok ⟨outputs, diagnostics⟩

/-- The generators of a job are stages in order. -/
theorem runGenerators_stages (binary : Bytes) (languages : List Language) (outputs : Outputs)
    (diagnostics : List Diagnostic) :
    runGenerators c.limits c.generators binary languages outputs diagnostics =
      ofStages (runStages (c.generatorStage binary) languages outputs diagnostics) := by
  induction languages generalizing outputs diagnostics with
  | nil => rfl
  | cons language languages ih =>
      rw [runGenerators, diagnose_append]
      cases herr : (runGenerator c.limits (c.generators language) language binary).generatorErr with
      | some err =>
          have hresult : (c.generatorStage binary language).result = .error
              ⟨.generator language,
                (runGenerator c.limits (c.generators language) language binary).stderr, err⟩ := by
            rw [Compiler.generatorStage, herr, stageReport_some]
          rw [runStages_cons_error hresult]
          rfl
      | none =>
          have hresult : (c.generatorStage binary language).result = .ok
              (runGenerator c.limits (c.generators language) language binary).snapshot := by
            rw [Compiler.generatorStage, herr, stageReport_none]
          rw [runStages_cons_ok hresult]
          exact ih _ _

/-! ## Validation of the generators -/

/-- A list of generators as a request names it. -/
def generatorNames (languages : List Language) : List Name :=
  languages.map fun l => text l.name

theorem languageOf_name (language : Language) : languageOf (text language.name) = some language := by
  cases language <;> decide +kernel

theorem languages_names (languages : List Language) :
    (generatorNames languages).filterMap languageOf = languages := by
  rw [generatorNames, List.filterMap_map]
  have hsome : (languageOf ∘ fun l : Language => text l.name) = some := funext languageOf_name
  rw [hsome, List.filterMap_some]

theorem validateGenerators_of_validate {limits : Limits} {supplied : List Language}
    {request : Request} (h : validate limits supplied request = .ok ()) :
    validateGenerators supplied request.generators = .ok () := by
  rw [validate] at h
  obtain ⟨u, hgenerators, -⟩ := bind_ok h
  exact hgenerators

/-- A request stays valid without its generators. -/
theorem validate_nil {limits : Limits} {supplied : List Language} {r : Request}
    (h : validate limits supplied r = .ok ()) :
    validate limits supplied { r with generators := [] } = .ok () := by
  rw [validate] at h ⊢
  obtain ⟨u, -, hrest⟩ := bind_ok h
  exact hrest

/-- A valid list of generators names languages. -/
theorem generators_names {supplied : List Language} {names : List Name}
    (h : validateGenerators supplied names = .ok ()) :
    ∃ languages, names = generatorNames languages := by
  rw [validateGenerators] at h
  split at h
  · cases h
  split at h
  · cases h
  have hnamed : ∀ name ∈ names, ∃ l : Language, text l.name = name := by
    intro name hname
    have hchecked := forM_ok h name hname
    rw [checkGenerator] at hchecked
    split at hchecked
    · cases hchecked
    · next hmodule =>
      have hany : supported name = true ∧ hasModule supplied name = true := by
        simpa using hmodule
      obtain ⟨l, -, hl⟩ := List.any_eq_true.mp hany.2
      exact ⟨l, by simpa using hl⟩
  clear h
  rename_i hcount hrepeated
  clear hcount hrepeated
  induction names with
  | nil => exact ⟨[], rfl⟩
  | cons name names ih =>
      obtain ⟨⟨l, hl⟩, hrest⟩ := List.forall_mem_cons.mp hnamed
      obtain ⟨languages, hlanguages⟩ := ih hrest
      exact ⟨l :: languages, by rw [hlanguages, ← hl]; rfl⟩

/-- The compiler's request fits the budget of a request. -/
theorem stdout_le (c : Compiler) (request : Request) :
    (c.runCompiler request).stdout.length ≤ c.limits.requestBytes := by
  have hlength : (c.runCompiler request).stdout.length ≤ c.stdoutBudget.1 := by
    have hrun := (run_err c.limits false (c.compiler (compileArgs request) request.files
      request.includeFiles) c.stdoutBudget.1 c.stdoutBudget.2).2
    rw [Compiler.runCompiler]
    exact hrun.trans_le (Nat.min_le_left _ _)
  rw [Compiler.stdoutBudget] at hlength
  split at hlength
  · exact hlength
  · omega

/-! ## All or nothing -/

section

variable (c : Compiler) (request : Request)

/-- A compile job with a list of generators. -/
def Compiler.compileWith (languages : List Language) : Except JobError Result :=
  c.compile { request with generators := generatorNames languages }

/-- The compile job accepts the list of generators. -/
def Compiler.accepts (languages : List Language) : Prop :=
  validate c.limits c.supplied { request with generators := generatorNames languages } = .ok ()

/-- A generation job with a list of generators. -/
def Compiler.generateWith (binary : Bytes) (languages : List Language) :
    Except JobError GenerationResult :=
  c.generate ⟨binary, generatorNames languages⟩

/-- The generation job accepts the request and the list of generators. -/
def Compiler.acceptsGeneration (binary : Bytes) (languages : List Language) : Prop :=
  validateGenerate c.limits c.supplied ⟨binary, generatorNames languages⟩ = .ok ()

/-- What a compile job publishes, or the diagnostics of its error. -/
def Compiler.compiled (languages : List Language) : Compiled Language Diagnostic Bytes Files :=
  ((c.compileWith request languages).map fun r =>
    (r.request, r.outputs, r.diagnostics)).mapError JobError.diagnostics

/-- What a generation job publishes, or the diagnostics of its error. -/
def Compiler.generated (binary : Bytes) (languages : List Language) :
    Generated Language Diagnostic Files :=
  ((c.generateWith binary languages).map fun r =>
    (r.outputs, r.diagnostics)).mapError JobError.diagnostics

variable {c request} {languages : List Language} {binary : Bytes}

theorem compile_stages (h : c.accepts request languages) :
    c.compiled request languages =
      (runPipeline (c.compilerStage request) c.generatorStage languages).mapError Prod.snd := by
  have hvalidate : validate c.limits c.supplied
      { request with generators := generatorNames languages } = .ok () := h
  have hcompiler : c.runCompiler { request with generators := generatorNames languages } =
      c.runCompiler request := rfl
  rw [Compiler.compiled, Compiler.compileWith, Compiler.compile, hvalidate, hcompiler]
  dsimp only
  rw [languages_names]
  cases herr : (c.runCompiler request).compilerErr with
  | some err =>
      have hresult : (c.compilerStage request).result = .error
          ⟨.compiler, (c.runCompiler request).stderr, err⟩ := by
        rw [Compiler.compilerStage, herr, stageReport_some]
      rw [runPipeline, hresult]
      rfl
  | none =>
      have hresult : (c.compilerStage request).result = .ok (c.runCompiler request).stdout := by
        rw [Compiler.compilerStage, herr, stageReport_none]
      rw [runPipeline_of_ok hresult, runGenerators_stages]
      have hnotes : (c.compilerStage request).notes =
          diagnose [] .compiler (c.runCompiler request).stderr := rfl
      rw [hnotes]
      cases runStages (c.generatorStage (c.runCompiler request).stdout) languages ∅
          (diagnose [] .compiler (c.runCompiler request).stderr) with
      | error e => rfl
      | ok r => rfl

theorem generate_stages (h : c.acceptsGeneration binary languages) :
    c.generated binary languages =
      (runStages (c.generatorStage binary) languages ∅ []).mapError Prod.snd := by
  have hvalidate : validateGenerate c.limits c.supplied ⟨binary, generatorNames languages⟩ =
      .ok () := h
  rw [Compiler.generated, Compiler.generateWith, Compiler.generate, hvalidate]
  dsimp only
  rw [languages_names, runGenerators_stages]
  cases runStages (c.generatorStage binary) languages ∅ [] with
  | error e => rfl
  | ok r => rfl

/-- The request of a compiler that succeeded is accepted with the same generators. -/
theorem acceptsGeneration_of_output (h : c.accepts request languages) (hne : languages ≠ [])
    (houtput : (c.compilerStage request).output = some binary) :
    c.acceptsGeneration binary languages := by
  have hlength : (generatorNames languages).length ≠ 0 := by
    rw [generatorNames, List.length_map, List.length_eq_zero_iff.ne]
    exact hne
  have hbinary : binary.length ≠ 0 ∧ binary.length ≤ c.limits.requestBytes := by
    cases herr : (c.runCompiler request).compilerErr with
    | some err =>
        rw [Compiler.compilerStage, herr, output_of_error stageReport_some] at houtput
        cases houtput
    | none =>
        rw [Compiler.compilerStage, herr, output_of_ok stageReport_none] at houtput
        cases houtput
        refine ⟨fun hempty => ?_, stdout_le c request⟩
        rw [Outcome.compilerErr, List.length_eq_zero_iff.mp hempty] at herr
        split at herr
        · cases herr
        · cases herr
  change validateGenerate c.limits c.supplied ⟨binary, generatorNames languages⟩ = .ok ()
  rw [validateGenerate, validateGenerators_of_validate h]
  simp only [rejectIf, hlength, hbinary.1, Nat.not_lt.mpr hbinary.2, decide_false,
    Bool.false_eq_true, if_false]
  rfl

/-- The jobs of the Go SDK keep the promise. -/
theorem compiler_allOrNothing (c : Compiler) (request : Request) :
    AllOrNothing (c.accepts request) c.acceptsGeneration (c.compiled request) c.generated
      (c.compilerStage request) c.generatorStage :=
  .of_stages (fun languages h =>
      validate_nil (r := { request with generators := generatorNames languages }) h)
    (fun _ _ houtput h hne => acceptsGeneration_of_output h hne houtput)
    (fun _ h => compile_stages h) (fun _ _ h => generate_stages h)

end

end GoSdk
