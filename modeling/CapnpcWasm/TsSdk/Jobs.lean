import CapnpcWasm.TsSdk.Engine

/-!
# Jobs without a cancellation

Where nothing cancels a job, its control stays as it was and no stage is cancelled.  No
guest changes its standard input, so every generator reads the request the compiler
emitted, and a job is a pipeline of stages.
-/

namespace TsSdk

open Sdk

variable {N H C : Type}

/-! ## Polls that see nothing -/

/-- Neither the cell, the signal nor the clock stops the job. -/
def quiet : Seen N := ⟨false, .ok none, false⟩

def Act.Quiet : Act N C → Prop
  | .call _ seen => seen = quiet
  | .poll p seen => seen = quiet ∧ (∀ s ∈ p.sleeps, s = quiet) ∧ p.after = quiet
  | .exit _ seen => seen = quiet
  | .interrupt seen => seen = quiet

structure Guest.Quiet (g : Guest N C) : Prop where
  startup : ∀ a ∈ g.startup, a.Quiet
  main : ∀ a ∈ g.main, a.Quiet

theorem cancelled_quiet : (⟨none⟩ : Control N).cancelled quiet = (⟨none⟩, .ok false) := rfl

theorem sleep_quiet {sleeps : List (Seen N)} (h : ∀ s ∈ sleeps, s = quiet) :
    (⟨none⟩ : Control N).sleep sleeps = (⟨none⟩, .ok ()) := by
  induction sleeps with
  | nil => rfl
  | cons s sleeps ih =>
      obtain ⟨hs, hrest⟩ := List.forall_mem_cons.mp h
      rw [Control.sleep, hs, cancelled_quiet]
      exact ih hrest

/-- A run nothing cancelled so far, on a host that keeps a property. -/
structure Runner.Calm (Q : H → Prop) (r : Runner N H) : Prop where
  control : r.control = ⟨none⟩
  stop : r.stop ≠ some .cancel
  host : Q r.host

variable {Q : H → Prop} {r r' : Runner N H} {shim : Shim N H C}

theorem Runner.Calm.halt (h : r.Calm Q) {reason : Stop N} (hr : reason ≠ .cancel) :
    (r.halt reason).Calm Q := by
  refine ⟨h.control, ?_, h.host⟩
  rw [Runner.halt]
  cases hstop : r.stop with
  | none =>
      rw [Option.none_or]
      exact fun heq => hr (Option.some.inj heq)
  | some s =>
      rw [Option.some_or, ← hstop]
      exact h.stop

theorem Runner.Calm.cancel (h : r.Calm Q) : r.cancel quiet = (r, .ok false) := by
  rw [Runner.cancel, h.control, cancelled_quiet]
  dsimp only
  rw [← h.control]

theorem Runner.Calm.wrapped (h : r.Calm Q)
    {original : Runner N H → Runner N H × Except (Thrown N) Errno}
    (horiginal : (original r).1.Calm Q) : (r.wrapped quiet original).1.Calm Q := by
  rw [Runner.wrapped, h.cancel]
  split
  · exact h
  · dsimp only
    split
    · next hresult =>
      rw [hresult] at horiginal
      exact horiginal
    · next hresult =>
      rw [hresult] at horiginal
      exact horiginal.halt (by simp)

theorem pollOneoff_calm (h : r.Calm Q) {call : PollCall N} (hsleeps : ∀ s ∈ call.sleeps, s = quiet)
    (hafter : call.after = quiet) : (pollOneoff call r).1.Calm Q := by
  rw [pollOneoff, h.control, sleep_quiet hsleeps, hafter]
  dsimp only
  rw [cancelled_quiet]
  dsimp only
  rw [← h.control]
  split
  · exact h
  split
  · exact h
  split
  · exact h
  split
  · exact h
  split
  · exact h
  split
  · exact h
  · exact h

theorem Runner.Calm.act (hcall : ∀ c h, Q h → Q (shim.call c h).1) (h : r.Calm Q) {a : Act N C}
    (ha : a.Quiet) : (r.act shim a).Calm Q := by
  cases a with
  | call c seen =>
      obtain rfl : seen = quiet := ha
      exact h.wrapped ⟨h.control, h.stop, hcall c r.host h.host⟩
  | poll call seen =>
      obtain ⟨rfl, hsleeps, hafter⟩ := ha
      exact h.wrapped (pollOneoff_calm h hsleeps hafter)
  | exit code seen =>
      obtain rfl : seen = quiet := ha
      exact h.wrapped (h.halt (by simp))
  | interrupt seen =>
      obtain rfl : seen = quiet := ha
      rw [Runner.act, Runner.interrupt, h.cancel]
      split
      · exact h
      · exact h

theorem Runner.Calm.acts (hcall : ∀ c h, Q h → Q (shim.call c h).1) (h : r.Calm Q)
    {acts : List (Act N C)} (hacts : ∀ a ∈ acts, a.Quiet) : (r.acts shim acts).Calm Q := by
  induction acts generalizing r with
  | nil => exact h
  | cons a acts ih =>
      obtain ⟨ha, hrest⟩ := List.forall_mem_cons.mp hacts
      exact ih (h.act hcall ha) hrest

theorem runGuest_calm (hcall : ∀ c h, Q h → Q (shim.call c h).1) (h : r.Calm Q) {g : Guest N C}
    (hg : g.Quiet) : (runGuest shim g r).1.Calm Q := by
  have hstartup : (r.acts shim g.startup).Calm Q := h.acts hcall hg.startup
  have hcount : ∀ n, Runner.Calm Q { r.acts shim g.startup with countdown := n } :=
    fun n => ⟨hstartup.control, hstartup.stop, hstartup.host⟩
  rw [runGuest]
  dsimp only
  split
  · exact hstartup
  split
  · exact hstartup
  split
  · exact hstartup
  split
  · exact hcount _
  split
  · exact (hcount _).acts hcall hg.main
  · exact (hcount _).acts hcall hg.main

/-- A run that nothing cancelled is not classified as cancelled. -/
theorem classify_calm {limits : Limits} {readonly : Bool} (h : r.Calm Q)
    (failure : Option (Thrown N)) (reason : Option (Thrown N)) (stderr : JsString) :
    classify limits readonly shim r failure ≠ .cancelled reason stderr := by
  intro hcancelled
  have hcommand : ∀ (e : Thrown N) (s : JsString), commandError s e ≠ .cancelled reason stderr :=
    fun e s => nofun
  rw [classify.eq_def] at hcancelled
  dsimp only at hcancelled
  split at hcancelled
  · next hstop => exact h.stop hstop
  · exact hcommand _ _ hcancelled
  · split at hcancelled
    · exact hcommand _ _ hcancelled
    · split at hcancelled
      · split at hcancelled
        · exact hcommand _ _ hcancelled
        · cases hcancelled
      · cases hcancelled
  · split at hcancelled
    · exact hcommand _ _ hcancelled
    · split at hcancelled
      · split at hcancelled
        · exact hcommand _ _ hcancelled
        · cases hcancelled
      · cases hcancelled

/-! ## Stages -/

/-- What a command wrote to stderr. -/
def Outcome.stderr : Outcome N → JsString
  | .cancelled _ stderr => stderr
  | .failed _ stderr _ => stderr
  | .done _ _ stderr _ => stderr

/-- How a stage failed.  Nothing is known of a stage that was cancelled. -/
abbrev StageError (N : Type) := Option (Failed (CommandThrown N))

namespace Engine

variable (e : Engine N H C) (stage : GuestStage) (program : Program N C) (args : List JsString)
  (stdin : Bytes) (files : List (JsString × Bytes)) (readonly : Bool)

/-- What a command writes to stderr, if it runs. -/
def stderrOf : JsString :=
  match e.runCommand program args stdin files readonly ⟨none⟩ with
  | .error _ => []
  | .ok ran => ran.outcome.stderr

/-- How a command ends: with exit code 0, or as the error of its stage. -/
def endOf : Except (StageError N) (Bytes × GeneratedFiles) :=
  match e.runCommand program args stdin files readonly ⟨none⟩ with
  | .error thrown => .error (some (.trapped (.host thrown)))
  | .ok ran =>
      match ran.outcome with
      | .cancelled _ _ => .error none
      | .failed message stderr cause => .error (some (.trapped (.command message stderr cause)))
      | .done code stdout _ files =>
          if code ≠ 0 then .error (some (.exited code)) else .ok (stdout, files)

/-- The compiler of a job: its request, and the diagnostic it adds. -/
def compilerStage (job : StagedCompileJob) : Report Diagnostic (StageError N) Bytes where
  notes := diagnose [] .compiler (e.stderrOf e.compiler (compileArgs job) [] job.files true)
  result :=
    match e.endOf e.compiler (compileArgs job) [] job.files true with
    | .error failed => .error failed
    | .ok (stdout, _) => if stdout = [] then .error (some .noRequest) else .ok stdout

/-- A generator on a request: its files, and the diagnostic it adds. -/
def generatorStage (request : Bytes) (language : Language) :
    Report Diagnostic (StageError N) GeneratedFiles where
  notes := diagnose [] (.generator language)
    (e.stderrOf (e.generators language) [command language] request [] false)
  result :=
    match e.endOf (e.generators language) [command language] request [] false with
    | .error failed => .error failed
    | .ok (stdout, files) => if stdout ≠ [] then .error (some .unexpectedStdout) else .ok files

/-- Nothing cancels a job, whatever its guests do. -/
structure Uncancelled (seen : GuestStage → Seen N) : Prop where
  between : ∀ stage, seen stage = quiet
  compiler : ∀ args stdin files, (e.compiler args stdin files).Quiet
  generators : ∀ language args stdin files, (e.generators language args stdin files).Quiet

variable {e stage program args stdin files readonly} {seen : GuestStage → Seen N}

/-- A command leaves its control and its standard input as they were. -/
theorem runCommand_kept (hhost : e.host.Documented) (hquiet : (program args stdin files).Quiet)
    {ran : Ran N} (h : e.runCommand program args stdin files readonly ⟨none⟩ = .ok ran) :
    ran.control = ⟨none⟩ ∧ ran.stdin = stdin ∧
      ∀ reason stderr, ran.outcome ≠ .cancelled reason stderr := by
  rw [runCommand] at h
  cases hfs : stageFiles (N := N) files readonly with
  | error thrown =>
      rw [hfs] at h
      cases h
  | ok fs =>
      rw [hfs] at h
      cases h
      have hstdin : e.host.ReadonlyAt
          (e.host.start e.limits readonly args ⟨fs.inodes ++ [.file stdin true]⟩)
          fs.inodes.length stdin := by
        rw [Host.ReadonlyAt, hhost.start, List.getElem?_concat_length]
      have hstart : Runner.Calm (fun h => e.host.ReadonlyAt h fs.inodes.length stdin)
          (⟨e.host.start e.limits readonly args ⟨fs.inodes ++ [.file stdin true]⟩, ⟨none⟩, none,
            none⟩ : Runner N H) := ⟨rfl, nofun, hstdin⟩
      have himports : ∀ c h, e.host.ReadonlyAt h fs.inodes.length stdin →
          e.host.ReadonlyAt ((e.host.imports e.limits readonly).call c h).1 fs.inodes.length
            stdin := fun c h hd => hhost.imports hd
      have hcalm := runGuest_calm himports hstart hquiet
      refine ⟨hcalm.control, ?_, fun reason stderr => classify_calm hcalm _ reason stderr⟩
      have hdata := hcalm.host
      rw [Host.ReadonlyAt] at hdata
      dsimp only
      rw [Host.dataAt, hdata]

theorem diagnose_append (diagnostics : List Diagnostic) (stage : GuestStage) (stderr : JsString) :
    diagnose diagnostics stage stderr = diagnostics ++ diagnose [] stage stderr := by
  rw [diagnose, diagnose]
  split
  · rw [List.nil_append]
  · rw [List.append_nil]

/-- A stage of a job that nothing cancels fails as its command does, or leaves everything
but the diagnostics as it was. -/
theorem execute_cases (hhost : e.host.Documented) (stage : GuestStage) (program : Program N C)
    (args : List JsString) (stdin : Bytes) (files : List (JsString × Bytes)) (readonly : Bool)
    (hquiet : (program args stdin files).Quiet) (diagnostics : List Diagnostic) :
    let after := diagnostics ++ diagnose [] stage (e.stderrOf program args stdin files readonly)
    (∃ failed, e.endOf program args stdin files readonly = .error (some failed) ∧
      e.execute stage program args stdin files readonly diagnostics ⟨none⟩ quiet =
        .error (.failed stage after failed)) ∨
    ∃ stdout generated, e.endOf program args stdin files readonly = .ok (stdout, generated) ∧
      e.execute stage program args stdin files readonly diagnostics ⟨none⟩ quiet =
        .ok ⟨⟨none⟩, stdin, after, stdout, generated⟩ := by
  intro after
  have hafter : ∀ stderr, e.stderrOf program args stdin files readonly = stderr →
      diagnose diagnostics stage stderr = after := by
    rintro _ rfl
    exact diagnose_append diagnostics stage _
  rw [endOf, execute, cancelled_quiet]
  dsimp only
  cases hrun : e.runCommand program args stdin files readonly ⟨none⟩ with
  | error thrown =>
      refine .inl ⟨_, rfl, ?_⟩
      have hnone : diagnose diagnostics stage [] = after := hafter [] (by rw [stderrOf, hrun])
      rw [← hnone]
      rfl
  | ok ran =>
      obtain ⟨hcontrol, hstdin, hfinished⟩ := runCommand_kept hhost hquiet hrun
      have hstderr := hafter ran.outcome.stderr (by rw [stderrOf, hrun])
      dsimp only
      cases houtcome : ran.outcome with
      | cancelled reason stderr => exact absurd houtcome (hfinished reason stderr)
      | failed message stderr cause =>
          rw [houtcome, Outcome.stderr] at hstderr
          refine .inl ⟨_, rfl, ?_⟩
          dsimp only
          rw [hstderr]
      | done code stdout stderr generated =>
          rw [houtcome, Outcome.stderr] at hstderr
          dsimp only
          rw [hstderr]
          by_cases hcode : code = 0
          · rw [if_neg (not_not_intro hcode), if_neg (not_not_intro hcode), hcontrol, hstdin]
            exact .inr ⟨stdout, generated, rfl, rfl⟩
          · rw [if_pos hcode, if_pos hcode]
            exact .inl ⟨_, rfl, rfl⟩

/-- The generators of a job are stages on one request. -/
theorem generate_stages (hhost : e.host.Documented) (h : e.Uncancelled seen)
    (selected : List Language) (request : Bytes) (outputs : Outputs)
    (diagnostics : List Diagnostic) :
    ((e.generate seen selected request outputs diagnostics ⟨none⟩).map fun r =>
        (r.2, r.1.outputs, r.1.diagnostics)).mapError JobThrown.diagnostics =
      ((runStages (e.generatorStage request) selected outputs diagnostics).map fun r =>
        (request, r)).mapError Prod.snd := by
  induction selected generalizing outputs diagnostics with
  | nil => rfl
  | cons language selected ih =>
      have hseen : seen (.generator language) = quiet := h.between _
      have hstage := execute_cases hhost (.generator language) (e.generators language)
        [command language] request [] false (h.generators _ _ _ _) diagnostics
      rw [generate, hseen]
      rcases hstage with ⟨failed, hend, hexecute⟩ | ⟨stdout, files, hend, hexecute⟩
      · have hresult : (e.generatorStage request language).result = .error (some failed) := by
          rw [generatorStage, hend]
        rw [hexecute, runStages_cons_error hresult]
        rfl
      · rw [hexecute]
        dsimp only
        by_cases hstdout : stdout = []
        · have hresult : (e.generatorStage request language).result = .ok files := by
            rw [generatorStage, hend]
            exact if_neg (not_not_intro hstdout)
          rw [if_neg (not_not_intro hstdout), runStages_cons_ok hresult]
          exact ih _ _
        · have hresult : (e.generatorStage request language).result =
              .error (some .unexpectedStdout) := by
            rw [generatorStage, hend]
            exact if_pos hstdout
          rw [if_pos hstdout, runStages_cons_error hresult]
          rfl

/-- What a compile job with some generators publishes, or the diagnostics of its error. -/
def compiled (e : Engine N H C) (seen : GuestStage → Seen N) (job : StagedCompileJob)
    (selected : List Language) : Compiled Language Diagnostic Bytes GeneratedFiles :=
  ((e.compileStaged seen { job with generators := selected } ⟨none⟩).map fun r =>
    (r.request, r.outputs, r.diagnostics)).mapError JobThrown.diagnostics

/-- What a generation job publishes, or the diagnostics of its error. -/
def generated (e : Engine N H C) (seen : GuestStage → Seen N) (request : Bytes)
    (selected : List Language) : Generated Language Diagnostic GeneratedFiles :=
  ((e.generateStaged seen request selected ⟨none⟩).map fun r =>
    (r.outputs, r.diagnostics)).mapError JobThrown.diagnostics

theorem compile_stages (hhost : e.host.Documented) (h : e.Uncancelled seen)
    (job : StagedCompileJob) (selected : List Language) :
    e.compiled seen job selected =
      (runPipeline (e.compilerStage job) e.generatorStage selected).mapError Prod.snd := by
  have hseen : seen .compiler = quiet := h.between _
  have hstage := execute_cases hhost .compiler e.compiler (compileArgs job) [] job.files true
    (h.compiler _ _ _) []
  have hargs : compileArgs { job with generators := selected } = compileArgs job := rfl
  rw [compiled, compileStaged, hseen, hargs]
  dsimp only
  rcases hstage with ⟨failed, hend, hexecute⟩ | ⟨stdout, files, hend, hexecute⟩
  · have hresult : (e.compilerStage job).result = .error (some failed) := by
      rw [compilerStage, hend]
    rw [hexecute, runPipeline, hresult]
    rfl
  · rw [hexecute]
    by_cases hstdout : stdout = []
    · have hresult : (e.compilerStage job).result = .error (some .noRequest) := by
        rw [compilerStage, hend]
        exact if_pos hstdout
      rw [runPipeline, hresult]
      dsimp only
      rw [if_pos hstdout]
      rfl
    · have hresult : (e.compilerStage job).result = .ok stdout := by
        rw [compilerStage, hend]
        exact if_neg hstdout
      have hstages := generate_stages hhost h selected stdout ∅ (e.compilerStage job).notes
      rw [runPipeline_of_ok hresult, ← hstages]
      dsimp only
      rw [if_neg hstdout, List.nil_append]
      change _ = Except.mapError _ (Except.map _ (e.generate seen selected stdout ∅
        (diagnose [] .compiler (e.stderrOf e.compiler (compileArgs job) [] job.files true)) ⟨none⟩))
      cases e.generate seen selected stdout ∅
          (diagnose [] .compiler (e.stderrOf e.compiler (compileArgs job) [] job.files true))
          ⟨none⟩ with
      | error thrown => rfl
      | ok r => rfl

theorem generateStaged_stages (hhost : e.host.Documented) (h : e.Uncancelled seen)
    (request : Bytes) (selected : List Language) :
    e.generated seen request selected =
      (runStages (e.generatorStage request) selected ∅ []).mapError Prod.snd := by
  have hstages := generate_stages hhost h selected request ∅ []
  rw [generated, generateStaged]
  cases hgenerate : e.generate seen selected request ∅ [] ⟨none⟩ with
  | error thrown =>
      cases hrun : runStages (e.generatorStage request) selected ∅ [] with
      | error failed =>
          rw [hgenerate, hrun] at hstages
          exact congrArg Except.error (Except.error.inj hstages)
      | ok r =>
          rw [hgenerate, hrun] at hstages
          cases hstages
  | ok generated =>
      cases hrun : runStages (e.generatorStage request) selected ∅ [] with
      | error failed =>
          rw [hgenerate, hrun] at hstages
          cases hstages
      | ok r =>
          rw [hgenerate, hrun] at hstages
          exact congrArg (fun x => Except.ok x.2) (Except.ok.inj hstages)

/-- The jobs of the TypeScript SDK keep the promise. -/
theorem engine_allOrNothing (hhost : e.host.Documented) (h : e.Uncancelled seen)
    (job : StagedCompileJob) :
    AllOrNothing (fun _ => True) (fun _ _ => True) (e.compiled seen job) (e.generated seen)
      (e.compilerStage job) e.generatorStage :=
  .of_stages (fun _ _ => trivial) (fun _ _ _ _ _ => trivial)
    (fun selected _ => compile_stages hhost h job selected)
    (fun request selected _ => generateStaged_stages hhost h request selected)

end Engine

end TsSdk
