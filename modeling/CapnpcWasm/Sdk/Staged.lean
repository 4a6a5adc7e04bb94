import CapnpcWasm.Lib.Stages

/-!
# What a staged job promises

A job runs the compiler and then generators on the request it emitted, or generators on a
request of the caller.  `AllOrNothing` says what both SDKs promise of the two kinds of job,
for every list of generators.
-/

namespace Sdk

variable {L D E Q O : Type} [DecidableEq L]

/-- The result of a job that compiles, or the diagnostics of its error. -/
abbrev Compiled (L D Q O : Type) := Except (List D) (Q × StageOutputs L O × List D)

/-- The result of a job that only generates, or the diagnostics of its error. -/
abbrev Generated (L D O : Type) := Except (List D) (StageOutputs L O × List D)

/-- `compile` and `generate` publish the outputs of the compiler and of the generators, and
nothing of a job that fails.  `valid` holds of the lists of generators that pass validation
in a job that compiles, and `validGenerate` of the requests and lists that do in the other. -/
structure AllOrNothing (valid : List L → Prop) (validGenerate : Q → List L → Prop)
    (compile : List L → Compiled L D Q O) (generate : Q → List L → Generated L D O)
    (compiler : Report D E Q) (generator : Q → L → Report D E O) : Prop where
  /-- A job has outputs only if every stage succeeded, and they are those of the stages. -/
  whole : ∀ ls q outputs ds, valid ls → compile ls = .ok (q, outputs, ds) →
    compiler.output = some q ∧
      ∀ l ∈ ls, (generator q l).output.isSome = true ∧ outputs.lookup l = (generator q l).output
  wholeGenerate : ∀ q ls outputs ds, validGenerate q ls →
    generate q ls = .ok (outputs, ds) →
      ∀ l ∈ ls, (generator q l).output.isSome = true ∧ outputs.lookup l = (generator q l).output
  /-- The output of a generator is the same whichever others run, and in whatever order. -/
  independent : ∀ ls ls' q q' outputs outputs' ds ds', valid ls → valid ls' →
    compile ls = .ok (q, outputs, ds) → compile ls' = .ok (q', outputs', ds') →
      q = q' ∧ ∀ l ∈ ls, l ∈ ls' → outputs.lookup l = outputs'.lookup l
  independentGenerate : ∀ q ls ls' outputs outputs' ds ds', validGenerate q ls →
    validGenerate q ls' → generate q ls = .ok (outputs, ds) →
      generate q ls' = .ok (outputs', ds') →
        ∀ l ∈ ls, l ∈ ls' → outputs.lookup l = outputs'.lookup l
  /-- Compiling and then generating is compiling with the generators. -/
  resumed : ∀ ls q outputs, valid ls → ls ≠ [] →
    ((∃ ds, compile ls = .ok (q, outputs, ds)) ↔
      ∃ ds ds', compile [] = .ok (q, ∅, ds) ∧ generate q ls = .ok (outputs, ds'))
  /-- The diagnostics are those of the stages so far, in order. -/
  diagnostics : ∀ ls q outputs ds, valid ls → compile ls = .ok (q, outputs, ds) →
    ds = compiler.notes ++ stageNotes (generator q) ls
  diagnosticsGenerate : ∀ q ls outputs ds, validGenerate q ls →
    generate q ls = .ok (outputs, ds) → ds = stageNotes (generator q) ls
  /-- Those of an error include the stage that failed. -/
  failed : ∀ ls ds, valid ls → compile ls = .error ds →
    (compiler.output = none ∧ ds = compiler.notes) ∨
      ∃ q pre l post, compiler.output = some q ∧ ls = pre ++ l :: post ∧
        (∀ j ∈ pre, (generator q j).output.isSome = true) ∧ (generator q l).output = none ∧
        ds = compiler.notes ++ stageNotes (generator q) (pre ++ [l])
  failedGenerate : ∀ q ls ds, validGenerate q ls → generate q ls = .error ds →
    ∃ pre l post, ls = pre ++ l :: post ∧
      (∀ j ∈ pre, (generator q j).output.isSome = true) ∧ (generator q l).output = none ∧
      ds = stageNotes (generator q) (pre ++ [l])

section

variable {valid : List L → Prop} {validGenerate : Q → List L → Prop} {compile : List L → Compiled L D Q O}
  {generate : Q → List L → Generated L D O} {compiler : Report D E Q}
  {generator : Q → L → Report D E O}

theorem output_of_error {r : Report D E O} {e : E} (h : r.result = .error e) :
    r.output = none := by
  rw [Report.output, h]
  rfl

theorem mapError_ok {A : Type} {x : Except (E × List D) A} {a : A} :
    x.mapError Prod.snd = .ok a ↔ x = .ok a := by
  cases x with
  | error e => exact ⟨nofun, nofun⟩
  | ok b => rw [Except.mapError, Except.ok.injEq, Except.ok.injEq]

theorem mapError_error {A : Type} {x : Except (E × List D) A} {ds : List D}
    (h : x.mapError Prod.snd = .error ds) : ∃ e, x = .error (e, ds) := by
  cases x with
  | error e =>
      cases h
      exact ⟨e.1, rfl⟩
  | ok b => cases h

/-- Jobs that run their stages in order keep the promise. -/
theorem AllOrNothing.of_stages (hnil : ∀ ls, valid ls → valid [])
    (hresumed : ∀ q ls, compiler.output = some q → valid ls → ls ≠ [] → validGenerate q ls)
    (hcompile : ∀ ls, valid ls →
      compile ls = (runPipeline compiler generator ls).mapError Prod.snd)
    (hgenerate : ∀ q ls, validGenerate q ls →
      generate q ls = (runStages (generator q) ls ∅ []).mapError Prod.snd) :
    AllOrNothing valid validGenerate compile generate compiler generator := by
  have hok : ∀ ls q outputs ds, valid ls → compile ls = .ok (q, outputs, ds) →
      compiler.result = .ok q ∧
        runStages (generator q) ls ∅ compiler.notes = .ok (outputs, ds) := by
    intro ls q outputs ds hvalid h
    rw [hcompile ls hvalid] at h
    exact runPipeline_ok (mapError_ok.mp h)
  have hgen : ∀ q ls outputs ds, validGenerate q ls →
      generate q ls = .ok (outputs, ds) →
        runStages (generator q) ls ∅ [] = .ok (outputs, ds) := by
    intro q ls outputs ds hvalid h
    rw [hgenerate q ls hvalid] at h
    exact mapError_ok.mp h
  refine {
    whole := fun ls q outputs ds hvalid h => ?_
    wholeGenerate := fun q ls outputs ds hvalid h => ?_
    independent := fun ls ls' q q' outputs outputs' ds ds' hvalid hvalid' h h' => ?_
    independentGenerate := fun q ls ls' outputs outputs' ds ds' hvalid hvalid' h h' =>
      fun l hl hl' => runStages_lookup (hgen q ls outputs ds hvalid h)
        (hgen q ls' outputs' ds' hvalid' h') hl hl'
    resumed := fun ls q outputs hvalid hne => ?_
    diagnostics := fun ls q outputs ds hvalid h => ?_
    diagnosticsGenerate := fun q ls outputs ds hvalid h => ?_
    failed := fun ls ds hvalid h => ?_
    failedGenerate := fun q ls ds hvalid h => ?_ }
  · obtain ⟨hfirst, hrun⟩ := hok ls q outputs ds hvalid h
    exact ⟨output_of_ok hfirst, (runStages_ok hrun).2.1⟩
  · exact (runStages_ok (hgen q ls outputs ds hvalid h)).2.1
  · obtain ⟨hfirst, hrun⟩ := hok ls q outputs ds hvalid h
    obtain ⟨hfirst', hrun'⟩ := hok ls' q' outputs' ds' hvalid' h'
    rw [hfirst] at hfirst'
    cases hfirst'
    exact ⟨rfl, fun l hl hl' => runStages_lookup hrun hrun' hl hl'⟩
  -- a job that goes on from the schema of another: the pipeline is cut after its compiler
  · have halone : ∀ ds, compile [] = .ok (q, ∅, ds) ↔
        runPipeline compiler generator [] = .ok (q, ∅, ds) := by
      intro ds
      rw [hcompile [] (hnil ls hvalid), mapError_ok]
    have hthen : ∀ ds, runPipeline compiler generator [] = .ok (q, ∅, ds) → ∀ ds',
        (generate q ls = .ok (outputs, ds') ↔
          runStages (generator q) ls ∅ [] = .ok (outputs, ds')) := by
      intro ds h ds'
      obtain ⟨hfirst, -⟩ := runPipeline_ok h
      rw [hgenerate q ls (hresumed q ls (output_of_ok hfirst) hvalid hne), mapError_ok]
    calc (∃ ds, compile ls = .ok (q, outputs, ds))
        ↔ ∃ ds, runPipeline compiler generator ls = .ok (q, outputs, ds) := by
          simp only [hcompile ls hvalid, mapError_ok]
      _ ↔ ∃ ds ds', runPipeline compiler generator [] = .ok (q, ∅, ds) ∧
            runStages (generator q) ls ∅ [] = .ok (outputs, ds') := runPipeline_resumed
      _ ↔ ∃ ds ds', compile [] = .ok (q, ∅, ds) ∧ generate q ls = .ok (outputs, ds') := by
          refine exists_congr fun ds => exists_congr fun ds' => ?_
          rw [halone ds]
          exact and_congr_right fun h => (hthen ds h ds').symm
  · obtain ⟨-, hrun⟩ := hok ls q outputs ds hvalid h
    exact (runStages_ok hrun).1
  · have hds := (runStages_ok (hgen q ls outputs ds hvalid h)).1
    rwa [List.nil_append] at hds
  · rw [hcompile ls hvalid] at h
    obtain ⟨e, h⟩ := mapError_error h
    rcases runPipeline_error h with ⟨hfirst, hds⟩ | ⟨q, hfirst, hrun⟩
    · exact .inl ⟨output_of_error hfirst, hds⟩
    · obtain ⟨pre, l, post, hls, hpre, hl, hds⟩ := runStages_error hrun
      exact .inr ⟨q, pre, l, post, output_of_ok hfirst, hls, hpre, output_of_error hl, hds⟩
  · rw [hgenerate q ls hvalid] at h
    obtain ⟨e, h⟩ := mapError_error h
    obtain ⟨pre, l, post, hls, hpre, hl, hds⟩ := runStages_error h
    rw [List.nil_append] at hds
    exact ⟨pre, l, post, hls, hpre, output_of_error hl, hds⟩

end

end Sdk
