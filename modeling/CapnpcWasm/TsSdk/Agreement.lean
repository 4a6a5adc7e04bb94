import CapnpcWasm.TsSdk.Modes

/-!
# Both modes agree

Direct and worker execution reject the same requests with the same error, stage the same
files in the same order, and end alike: the copies and the clone keep the order of a
record, and its keys are no array indices once they are below a directory.
-/

namespace TsSdk

open Sdk

variable {N H C : Type}

/-! ## The staged files -/

theorem enumerated_captured (mount : Files) : Properties.Enumerated (captured mount) :=
  Properties.enumerated_ofEntries mount

/-- Paths below a directory are no array indices. -/
theorem enumerated_below {A : Type} {u : UInt16} {above : JsString}
    (hu : Properties.isDigit u = false) {record : Record A} (h : Properties.Enumerated record) :
    Properties.Enumerated (record.map fun entry => (u :: above ++ entry.1, entry.2)) := by
  have hkeys : (record.map fun entry => (u :: above ++ entry.1, entry.2)).map Prod.fst =
      (record.map Prod.fst).map (u :: above ++ ·) := by
    rw [List.map_map, List.map_map]
    rfl
  refine Properties.enumerated_of_none ?_ fun k hk => ?_
  · rw [hkeys]
    exact h.distinct.map fun a b hab => List.append_cancel_left hab
  · rw [hkeys] at hk
    obtain ⟨path, -, rfl⟩ := List.mem_map.mp hk
    exact Properties.arrayIndex_cons hu _

theorem copyFiles_below {u : UInt16} {above : JsString} (hu : Properties.isDigit u = false)
    (mount : Files) : copyFiles (captured mount) (u :: above) =
      (captured mount).map fun entry => (u :: above ++ entry.1, entry.2.encode) := by
  have hvalues := @enumerated_below _ _ above hu _
    ((enumerated_captured mount).mapValues FileContents.encode)
  rw [List.map_map] at hvalues
  exact Properties.ofEntries_eq hvalues

/-- What the worker receives of a mount. -/
theorem clone_copyFiles (mount : Files) : structuredClone (copyFiles (captured mount) []) =
    (captured mount).map fun entry => (entry.1, entry.2.encode) := by
  have hvalues := (enumerated_captured mount).mapValues FileContents.encode
  have hcopy : copyFiles (captured mount) [] =
      (captured mount).map fun entry => (entry.1, entry.2.encode) :=
    Properties.ofEntries_eq hvalues
  rw [hcopy]
  exact Properties.ofEntries_eq hvalues

/-- Staging what arrived gives the files of direct execution. -/
theorem stage_clone (sources annotations : Files) :
    Properties.extend
        (Properties.extend [] (copyFiles (captured sources) (text "src/")))
        (copyFiles (captured annotations) (text "include/")) =
      Properties.extend
        (Properties.extend [] ((structuredClone (copyFiles (captured sources) [])).map
          fun (path, bytes) => (text "src/" ++ path, bytes)))
        ((structuredClone (copyFiles (captured annotations) [])).map
          fun (path, bytes) => (text "include/" ++ path, bytes)) := by
  have hsrc : text "src/" = 115 :: text "rc/" := by decide +kernel
  have hinclude : text "include/" = 105 :: text "nclude/" := by decide +kernel
  rw [hsrc, hinclude, copyFiles_below (by decide), copyFiles_below (by decide), clone_copyFiles,
    clone_copyFiles, List.map_map, List.map_map]
  rfl

/-- The worker runs the job that direct execution runs. -/
theorem staged_clone (limits : Limits) (supplied : List Language) (request : Request) :
    (workerMessage limits supplied request).map (fun m => m.clone.staged) =
      directJob limits supplied request := by
  cases request with
  | compile input =>
      rw [workerMessage, directJob]
      cases validateCompile limits supplied input with
      | error rejection => rfl
      | ok job =>
          refine congrArg (fun files => Except.ok (StagedJob.compile
            ⟨files, job.entrypoints, job.importPaths, job.sourcePrefix,
              job.generators.filterMap languageOf⟩)) ?_
          exact (stage_clone job.sources job.annotations).symm
  | generate input =>
      rw [workerMessage, directJob]
      cases validateGenerate limits supplied input with
      | error rejection => rfl
      | ok job => rfl

/-! ## Results -/

theorem objects_clone (outputs : Outputs) :
    (Outputs.objects outputs).map (fun (language, files) => (language, structuredClone files)) =
      Outputs.objects outputs := by
  rw [Outputs.objects, List.map_map]
  refine List.map_congr_left fun entry _ => ?_
  exact congrArg (Prod.mk entry.1)
    (Properties.ofEntries_eq (Properties.enumerated_ofEntries entry.2))

/-- The result of a job arrives as it was sent. -/
theorem runStaged_clone {e : Engine N H C} {seen : GuestStage → Seen N} {control : Control N}
    {job : StagedJob} {r : JobResult} (h : e.runStaged seen control job = .ok r) : r.clone = r := by
  have hobjects : ∀ request outputs diagnostics,
      JobResult.clone ⟨request, Outputs.objects outputs, diagnostics⟩ =
        ⟨request, Outputs.objects outputs, diagnostics⟩ := by
    intro request outputs diagnostics
    rw [JobResult.clone, objects_clone]
  cases job with
  | compile job =>
      rw [Engine.runStaged] at h
      cases hjob : e.compileStaged seen job control with
      | error thrown =>
          rw [hjob] at h
          cases h
      | ok result =>
          rw [hjob] at h
          cases h
          exact hobjects _ _ _
  | generate request generators =>
      rw [Engine.runStaged] at h
      cases hjob : e.generateStaged seen request generators control with
      | error thrown =>
          rw [hjob] at h
          cases h
      | ok result =>
          rw [hjob] at h
          cases h
          exact hobjects _ _ _

/-- Two executions end alike: with equal results, or with errors of the same class with
the same fields and the same message. -/
def SameEnd {M M' : Type} : Except (Thrown M) JobResult → Except (Thrown M') JobResult → Prop
  | .ok r, .ok r' => r = r'
  | .error thrown, .error thrown' => thrown.kind = thrown'.kind ∧ thrown.message = thrown'.message
  | _, _ => False

/-- For every request, both modes reject it with the same `TypeError`, or stage the same
job and end alike. -/
theorem modes_agree (e : Engine N H C) (graph : N → Thrown N) (supplied : List Language)
    (seen : GuestStage → Seen N) (request : Request) :
    (workerMessage e.limits supplied request).map (fun m => m.clone.staged) =
      directJob e.limits supplied request ∧
    SameEnd (e.direct graph supplied seen request) (e.viaWorker graph supplied seen request) ∧
    match directJob e.limits supplied request with
    | .error rejection =>
        e.direct graph supplied seen request = .error rejection.thrown ∧
          e.viaWorker graph supplied seen request = .error rejection.thrown
    | .ok job => ∃ message, workerMessage e.limits supplied request = .ok message ∧
        message.clone.staged = job := by
  have hstaged := staged_clone e.limits supplied request
  refine ⟨hstaged, ?_⟩
  rw [Engine.direct, Engine.viaWorker]
  cases hmessage : workerMessage e.limits supplied request with
  | error rejection =>
      rw [hmessage] at hstaged
      rw [← hstaged]
      exact ⟨⟨rfl, rfl⟩, rfl, rfl⟩
  | ok message =>
      rw [hmessage] at hstaged
      rw [← hstaged]
      refine ⟨?_, message, rfl, rfl⟩
      dsimp only [Except.map]
      rw [Engine.onmessage]
      cases hrun : e.runStaged seen ⟨none⟩ message.clone.staged with
      | error thrown =>
          exact ⟨(kind_decode (JobNode.job thrown)).symm, (message_decode (JobNode.job thrown)).symm⟩
      | ok r => exact (runStaged_clone hrun).symm

end TsSdk
