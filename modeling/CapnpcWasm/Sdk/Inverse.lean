import CapnpcWasm.GoSdk.Mounts
import CapnpcWasm.TsSdk.Mounts

/-!
# Staging and collecting

Both SDKs stage the files of a request that passes their checks without an error, and reading a
staged mount back gives the files again.
-/

namespace GoSdk

open Sdk MemoryFs

/-- A mount whose snapshot is the files, and whose directories are its root and those the paths of
the files imply. -/
structure Restored (files : Contents) (d : Disk) : Prop where
  snapshot : ∀ name data, (name, data) ∈ d.snapshot ↔ files.lookup name = some data
  once : (d.snapshot.map Prod.fst).Nodup
  directory : ∀ name, (∃ n, d.lookup name = some n ∧ d.isDir n = true) ↔
    name = dot ∨ ∃ file ∈ files.keys, ∃ rest, file = name ++ slash :: rest

theorem newMemoryFS_restored {files : Contents} (h : Stageable files) (host : Host)
    (readOnly : Bool) (limits : Limits) :
    Restored files (newMemoryFS host files readOnly limits) := by
  have hstaged : Staged files (sortedKeys files) (newMemoryFS host files readOnly limits) :=
    newMemoryFS_staged host h readOnly limits
  refine ⟨fun name data => hstaged.mem_snapshot, nodup_snapshot _, fun name => ?_⟩
  simp only [hstaged.isDir_iff, mem_ancestors]

end GoSdk

namespace Sdk

/-- Staging and collecting are inverse in both SDKs, for every request its checks accept. -/
theorem staging_restored (N : Type) :
    (∀ limits supplied (input : TsSdk.CompileRequest) job,
      (input.files.map Prod.fst).Nodup → ((input.includeFiles.getD []).map Prod.fst).Nodup →
      TsSdk.validateCompile limits supplied input = .ok job →
      ∃ fs, TsSdk.stageFiles (N := N) (TsSdk.directFiles job) true = .ok fs ∧
        (∃ places, TsSdk.Laid fs places) ∧
        ∀ output,
          (TsSdk.Room output (TsSdk.encoded input.files) →
            TsSdk.Restored N output fs (TsSdk.text "src") (TsSdk.encoded input.files)) ∧
          (TsSdk.Room output (TsSdk.encoded (input.includeFiles.getD [])) →
            TsSdk.Restored N output fs (TsSdk.text "include")
              (TsSdk.encoded (input.includeFiles.getD [])))) ∧
    ∀ limits supplied request, GoSdk.validate limits supplied request = .ok () →
      ∀ files ∈ [request.files, request.includeFiles], ∀ host readOnly limits',
        GoSdk.Restored files (MemoryFs.newMemoryFS host files readOnly limits') := by
  refine ⟨fun limits supplied input job hfiles hannotations h =>
    TsSdk.collect_staged N hfiles hannotations h, ?_⟩
  intro limits supplied request h files hmem host readOnly limits'
  obtain ⟨hsource, hincluded⟩ := GoSdk.stageable_of_validate h
  refine GoSdk.newMemoryFS_restored ?_ host readOnly limits'
  simp only [List.mem_cons, List.not_mem_nil, or_false] at hmem
  rcases hmem with rfl | rfl
  · exact hsource
  · exact hincluded

/-- A schema beside one whose directory is named like a property of every object. -/
def nestedRequest : TsSdk.CompileRequest where
  files := [(TsSdk.text "__proto__/a.capnp", .bytes [1, 2]), (TsSdk.text "7", .text (TsSdk.text "x"))]
  includeFiles := none
  importPaths := none
  sourcePrefix := none
  entrypoints := [TsSdk.text "7"]
  generators := []

theorem staging_restored_nested :
    (∃ fs, TsSdk.Restored Unit defaultLimits fs (TsSdk.text "src")
      (TsSdk.encoded nestedRequest.files)) ∧
    GoSdk.Restored GoSdk.mountedRequest.files
      (MemoryFs.newMemoryFS ⟨[], 0⟩ GoSdk.mountedRequest.files true defaultLimits) := by
  have haccepted : (TsSdk.validateCompile defaultLimits [] nestedRequest).toOption.isSome = true := by
    decide +kernel
  constructor
  · rcases hjob : TsSdk.validateCompile defaultLimits [] nestedRequest with e | job
    · rw [hjob] at haccepted
      cases haccepted
    · obtain ⟨fs, -, -, hcollect⟩ := (staging_restored Unit).1 defaultLimits [] nestedRequest job
        (by decide +kernel) List.nodup_nil hjob
      have hroom : TsSdk.Room defaultLimits (TsSdk.encoded nestedRequest.files) :=
        ⟨by decide +kernel, by decide +kernel, by decide +kernel⟩
      exact ⟨fs, (hcollect defaultLimits).1 hroom⟩
  · exact (staging_restored Unit).2 defaultLimits [] GoSdk.mountedRequest (by rfl) _
      List.mem_cons_self ⟨[], 0⟩ true defaultLimits

end Sdk
