import CapnpcWasm.GoSdk.Jobs
import CapnpcWasm.TsSdk.Jobs

/-!
# Results of both SDKs

A job of either SDK is a pipeline of stages, and publishes its outputs only where every
stage succeeded.

The two parts rest on `Lib/Stages`, of which both engines are instances.  The sample runs a
compiler of each SDK, on a host that does what the documented one does.
-/

namespace Sdk

variable {N H C : Type}

/-- In both SDKs a job publishes all its outputs or none, the files of a language are the
same whichever other languages are requested, and the diagnostics are those of the stages
that ran.  Every valid request of the Go SDK is one that names languages. -/
theorem jobs_allOrNothing (c : GoSdk.Compiler) (e : TsSdk.Engine N H C)
    (seen : TsSdk.GuestStage → TsSdk.Seen N) (hhost : e.host.Documented)
    (huncancelled : e.Uncancelled seen) :
    (∀ request : GoSdk.Request,
      AllOrNothing (c.accepts request) c.acceptsGeneration (c.compiled request) c.generated
        (c.compilerStage request) c.generatorStage) ∧
    (∀ request : GoSdk.Request, GoSdk.validate c.limits c.supplied request = .ok () →
      ∃ languages, request.generators = GoSdk.generatorNames languages) ∧
    ∀ job : TsSdk.StagedCompileJob,
      AllOrNothing (fun _ => True) (fun _ _ => True) (e.compiled seen job) (e.generated seen)
        (e.compilerStage job) e.generatorStage :=
  ⟨fun request => GoSdk.compiler_allOrNothing c request,
    fun _ h => GoSdk.generators_names (GoSdk.validateGenerators_of_validate h),
    fun job => TsSdk.Engine.engine_allOrNothing hhost huncancelled job⟩

section

open TsSdk

/-- An import that writes to stdout, or makes a file in the root directory. -/
private def sampleCall (c : Import Empty (JsString × Bytes)) (h : Filesystem × Bytes) :
    (Filesystem × Bytes) × Except (Thrown Empty) Errno :=
  match c with
  | .other (name, data) =>
      match h.1.inodes[(0 : Nat)]? with
      | some (.directory _) =>
          if name = [] then ((h.1, h.2 ++ data), .ok 0)
          else ((h.1.create 0 name (.file data false), h.2), .ok 0)
      | _ => (h, .ok errnoInval)
  | _ => (h, .ok 0)

private def sampleHost : Host Empty (Filesystem × Bytes) (JsString × Bytes) where
  call := sampleCall
  files h := h.1
  root _ := 0
  stdout h := h.2
  stderr _ := []
  start _ _ _ fs := (fs, [])
  fileOf _ _ := none
  live _ := 3

private theorem create_kept {fs : Filesystem} {name : JsString} {inode : Inode} {id : InodeId}
    {data : Bytes} {contents : List (JsString × InodeId)}
    (hroot : fs.inodes[0]? = some (.directory contents))
    (h : fs.inodes[id]? = some (.file data true)) :
    (fs.create 0 name inode).inodes[id]? = some (.file data true) := by
  have hne : 0 ≠ id := by
    rintro rfl
    rw [hroot] at h
    cases h
  have hlt : id < fs.inodes.length := (List.getElem?_eq_some_iff.mp h).1
  rw [Filesystem.create, List.getElem?_append_left (by rwa [List.length_set]),
    List.getElem?_set_ne hne, h]

private theorem sampleHost_documented : sampleHost.Documented := by
  refine ⟨fun _ _ _ _ => rfl, fun c h id data hdata _ => ?_⟩
  cases c with
  | other c =>
      obtain ⟨name, bytes⟩ := c
      change (sampleCall (.other (name, bytes)) h).1.1.inodes[id]? = _
      rw [sampleCall]
      split
      · next hroot =>
        split
        · exact hdata
        · exact create_kept hroot hdata
      · exact hdata
  | resize fd c => exact hdata
  | change lengths c => exact hdata
  | look length c => exact hdata
  | path_open oflags length inMemory c => exact hdata

private def calling (c : JsString × Bytes) : Guest Empty (Import Empty (JsString × Bytes)) :=
  ⟨[], .ok (), true, some 1, [.call (.other c) TsSdk.quiet], .ok ()⟩

/-- A compiler that emits one byte, and generators that copy the request to a file. -/
private def sampleEngine : Engine Empty (Filesystem × Bytes) (JsString × Bytes) where
  limits := defaultLimits
  host := sampleHost
  compiler := fun _ _ _ => calling ([], [7])
  generators := fun _ _ stdin _ => calling (text "out", stdin)

private def sampleJob : StagedCompileJob := ⟨[], [], [], [], []⟩

private theorem sampleEngine_uncancelled :
    sampleEngine.Uncancelled fun _ => TsSdk.quiet where
  between _ := rfl
  compiler _ _ _ := ⟨by simp [sampleEngine, calling], by simp [sampleEngine, calling, Act.Quiet]⟩
  generators _ _ _ _ :=
    ⟨by simp [sampleEngine, calling], by simp [sampleEngine, calling, Act.Quiet]⟩

/-- A Go compiler that emits one byte, and generators that copy the request to a file. -/
private def sampleCompiler : GoSdk.Compiler :=
  ⟨defaultLimits, [.cpp, .go], fun _ _ _ => ⟨[.stdout [7]], .returned, none⟩, fun _ _ stdin =>
    ⟨[.fs (.openFile [97] { O_CREAT := true, O_RDWR := true } 0o644), .fs (.file 0 (.write stdin))],
      .returned, none⟩⟩

private def sampleRequest : GoSdk.Request where
  files := AList.singleton [97] [1]
  includeFiles := ∅
  importPaths := []
  sourcePrefix := []
  entrypoints := [[97]]
  generators := []

/-- In both SDKs the files of one language are the same with another one before it. -/
theorem jobs_allOrNothing_sample :
    (∃ outputs outputs',
      sampleCompiler.compiled sampleRequest [.go, .cpp] = .ok ([7], outputs, []) ∧
      sampleCompiler.compiled sampleRequest [.cpp] = .ok ([7], outputs', []) ∧
      outputs.lookup .cpp = outputs'.lookup .cpp ∧ (outputs.lookup .cpp).isSome = true ∧
      ∃ diagnostics, sampleCompiler.generated [7] [.go, .cpp] = .ok (outputs, diagnostics)) ∧
    ∃ outputs outputs',
      sampleEngine.compiled (fun _ => quiet) sampleJob [.go, .cpp] = .ok ([7], outputs, []) ∧
      sampleEngine.compiled (fun _ => quiet) sampleJob [.cpp] = .ok ([7], outputs', []) ∧
      outputs.lookup .cpp = outputs'.lookup .cpp ∧ (outputs.lookup .cpp).isSome = true := by
  have hjobs := jobs_allOrNothing sampleCompiler sampleEngine (fun _ => quiet)
    sampleHost_documented sampleEngine_uncancelled
  constructor
  · have hgo := hjobs.1 sampleRequest
    have hvalid : sampleCompiler.accepts sampleRequest [.go, .cpp] := by rfl
    have hvalid' : sampleCompiler.accepts sampleRequest [.cpp] := by rfl
    have hcompiled : ∀ languages, (sampleCompiler.compiled sampleRequest languages).toOption.map
        (fun r => (r.1, r.2.2)) = some ([7], []) → ∃ outputs,
          sampleCompiler.compiled sampleRequest languages = .ok ([7], outputs, []) := by
      intro languages h
      cases hjob : sampleCompiler.compiled sampleRequest languages with
      | error ds =>
          rw [hjob] at h
          cases h
      | ok r =>
          obtain ⟨q, outputs, ds⟩ := r
          rw [hjob] at h
          cases h
          exact ⟨outputs, rfl⟩
    obtain ⟨outputs, htwo⟩ := hcompiled [.go, .cpp] (by decide +kernel)
    obtain ⟨outputs', hone⟩ := hcompiled [.cpp] (by decide +kernel)
    have hsame := (hgo.independent _ _ _ _ _ _ _ _ hvalid hvalid' htwo hone).2
    have hwhole := (hgo.whole _ _ _ _ hvalid htwo).2 .cpp (by decide)
    obtain ⟨-, diagnostics, -, hgenerated⟩ :=
      (hgo.resumed _ _ outputs hvalid (by decide)).mp ⟨[], htwo⟩
    refine ⟨outputs, outputs', htwo, hone, hsame .cpp (by decide) (by decide), ?_, diagnostics,
      hgenerated⟩
    rw [hwhole.2]
    exact hwhole.1
  · have hts := hjobs.2.2 sampleJob
    have htwo : ∃ outputs, sampleEngine.compiled (fun _ => quiet) sampleJob [.go, .cpp] =
        .ok ([7], outputs, []) := ⟨_, rfl⟩
    have hone : ∃ outputs, sampleEngine.compiled (fun _ => quiet) sampleJob [.cpp] =
        .ok ([7], outputs, []) := ⟨_, rfl⟩
    obtain ⟨outputs, htwo⟩ := htwo
    obtain ⟨outputs', hone⟩ := hone
    have hsame := (hts.independent _ _ _ _ _ _ _ _ trivial trivial htwo hone).2
    have hwhole := (hts.whole _ _ _ _ trivial htwo).2 .cpp (by decide)
    refine ⟨outputs, outputs', htwo, hone, hsame .cpp (by decide) (by decide), ?_⟩
    rw [hwhole.2]
    exact hwhole.1

end

end Sdk
