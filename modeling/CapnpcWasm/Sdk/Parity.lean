import CapnpcWasm.GoSdk.Checks
import CapnpcWasm.TsSdk.Checks

/-!
# The two SDKs validate alike

Both validators make the documented checks, Go on maps enumerated bytewise and TypeScript
on maps in the order of the caller's records.  They accept the same requests, and where the
two orders agree they report the same failure in the same words.
-/

namespace Sdk

open Checks

/-- The maps of a request are enumerated bytewise. -/
structure SharedRequest.Bytewise (r : SharedRequest) : Prop where
  files : r.files.entries.Pairwise bytewise
  annotations : r.annotations.entries.Pairwise bytewise

/-- Such a request is sorted already. -/
theorem SharedRequest.Bytewise.sorted_eq {r : SharedRequest} (h : r.Bytewise) : r.sorted = r := by
  have hfiles := Files.sorted_eq h.files
  have hannotations := h.annotations
  obtain ⟨files, includeFiles, importPaths, sourcePrefix, entrypoints, generators⟩ := r
  rw [SharedRequest.sorted]
  congr
  cases includeFiles with
  | none => rfl
  | some annotations => exact congrArg some (Files.sorted_eq hannotations)

theorem validate_alike (limits : Limits) (supplied : List Language) (r : SharedRequest) :
    (GoSdk.validate limits supplied (.encode r) = .ok () ↔
      ∃ job, TsSdk.validateCompile limits supplied (.encode r) = .ok job) ∧
    (r.Bytewise →
      match first (checks limits supplied r) with
      | none => GoSdk.validate limits supplied (.encode r) = .ok () ∧
          ∃ job, TsSdk.validateCompile limits supplied (.encode r) = .ok job
      | some f =>
          GoSdk.validate limits supplied (.encode r) = .error ⟨Text.utf8 f.message, f.limit⟩ ∧
          TsSdk.validateCompile limits supplied (.encode r) = .error ⟨Text.utf16 f.message⟩) := by
  have hgo := GoSdk.makes_validate limits supplied r
  have hts := TsSdk.makes_validateCompile limits supplied r
  have hunit : GoSdk.validate limits supplied (.encode r) = .ok () ↔
      ∃ u, GoSdk.validate limits supplied (.encode r) = .ok u :=
    ⟨fun h => ⟨(), h⟩, fun ⟨_, h⟩ => h⟩
  constructor
  · rw [hunit, hgo.ok_iff, hts.ok_iff, first_checks_sorted]
  · intro h
    rw [h.sorted_eq] at hgo
    cases hfirst : first (checks limits supplied r) with
    | none => exact ⟨hunit.mpr (hgo.ok_iff.mpr hfirst), hts.ok_iff.mpr hfirst⟩
    | some f => exact ⟨hgo.of_some hfirst, hts.of_some hfirst⟩

/-- A file stands where another file needs a directory. -/
def colliding : SharedRequest where
  files := ⟨[("a".toList, .text "x".toList), ("a/b".toList, .bytes [1])], by decide +kernel⟩
  includeFiles := none
  importPaths := none
  sourcePrefix := none
  entrypoints := ["a".toList]
  generators := ["go".toList]

/-- A file that is also a directory, in the words of both. -/
theorem validate_alike_colliding :
    GoSdk.validate defaultLimits [.go] (.encode colliding) =
      .error ⟨Text.utf8 "file/directory collision: a/b".toList, none⟩ ∧
    TsSdk.validateCompile defaultLimits [.go] (.encode colliding) =
      .error ⟨Text.utf16 "file/directory collision: a/b".toList⟩ := by
  have hfirst : first (checks defaultLimits [.go] colliding) =
      some (.collision "a/b".toList) := by decide +kernel
  have h := (validate_alike defaultLimits [.go] colliding).2
    ⟨by decide +kernel, by decide +kernel⟩
  rw [hfirst] at h
  exact h

end Sdk
