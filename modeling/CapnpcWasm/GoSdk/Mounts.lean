import CapnpcWasm.GoSdk.Validate
import CapnpcWasm.Lib.Checks
import CapnpcWasm.MemoryFs.Mirror

/-!
# The mounts of a valid request

`validate` accepts only files whose paths are canonical and do not pass through one another, so
the mounts staged from them hold them exactly, and the compiler's root mirrors both mounts.
-/

namespace GoSdk

open Sdk MemoryFs Checks

section

variable {limits : Limits} {files : Contents} {name : Name} {s s' : Scan}

theorem canonical_of_checkPath (h : checkPath limits name = .ok ()) : Canonical name := by
  rw [checkPath] at h
  split at h
  · cases h
  · split at h
    · cases h
    · next hvalid =>
      have hvalid : validPath name = true := by simpa using hvalid
      rw [validPath, Bool.and_eq_true, List.all_eq_true] at hvalid
      obtain ⟨hbytes, hparts⟩ := hvalid
      refine ⟨?_, fun part hp => ?_⟩
      · simp only [Bool.not_eq_true', Bool.or_eq_false_iff] at hbytes
        exact hbytes.2
      · have hpart := hparts part hp
        simp only [Bool.not_eq_true', Bool.or_eq_false_iff, beq_eq_false_iff_ne] at hpart
        exact ⟨hpart.1.1, hpart.1.2, hpart.2⟩

theorem addFiles_ok {names : List Name} (h : names.foldlM (addFile limits files) s = .ok s') :
    ∀ name ∈ names, Canonical name := by
  induction names generalizing s with
  | nil => exact fun name hmem => absurd hmem List.not_mem_nil
  | cons name names ih =>
      rw [List.foldlM_cons] at h
      obtain ⟨next, hone, hrest⟩ := bind_ok h
      obtain ⟨⟨⟩, hpath, -⟩ := bind_ok hone
      exact List.forall_mem_cons.mpr ⟨canonical_of_checkPath hpath, ih hrest⟩

/-- A directory that a path passes through is the path up to one of its slashes. -/
theorem mem_directoriesOf {directory : Name} (h : directory ∈ ancestors name) :
    directory ∈ directoriesOf name := by
  obtain ⟨rest, rfl⟩ := mem_ancestors.mp h
  rw [directoriesOf, List.mem_map]
  refine ⟨directory.length, List.mem_filter.mpr ⟨?_, ?_⟩, List.take_left⟩
  · rw [List.mem_range, List.length_append, List.length_cons]
    omega
  · rw [List.getElem?_append_right (Nat.le_refl _), Nat.sub_self]
    rfl

theorem stageable_of_scanMount (h : scanMount limits files s = .ok s') : Stageable files := by
  obtain ⟨next, hfiles, hrest⟩ := bind_ok h
  obtain ⟨⟨⟩, hcollisions, -⟩ := bind_ok hrest
  refine ⟨fun name hmem => addFiles_ok hfiles name (mem_sortedKeys.mpr hmem),
    fun name hmem directory hancestor hkey => ?_⟩
  have hcheck := forM_ok hcollisions name (mem_sortedKeys.mpr hmem)
  rw [checkCollision, if_pos] at hcheck
  · cases hcheck
  · rw [List.any_eq_true]
    exact ⟨directory, mem_directoriesOf hancestor, AList.lookup_isSome.mpr hkey⟩

/-- The files of a valid request can be staged. -/
theorem stageable_of_validate {supplied : List Language} {request : Request}
    (h : validate limits supplied request = .ok ()) :
    Stageable request.files ∧ Stageable request.includeFiles := by
  rw [validate] at h
  obtain ⟨_, -, h⟩ := bind_ok h
  obtain ⟨_, -, h⟩ := bind_ok h
  obtain ⟨_, -, h⟩ := bind_ok h
  obtain ⟨_, -, h⟩ := bind_ok h
  obtain ⟨_, -, h⟩ := bind_ok h
  obtain ⟨_, -, h⟩ := bind_ok h
  obtain ⟨_, -, h⟩ := bind_ok h
  obtain ⟨_, -, h⟩ := bind_ok h
  obtain ⟨_, hsource, h⟩ := bind_ok h
  obtain ⟨_, hincluded, -⟩ := bind_ok h
  exact ⟨stageable_of_scanMount hsource, stageable_of_scanMount hincluded⟩

end

/-- The root of a valid request mirrors both of its mounts, at every path a mount resolves below
its root, and lists the same directories. -/
theorem root_mirrors_mounts (host : Host) (limits : Limits) (supplied : List Language)
    (request : Request) (hint : limits.pathBytes < 2 ^ 63)
    (h : validate limits supplied request = .ok ()) (point : Name) (m : Mount)
    (hmount : MountedAt point m) :
    let mounts := compileMounts host request.files request.includeFiles limits
    (∀ path resolved, path.length ≤ limits.pathBytes →
      guestPath path (mounts.world m).lookupBound = .ok resolved → resolved ≠ dot →
      Mirrored (mounts.world .root).toDisk (mounts.world m).toDisk point path) ∧
    ListsAlike (mounts.world .root).toDisk (mounts.world m).toDisk point := by
  obtain ⟨hsource, hincluded⟩ := stageable_of_validate h
  exact compileMounts_mirrored host (by omega) hsource hincluded hmount

/-- A source file in a directory and a bundled one. -/
def mountedRequest : Request where
  files := AList.singleton [97, 47, 98] [1, 2]
  includeFiles := AList.singleton [99] [3]
  importPaths := []
  sourcePrefix := []
  entrypoints := [[97, 47, 98]]
  generators := []

theorem root_mirrors_mounts_sample :
    let mounts := compileMounts ⟨[], 0⟩ mountedRequest.files mountedRequest.includeFiles defaultLimits
    (∀ path resolved, path.length ≤ defaultLimits.pathBytes →
      guestPath path (mounts.world .source).lookupBound = .ok resolved → resolved ≠ dot →
      Mirrored (mounts.world .root).toDisk (mounts.world .source).toDisk sourceMount path) ∧
    ListsAlike (mounts.world .root).toDisk (mounts.world .source).toDisk sourceMount :=
  root_mirrors_mounts ⟨[], 0⟩ defaultLimits [] mountedRequest (by decide) (by rfl) sourceMount .source
    .source

end GoSdk
