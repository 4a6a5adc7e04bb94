import CapnpcWasm.Lib.Checks
import CapnpcWasm.Lib.Text
import CapnpcWasm.Sdk.Limits
import Mathlib.Data.List.Sort

/-!
# Requests and their checks

A compile request as a caller of either SDK has it, with strings as characters, and the
checks both SDKs document, in their order.  A map of files comes in an order of
enumeration.  The order decides which of several failures is the first, but not whether
there is one (`first_checks_sorted`).

`checks` is the specification that both validators are compared with.  The Go SDK
enumerates maps in sorted order and the TypeScript one in the caller's, so the first one
makes `checks` of the sorted request, and the second of the request itself.
-/

namespace Sdk

open Checks

/-! ## Requests -/

/-- A path as its characters, before either SDK encodes it. -/
abbrev Path := List Char

/-- The contents of a file: text, or bytes. -/
inductive Data where
  | text (s : List Char)
  | bytes (bytes : List UInt8)

/-- Contents as the bytes that are staged. -/
def Data.encoded : Data → List UInt8
  | .text s => Text.utf8 s
  | .bytes b => b

/-- A map from paths to contents, in an order of enumeration. -/
structure Files where
  entries : List (Path × Data)
  nodup : (entries.map Prod.fst).Nodup

/-- A map that is not given. -/
def Files.empty : Files := ⟨[], List.nodup_nil⟩

/-- The keys, in the order of enumeration. -/
def Files.paths (files : Files) : List Path := files.entries.map Prod.fst

/-- The order of the encoded paths. -/
def bytewise (a b : Path × Data) : Prop := Text.utf8 a.1 ≤ Text.utf8 b.1

instance : DecidableRel bytewise := fun _ _ => inferInstanceAs (Decidable (_ ≤ _))

/-- The same files by their bytes. -/
def Files.sorted (files : Files) : Files where
  entries := files.entries.insertionSort bytewise
  nodup := ((List.perm_insertionSort bytewise files.entries).map Prod.fst).nodup_iff.mpr files.nodup

/-- A compile request, with the fields a caller may leave out. -/
structure SharedRequest where
  files : Files
  includeFiles : Option Files
  importPaths : Option (List Path)
  sourcePrefix : Option Path
  entrypoints : List Path
  generators : List Path

namespace SharedRequest

variable (r : SharedRequest)

/-- Include files, none where the field is absent. -/
def annotations : Files := r.includeFiles.getD .empty

/-- Import paths. -/
def roots : List Path := r.importPaths.getD []

/-- The prefix of sources, empty where absent. -/
def stripped : Path := r.sourcePrefix.getD []

/-- The same request, its maps enumerated bytewise. -/
def sorted : SharedRequest :=
  { r with files := r.files.sorted, includeFiles := r.includeFiles.map Files.sorted }

end SharedRequest

/-! ## Failures -/

/-- A failed check, with the path or name it is about. -/
inductive Failure where
  | tooManyGenerators
  | duplicateGenerators
  | generatorNotSupplied (name : List Char)
  | importRootCount
  | pathBytes
  | notCanonical (path : Path)
  | duplicateImportPaths
  | noEntrypoint
  | entrypointCount
  | duplicateEntrypoints
  | workspaceEntries
  | workspaceBytes
  | collision (path : Path)
  | entrypointNotInFiles (path : Path)
  | importPathNotDirectory (path : Path)
  | sourcePrefixNotDirectory (path : Path)
deriving DecidableEq, Repr

/-- The texts, which both SDKs have. -/
def Failure.message : Failure → List Char
  | .tooManyGenerators => "too many generators".toList
  | .duplicateGenerators => "duplicate generators".toList
  | .generatorNotSupplied name => "generator was not supplied: ".toList ++ name
  | .importRootCount => "import root count exceeds workspaceEntries limit".toList
  | .pathBytes => "path exceeds pathBytes limit".toList
  | .notCanonical path => "expected a canonical relative POSIX path: ".toList ++ path
  | .duplicateImportPaths => "duplicate importPaths".toList
  | .noEntrypoint => "at least one entrypoint is required".toList
  | .entrypointCount => "entrypoint count exceeds workspaceEntries limit".toList
  | .duplicateEntrypoints => "duplicate entrypoints".toList
  | .workspaceEntries => "workspace exceeds workspaceEntries limit".toList
  | .workspaceBytes => "workspace exceeds workspaceBytes limit".toList
  | .collision path => "file/directory collision: ".toList ++ path
  | .entrypointNotInFiles path => "entrypoint is not in files: ".toList ++ path
  | .importPathNotDirectory path => "importPath is not a directory in files: ".toList ++ path
  | .sourcePrefixNotDirectory path => "sourcePrefix is not a directory in files: ".toList ++ path

/-- The limit a failed check is about. -/
def Failure.limit : Failure → Option Limit
  | .importRootCount => some .workspaceEntries
  | .pathBytes => some .pathBytes
  | .entrypointCount => some .workspaceEntries
  | .workspaceEntries => some .workspaceEntries
  | .workspaceBytes => some .workspaceBytes
  | _ => none

/-! ## Paths -/

/-- A component of a canonical path. -/
def PlainPart (part : List Char) : Prop := part ≠ [] ∧ part ≠ ['.'] ∧ part ≠ ['.', '.']

instance : DecidablePred PlainPart := fun _ => inferInstanceAs (Decidable (_ ∧ _ ∧ _))

/-- A relative path without backslashes, NUL characters, or empty or dot components. -/
def CanonicalPath (path : Path) : Prop :=
  (Char.ofNat 92 ∉ path ∧ Char.ofNat 0 ∉ path) ∧ ∀ part ∈ path.splitOn '/', PlainPart part

instance : DecidablePred CanonicalPath := fun _ => inferInstanceAs (Decidable (_ ∧ _))

/-- The files and the directories they imply. -/
def nodes (paths : List Path) : Finset Path := (paths.flatMap (Text.cuts '/')).toFinset

/-- The directories a path implies. -/
def implied (path : Path) : List Path := Text.properCuts '/' path

/-- The size of all contents, after encoding. -/
def contentBytes (entries : List (Path × Data)) : Nat :=
  (entries.map fun e => e.2.encoded.length).sum

/-! ## The checks -/

/-- The generators: how many, no duplicates, each supplied. -/
def generatorChecks (supplied : List Language) (generators : List Path) :
    List (Option Failure) :=
  [failIf (4 < generators.length) .tooManyGenerators,
    failIf (¬generators.Nodup) .duplicateGenerators] ++
  generators.map fun name =>
    failIf (∀ l ∈ supplied, l.name.toList ≠ name) (.generatorNotSupplied name)

/-- One path: its size in bytes, then its form. -/
def pathChecks (limits : Limits) (path : Path) : List (Option Failure) :=
  [failIf (limits.pathBytes < (Text.utf8 path).length) .pathBytes,
    failIf (¬CanonicalPath path) (.notCanonical path)]

/-- The import roots. -/
def rootChecks (limits : Limits) (r : SharedRequest) : List (Option Failure) :=
  [failIf (limits.workspaceEntries < r.roots.length) .importRootCount] ++
  ((r.stripped :: r.roots).filter (· ≠ [])).flatMap (pathChecks limits) ++
  [failIf (¬r.roots.Nodup) .duplicateImportPaths]

/-- The entrypoints. -/
def entrypointChecks (limits : Limits) (r : SharedRequest) : List (Option Failure) :=
  [failIf (r.entrypoints.length = 0) .noEntrypoint,
    failIf (limits.workspaceEntries < r.entrypoints.length) .entrypointCount] ++
  r.entrypoints.flatMap (pathChecks limits) ++
  [failIf (¬r.entrypoints.Nodup) .duplicateEntrypoints]

/-- The checks of a file, after the others of its mount and those of an earlier mount. -/
def fileChecks (limits : Limits) (counted size : Nat) (before : List (Path × Data))
    (entry : Path × Data) : List (Option Failure) :=
  pathChecks limits entry.1 ++
  [failIf (limits.workspaceEntries < counted + (nodes ((before ++ [entry]).map Prod.fst)).card)
      .workspaceEntries,
    failIf (limits.workspaceBytes < size + contentBytes (before ++ [entry])) .workspaceBytes]

/-- A file where another has a directory. -/
def collisionCheck (paths : List Path) (path : Path) : Option Failure :=
  failIf (∃ directory ∈ implied path, directory ∈ paths) (.collision path)

/-- One map of files, counted with those before it. -/
def mountChecks (limits : Limits) (counted size : Nat) (files : Files) : List (Option Failure) :=
  stepwise (fileChecks limits counted size) [] files.entries ++
  files.paths.map (collisionCheck files.paths)

/-- A directory that the paths of the files imply. -/
def IsDirectory (files : Files) (path : Path) : Prop := path ∈ nodes files.paths ∧ path ∉ files.paths

instance (files : Files) : DecidablePred (IsDirectory files) :=
  fun _ => inferInstanceAs (Decidable (_ ∧ _))

/-- Entrypoints are files that were given, import paths and the prefix directories of theirs. -/
def presenceChecks (r : SharedRequest) : List (Option Failure) :=
  (r.entrypoints.map fun path => failIf (path ∉ r.files.paths) (.entrypointNotInFiles path)) ++
  (r.roots.map fun root =>
    failIf (root ≠ [] ∧ ¬IsDirectory r.files root) (.importPathNotDirectory root)) ++
  [failIf (r.stripped ≠ [] ∧ ¬IsDirectory r.files r.stripped)
    (.sourcePrefixNotDirectory r.stripped)]

/-- Every check on a compile request, in the documented order. -/
def checks (limits : Limits) (supplied : List Language) (r : SharedRequest) :
    List (Option Failure) :=
  generatorChecks supplied r.generators ++ rootChecks limits r ++ entrypointChecks limits r ++
  mountChecks limits 0 0 r.files ++
  mountChecks limits (nodes r.files.paths).card (contentBytes r.files.entries) r.annotations ++
  presenceChecks r

/-! ## The order of enumeration -/

section

variable {limits : Limits} {supplied : List Language} {counted size : Nat} {files files' : Files}

/-- More paths imply more nodes. -/
theorem nodes_mono {p q : List Path} (h : p ⊆ q) : nodes p ⊆ nodes q := by
  intro x hx
  rw [nodes, List.mem_toFinset, List.mem_flatMap] at hx ⊢
  obtain ⟨a, ha, hxa⟩ := hx
  exact ⟨a, h ha, hxa⟩

/-- Nodes are counted once, whichever map they come from. -/
theorem nodes_append (p q : List Path) : nodes (p ++ q) = nodes p ∪ nodes q := by
  rw [nodes, List.flatMap_append, List.toFinset_append]
  rfl

/-- Bytes are counted for each file. -/
theorem contentBytes_append (p q : List (Path × Data)) :
    contentBytes (p ++ q) = contentBytes p + contentBytes q := by
  rw [contentBytes, List.map_append, List.sum_append]
  rfl

/-- The checks of a mount pass when they pass for all its files together. -/
theorem first_mountChecks : first (mountChecks limits counted size files) = none ↔
    (∀ path ∈ files.paths, first (pathChecks limits path) = none) ∧
    (files.entries ≠ [] → counted + (nodes files.paths).card ≤ limits.workspaceEntries ∧
      size + contentBytes files.entries ≤ limits.workspaceBytes) ∧
    ∀ path ∈ files.paths, ∀ directory ∈ implied path, directory ∉ files.paths := by
  have hfile : ∀ before entry, first (fileChecks limits counted size before entry) = none ↔
      first (pathChecks limits entry.1) = none ∧
      counted + (nodes ((before ++ [entry]).map Prod.fst)).card ≤ limits.workspaceEntries ∧
      size + contentBytes (before ++ [entry]) ≤ limits.workspaceBytes := by
    intro before entry
    simp [fileChecks, first]
  rw [mountChecks, first_append_eq_none, first_stepwise_eq_none, first_map_eq_none]
  simp only [List.nil_append, hfile, collisionCheck, failIf_eq_none, not_exists, not_and]
  rw [← and_assoc]
  refine and_congr_left fun _ => ⟨fun h => ⟨?_, ?_⟩, ?_⟩
  · intro path hpath
    obtain ⟨entry, hentry, rfl⟩ := List.mem_map.mp hpath
    obtain ⟨l₁, l₂, hl⟩ := List.append_of_mem hentry
    exact (h l₁ entry l₂ hl).1
  · -- The counts after the last file are those of the mount.
    intro hne
    obtain ⟨l, entry, hl⟩ := (List.eq_nil_or_concat files.entries).resolve_left hne
    have hlast := (h l entry [] (by rw [hl, List.concat_eq_append])).2
    rw [Files.paths, hl, List.concat_eq_append]
    exact hlast
  · -- The counts after a file are at most those of the mount.
    rintro ⟨hpaths, htotal⟩ l₁ entry l₂ hl
    have hmem : entry ∈ files.entries := by
      rw [hl]
      exact List.mem_append_right l₁ List.mem_cons_self
    have hsplit : files.entries = (l₁ ++ [entry]) ++ l₂ := by rw [hl, List.append_cons]
    obtain ⟨hcount, hsize⟩ := htotal (List.ne_nil_of_mem hmem)
    have hnodes : (nodes ((l₁ ++ [entry]).map Prod.fst)).card ≤ (nodes files.paths).card := by
      refine Finset.card_le_card (nodes_mono fun x hx => ?_)
      rw [Files.paths, hsplit, List.map_append]
      exact List.mem_append_left _ hx
    rw [hsplit, contentBytes_append] at hsize
    exact ⟨hpaths entry.1 (List.mem_map_of_mem hmem), by omega, by omega⟩

/-- Sorting neither adds nor drops a file. -/
theorem Files.sorted_perm (files : Files) : files.sorted.entries.Perm files.entries :=
  List.perm_insertionSort bytewise files.entries

theorem Files.sorted_paths_perm (files : Files) : files.sorted.paths.Perm files.paths :=
  files.sorted_perm.map Prod.fst

@[simp] theorem Files.mem_sorted_paths {path : Path} : path ∈ files.sorted.paths ↔ path ∈ files.paths :=
  files.sorted_paths_perm.mem_iff

/-- What is counted does not depend on the order. -/
@[simp] theorem nodes_sorted : nodes files.sorted.paths = nodes files.paths :=
  (nodes_mono files.sorted_paths_perm.subset).antisymm
    (nodes_mono files.sorted_paths_perm.symm.subset)

@[simp] theorem contentBytes_sorted : contentBytes files.sorted.entries = contentBytes files.entries := by
  rw [contentBytes, contentBytes]
  exact (files.sorted_perm.map _).sum_nat

/-- Whether a map passes does not depend on the order. -/
theorem first_mountChecks_sorted : first (mountChecks limits counted size files.sorted) = none ↔
    first (mountChecks limits counted size files) = none := by
  have hnil : files.sorted.entries = [] ↔ files.entries = [] := by
    rw [← List.length_eq_zero_iff, files.sorted_perm.length_eq, List.length_eq_zero_iff]
  simp only [first_mountChecks, Files.mem_sorted_paths, nodes_sorted, contentBytes_sorted, ne_eq,
    hnil]

/-- What its directories are does not depend on the order. -/
theorem isDirectory_sorted {path : Path} : IsDirectory files.sorted path ↔ IsDirectory files path := by
  rw [IsDirectory, nodes_sorted, Files.mem_sorted_paths, IsDirectory]

/-- Include files are sorted like the others. -/
theorem SharedRequest.sorted_annotations (r : SharedRequest) :
    r.sorted.annotations = r.annotations.sorted := by
  rw [annotations, annotations, sorted]
  cases r.includeFiles with
  | none => rfl
  | some files => rfl

/-- Whether a request passes does not depend on the order its maps come in. -/
theorem first_checks_sorted (r : SharedRequest) :
    first (checks limits supplied r.sorted) = none ↔ first (checks limits supplied r) = none := by
  simp only [checks, first_append_eq_none, r.sorted_annotations]
  have hfiles : r.sorted.files = r.files.sorted := rfl
  have hpresence : first (presenceChecks r.sorted) = none ↔ first (presenceChecks r) = none := by
    simp only [presenceChecks, first_append_eq_none, first_map_eq_none, first_singleton,
      failIf_eq_none, hfiles, Files.mem_sorted_paths, isDirectory_sorted]
    rfl
  rw [hpresence, hfiles, first_mountChecks_sorted, first_mountChecks_sorted, nodes_sorted,
    contentBytes_sorted]
  rfl

/-- A request whose maps are enumerated bytewise is its sorted self. -/
theorem Files.sorted_eq (h : files.entries.Pairwise bytewise) : files.sorted = files := by
  have : files.entries.insertionSort bytewise = files.entries := h.insertionSort_eq
  rw [Files.sorted]
  congr

end

end Sdk
