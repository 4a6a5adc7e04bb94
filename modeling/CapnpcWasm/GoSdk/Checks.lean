import CapnpcWasm.GoSdk.Validate
import CapnpcWasm.Sdk.Requests

/-!
# The checks of the Go SDK

`validate` makes the documented checks in their order, on a request as Go has it: strings
are UTF-8 and maps are enumerated bytewise.

The documented checks are `Sdk.checks`: conditions on a shared request and the failure each
reports, in order.  `Makes report checks holds run` says that `run` fails with the report of
the first of the checks that fails, and that where none fails it succeeds with a result of
which `holds` is true.  `makes_validate` is that statement of the whole of `validate`.  It is
put together as `validate` is, one lemma for each function that it calls, by the rules
`Makes.bind`, `Makes.forM` and `Makes.foldlM`.

What is particular to Go is below the checks.  A path is compared, cut at its slashes and
searched for forbidden bytes in UTF-8, where the documented condition is on its characters;
UTF-8 is injective and an ASCII character is one byte, so both agree.  The scan of a mount
carries its nodes as a list of byte strings, of which `Scanned` keeps the meaning: the
nodes of the files scanned so far, their number and their size.
-/

namespace GoSdk

open Sdk Checks MemoryFs

/-! ## Requests as Go has them -/

/-- A map from names to contents.  Its keys are distinct, since UTF-8 is injective. -/
def encodeFiles (files : Sdk.Files) : Contents where
  entries := files.entries.map fun e => ⟨Text.utf8 e.1, e.2.encoded⟩
  nodupKeys := by
    have hkeys : (files.entries.map fun e => (⟨Text.utf8 e.1, e.2.encoded⟩ : Sigma fun _ => _)).keys =
        (files.entries.map Prod.fst).map Text.utf8 := by
      rw [List.keys, List.map_map, List.map_map]
      rfl
    rw [List.NodupKeys, hkeys]
    exact files.nodup.map Text.utf8_injective

/-- The request that a caller of the Go SDK makes.  Go has no optional fields: a missing list is
the empty one and a missing prefix the empty string. -/
def Request.encode (r : SharedRequest) : Request where
  files := encodeFiles r.files
  includeFiles := encodeFiles r.annotations
  importPaths := r.roots.map Text.utf8
  sourcePrefix := Text.utf8 r.stripped
  entrypoints := r.entrypoints.map Text.utf8
  generators := r.generators.map Text.utf8

/-- How Go reports a failed check. -/
def report (f : Failure) : Rejection := ⟨Text.utf8 f.message, f.limit⟩

/-! ## Strings -/

section

variable {limits : Limits} {supplied : List Language} {files : Sdk.Files} {path : Path}

/-- Strings are compared as their bytes. -/
theorem utf8_eq_iff {s t : List Char} : Text.utf8 s = Text.utf8 t ↔ s = t :=
  Text.utf8_injective.eq_iff

/-- Membership in a list of strings, as bytes. -/
theorem utf8_mem_map {s : List Char} {l : List (List Char)} :
    Text.utf8 s ∈ l.map Text.utf8 ↔ s ∈ l :=
  List.mem_map_of_injective Text.utf8_injective

/-- A slash is one byte, and no byte of another character.  So bytes are cut where characters are.
-/
theorem single_slash : Text.Single String.utf8EncodeChar '/' slash :=
  Text.single_utf8 (a := '/') (by decide)

/-- A message is a literal text and the path it is about. -/
theorem text_append (s : String) (path : Path) :
    text s ++ Text.utf8 path = Text.utf8 (s.toList ++ path) :=
  Text.encode_append.symm

/-- The three parts that no canonical path has. -/
theorem utf8_empty : Text.utf8 [] = [] := rfl
theorem utf8_dot : Text.utf8 ['.'] = dot := by decide +kernel
theorem utf8_dotdot : Text.utf8 ['.', '.'] = dotdot := by decide +kernel

/-- The two bytes that `forbidden` searches for stand for the two characters. -/
theorem forbidden_utf8 : forbidden (Text.utf8 path) = true ↔
    Char.ofNat 92 ∈ path ∨ Char.ofNat 0 ∈ path := by
  have hback := (Text.single_utf8 (a := Char.ofNat 92) (by decide)).mem_iff (s := path)
  have hnul := (Text.single_utf8 (a := Char.ofNat 0) (by decide)).mem_iff (s := path)
  rw [forbidden, List.any_eq_true, ← hback, ← hnul]
  simp only [Bool.or_eq_true, beq_iff_eq]
  constructor
  · rintro ⟨b, hb, rfl | rfl⟩
    · exact .inl hb
    · exact .inr hb
  · rintro (h | h)
    · exact ⟨_, h, .inl rfl⟩
    · exact ⟨_, h, .inr rfl⟩

/-- `fs.ValidPath` and the search for a backslash and a null accept the canonical paths.  A string
of characters is always valid UTF-8. -/
theorem validPath_utf8 : validPath (Text.utf8 path) = true ↔ CanonicalPath path := by
  have hsplit : split (Text.utf8 path) = (path.splitOn '/').map Text.utf8 := single_slash.splitOn path
  rw [validPath, Text.validString_utf8, hsplit]
  simp only [Bool.not_true, Bool.false_or, Bool.and_eq_true, Bool.not_eq_true',
    ← Bool.not_eq_true, forbidden_utf8, List.all_eq_true, List.mem_map, forall_exists_index,
    and_imp, forall_apply_eq_imp_iff₂]
  rw [CanonicalPath, not_or]
  refine and_congr_right fun _ => forall₂_congr fun part _ => ?_
  rw [← utf8_empty, ← utf8_dot, ← utf8_dotdot]
  simp only [Bool.or_eq_true, beq_iff_eq, utf8_eq_iff, not_or]
  rw [PlainPart, and_assoc]

/-- A path and its parents, cut at the slashes of the bytes. -/
theorem nodesOf_utf8 : nodesOf (Text.utf8 path) = (Text.cuts '/' path).map Text.utf8 := by
  rw [nodesOf, ← Text.cuts_eq_takes]
  exact single_slash.cuts path

/-- Its parents. -/
theorem directoriesOf_utf8 : directoriesOf (Text.utf8 path) = (implied path).map Text.utf8 := by
  rw [directoriesOf, ← Text.properCuts_eq_takes]
  exact single_slash.properCuts path

/-- The loop that keeps what it has seen finds a repetition exactly if there is one. -/
theorem duplicated_iff {A : Type} [DecidableEq A] (l seen : List A) :
    duplicated seen l = true ↔ ¬(l.Nodup ∧ ∀ a ∈ l, a ∉ seen) := by
  induction l generalizing seen with
  | nil => simp [duplicated]
  | cons a l ih =>
      rw [duplicated]
      by_cases ha : a ∈ seen
      · rw [if_pos ha]
        exact ⟨fun _ h => h.2 a List.mem_cons_self ha, fun _ => rfl⟩
      · rw [if_neg ha, ih]
        refine not_congr ⟨fun h => ⟨?_, ?_⟩, fun h => ⟨h.1.of_cons, ?_⟩⟩
        · exact h.1.cons fun hm => h.2 a hm List.mem_cons_self
        · intro b hb
          rcases List.mem_cons.mp hb with rfl | hb
          · exact ha
          · exact fun hs => h.2 b hb (List.mem_cons_of_mem a hs)
        · intro b hb hs
          rcases List.mem_cons.mp hs with rfl | hs
          · exact (List.nodup_cons.mp h.1).1 hb
          · exact h.2 b (List.mem_cons_of_mem a hb) hs

/-- Repeated strings are repeated byte strings. -/
theorem duplicated_utf8 (l : List (List Char)) :
    duplicated [] (l.map Text.utf8) = true ↔ ¬l.Nodup := by
  rw [duplicated_iff, List.nodup_map_iff Text.utf8_injective]
  simp

/-! ## Maps -/

/-- The names of a map. -/
theorem keys_encodeFiles : (encodeFiles files).keys = files.paths.map Text.utf8 := by
  rw [AList.keys, List.keys, encodeFiles, Files.paths, List.map_map, List.map_map]
  rfl

/-- A name is looked up as its bytes. -/
theorem lookup_isSome_utf8 :
    ((encodeFiles files).lookup (Text.utf8 path)).isSome = true ↔ path ∈ files.paths := by
  rw [AList.lookup_isSome, AList.mem_keys, keys_encodeFiles, utf8_mem_map]

/-- What an entry of the map holds. -/
theorem lookup_utf8 {entry : Path × Data} (h : entry ∈ files.entries) :
    (encodeFiles files).lookup (Text.utf8 entry.1) = some entry.2.encoded := by
  rw [← Option.mem_def, AList.mem_lookup_iff]
  exact List.mem_map_of_mem h

/-- Go sorts the names as strings, so bytewise: the order of `Files.sorted`. -/
theorem sortedKeys_encodeFiles :
    sortedKeys (encodeFiles files) = files.sorted.paths.map Text.utf8 := by
  have hsort : (files.entries.insertionSort bytewise).map (fun e => Text.utf8 e.1) =
      (files.entries.map fun e => Text.utf8 e.1).insertionSort (· ≤ ·) :=
    List.map_insertionSort bytewise (· ≤ ·) _ _ fun _ _ _ _ => Iff.rfl
  rw [sortedKeys, keys_encodeFiles, Files.paths, Files.paths, List.map_map, List.map_map]
  exact hsort.symm

/-! ## The checks -/

/-- The report of a check that names a path: an error without a limit. -/
theorem report_path {s : String} {f : Failure} (hmessage : f.message = s.toList ++ path)
    (hlimit : f.limit = none) : invalid (text s ++ Text.utf8 path) = report f := by
  rw [invalid, text_append, report, hmessage, hlimit]

/-- A path is checked for its length and then for its form. -/
theorem makes_checkPath :
    Makes report (pathChecks limits path) (fun _ => True) (checkPath limits (Text.utf8 path)) := by
  refine .check Iff.rfl (by decide +kernel) fun _ => ?_
  refine .check ?_ (report_path rfl rfl) fun _ => .pure trivial
  rw [Bool.not_eq_true', ← Bool.not_eq_true, validPath_utf8]

/-- Paths are checked in order. -/
theorem makes_checkPaths (paths : List Path) : Makes report (paths.flatMap (pathChecks limits))
    (fun _ => True) ((paths.map Text.utf8).forM (checkPath limits)) :=
  .forM fun _ _ => makes_checkPath

/-- A check of one condition. -/
theorem makes_rejectIf {condition : Bool} {rejection : Rejection} {p : Prop} [Decidable p]
    {f : Failure} (hp : condition = true ↔ p) (hf : rejection = report f) :
    Makes report [failIf p f] (fun _ => True) (rejectIf condition rejection) :=
  .check hp hf fun _ => .pure trivial

/-- A language's name, in characters and in bytes. -/
theorem text_name (l : Language) (name : List Char) :
    text l.name = Text.utf8 name ↔ l.name.toList = name := utf8_eq_iff

/-- A generator is missing exactly if it is none that was supplied.  Names that are no language at
all are among these. -/
theorem hasModule_utf8 {name : List Char} : (!supported (Text.utf8 name) ||
    !hasModule supplied (Text.utf8 name)) = true ↔ ∀ l ∈ supplied, l.name.toList ≠ name := by
  have hsupported : ∀ l : Language, l.name.toList = name → supported (Text.utf8 name) = true := by
    intro l hl
    rw [supported, List.any_eq_true]
    refine ⟨l, ?_, beq_iff_eq.mpr ((text_name l name).mpr hl)⟩
    cases l <;> decide
  rw [Bool.or_eq_true, Bool.not_eq_true', Bool.not_eq_true', hasModule]
  constructor
  · rintro h l hl rfl
    rcases h with h | h
    · rw [hsupported l rfl] at h
      cases h
    · rw [List.any_eq_false] at h
      exact h l hl (beq_self_eq_true _)
  · intro h
    refine .inr (List.any_eq_false.mpr fun l hl heq => h l hl ?_)
    exact (text_name l name).mp (beq_iff_eq.mp heq)

/-- The list of generators: its length, its repetitions, and then each name. -/
theorem makes_validateGenerators (generators : List (List Char)) :
    Makes report (generatorChecks supplied generators) (fun _ => True)
      (validateGenerators supplied (generators.map Text.utf8)) := by
  refine .check (by rw [List.length_map]) (by decide +kernel) fun _ => ?_
  refine .check (duplicated_utf8 generators) (by decide +kernel) fun _ => ?_
  exact .forM_one fun name _ => .check hasModule_utf8 (report_path rfl rfl) fun _ => .pure trivial

/-- What a mount leaves once its files are scanned. -/
structure Scanned (limits : Limits) (counted size : Nat) (scanned : List (Path × Data)) (s : Scan) :
    Prop where
  nodes : ∀ path, Text.utf8 path ∈ s.nodes ↔ path ∈ Sdk.nodes (scanned.map Prod.fst)
  entries : s.entries = counted + (Sdk.nodes (scanned.map Prod.fst)).card
  total : s.total = size + contentBytes scanned
  counts : s.entries ≤ limits.workspaceEntries
  bytes : s.total ≤ limits.workspaceBytes

/-- The nodes of one file: each that is new is counted, and the count is checked at each.  One
check of the final count says the same, since it only grows. -/
theorem makes_addNodes {counted total : Nat} (us : List Path) (N : Finset Path) (s : Scan)
    (hnodes : ∀ path, Text.utf8 path ∈ s.nodes ↔ path ∈ N) (hentries : s.entries = counted + N.card)
    (htotal : s.total = total) (hcounts : s.entries ≤ limits.workspaceEntries) :
    Makes report
      [failIf (limits.workspaceEntries < counted + (N ∪ us.toFinset).card) .workspaceEntries]
      (fun s => ((∀ path, Text.utf8 path ∈ s.nodes ↔ path ∈ N ∪ us.toFinset) ∧
        s.entries = counted + (N ∪ us.toFinset).card ∧ s.total = total) ∧
        counted + (N ∪ us.toFinset).card ≤ limits.workspaceEntries)
      ((us.map Text.utf8).foldlM (addNode limits) s) := by
  rw [List.foldlM_map]
  -- The invariant of the loop: the nodes of the state are those of the set, and it has counted
  -- them.
  refine Makes.inserts (I := fun N s => (∀ path, Text.utf8 path ∈ s.nodes ↔ path ∈ N) ∧
    s.entries = counted + N.card ∧ s.total = total) ?_ us N s ⟨hnodes, hentries, htotal⟩
    (hentries ▸ hcounts)
  rintro N u s ⟨hnodes, hentries, htotal⟩ hle
  rw [addNode]
  by_cases hu : u ∈ N
  -- A node that is there already is not counted again, and makes no check.
  · rw [if_pos ((hnodes u).mpr hu), Finset.insert_eq_of_mem hu]
    exact makes_of_none (by simp [hle]) rfl ⟨hnodes, hentries, htotal⟩
  · have hcard : (insert u N).card = N.card + 1 := Finset.card_insert_of_notMem hu
    rw [if_neg fun h => hu ((hnodes u).mp h)]
    refine .check (by rw [hcard, hentries]; omega) (by decide +kernel) fun _ => .pure ⟨?_, ?_, htotal⟩
    · intro path
      rw [List.mem_cons, Finset.mem_insert, utf8_eq_iff, hnodes]
    · change s.entries + 1 = _
      omega

/-- One file: its path, its nodes, and the bytes it adds. -/
theorem makes_addFile {counted size : Nat} {before : List (Path × Data)} {entry : Path × Data}
    {s : Scan} (hentry : entry ∈ files.entries) (hs : Scanned limits counted size before s) :
    Makes report (fileChecks limits counted size before entry)
      (Scanned limits counted size (before ++ [entry]))
      (addFile limits (encodeFiles files) s (Text.utf8 entry.1)) := by
  have hnew : Sdk.nodes ((before ++ [entry]).map Prod.fst) =
      Sdk.nodes (before.map Prod.fst) ∪ (Text.cuts '/' entry.1).toFinset := by
    rw [List.map_append, nodes_append]
    simp [Sdk.nodes]
  rw [addFile, lookup_utf8 hentry, nodesOf_utf8, fileChecks, hnew, contentBytes_append]
  refine makes_checkPath.bind fun _ _ => ?_
  rw [← List.singleton_append]
  refine (makes_addNodes _ _ s hs.nodes hs.entries hs.total hs.counts).bind ?_
  rintro t ⟨⟨hnodes, hentries, htotal⟩, hcounts⟩
  have hbytes := hs.bytes
  have hsize := hs.total
  have hone : contentBytes [entry] = entry.2.encoded.length := by simp [contentBytes]
  refine .check ?_ (by decide +kernel) fun hfit => .pure ?_
  · rw [Option.getD_some, hone, htotal]
    omega
  · exact {
      nodes := by rw [hnew]; exact hnodes
      entries := by rw [hnew]; exact hentries
      total := by
        rw [contentBytes_append, hone]
        change t.total + entry.2.encoded.length = _
        omega
      counts := by
        change t.entries ≤ _
        omega
      bytes := by
        change t.total + entry.2.encoded.length ≤ _
        omega }

/-- No parent of a file is a file. -/
theorem makes_checkCollision :
    Makes report [collisionCheck files.sorted.paths path] (fun _ => True)
      (checkCollision (encodeFiles files) (Text.utf8 path)) := by
  refine .check ?_ (report_path rfl rfl) fun _ => .pure trivial
  rw [directoriesOf_utf8, List.any_map, List.any_eq_true]
  simp only [Function.comp_apply, lookup_isSome_utf8, Files.mem_sorted_paths]

/-- One mount, from what the mount before it left: its files in the order of their names, and then
the collisions among them. -/
theorem makes_scanMount {counted size : Nat} {s : Scan} (hentries : s.entries = counted)
    (htotal : s.total = size) (hcounts : s.entries ≤ limits.workspaceEntries)
    (hbytes : s.total ≤ limits.workspaceBytes) :
    Makes report (mountChecks limits counted size files.sorted)
      (Scanned limits counted size files.sorted.entries)
      (scanMount limits (encodeFiles files) s) := by
  -- The nodes of a mount are its own, the counts go on.
  have hstart : Scanned limits counted size [] { s with nodes := [] } :=
    { nodes := by simp [Sdk.nodes]
      entries := by simpa [Sdk.nodes] using hentries
      total := by simpa [contentBytes] using htotal
      counts := hcounts
      bytes := hbytes }
  have hkeys : sortedKeys (encodeFiles files) =
      files.sorted.entries.map fun e => Text.utf8 e.1 := by
    rw [sortedKeys_encodeFiles, Files.paths, List.map_map]
    rfl
  have hscan : Makes report (stepwise (fileChecks limits counted size) [] files.sorted.entries)
      (Scanned limits counted size files.sorted.entries)
      ((sortedKeys (encodeFiles files)).foldlM (addFile limits (encodeFiles files))
        { s with nodes := [] }) := by
    rw [hkeys, List.foldlM_map]
    exact .foldlM files.sorted.entries [] _ (fun before entry hentry t ht =>
      makes_addFile (files.sorted_perm.mem_iff.mp hentry) ht) hstart
  have hcollisions : Makes report (files.sorted.paths.map (collisionCheck files.sorted.paths))
      (fun _ => True) ((sortedKeys (encodeFiles files)).forM (checkCollision (encodeFiles files))) := by
    rw [sortedKeys_encodeFiles]
    exact .forM_one fun _ _ => makes_checkCollision
  rw [mountChecks, ← List.append_nil (List.map _ _)]
  exact hscan.bind fun t ht => hcollisions.bind fun _ _ => .pure ht

/-- An entry point is one of the source files. -/
theorem makes_checkEntrypoint : Makes report
    [failIf (path ∉ files.sorted.paths) (.entrypointNotInFiles path)] (fun _ => True)
    (checkEntrypoint (encodeFiles files) (Text.utf8 path)) := by
  refine .check ?_ (report_path rfl rfl) fun _ => .pure trivial
  rw [Option.isNone_iff_eq_none, ← Option.not_isSome_iff_eq_none, lookup_isSome_utf8,
    Files.mem_sorted_paths]

/-- An import path, if it is not empty, is a directory. -/
theorem makes_checkRoot {message : String} {directories : List Name} {f : Failure}
    (hdirectories : Text.utf8 path ∈ directories ↔ IsDirectory files path)
    (hmessage : f.message = message.toList ++ path) (hlimit : f.limit = none) :
    Makes report [failIf (path ≠ [] ∧ ¬IsDirectory files path) f] (fun _ => True)
      (checkRoot message directories (Text.utf8 path)) := by
  refine .check ?_ (report_path hmessage hlimit) fun _ => .pure trivial
  rw [hdirectories, ← utf8_empty, ne_eq, utf8_eq_iff]

/-- The empty string has no bytes. -/
theorem filter_nonempty_utf8 (paths : List Path) :
    (paths.map Text.utf8).filter (· ≠ []) = (paths.filter (· ≠ [])).map Text.utf8 := by
  rw [List.filter_map]
  congr 2
  funext path
  rw [Function.comp_apply, decide_eq_decide, ← utf8_empty, ne_eq, utf8_eq_iff]

/-- `validate` makes the documented checks, on maps enumerated bytewise. -/
theorem makes_validate (limits : Limits) (supplied : List Language) (r : SharedRequest) :
    Makes report (checks limits supplied r.sorted) (fun _ => True)
      (validate limits supplied (.encode r)) := by
  -- The source prefix is checked with the import paths, before them.
  have hroots : (Text.utf8 r.stripped :: r.roots.map Text.utf8).filter (· ≠ []) =
      ((r.stripped :: r.roots).filter (· ≠ [])).map Text.utf8 :=
    filter_nonempty_utf8 (r.stripped :: r.roots)
  have hannotations : r.sorted.annotations = r.annotations.sorted := r.sorted_annotations
  rw [checks, rootChecks, entrypointChecks, presenceChecks, hannotations, validate]
  simp only [List.append_assoc, List.cons_append, List.nil_append]
  refine (makes_validateGenerators r.generators).bind fun _ _ => ?_
  refine (makes_rejectIf (by simp [Request.encode, SharedRequest.roots, SharedRequest.sorted])
    (by decide +kernel)).then fun _ _ => ?_
  have hpaths : Makes report (((r.stripped :: r.roots).filter (· ≠ [])).flatMap (pathChecks limits))
      (fun _ => True) (((Request.encode r).sourcePrefix :: (Request.encode r).importPaths).filter
        (· ≠ []) |>.forM (checkPath limits)) := by
    change Makes _ _ _ (List.forM (List.filter _ (Text.utf8 r.stripped :: r.roots.map Text.utf8)) _)
    rw [hroots]
    exact makes_checkPaths _
  refine hpaths.bind fun _ _ => ?_
  refine (makes_rejectIf (duplicated_utf8 r.roots) (by decide +kernel)).then fun _ _ => ?_
  refine (makes_rejectIf (by simp [Request.encode, SharedRequest.sorted])
    (by decide +kernel)).then fun _ _ => ?_
  refine (makes_rejectIf (by simp [Request.encode, SharedRequest.sorted])
    (by decide +kernel)).then fun _ _ => ?_
  refine (makes_checkPaths r.entrypoints).bind fun _ _ => ?_
  refine (makes_rejectIf (duplicated_utf8 r.entrypoints) (by decide +kernel)).then fun _ _ => ?_
  -- The mounts are scanned one after the other: the second begins with the counts of the first.
  have hsources : Makes report (mountChecks limits 0 0 r.files.sorted)
      (Scanned limits 0 0 r.files.sorted.entries)
      (scanMount limits (encodeFiles r.files) ⟨[], 0, 0⟩) :=
    makes_scanMount rfl rfl (Nat.zero_le limits.workspaceEntries)
      (Nat.zero_le limits.workspaceBytes)
  refine Makes.bind hsources fun s hs => ?_
  have hcounted := hs.entries
  have hsize := hs.total
  rw [Nat.zero_add] at hcounted hsize
  have hincludes : Makes report (mountChecks limits (nodes r.files.sorted.paths).card
      (contentBytes r.files.sorted.entries) r.annotations.sorted) _
      (scanMount limits (encodeFiles r.annotations) s) :=
    makes_scanMount hcounted hsize hs.counts hs.bytes
  refine Makes.bind hincludes fun _ _ => ?_
  -- A directory is a node that is no file.
  have hdirectories : ∀ path, Text.utf8 path ∈ s.nodes.filter (fun node =>
      ((encodeFiles r.files).lookup node).isNone) ↔ IsDirectory r.files.sorted path := by
    intro path
    rw [List.mem_filter, hs.nodes, Option.isNone_iff_eq_none, ← Option.not_isSome_iff_eq_none,
      lookup_isSome_utf8, IsDirectory, Files.mem_sorted_paths]
    rfl
  refine (Makes.forM_one fun _ _ => makes_checkEntrypoint).bind fun _ _ => ?_
  refine (Makes.forM_one fun root _ => makes_checkRoot (hdirectories root) rfl rfl).bind fun _ _ => ?_
  exact makes_checkRoot (hdirectories r.stripped) rfl rfl

end

end GoSdk
