import CapnpcWasm.Sdk.Requests
import CapnpcWasm.TsSdk.Validate

/-!
# The checks of the TypeScript SDK

`validateCompile` makes the documented checks in their order, on a request as JavaScript
has it: strings are UTF-16 and maps are enumerated as the caller's records are.

The documented checks are those of `GoSdk.Checks`, and `makes_validateCompile` is the same
statement about the other SDK: what fails first is reported, and where nothing fails the
request becomes a job.  The two differ in what is below the checks.  Sizes are documented in
UTF-8 bytes, which TypeScript counts code point by code point and only as far as the limit
lets it: `lt_utf8Size_iff` says that it finds a string too long exactly if it is.  And a
mount is scanned in the order of the record, not in that of the names, so the checks are of
the maps as they are enumerated.
-/

namespace TsSdk

open Sdk Checks

/-! ## Requests as JavaScript has them -/

/-- A string or the bytes of a `Uint8Array`. -/
def encodeData : Data → FileContents
  | .text s => .text (Text.utf16 s)
  | .bytes b => .bytes b

/-- The entries of a record, in its order. -/
def encodeFiles (files : Sdk.Files) : Files :=
  files.entries.map fun e => (Text.utf16 e.1, encodeData e.2)

/-- The request that a caller of the TypeScript SDK makes.  Fields that are missing stay so. -/
def CompileRequest.encode (r : SharedRequest) : CompileRequest where
  files := encodeFiles r.files
  includeFiles := r.includeFiles.map encodeFiles
  importPaths := r.importPaths.map (·.map Text.utf16)
  sourcePrefix := r.sourcePrefix.map Text.utf16
  entrypoints := r.entrypoints.map Text.utf16
  generators := r.generators.map Text.utf16

/-- How TypeScript reports a failed check. -/
def report (f : Failure) : TypeError := ⟨Text.utf16 f.message⟩

/-! ## Sizes -/

section

/-- The four cases of the source are the lengths of UTF-8. -/
theorem pointSize_eq (c : Char) : pointSize c.toNat = (String.utf8EncodeChar c).length := by
  have hval : c.toNat = c.val.toNat := rfl
  rw [pointSize, String.utf8EncodeChar]
  by_cases h1 : c.toNat < 0x80
  · have h1' : c.val.toNat ≤ 0x7f := by omega
    rw [if_pos h1, if_pos h1']
    rfl
  · have h1' : ¬c.val.toNat ≤ 0x7f := by omega
    rw [if_neg h1, if_neg h1']
    by_cases h2 : c.toNat < 0x800
    · have h2' : c.val.toNat ≤ 0x7ff := by omega
      rw [if_pos h2, if_pos h2']
      rfl
    · have h2' : ¬c.val.toNat ≤ 0x7ff := by omega
      rw [if_neg h2, if_neg h2']
      by_cases h3 : c.toNat < 0x10000
      · have h3' : c.val.toNat ≤ 0xffff := by omega
        rw [if_pos h3, if_pos h3']
        rfl
      · have h3' : ¬c.val.toNat ≤ 0xffff := by omega
        rw [if_neg h3, if_neg h3']
        rfl

/-- The size of a string, code point by code point. -/
theorem utf8_length (s : List Char) :
    (Text.utf8 s).length = ((s.map Char.toNat).map pointSize).sum := by
  rw [Text.utf8, Text.encode, List.length_flatMap, List.map_map]
  simp only [Function.comp_def, pointSize_eq]

/-- The count is exact where it stays within the maximum. -/
theorem sizeUpTo_eq {maximum size : Nat} {points : List Nat}
    (h : size + (points.map pointSize).sum ≤ maximum) :
    sizeUpTo maximum size points = size + (points.map pointSize).sum := by
  -- The induction is on the code points, with the size so far.
  induction points generalizing size with
  | nil => rfl
  | cons code points ih =>
      rw [List.map_cons, List.sum_cons, ← Nat.add_assoc] at h ⊢
      rw [sizeUpTo, if_neg (by omega), ih h]

/-- It stops above the maximum where the size does. -/
theorem lt_sizeUpTo {maximum size : Nat} {points : List Nat}
    (h : maximum < size + (points.map pointSize).sum) (hsize : size ≤ maximum) :
    maximum < sizeUpTo maximum size points := by
  induction points generalizing size with
  | nil =>
      rw [List.map_nil, List.sum_nil] at h
      omega
  | cons code points ih =>
      rw [List.map_cons, List.sum_cons, ← Nat.add_assoc] at h
      rw [sizeUpTo]
      split
      · next hfull => exact hfull
      · next hfull => exact ih h (by omega)

/-- A string has at most as many UTF-16 code units as UTF-8 bytes. -/
theorem utf16_length_le (s : List Char) : (Text.utf16 s).length ≤ (Text.utf8 s).length := by
  have hchar : ∀ c, (Text.utf16Char c).length ≤ (String.utf8EncodeChar c).length := by
    intro c
    rw [← pointSize_eq, Text.utf16Char, pointSize]
    split
    · rw [List.length_singleton]
      split_ifs
      all_goals omega
    · rw [List.length_cons, List.length_singleton]
      split_ifs
      all_goals omega
  induction s with
  | nil => exact Nat.le_refl 0
  | cons c s ih =>
      have hc := hchar c
      rw [Text.utf16, Text.utf8] at ih ⊢
      rw [Text.encode_cons, Text.encode_cons, List.length_append, List.length_append]
      omega

/-- A string that fits is counted exactly: it has no more code units than bytes, so the early exit
on its length is not taken. -/
theorem utf8Size_eq {s : List Char} {maximum : Nat} (h : (Text.utf8 s).length ≤ maximum) :
    utf8Size (Text.utf16 s) maximum = (Text.utf8 s).length := by
  have hlen := utf16_length_le s
  rw [utf8Size, if_neg (by omega), Text.codePoints_utf16]
  rw [utf8_length] at h ⊢
  rw [sizeUpTo_eq (by omega), Nat.zero_add]

/-- A string that does not fit is found so, by its length or by the count. -/
theorem lt_utf8Size {s : List Char} {maximum : Nat} (h : maximum < (Text.utf8 s).length) :
    maximum < utf8Size (Text.utf16 s) maximum := by
  rw [utf8Size]
  split
  · exact Nat.lt_succ_self maximum
  · rw [Text.codePoints_utf16]
    rw [utf8_length] at h
    exact lt_sizeUpTo (by omega) (Nat.zero_le maximum)

/-- So the check of a size is the documented one. -/
theorem lt_utf8Size_iff {s : List Char} {maximum : Nat} :
    maximum < utf8Size (Text.utf16 s) maximum ↔ maximum < (Text.utf8 s).length := by
  refine ⟨fun h => ?_, lt_utf8Size⟩
  by_contra hle
  rw [utf8Size_eq (by omega)] at h
  exact hle h

end

/-! ## Strings -/

section

variable {limits : Limits} {supplied : List Language} {files : Sdk.Files} {path : Path}

/-- Strings are compared as their code units. -/
theorem utf16_eq_iff {s t : List Char} : Text.utf16 s = Text.utf16 t ↔ s = t :=
  Text.utf16_injective.eq_iff

/-- Membership in a list of strings. -/
theorem utf16_mem_map {s : List Char} {l : List (List Char)} :
    Text.utf16 s ∈ l.map Text.utf16 ↔ s ∈ l :=
  List.mem_map_of_injective Text.utf16_injective

/-- A slash is one code unit, and none of another character. -/
theorem single_slash : Text.Single Text.utf16Char '/' slash :=
  Text.single_utf16 (a := '/') (by decide)

/-- A message is a literal text and the path it is about. -/
theorem text_append (s : String) (path : Path) :
    text s ++ Text.utf16 path = Text.utf16 (s.toList ++ path) :=
  Text.encode_append.symm

/-- The three parts that no canonical path has. -/
theorem utf16_empty : Text.utf16 [] = [] := rfl
theorem utf16_dot : Text.utf16 ['.'] = text "." := rfl
theorem utf16_dotdot : Text.utf16 ['.', '.'] = text ".." := rfl

/-- The regular expression for a backslash or a null. -/
theorem forbidden_utf16 : ((Text.utf16 path).any fun u => u == 92 || u == 0) = true ↔
    Char.ofNat 92 ∈ path ∨ Char.ofNat 0 ∈ path := by
  have hback := (Text.single_utf16 (a := Char.ofNat 92) (by decide)).mem_iff (s := path)
  have hnul := (Text.single_utf16 (a := Char.ofNat 0) (by decide)).mem_iff (s := path)
  rw [List.any_eq_true, ← hback, ← hnul]
  simp only [Bool.or_eq_true, beq_iff_eq]
  constructor
  · rintro ⟨u, hu, rfl | rfl⟩
    · exact .inl hu
    · exact .inr hu
  · rintro (h | h)
    · exact ⟨_, h, .inl rfl⟩
    · exact ⟨_, h, .inr rfl⟩

/-- A string of characters has no lone surrogate. -/
theorem isWellFormed_utf16 : isWellFormed (Text.utf16 path) = true := by
  rw [isWellFormed, Text.codePoints_utf16, List.all_map, List.all_eq_true]
  intro c _
  have hc := Text.not_surrogate c
  simp only [Function.comp_apply, Bool.not_eq_true', Bool.and_eq_false_iff, decide_eq_false_iff_not]
  omega

/-- The condition of `checkPath` accepts the canonical paths. -/
theorem canonical_utf16 : (((Text.utf16 path).any fun u => u == 92 || u == 0) ||
      !isWellFormed (Text.utf16 path) ||
      (split (Text.utf16 path)).any fun part => part == [] || part == text "." || part == text "..")
        = true ↔ ¬CanonicalPath path := by
  have hsplit : split (Text.utf16 path) = (path.splitOn '/').map Text.utf16 :=
    single_slash.splitOn path
  have hpart : ∀ part : List Char, (Text.utf16 part == [] || Text.utf16 part == text "." ||
      Text.utf16 part == text "..") = true ↔ ¬PlainPart part := by
    intro part
    rw [← utf16_empty, ← utf16_dot, ← utf16_dotdot]
    simp only [Bool.or_eq_true, beq_iff_eq, utf16_eq_iff]
    rw [PlainPart, not_and_or, not_and_or, not_not, not_not, not_not, or_assoc]
  rw [hsplit, isWellFormed_utf16, Bool.not_true, Bool.or_false, Bool.or_eq_true, forbidden_utf16,
    List.any_map, List.any_eq_true]
  simp only [Function.comp_apply, hpart]
  rw [CanonicalPath, not_and_or, not_and_or, not_not, not_not]
  simp

/-- A path and its parents, joined from its parts again. -/
theorem nodesOf_utf16 : nodesOf (Text.utf16 path) = (Text.cuts '/' path).map Text.utf16 := by
  have hcuts := single_slash.cuts path
  rw [Text.cuts_eq_joins] at hcuts
  exact hcuts

/-- Its parents. -/
theorem directoriesOf_utf16 : directoriesOf (Text.utf16 path) = (implied path).map Text.utf16 := by
  have hcuts := single_slash.properCuts path
  rw [Text.properCuts_eq_joins] at hcuts
  exact hcuts

/-- A set of the strings is smaller exactly if one is repeated. -/
theorem repeats_utf16 (l : List (List Char)) : repeats (l.map Text.utf16) = true ↔ ¬l.Nodup := by
  rw [← List.nodup_map_iff Text.utf16_injective, ← List.dedup_eq_self, repeats, bne_iff_ne]
  exact not_congr ⟨(List.dedup_sublist _).eq_of_length, fun h => congrArg List.length h⟩

/-- A language's name, in characters and in code units. -/
theorem text_name (l : Language) (name : List Char) :
    text l.name = Text.utf16 name ↔ l.name.toList = name := utf16_eq_iff

/-! ## The checks -/

/-- The error of a check that names a path. -/
theorem report_path {s : String} {f : Failure} (hmessage : f.message = s.toList ++ path) :
    typeErrorAt s (Text.utf16 path) = report f := by
  rw [typeErrorAt, text_append, report, hmessage]

/-- A path is checked for its size and then for its form. -/
theorem makes_checkPath :
    Makes report (pathChecks limits path) (fun _ => True) (checkPath limits (Text.utf16 path)) := by
  refine .check lt_utf8Size_iff (by decide +kernel) fun _ => ?_
  exact .check canonical_utf16 (report_path rfl) fun _ => .pure trivial

/-- Paths are checked in order. -/
theorem makes_checkPaths (paths : List Path) : Makes report (paths.flatMap (pathChecks limits))
    (fun _ => True) ((paths.map Text.utf16).forM (checkPath limits)) :=
  .forM fun _ _ => makes_checkPath

/-- A check of one condition. -/
theorem makes_rejectIf {condition : Bool} {message : String} {p : Prop} [Decidable p]
    {f : Failure} (hp : condition = true ↔ p) (hf : f.message = message.toList) :
    Makes report [failIf p f] (fun _ => True) (rejectIf condition message) :=
  .check hp (by rw [report, hf]; rfl) fun _ => .pure trivial

/-- The list of generators: its length, its repetitions, and then each name.  What comes back is
the list. -/
theorem makes_validateGenerators (generators : List (List Char)) :
    Makes report (generatorChecks supplied generators)
      (· = generators.map Text.utf16) (validateGenerators supplied (generators.map Text.utf16)) := by
  rw [generatorChecks, List.cons_append, List.cons_append, List.nil_append]
  refine .check (by rw [List.length_map]) (by decide +kernel) fun _ => ?_
  refine .check (repeats_utf16 generators) (by decide +kernel) fun _ => ?_
  rw [← List.append_nil (List.map _ _)]
  refine (Makes.forM_one fun name _ => ?_).bind fun _ _ => .pure rfl
  refine .check ?_ (report_path rfl) fun _ => .pure trivial
  rw [Bool.not_eq_true', List.any_eq_false]
  simp only [beq_iff_eq, text_name]

/-- What a mount leaves once its files are scanned. -/
structure Scanned (limits : Limits) (counted size : Nat) (scanned : List (Path × Data)) (s : Scan) :
    Prop where
  mount : s.mount = scanned.map fun e => (Text.utf16 e.1, encodeData e.2)
  names : s.names = (scanned.map Prod.fst).map Text.utf16
  nodes : ∀ path, Text.utf16 path ∈ s.nodes ↔ path ∈ Sdk.nodes (scanned.map Prod.fst)
  entries : s.entries = counted + (Sdk.nodes (scanned.map Prod.fst)).card
  bytes : s.bytes = size + contentBytes scanned
  counts : s.entries ≤ limits.workspaceEntries
  sizes : s.bytes ≤ limits.workspaceBytes

/-- The nodes of one file: each that is new is counted, and the count is checked at each.  One
check of the final count says the same, since it only grows. -/
theorem makes_addNodes {counted : Nat} (us : List Path) (N : Finset Path) (s : Scan)
    (hnodes : ∀ path, Text.utf16 path ∈ s.nodes ↔ path ∈ N) (hentries : s.entries = counted + N.card)
    (hcounts : s.entries ≤ limits.workspaceEntries) :
    Makes report
      [failIf (limits.workspaceEntries < counted + (N ∪ us.toFinset).card) .workspaceEntries]
      (fun t => (t = { s with nodes := t.nodes, entries := t.entries } ∧
        (∀ path, Text.utf16 path ∈ t.nodes ↔ path ∈ N ∪ us.toFinset) ∧
        t.entries = counted + (N ∪ us.toFinset).card) ∧
        counted + (N ∪ us.toFinset).card ≤ limits.workspaceEntries)
      ((us.map Text.utf16).foldlM (addNode limits) s) := by
  rw [List.foldlM_map]
  -- The invariant of the loop: the nodes of the state are those of the set, it has counted them,
  -- and nothing else has changed.
  refine Makes.inserts (I := fun N t => t = { s with nodes := t.nodes, entries := t.entries } ∧
    (∀ path, Text.utf16 path ∈ t.nodes ↔ path ∈ N) ∧ t.entries = counted + N.card) ?_ us N s
    ⟨rfl, hnodes, hentries⟩ (hentries ▸ hcounts)
  rintro N u t ⟨hframe, hnodes, hentries⟩ hle
  rw [addNode]
  by_cases hu : u ∈ N
  · rw [if_pos ((hnodes u).mpr hu), Finset.insert_eq_of_mem hu]
    exact makes_of_none (by simp [hle]) rfl ⟨hframe, hnodes, hentries⟩
  · have hcard : (insert u N).card = N.card + 1 := Finset.card_insert_of_notMem hu
    rw [if_neg fun h => hu ((hnodes u).mp h)]
    refine .check (by rw [hcard, hentries]; omega) (by decide +kernel) fun _ => .pure ⟨?_, ?_, ?_⟩
    · rw [hframe]
    · intro path
      rw [List.mem_append, List.mem_singleton, Finset.mem_insert, utf16_eq_iff, hnodes, or_comm]
    · change t.entries + 1 = _
      omega

/-- A file is too large for what is left of the budget.  A text's size is counted up to that, and
that is enough to tell. -/
theorem contentsSize_iff {maximum size : Nat} {data : Data} (hsize : size ≤ maximum) :
    maximum < size + contentsSize (maximum - size) (encodeData data) ↔
      maximum < size + data.encoded.length := by
  cases data with
  | text s =>
      have h := @lt_utf8Size_iff s (maximum - size)
      rw [encodeData, contentsSize, Data.encoded]
      omega
  | bytes b => rfl

/-- What is added for a file that fits is its size. -/
theorem contentsSize_eq {maximum size : Nat} {data : Data}
    (h : size + data.encoded.length ≤ maximum) :
    contentsSize (maximum - size) (encodeData data) = data.encoded.length := by
  cases data with
  | text s =>
      rw [Data.encoded] at h
      exact utf8Size_eq (by omega)
  | bytes b => rfl

/-- One file: its path, its nodes, and the bytes it adds. -/
theorem makes_addFile {counted size : Nat} {before : List (Path × Data)} {entry : Path × Data}
    {s : Scan} (hs : Scanned limits counted size before s) :
    Makes report (fileChecks limits counted size before entry)
      (Scanned limits counted size (before ++ [entry]))
      (addFile limits s (Text.utf16 entry.1, encodeData entry.2)) := by
  have hnew : Sdk.nodes ((before ++ [entry]).map Prod.fst) =
      Sdk.nodes (before.map Prod.fst) ∪ (Text.cuts '/' entry.1).toFinset := by
    rw [List.map_append, nodes_append]
    simp [Sdk.nodes]
  rw [addFile, nodesOf_utf16, fileChecks, hnew, contentBytes_append]
  refine makes_checkPath.bind fun _ _ => ?_
  rw [← List.singleton_append]
  refine (makes_addNodes _ _ { s with names := s.names ++ [Text.utf16 entry.1] } hs.nodes
    hs.entries hs.counts).bind ?_
  rintro t ⟨⟨hframe, hnodes, hentries⟩, hcounts⟩
  have hsizes := hs.sizes
  have hsize := hs.bytes
  have hbytes : t.bytes = s.bytes := by rw [hframe]
  have hone : contentBytes [entry] = entry.2.encoded.length := by simp [contentBytes]
  refine .check ?_ (by decide +kernel) fun hfit => .pure ?_
  · change limits.workspaceBytes < t.bytes + _ ↔ _
    rw [hbytes, contentsSize_iff hsizes, hone, hsize, Nat.add_assoc]
  · have hadded : contentsSize (limits.workspaceBytes - t.bytes) (encodeData entry.2) =
        entry.2.encoded.length := contentsSize_eq (by omega)
    exact {
      mount := by
        change t.mount ++ _ = _
        rw [show t.mount = s.mount by rw [hframe], hs.mount, List.map_append]
        rfl
      names := by
        change t.names = _
        rw [show t.names = s.names ++ [Text.utf16 entry.1] by rw [hframe], hs.names,
          List.map_append, List.map_append]
        rfl
      nodes := by rw [hnew]; exact hnodes
      entries := by rw [hnew]; exact hentries
      bytes := by
        change t.bytes + _ = _
        rw [contentBytes_append, hone, hadded]
        omega
      counts := by
        change t.entries ≤ _
        omega
      sizes := by
        change t.bytes + contentsSize (limits.workspaceBytes - t.bytes) (encodeData entry.2) ≤ _
        omega }

/-- No parent of a file is a file. -/
theorem makes_checkCollision :
    Makes report [collisionCheck files.paths path] (fun _ => True)
      (checkCollision (files.paths.map Text.utf16) (Text.utf16 path)) := by
  refine .check ?_ (report_path rfl) fun _ => .pure trivial
  rw [directoriesOf_utf16, List.any_map, List.any_eq_true]
  simp only [Function.comp_apply, decide_eq_true_eq, utf16_mem_map]

/-- One mount, from what the mount before it left: its files in the record's order, and then the
collisions among them. -/
theorem makes_scanMount {counted size : Nat} {s : Scan} (hentries : s.entries = counted)
    (hbytes : s.bytes = size) (hcounts : s.entries ≤ limits.workspaceEntries)
    (hsizes : s.bytes ≤ limits.workspaceBytes) :
    Makes report (mountChecks limits counted size files)
      (Scanned limits counted size files.entries)
      (scanMount limits (encodeFiles files) s) := by
  have hstart : Scanned limits counted size [] { s with mount := [], names := [], nodes := [] } :=
    { mount := rfl
      names := rfl
      nodes := by simp [Sdk.nodes]
      entries := by simpa [Sdk.nodes] using hentries
      bytes := by simpa [contentBytes] using hbytes
      counts := hcounts
      sizes := hsizes }
  have hscan : Makes report (stepwise (fileChecks limits counted size) [] files.entries)
      (Scanned limits counted size files.entries)
      ((encodeFiles files).foldlM (addFile limits)
        { s with mount := [], names := [], nodes := [] }) := by
    rw [encodeFiles, List.foldlM_map]
    exact .foldlM files.entries [] _ (fun _ _ _ _ ht => makes_addFile ht) hstart
  rw [mountChecks, ← List.append_nil (List.map _ _)]
  refine hscan.bind fun t ht => ?_
  rw [ht.names]
  exact (Makes.forM_one fun _ _ => makes_checkCollision).bind fun _ _ => .pure ht

/-- An entry point is one of the source files. -/
theorem makes_checkEntrypoint : Makes report
    [failIf (path ∉ files.paths) (.entrypointNotInFiles path)] (fun _ => True)
    (checkEntrypoint (files.paths.map Text.utf16) (Text.utf16 path)) :=
  .check utf16_mem_map.not (report_path rfl) fun _ => .pure trivial

/-- An import path, if it is not empty, is a directory. -/
theorem makes_checkRoot {message : String} {directories : List JsString} {f : Failure}
    (hdirectories : Text.utf16 path ∈ directories ↔ IsDirectory files path)
    (hmessage : f.message = message.toList ++ path) :
    Makes report [failIf (path ≠ [] ∧ ¬IsDirectory files path) f] (fun _ => True)
      (checkRoot message directories (Text.utf16 path)) := by
  refine .check ?_ (report_path hmessage) fun _ => .pure trivial
  rw [hdirectories, ← utf16_empty, ne_eq, utf16_eq_iff]

/-- The empty string has no code units. -/
theorem filter_nonempty_utf16 (paths : List Path) :
    (paths.map Text.utf16).filter (· ≠ []) = (paths.filter (· ≠ [])).map Text.utf16 := by
  rw [List.filter_map]
  congr 2
  funext path
  rw [Function.comp_apply, decide_eq_decide, ← utf16_empty, ne_eq, utf16_eq_iff]

/-- The job a request becomes once every check passes. -/
def CompileJob.encode (r : SharedRequest) : CompileJob where
  sources := encodeFiles r.files
  annotations := encodeFiles r.annotations
  entrypoints := r.entrypoints.map Text.utf16
  importPaths := r.roots.map Text.utf16
  sourcePrefix := Text.utf16 r.stripped
  generators := r.generators.map Text.utf16

/-- `validateCompile` makes the documented checks, on maps in their own order. -/
theorem makes_validateCompile (limits : Limits) (supplied : List Language) (r : SharedRequest) :
    Makes report (checks limits supplied r) (· = .encode r)
      (validateCompile limits supplied (.encode r)) := by
  -- A field that is missing is read as the empty one.
  have himports : (CompileRequest.encode r).importPaths.getD [] = r.roots.map Text.utf16 := by
    rw [CompileRequest.encode, SharedRequest.roots]
    cases r.importPaths with
    | none => rfl
    | some roots => rfl
  have hpre : (CompileRequest.encode r).sourcePrefix.getD [] = Text.utf16 r.stripped := by
    rw [CompileRequest.encode, SharedRequest.stripped]
    cases r.sourcePrefix with
    | none => rfl
    | some root => rfl
  have hincludes : (CompileRequest.encode r).includeFiles.getD [] = encodeFiles r.annotations := by
    rw [CompileRequest.encode, SharedRequest.annotations]
    cases r.includeFiles with
    | none => rfl
    | some files => rfl
  have hpaths : Makes report (((r.stripped :: r.roots).filter (· ≠ [])).flatMap (pathChecks limits))
      (fun _ => True) (((Text.utf16 r.stripped :: r.roots.map Text.utf16).filter
        (· ≠ [])).forM (checkPath limits)) := by
    have hroots := filter_nonempty_utf16 (r.stripped :: r.roots)
    rw [List.map_cons] at hroots
    rw [hroots]
    exact makes_checkPaths _
  rw [checks, rootChecks, entrypointChecks, presenceChecks, validateCompile]
  simp only [List.append_assoc, List.cons_append, List.nil_append, himports, hpre, hincludes]
  refine (makes_validateGenerators r.generators).bind ?_
  rintro generators rfl
  refine (makes_rejectIf (by simp) (by decide +kernel)).then fun _ _ => ?_
  refine hpaths.bind fun _ _ => ?_
  refine (makes_rejectIf (repeats_utf16 r.roots) (by decide +kernel)).then fun _ _ => ?_
  refine (makes_rejectIf (by simp [CompileRequest.encode]) (by decide +kernel)).then fun _ _ => ?_
  refine (makes_rejectIf (by simp [CompileRequest.encode]) (by decide +kernel)).then fun _ _ => ?_
  refine (makes_checkPaths r.entrypoints).bind fun _ _ => ?_
  refine (makes_rejectIf (repeats_utf16 r.entrypoints) (by decide +kernel)).then fun _ _ => ?_
  -- The mounts are scanned one after the other: the second begins with the counts of the first.
  have hsources : Makes report (mountChecks limits 0 0 r.files)
      (Scanned limits 0 0 r.files.entries)
      (scanMount limits (encodeFiles r.files) ⟨[], [], [], 0, 0⟩) :=
    makes_scanMount rfl rfl (Nat.zero_le limits.workspaceEntries)
      (Nat.zero_le limits.workspaceBytes)
  refine Makes.bind hsources fun s hs => ?_
  have hcounted := hs.entries
  have hsize := hs.bytes
  rw [Nat.zero_add] at hcounted hsize
  have hannotations : Makes report (mountChecks limits (nodes r.files.paths).card
      (contentBytes r.files.entries) r.annotations) _
      (scanMount limits (encodeFiles r.annotations) s) :=
    makes_scanMount hcounted hsize hs.counts hs.sizes
  refine Makes.bind hannotations fun t ht => ?_
  -- A directory is a node that is no file.
  have hdirectories : ∀ path, Text.utf16 path ∈ s.nodes.filter (fun node => node ∉ s.names) ↔
      IsDirectory r.files path := by
    intro path
    rw [List.mem_filter, hs.nodes, hs.names, decide_eq_true_eq, utf16_mem_map]
    rfl
  rw [hs.names]
  refine (Makes.forM_one fun _ _ => makes_checkEntrypoint).bind fun _ _ => ?_
  rw [← hs.names]
  refine (Makes.forM_one fun root _ => makes_checkRoot (hdirectories root) rfl).bind fun _ _ => ?_
  refine (makes_checkRoot (hdirectories r.stripped) rfl).then fun _ _ => .pure ?_
  rw [hs.mount, ht.mount]
  rfl

end

end TsSdk
