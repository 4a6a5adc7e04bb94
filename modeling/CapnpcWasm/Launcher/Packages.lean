import CapnpcWasm.Launcher.Manifests
import CapnpcWasm.Lib.Checks

/-!
# Verification of a package

`verifyPackage` accepts exactly the tree that a manifest describes.

`Manifest` says what a manifest lists, `Described` that a tree holds it, and
`verifyPackage_iff` that these two and the identity of the metadata are what is accepted.
Each loop of the source has a lemma that says what it accepts: `readEntries_ok` for the form
of the manifest, `inventory_ok` for the walk, `checkTree_ok` for files and digests.  Parsing
and hashing are the host's.
-/

namespace Launcher

section

variable (host : VerifyHost)

/-- One entry of a package, after the names of the files before it. -/
def inventoryEntry (actual : List Str) (entry : WalkEntry) : Except VerifyError (List Str) :=
  let name := join slash entry.parts
  if entry.info.isSymlink then
    .error (.message (text "package symlink is forbidden: " ++ name))
  else if entry.info.isFile then .ok (actual ++ [name])
  else if !entry.info.isDirectory then
    .error (.message (text "unsupported package entry: " ++ name))
  else .ok actual

/-- The message of an inventory that differs. -/
def mismatch (unexpected missing : List Str) : Str :=
  text "package files do not match the manifest inventory (" ++
    [44, 32].intercalate ((unexpected.take 4).map (text "unexpected " ++ ·) ++
      (missing.take 4).map (text "missing " ++ ·)) ++ text ")"

/-- One file against its entry, size before digest. -/
def checkFile (t : HostTree) (f : ListedFile) : Except VerifyError Unit := do
  let data ← readFile host t (f.path.splitOn slash)
  if data.length ≠ f.bytes ∨ host.sha256 data ≠ f.sha256 then
    .error (.message (text "package integrity mismatch: " ++ f.path))
  else .ok ()

/-- What `package.json` holds. -/
def readMetadata (t : HostTree) : Except VerifyError Json := do
  let data ← readFile host t [text "package.json"]
  hostError (host.parseText data)

/-- Name and version are those of the manifest. -/
def sameIdentity (metadata manifest : Json) : Bool :=
  Json.same (metadata.get? (text "name")) (manifest.get? (text "name")) &&
    Json.same (metadata.get? (text "version")) (manifest.get? (text "version"))

/-- The tree of a package against its manifest. -/
def checkTree (t : HostTree) (manifest : Json) (expected : List Str) (files : List ListedFile) :
    Except VerifyError Unit := do
  let entries ← (walk t).elim (.error (.host host.failure)) .ok
  let actual ← entries.foldlM inventoryEntry []
  let unexpected := actual.filter fun path => !expected.contains path
  let missing := sortNames (expected.filter fun path => !actual.contains path)
  if unexpected ≠ [] ∨ missing ≠ [] then .error (.message (mismatch unexpected missing))
  else
    files.forM (checkFile host t)
    let metadata ← (readMetadata host t).mapError fun _ =>
      .message (text "package.json is missing or invalid")
    if sameIdentity metadata manifest then .ok ()
    else .error (.message (text "package identity does not match the manifest"))

/-- The manifest of a package, and its digest. -/
def checkPackage (t : HostTree) (expect : Option Str) : Except VerifyError (Json × Str) := do
  let raw ← readFile host t [manifestFile]
  let digest := host.sha256 raw
  if expect.any (· != digest) then
    .error (.message (text "manifest.json digest " ++ digest ++
      text " does not match the expected " ++ expect.getD []))
  else
    let manifest ← hostError (host.parse raw)
    let (expected, files) ← readManifest manifest
    checkTree host t manifest expected files
    return (manifest, digest)

/-- A rejected package is a failure of the launcher, with its exit code. -/
def verifyFailure : VerifyError → Failure
  | .message message => ⟨74, text "package verification failed: " ++ message⟩
  | .host message => ⟨74, text "package verification failed: " ++ message⟩

/-- The whole check, against an expected digest where one is given. -/
def verifyPackage (t : HostTree) (expect : Option Str) : Except Failure (Json × Str) :=
  (checkPackage host t expect).mapError verifyFailure

end

/-! ## What is accepted -/

/-- A regular file with its bytes. -/
def IsFileAt (t : HostTree) (p : Place) (data : List UInt8) : Prop :=
  ∃ writable, t.lstat p = some ⟨.file data, writable⟩

/-- An entry of a manifest lists a file. -/
structure Lists (entry : Json) (f : ListedFile) : Prop where
  path : entry.get? (text "path") = some (.string f.path)
  bytes : Json.safeNatural (entry.get? (text "bytes")) = some f.bytes
  sha256 : entry.get? (text "sha256") = some (.string f.sha256)
  isPath : isPackagePath f.path = true
  isDigest : isDigest f.sha256 = true

/-- A manifest of format 1 that lists files. -/
structure Manifest (manifest : Json) (files : List ListedFile) : Prop where
  format : manifest.get? (text "format") = some (.number 1)
  items : ∃ items, manifest.get? (text "files") = some (.array items) ∧ List.Forall₂ Lists items files
  distinct : (manifestFile :: files.map (·.path)).Nodup

/-- A tree that holds what a manifest lists, and nothing else. -/
structure Described (host : VerifyHost) (t : HostTree) (manifest : Json) (files : List ListedFile) :
    Prop where
  plain : ∀ p e, t.lstat p = some e → e.isDirectory = true ∨ e.isFile = true
  inventory : ∀ path, path ∈ manifestFile :: files.map (·.path) ↔
    ∃ p data, IsFileAt t p data ∧ join slash p = path
  contents : ∀ f ∈ files, ∃ data, IsFileAt t (f.path.splitOn slash) data ∧
    data.length = f.bytes ∧ host.sha256 data = f.sha256
  identity : ∃ data metadata, IsFileAt t [text "package.json"] data ∧
    host.parseText data = .ok metadata ∧ sameIdentity metadata manifest = true

variable {host : VerifyHost} {t : HostTree}

/-- Regular files have contents. -/
theorem isFile_iff {e : Entry} : e.isFile = true ↔ ∃ data, e.kind = .file data := by
  rw [Entry.isFile]
  split
  · next data hkind => exact iff_of_true rfl ⟨data, hkind⟩
  · next hnot => exact iff_of_false Bool.false_ne_true fun ⟨data, hdata⟩ => hnot data hdata

/-- So an entry that is one has contents at its place. -/
theorem isFileAt_of {p : Place} {e : Entry} (he : t.lstat p = some e) (hfile : e.isFile = true) :
    ∃ data, IsFileAt t p data := by
  obtain ⟨data, hkind⟩ := isFile_iff.mp hfile
  obtain ⟨kind, writable⟩ := e
  obtain rfl : kind = .file data := hkind
  exact ⟨data, writable, he⟩

/-- A plain entry is no link. -/
theorem not_symlink_of_plain {e : Entry} (h : e.isDirectory = true ∨ e.isFile = true) :
    e.isSymlink = false := by
  obtain ⟨kind, writable⟩ := e
  cases kind with
  | symlink => simp [Entry.isDirectory, Entry.isFile] at h
  | directory => rfl
  | file data => rfl
  | special => rfl

/-- Without links and special entries, only regular files are read. -/
theorem readFile_ok (hplain : ∀ p e, t.lstat p = some e → e.isDirectory = true ∨ e.isFile = true)
    {p : Place} {data : List UInt8} : readFile host t p = .ok data ↔ IsFileAt t p data := by
  rw [readFile, IsFileAt]
  cases he : t.lstat p with
  | none =>
      have hlinks : (p.inits.any fun q => (t.lstat q).any Entry.isSymlink) = false := by
        rw [List.any_eq_false]
        intro q _
        cases hq : t.lstat q with
        | none => exact Bool.false_ne_true
        | some e =>
            rw [Option.any_some, not_symlink_of_plain (hplain q e hq)]
            exact Bool.false_ne_true
      rw [hlinks]
      exact iff_of_false nofun nofun
  | some e =>
      have hkind := hplain p e he
      obtain ⟨kind, writable⟩ := e
      cases kind with
      | file found =>
          constructor
          · intro hread
            exact ⟨writable, by rw [Except.ok.inj hread]⟩
          · rintro ⟨writable', heq⟩
            rw [(Kind.file.inj (Entry.mk.inj (Option.some.inj heq)).1)]
      | directory =>
          refine iff_of_false nofun ?_
          rintro ⟨writable', heq⟩
          cases (Entry.mk.inj (Option.some.inj heq)).1
      | symlink => simp [Entry.isDirectory, Entry.isFile] at hkind
      | special => simp [Entry.isDirectory, Entry.isFile] at hkind

/-- Renaming an error accepts the same. -/
theorem mapError_ok {E E' A : Type} {result : Except E A} {f : E → E'} {a : A} :
    result.mapError f = .ok a ↔ result = .ok a := by
  cases result with
  | error e => exact iff_of_false nofun nofun
  | ok b => exact ⟨fun h => congrArg _ (Except.ok.inj h), fun h => congrArg _ (Except.ok.inj h)⟩

/-! ## The manifest's form -/

/-- One entry of the manifest, whose path is new. -/
theorem readEntry_ok {expected expected' : List Str} {files files' : List ListedFile} {entry : Json} :
    readEntry (expected, files) entry = .ok (expected', files') ↔
      ∃ f, Lists entry f ∧ f.path ∉ expected ∧ expected' = expected ++ [f.path] ∧
        files' = files ++ [f] := by
  rw [readEntry]
  constructor
  · intro h
    split at h
    · next path hpath =>
      split at h
      · cases h
      · next hvalid =>
        split at h
        · next bytes digest hbytes hdigest =>
          split at h
          · next hshape =>
            obtain ⟨rfl, rfl⟩ := Prod.mk.inj (Except.ok.inj h)
            simp only [Bool.or_eq_true, Bool.not_eq_true', not_or, Bool.not_eq_false,
              List.contains_iff_mem] at hvalid
            exact ⟨⟨path, bytes, digest⟩, ⟨hpath, hbytes, hdigest, hvalid.1, hshape⟩, hvalid.2, rfl,
              rfl⟩
          · cases h
        · cases h
    · cases h
  · rintro ⟨f, hlists, hnew, rfl, rfl⟩
    rw [hlists.path]
    dsimp only
    rw [hlists.isPath, List.contains_eq_mem, decide_eq_false hnew, hlists.bytes, hlists.sha256]
    dsimp only
    rw [hlists.isDigest]
    rfl

/-- All entries of the manifest, by induction, with the paths so far. -/
theorem readEntries_ok {items : List Json} {expected expected' : List Str}
    {files files' : List ListedFile} (hexpected : expected.Nodup) :
    items.foldlM readEntry (expected, files) = .ok (expected', files') ↔
      ∃ added, List.Forall₂ Lists items added ∧ expected' = expected ++ added.map (·.path) ∧
        files' = files ++ added ∧ expected'.Nodup := by
  induction items generalizing expected files with
  | nil =>
      constructor
      · intro h
        obtain ⟨rfl, rfl⟩ := Prod.mk.inj (Except.ok.inj h)
        exact ⟨[], .nil, (List.append_nil _).symm, (List.append_nil _).symm, hexpected⟩
      · rintro ⟨added, hadded, rfl, rfl, -⟩
        cases hadded
        rw [List.map_nil, List.append_nil, List.append_nil]
        rfl
  | cons entry items ih =>
      rw [List.foldlM_cons]
      constructor
      · intro h
        obtain ⟨⟨expected₁, files₁⟩, hentry, hrest⟩ := Checks.bind_ok h
        obtain ⟨f, hlists, hnew, rfl, rfl⟩ := readEntry_ok.mp hentry
        have hnodup : (expected ++ [f.path]).Nodup :=
          List.nodup_append.mpr ⟨hexpected, List.nodup_singleton _, fun a ha b hb heq => hnew (by
            rw [← List.mem_singleton.mp hb, ← heq]
            exact ha)⟩
        obtain ⟨added, hadded, rfl, rfl, hdistinct⟩ := (ih hnodup).mp hrest
        exact ⟨f :: added, .cons hlists hadded, by simp, by simp, hdistinct⟩
      · rintro ⟨added, hadded, rfl, rfl, hdistinct⟩
        cases hadded with
        | @cons _ f _ added hlists hadded =>
          have hassoc : expected ++ (f :: added).map (·.path) =
              expected ++ [f.path] ++ added.map (·.path) := by simp
          have hnodup := (List.nodup_append.mp (hassoc ▸ hdistinct)).1
          have hnew : f.path ∉ expected := fun hmem =>
            (List.nodup_append.mp hnodup).2.2 _ hmem _ (List.mem_singleton_self _) rfl
          have hentry : readEntry (expected, files) entry =
              .ok (expected ++ [f.path], files ++ [f]) :=
            readEntry_ok.mpr ⟨f, hlists, hnew, rfl, rfl⟩
          rw [hentry]
          exact (ih hnodup).mpr ⟨added, hadded, hassoc, by simp, hdistinct⟩

/-- The format is the number 1. -/
theorem same_format {value : Option Json} :
    Json.same value (some (.number 1)) = true ↔ value = some (.number 1) := by
  constructor
  · intro h
    cases value with
    | none => cases h
    | some value =>
        cases value with
        | number n => rw [beq_iff_eq.mp (h : (n == 1) = true)]
        | null => cases h
        | bool b => cases h
        | infinity negative => cases h
        | string s => cases h
        | array items => cases h
        | object fields => cases h
  · rintro rfl
    rfl

/-- The manifest as a whole. -/
theorem readManifest_ok {manifest : Json} {expected : List Str} {files : List ListedFile} :
    readManifest manifest = .ok (expected, files) ↔
      Manifest manifest files ∧ expected = manifestFile :: files.map (·.path) := by
  rw [readManifest]
  constructor
  · intro h
    split at h
    · next items hformat hitems =>
      obtain ⟨added, hadded, rfl, rfl, hdistinct⟩ :=
        (readEntries_ok (List.nodup_singleton manifestFile)).mp h
      exact ⟨⟨same_format.mp hformat, ⟨items, hitems, hadded⟩, hdistinct⟩, rfl⟩
    · cases h
  · rintro ⟨⟨hformat, ⟨items, hitems, hall⟩, hdistinct⟩, rfl⟩
    rw [same_format.mpr hformat, hitems]
    exact (readEntries_ok (List.nodup_singleton manifestFile)).mpr
      ⟨files, hall, rfl, rfl, hdistinct⟩

/-! ## The tree -/

/-- The walk rejects what is neither directory nor file, and lists the files. -/
theorem inventory_ok {entries : List WalkEntry} {before actual : List Str} :
    entries.foldlM inventoryEntry before = .ok actual ↔
      (∀ entry ∈ entries, entry.info.isDirectory = true ∨ entry.info.isFile = true) ∧
        actual = before ++ (entries.filter (·.info.isFile)).map fun entry => join slash entry.parts := by
  induction entries generalizing before with
  | nil =>
      rw [List.filter_nil, List.map_nil, List.append_nil]
      constructor
      · intro h
        exact ⟨fun _ hmem => absurd hmem List.not_mem_nil, (Except.ok.inj h).symm⟩
      · rintro ⟨-, rfl⟩
        rfl
  | cons entry entries ih =>
      obtain ⟨parts, kind, writable⟩ := entry
      rw [List.foldlM_cons, List.forall_mem_cons, List.filter_cons]
      cases kind with
      | file data =>
          show entries.foldlM inventoryEntry (before ++ [join slash parts]) = .ok actual ↔ _
          rw [ih]
          refine and_congr (and_iff_right (.inr rfl)).symm ?_
          show _ ↔ actual = before ++ (join slash parts :: _)
          rw [List.append_assoc, List.singleton_append]
      | directory =>
          show entries.foldlM inventoryEntry before = .ok actual ↔ _
          rw [ih]
          exact and_congr (and_iff_right (.inl rfl)).symm Iff.rfl
      | symlink =>
          refine iff_of_false nofun fun hboth => ?_
          have hkind := hboth.1.1
          simp [Entry.isDirectory, Entry.isFile] at hkind
      | special =>
          refine iff_of_false nofun fun hboth => ?_
          have hkind := hboth.1.1
          simp [Entry.isDirectory, Entry.isFile] at hkind

/-- What it lists are the files of the tree. -/
theorem mem_actual {entries : List WalkEntry} (hlisted : Listed t entries) {path : Str} :
    path ∈ (entries.filter (·.info.isFile)).map (fun entry => join slash entry.parts) ↔
      ∃ p data, IsFileAt t p data ∧ join slash p = path := by
  rw [List.mem_map]
  constructor
  · rintro ⟨⟨p, e⟩, hmem, rfl⟩
    obtain ⟨hentry, hfile⟩ := List.mem_filter.mp hmem
    obtain ⟨data, hdata⟩ := isFileAt_of (hlisted.info _ hentry) hfile
    exact ⟨p, data, hdata, rfl⟩
  · rintro ⟨p, data, ⟨writable, he⟩, rfl⟩
    have hne : p ≠ [] := by
      rintro rfl
      obtain ⟨root, hroot, hdirectory⟩ := t.root
      rw [t.lstat_eq.mpr hroot] at he
      rw [Option.some.inj he] at hdirectory
      cases hdirectory
    exact ⟨⟨p, _⟩, List.mem_filter.mpr ⟨hlisted.mem_iff.mpr ⟨he, hne⟩, rfl⟩, rfl⟩

/-- The entries of a walk are all directories and files when the tree holds nothing else. -/
theorem plain_iff {entries : List WalkEntry} (hlisted : Listed t entries) :
    (∀ entry ∈ entries, entry.info.isDirectory = true ∨ entry.info.isFile = true) ↔
      ∀ p e, t.lstat p = some e → e.isDirectory = true ∨ e.isFile = true := by
  constructor
  · intro h p e he
    by_cases hp : p = []
    · obtain ⟨root, hroot, hdirectory⟩ := t.root
      rw [hp, t.lstat_eq.mpr hroot] at he
      rw [← Option.some.inj he]
      exact .inl hdirectory
    · exact h ⟨p, e⟩ (hlisted.mem_iff.mpr ⟨he, hp⟩)
  · exact fun h entry hentry => h _ _ (hlisted.info entry hentry)

/-- A file that passes is the one that is listed. -/
theorem checkFile_ok (hplain : ∀ p e, t.lstat p = some e → e.isDirectory = true ∨ e.isFile = true)
    {f : ListedFile} : checkFile host t f = .ok () ↔
      ∃ data, IsFileAt t (f.path.splitOn slash) data ∧ data.length = f.bytes ∧
        host.sha256 data = f.sha256 := by
  rw [checkFile]
  constructor
  · intro h
    obtain ⟨data, hread, hcheck⟩ := Checks.bind_ok h
    split at hcheck
    · cases hcheck
    · next hsame =>
      obtain ⟨hlength, hdigest⟩ := not_or.mp hsame
      exact ⟨data, (readFile_ok hplain).mp hread, not_not.mp hlength, not_not.mp hdigest⟩
  · rintro ⟨data, hdata, hlength, hdigest⟩
    rw [(readFile_ok hplain).mpr hdata]
    exact if_neg (not_or.mpr ⟨not_not.mpr hlength, not_not.mpr hdigest⟩)

/-- The metadata are read from `package.json`. -/
theorem readMetadata_ok
    (hplain : ∀ p e, t.lstat p = some e → e.isDirectory = true ∨ e.isFile = true) {metadata : Json} :
    readMetadata host t = .ok metadata ↔
      ∃ data, IsFileAt t [text "package.json"] data ∧ host.parseText data = .ok metadata := by
  rw [readMetadata]
  constructor
  · intro h
    obtain ⟨data, hread, hparse⟩ := Checks.bind_ok h
    refine ⟨data, (readFile_ok hplain).mp hread, ?_⟩
    exact mapError_ok.mp hparse
  · rintro ⟨data, hdata, hparse⟩
    rw [(readFile_ok hplain).mpr hdata]
    exact mapError_ok.mpr hparse

/-- Nothing is unexpected and nothing is missing. -/
theorem inventory_none {expected actual : List Str} :
    ¬(actual.filter (fun path => !expected.contains path) ≠ [] ∨
      sortNames (expected.filter fun path => !actual.contains path) ≠ []) ↔
    ∀ path, path ∈ expected ↔ path ∈ actual := by
  have hsort : ∀ names, sortNames names = [] ↔ names = [] := fun names => by
    rw [← List.length_eq_zero_iff, sortNames, List.length_mergeSort, List.length_eq_zero_iff]
  rw [not_or, not_not, not_not, hsort, List.filter_eq_nil_iff, List.filter_eq_nil_iff]
  simp only [Bool.not_eq_true', Bool.not_eq_false, List.contains_iff_mem]
  exact ⟨fun ⟨hunexpected, hmissing⟩ path => ⟨hmissing path, hunexpected path⟩,
    fun h => ⟨fun path => (h path).mpr, fun path => (h path).mp⟩⟩

/-- Inventory and files together. -/
theorem checkTree_ok {manifest : Json} {files : List ListedFile} :
    checkTree host t manifest (manifestFile :: files.map (·.path)) files = .ok () ↔
      Described host t manifest files := by
  obtain ⟨entries, hwalk, hlisted⟩ := walk_listed t
  rw [checkTree, hwalk]
  constructor
  · intro h
    obtain ⟨found, hfound, h⟩ := Checks.bind_ok h
    obtain rfl : entries = found := Except.ok.inj hfound
    obtain ⟨actual, hactual, h⟩ := Checks.bind_ok h
    obtain ⟨hentries, rfl⟩ := inventory_ok.mp hactual
    have hplain := (plain_iff hlisted).mp hentries
    dsimp only at h
    split at h
    · cases h
    · next hnone =>
      obtain ⟨⟨⟩, hfiles, h⟩ := Checks.bind_ok h
      obtain ⟨metadata, hmetadata, h⟩ := Checks.bind_ok h
      obtain ⟨data, hdata, hparse⟩ := (readMetadata_ok hplain).mp (mapError_ok.mp hmetadata)
      split at h
      · next hidentity =>
        refine ⟨hplain, fun path => ?_, fun f hf => ?_, data, metadata, hdata, hparse, hidentity⟩
        · rw [inventory_none.mp hnone path, List.nil_append]
          exact mem_actual hlisted
        · exact (checkFile_ok hplain).mp (Checks.forM_ok hfiles f hf)
      · cases h
  · intro h
    obtain ⟨data, metadata, hdata, hparse, hidentity⟩ := h.identity
    have hactual := inventory_ok.mpr ⟨(plain_iff hlisted).mpr h.plain,
      (List.nil_append ((entries.filter (·.info.isFile)).map fun entry =>
        join slash entry.parts)).symm⟩
    have hnone := inventory_none.mpr fun path => (h.inventory path).trans (mem_actual hlisted).symm
    have hfiles : files.forM (checkFile host t) = .ok () :=
      Checks.forM_of_ok fun f hf => (checkFile_ok h.plain).mpr (h.contents f hf)
    have hmetadata : (readMetadata host t).mapError (fun _ => VerifyError.message
        (text "package.json is missing or invalid")) = .ok metadata :=
      mapError_ok.mpr ((readMetadata_ok h.plain).mpr ⟨data, hdata, hparse⟩)
    show (entries.foldlM inventoryEntry [] >>= _) = _
    rw [hactual]
    show (if _ then _ else _) = _
    rw [if_neg hnone, hfiles]
    show ((readMetadata host t).mapError _ >>= _) = _
    rw [hmetadata]
    exact if_pos hidentity

/-- The launcher verifies exactly the packages that their manifests describe. -/
theorem verifyPackage_iff (host : VerifyHost) (t : HostTree) (expect : Option Str) (manifest : Json)
    (digest : Str) : verifyPackage host t expect = .ok (manifest, digest) ↔
      ∃ raw files, IsFileAt t [manifestFile] raw ∧ digest = host.sha256 raw ∧
        (∀ d, expect = some d → d = digest) ∧ host.parse raw = .ok manifest ∧
        Manifest manifest files ∧ Described host t manifest files := by
  rw [verifyPackage, mapError_ok, checkPackage]
  constructor
  · intro h
    obtain ⟨raw, hraw, h⟩ := Checks.bind_ok h
    dsimp only at h
    split at h
    · cases h
    · next hexpect =>
      obtain ⟨value, hvalue, h⟩ := Checks.bind_ok h
      obtain ⟨⟨expected, files⟩, hmanifest, h⟩ := Checks.bind_ok h
      obtain ⟨⟨⟩, htree, h⟩ := Checks.bind_ok h
      obtain ⟨rfl, rfl⟩ := Prod.mk.inj (Except.ok.inj h)
      obtain ⟨hform, rfl⟩ := readManifest_ok.mp hmanifest
      have hdescribed := checkTree_ok.mp htree
      refine ⟨raw, files, (readFile_ok hdescribed.plain).mp hraw, rfl, ?_, mapError_ok.mp hvalue,
        hform, hdescribed⟩
      rintro d rfl
      simpa using hexpect
  · rintro ⟨raw, files, hraw, rfl, hexpect, hparse, hform, hdescribed⟩
    rw [(readFile_ok hdescribed.plain).mpr hraw]
    have hsame : ¬(expect.any (· != host.sha256 raw)) = true := by
      cases expect with
      | none => exact Bool.false_ne_true
      | some d => simpa using hexpect d rfl
    show (if _ then _ else _) = _
    rw [if_neg hsame, hostError, mapError_ok.mpr hparse]
    show (readManifest manifest >>= _) = _
    rw [readManifest_ok.mpr ⟨hform, rfl⟩]
    show (checkTree host t manifest _ files >>= _) = _
    rw [checkTree_ok.mpr hdescribed]
    rfl

end Launcher
