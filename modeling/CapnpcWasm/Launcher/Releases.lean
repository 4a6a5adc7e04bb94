import CapnpcWasm.Launcher.Packages

/-!
# The release script's verifier

`verifyRelease` walks the tree itself and compares counts where the launcher compares lists.
On a manifest whose form both accept, the two accept the same trees.

Its walk reads directories name by name, and `Finds` says what it gives for a set of places,
in whatever order: the files among them, or an error where one is neither file nor directory.
`counted_iff` is the reason that counting is enough: the listed paths are distinct and each of
them is looked for, so a tree with as many files has no other.  `verifyRelease_iff` is what
the script accepts and `packages_verified` compares it with the launcher.
-/

namespace Launcher

section

variable (host : VerifyHost)

/-- The files at one name of a directory, by `visit`. -/
def visitName (t : HostTree) (visit : Place → Except VerifyError (List Str)) (directory : Place)
    (name : Str) : Except VerifyError (List Str) :=
  let relative := directory ++ [name]
  match t.lstat relative with
  | none => .error (.host host.failure)
  | some e =>
      if e.isSymlink then
        .error (.message (text "package symlink is forbidden: " ++ join slash relative))
      else if e.isDirectory then visit relative
      else if e.isFile then .ok [join slash relative]
      else .error (.message (text "unsupported package entry: " ++ join slash relative))

/-- The files below a directory. -/
def visit (t : HostTree) : Nat → Place → Except VerifyError (List Str)
  | 0, _ => .error (.host host.failure)
  | fuel + 1, directory => do
      let names ← (t.readDir directory).elim (.error (.host host.failure)) .ok
      let found ← names.mapM (visitName host t (visit t fuel) directory)
      return found.flatten

/-- The files of a package, sorted. -/
def packageFiles (t : HostTree) : Except VerifyError (List Str) := do
  let files ← visit host t t.entries.length []
  return sortNames files

/-- One file against its entry, as the launcher checks it. -/
def checkReleaseFile (t : HostTree) (f : ReleaseFile) : Except VerifyError Unit := do
  let data ← readFile host t (f.path.splitOn slash)
  if data.length ≠ f.bytes ∨ !Json.same (some (.string (host.sha256 data))) f.sha256 then
    .error (.message (text "package integrity mismatch: " ++ f.path))
  else .ok ()

/-- The tree of a release against its manifest. -/
def checkRelease (t : HostTree) (manifest : Json) (expected : List Str) (files : List ReleaseFile) :
    Except VerifyError Unit := do
  let actual ← packageFiles host t
  if actual.length ≠ expected.length ∨ actual.any fun path => !expected.contains path then
    .error (.message (text "package files do not match manifest inventory"))
  else
    files.forM (checkReleaseFile host t)
    let metadata ← readMetadata host t
    match metadata with
    | .null => .error (.host host.failure)
    | metadata =>
        if sameIdentity metadata manifest then .ok ()
        else .error (.message (text "package identity does not match manifest"))

/-- The whole check. -/
def verifyRelease (t : HostTree) : Except VerifyError Json := do
  let raw ← readFile host t [manifestFile]
  let manifest ← hostError (host.parseText raw)
  let (expected, files) ← readReleaseManifest host manifest
  checkRelease host t manifest expected files
  return manifest

/-- The launcher accepts the form of a package's manifest. -/
def LauncherForm (t : HostTree) : Prop :=
  ∃ raw manifest found, readFile host t [manifestFile] = .ok raw ∧ host.parse raw = .ok manifest ∧
    readManifest manifest = .ok found

/-- The release script accepts it. -/
def ReleaseForm (t : HostTree) : Prop :=
  ∃ raw manifest found, readFile host t [manifestFile] = .ok raw ∧
    host.parseText raw = .ok manifest ∧ readReleaseManifest host manifest = .ok found

end

variable {host : VerifyHost} {t : HostTree}

/-! ## The files of a package -/

/-- A regular file stands at the place. -/
def isFileAt (t : HostTree) (p : Place) : Bool := (t.lstat p).any Entry.isFile

/-- Nothing stands at the place, or a file or a directory. -/
def Plain (t : HostTree) (p : Place) : Prop :=
  ∀ e, t.lstat p = some e → e.isDirectory = true ∨ e.isFile = true

/-- The files among some places. -/
def filesAmong (t : HostTree) (ps : List Place) : List Str :=
  (ps.filter (isFileAt t)).map (join slash)

/-- A search finds the files among some places, unless there is something else. -/
structure Finds (t : HostTree) (ps : List Place) (result : Except VerifyError (List Str)) :
    Prop where
  sound : ∀ files, result = .ok files → (∀ p ∈ ps, Plain t p) ∧ files.Perm (filesAmong t ps)
  complete : (∀ p ∈ ps, Plain t p) → ∃ files, result = .ok files

/-- A file has contents. -/
theorem isFileAt_iff {p : Place} : isFileAt t p = true ↔ ∃ data, IsFileAt t p data := by
  rw [isFileAt, Option.any_eq_true]
  constructor
  · rintro ⟨e, he, hfile⟩
    exact isFileAt_of he hfile
  · rintro ⟨data, writable, he⟩
    exact ⟨_, he, rfl⟩

/-- The files of two lists of places. -/
theorem filesAmong_append (ps qs : List Place) :
    filesAmong t (ps ++ qs) = filesAmong t ps ++ filesAmong t qs := by
  rw [filesAmong, List.filter_append, List.map_append]
  rfl

namespace Finds

variable {ps qs : List Place} {result : Except VerifyError (List Str)}

/-- The order of the walk does not matter. -/
theorem perm (h : Finds t ps result) (hperm : ps.Perm qs) : Finds t qs result := by
  refine ⟨fun files hfiles => ?_, fun hplain => h.complete fun p hp => hplain p (hperm.mem_iff.mp hp)⟩
  obtain ⟨hplain, hfound⟩ := h.sound files hfiles
  exact ⟨fun p hp => hplain p (hperm.mem_iff.mpr hp), hfound.trans ((hperm.filter _).map _)⟩

/-- One search after the other. -/
theorem append {others : Except VerifyError (List (List Str))} (h : Finds t ps result)
    (h' : Finds t qs (others.map List.flatten)) :
    Finds t (ps ++ qs) ((do return (← result) :: (← others)).map List.flatten) := by
  constructor
  · intro files hfiles
    cases result with
    | error e => cases hfiles
    | ok found =>
        cases others with
        | error e => cases hfiles
        | ok rest =>
            obtain rfl : found ++ rest.flatten = files := Except.ok.inj hfiles
            obtain ⟨hplain, hfound⟩ := h.sound found rfl
            obtain ⟨hplain', hrest⟩ := h'.sound rest.flatten rfl
            rw [filesAmong_append]
            exact ⟨fun p hp => (List.mem_append.mp hp).elim (hplain p) (hplain' p),
              hfound.append hrest⟩
  · intro hplain
    obtain ⟨found, rfl⟩ := h.complete fun p hp => hplain p (List.mem_append_left _ hp)
    obtain ⟨rest, hrest⟩ := h'.complete fun p hp => hplain p (List.mem_append_right _ hp)
    cases others with
    | error e => cases hrest
    | ok rest => exact ⟨_, rfl⟩

/-- A walk of several directories. -/
theorem mapM {f : Str → Except VerifyError (List Str)} {g : Str → List Place} {names : List Str}
    (h : ∀ name ∈ names, Finds t (g name) (f name)) :
    Finds t (names.flatMap g) ((names.mapM f).map List.flatten) := by
  induction names with
  | nil =>
      refine ⟨fun files hfiles => ⟨fun p hp => absurd hp List.not_mem_nil, ?_⟩, fun _ => ⟨[], rfl⟩⟩
      obtain rfl : [] = files := Except.ok.inj hfiles
      exact .nil
  | cons name names ih =>
      obtain ⟨hname, hnames⟩ := List.forall_mem_cons.mp h
      rw [List.mapM_cons, List.flatMap_cons]
      exact hname.append (ih hnames)

end Finds

/-- One name of a directory, when the directories below it are searched. -/
theorem visitName_finds {search : Place → Except VerifyError (List Str)} {directory : Place}
    {name : Str} {e : Entry} (he : t.lstat (directory ++ [name]) = some e)
    (hsearch : e.isDirectory = true → Finds t (Places.below t.places (directory ++ [name]))
      (search (directory ++ [name]))) :
    Finds t ((directory ++ [name]) :: Places.below t.places (directory ++ [name]))
      (visitName host t search directory name) := by
  have hnothing : e.isDirectory = false → Places.below t.places (directory ++ [name]) = [] :=
    t.below_file he
  obtain ⟨kind, writable⟩ := e
  rw [visitName, he]
  have hkind : isFileAt t (directory ++ [name]) = Entry.isFile ⟨kind, writable⟩ := by
    rw [isFileAt, he]
    rfl
  have hfiles : ∀ ps, filesAmong t ((directory ++ [name]) :: ps) =
      if Entry.isFile ⟨kind, writable⟩ = true then join slash (directory ++ [name]) :: filesAmong t ps
      else filesAmong t ps := by
    intro ps
    rw [filesAmong, List.filter_cons, hkind]
    split <;> rfl
  have hplain : ((⟨kind, writable⟩ : Entry).isDirectory = true ∨
      (⟨kind, writable⟩ : Entry).isFile = true) → Plain t (directory ++ [name]) := by
    intro hor e' he'
    rw [he] at he'
    rw [← Option.some.inj he']
    exact hor
  cases kind with
  | directory =>
      obtain ⟨hsound, hcomplete⟩ := hsearch rfl
      refine ⟨fun files hfound => ?_, fun hall => hcomplete (List.forall_mem_cons.mp hall).2⟩
      rw [hfiles]
      exact (hsound files hfound).imp_left fun hall =>
        List.forall_mem_cons.mpr ⟨hplain (.inl rfl), hall⟩
  | file data =>
      refine ⟨fun files hfound => ?_, fun _ => ⟨_, rfl⟩⟩
      obtain rfl : [join slash (directory ++ [name])] = files := Except.ok.inj hfound
      rw [hfiles, hnothing rfl]
      exact ⟨fun p hp => by rw [List.mem_singleton.mp hp]; exact hplain (.inr rfl), .refl _⟩
  | symlink =>
      refine ⟨fun files hfound => absurd hfound Checks.error_ne_ok, fun hall => ?_⟩
      have hkind := (List.forall_mem_cons.mp hall).1 _ he
      simp [Entry.isDirectory, Entry.isFile] at hkind
  | special =>
      refine ⟨fun files hfound => absurd hfound Checks.error_ne_ok, fun hall => ?_⟩
      have hkind := (List.forall_mem_cons.mp hall).1 _ he
      simp [Entry.isDirectory, Entry.isFile] at hkind

/-- A visit finds the files below a directory.  What is below a child is less than what is below the
directory, which is what the fuel follows. -/
theorem visit_finds {fuel : Nat} {directory : Place} {e : Entry} (he : t.lstat directory = some e)
    (hdirectory : e.isDirectory = true) (hfuel : (Places.below t.places directory).length < fuel) :
    Finds t (Places.below t.places directory) (visit host t fuel directory) := by
  induction fuel generalizing directory e with
  | zero => omega
  | succ fuel ih =>
      obtain ⟨names, hread, hnames⟩ := readDir_children he hdirectory
      have hperm : (names.flatMap fun name => (directory ++ [name]) ::
          Places.below t.places (directory ++ [name])).Perm (Places.below t.places directory) := by
        refine (List.map_append_flatMap_perm names (fun name => directory ++ [name])
          fun name => Places.below t.places (directory ++ [name])).symm.trans ?_
        rw [hnames, ← List.flatMap_map (fun name => directory ++ [name]), hnames]
        exact (t.closed.below_perm directory).symm
      have hlength : ∀ name ∈ names, (Places.below t.places (directory ++ [name])).length <
          (Places.below t.places directory).length := by
        intro name hname
        obtain ⟨earlier, later, rfl⟩ := List.append_of_mem hname
        rw [← hperm.length_eq, List.flatMap_append, List.flatMap_cons, List.length_append,
          List.length_append, List.length_cons]
        omega
      have heach : ∀ name ∈ names, Finds t ((directory ++ [name]) ::
          Places.below t.places (directory ++ [name]))
          (visitName host t (visit host t fuel) directory name) := by
        intro name hname
        have hchild : directory ++ [name] ∈ Places.children t.places directory := by
          rw [← hnames]
          exact List.mem_map_of_mem hname
        obtain ⟨info, hinfo⟩ := t.mem_places.mp (Places.mem_children.mp hchild).1
        have hless := hlength name hname
        exact visitName_finds hinfo fun hsub => ih hinfo hsub (by omega)
      rw [visit, hread]
      exact (Finds.mapM heach).perm hperm

/-- The whole tree. -/
theorem packageFiles_finds (host : VerifyHost) (t : HostTree) :
    Finds t (Places.below t.places []) (packageFiles host t) := by
  obtain ⟨root, hroot, hdirectory⟩ := t.root
  have hmem : [] ∈ t.places := List.mem_map_of_mem hroot
  have hfuel : (Places.below t.places []).length < t.places.length :=
    List.length_filter_lt_length_iff_exists.mpr ⟨[], hmem, by simp⟩
  rw [HostTree.places, List.length_map] at hfuel
  have hvisit := @visit_finds host t _ _ _ (t.lstat_eq.mpr hroot) hdirectory hfuel
  rw [packageFiles]
  cases hfound : visit host t t.entries.length [] with
  | error e =>
      refine ⟨fun files hfound => absurd hfound Checks.error_ne_ok, fun hall => ?_⟩
      obtain ⟨files, hfiles⟩ := hvisit.complete hall
      rw [hfound] at hfiles
      cases hfiles
  | ok found =>
      refine ⟨fun files hfiles => ?_, fun _ => ⟨_, rfl⟩⟩
      obtain rfl : sortNames found = files := Except.ok.inj hfiles
      exact (hvisit.sound found hfound).imp_right fun hperm => (List.mergeSort_perm _ _).trans hperm

/-- Distinct places have distinct names. -/
theorem join_injOn {p q : Place} (hp : p ∈ Places.below t.places []) (hq : q ∈ Places.below t.places [])
    (h : join slash p = join slash q) : p = q := by
  have hsplit : ∀ r ∈ Places.below t.places [], (join slash r).splitOn slash = r := by
    intro r hr
    obtain ⟨hmem, hne⟩ := Places.mem_below_root.mp hr
    exact List.splitOn_intercalate _ (fun name hname => (t.named r hmem name hname).2) hne
  rw [← hsplit p hp, h, hsplit q hq]

/-- A file is found once, since paths are joined without loss. -/
theorem filesAmong_nodup (t : HostTree) : (filesAmong t (Places.below t.places [])).Nodup :=
  List.Nodup.map_on (fun _ hp _ hq h => join_injOn (List.mem_filter.mp hp).1 (List.mem_filter.mp hq).1 h)
    ((t.closed.nodup_below []).filter _)

/-- What is found are the files. -/
theorem mem_filesAmong {path : Str} : path ∈ filesAmong t (Places.below t.places []) ↔
    ∃ p data, IsFileAt t p data ∧ join slash p = path := by
  rw [filesAmong, List.mem_map]
  constructor
  · rintro ⟨p, hp, rfl⟩
    obtain ⟨data, hdata⟩ := isFileAt_iff.mp (List.mem_filter.mp hp).2
    exact ⟨p, data, hdata, rfl⟩
  · rintro ⟨p, data, ⟨writable, he⟩, rfl⟩
    refine ⟨p, List.mem_filter.mpr ⟨Places.mem_below_root.mpr ⟨t.mem_places.mpr ⟨_, he⟩, ?_⟩,
      isFileAt_iff.mpr ⟨data, writable, he⟩⟩, rfl⟩
    rintro rfl
    obtain ⟨root, hroot, hdirectory⟩ := t.root
    rw [t.lstat_eq.mpr hroot] at he
    rw [Option.some.inj he] at hdirectory
    cases hdirectory

/-- The root is a directory, so it is enough to look below it. -/
theorem plain_below_iff : (∀ p ∈ Places.below t.places [], Plain t p) ↔ ∀ p, Plain t p := by
  refine ⟨fun h p e he => ?_, fun h p _ => h p⟩
  by_cases hp : p = []
  · obtain ⟨root, hroot, hdirectory⟩ := t.root
    rw [hp, t.lstat_eq.mpr hroot] at he
    rw [← Option.some.inj he]
    exact .inl hdirectory
  · exact h p (Places.mem_below_root.mpr ⟨t.mem_places.mpr ⟨e, he⟩, hp⟩) e he

/-- Lists of distinct names of one length, one in the other, hold the same names. -/
theorem counted_iff {actual expected : List Str} (hactual : actual.Nodup)
    (hexpected : expected.Nodup) :
    ¬(actual.length ≠ expected.length ∨ actual.any (fun path => !expected.contains path) = true) ↔
      ∀ path, path ∈ expected ↔ path ∈ actual := by
  rw [not_or, not_not, Bool.not_eq_true, List.any_eq_false]
  simp only [Bool.not_eq_true', Bool.not_eq_false, List.contains_iff_mem]
  constructor
  · rintro ⟨hlength, hsubset⟩ path
    exact (((List.subperm_of_subset hactual hsubset).perm_of_length_le hlength.ge).mem_iff).symm
  · intro h
    exact ⟨((List.perm_ext_iff_of_nodup hactual hexpected).mpr fun path => (h path).symm).length_eq,
      fun path => (h path).mpr⟩

/-! ## The manifest's form -/

/-- What the release script keeps of a listed file. -/
def ListedFile.toRelease (f : ListedFile) : ReleaseFile := ⟨f.path, f.bytes, some (.string f.sha256)⟩

/-- An entry in the form of the launcher is accepted here. -/
theorem readReleaseEntry_ok {expected : List Str} {files : List ReleaseFile} {entry : Json}
    {f : ListedFile} (h : Lists entry f) (hnew : f.path ∉ expected) :
    readReleaseEntry host (expected, files) entry =
      .ok (expected ++ [f.path], files ++ [f.toRelease]) := by
  have hentry : ∃ fields, entry = .object fields := by
    cases entry with
    | object fields => exact ⟨fields, rfl⟩
    | null => cases h.path
    | bool b => cases h.path
    | number n => cases h.path
    | infinity negative => cases h.path
    | string s => cases h.path
    | array items => cases h.path
  obtain ⟨fields, rfl⟩ := hentry
  rw [readReleaseEntry, h.path]
  dsimp only
  rw [h.isPath, List.contains_eq_mem, decide_eq_false hnew, h.bytes, h.sha256, host.toText_string]
  dsimp only
  rw [h.isDigest]
  rfl
  exact nofun

/-- All entries in the form of the launcher are accepted here. -/
theorem readReleaseEntries_ok {items : List Json} {added : List ListedFile} {expected : List Str}
    {files : List ReleaseFile} (h : List.Forall₂ Lists items added)
    (hdistinct : (expected ++ added.map (·.path)).Nodup) :
    items.foldlM (readReleaseEntry host) (expected, files) =
      .ok (expected ++ added.map (·.path), files ++ added.map ListedFile.toRelease) := by
  induction h generalizing expected files with
  | nil =>
      rw [List.map_nil, List.map_nil, List.append_nil, List.append_nil]
      rfl
  | @cons entry f items added hlists hrest ih =>
      have hassoc : expected ++ (f :: added).map (·.path) =
          expected ++ [f.path] ++ added.map (·.path) := by simp
      rw [hassoc] at hdistinct
      have hnew : f.path ∉ expected := fun hmem =>
        (List.nodup_append.mp (List.nodup_append.mp hdistinct).1).2.2 _ hmem _
          (List.mem_singleton_self _) rfl
      rw [List.foldlM_cons, readReleaseEntry_ok hlists hnew, hassoc, List.map_cons,
        List.append_cons files f.toRelease (added.map ListedFile.toRelease)]
      show items.foldlM (readReleaseEntry host) (_, _) = _
      exact ih hdistinct

/-- A manifest that both forms accept lists the same files in both, and has a version. -/
theorem readReleaseManifest_ok {manifest : Json} {files : List ListedFile}
    {found : List Str × List ReleaseFile} (hform : Manifest manifest files)
    (h : readReleaseManifest host manifest = .ok found) :
    found = (manifestFile :: files.map (·.path), files.map ListedFile.toRelease) ∧
      Json.truthy (manifest.get? (text "version")) = true := by
  obtain ⟨-, ⟨items, hitems, hall⟩, hdistinct⟩ := hform
  have hnull : manifest ≠ .null := by
    rintro rfl
    cases hitems
  rw [readReleaseManifest] at h
  · split at h
    · next items' hchecks hitems' =>
      rw [hitems] at hitems'
      obtain rfl := Json.array.inj (Option.some.inj hitems')
      rw [readReleaseEntries_ok hall hdistinct, List.nil_append] at h
      simp only [Bool.and_eq_true] at hchecks
      exact ⟨(Except.ok.inj h).symm, hchecks.1.1.1.2⟩
    · cases h
  · exact hnull

/-! ## The tree -/

/-- Comparing JSON strings is comparing strings. -/
theorem same_string {s : Str} {s' : Str} :
    Json.same (some (.string s)) (some (.string s')) = true ↔ s = s' := beq_iff_eq

/-- A file that passes is the one that is listed. -/
theorem checkReleaseFile_ok (hplain : ∀ p, Plain t p) {f : ListedFile} :
    checkReleaseFile host t f.toRelease = .ok () ↔
      ∃ data, IsFileAt t (f.path.splitOn slash) data ∧ data.length = f.bytes ∧
        host.sha256 data = f.sha256 := by
  rw [checkReleaseFile]
  constructor
  · intro h
    obtain ⟨data, hread, hcheck⟩ := Checks.bind_ok h
    split at hcheck
    · cases hcheck
    · next hsame =>
      obtain ⟨hlength, hdigest⟩ := not_or.mp hsame
      rw [Bool.not_eq_true', Bool.not_eq_false] at hdigest
      exact ⟨data, (readFile_ok hplain).mp hread, not_not.mp hlength, same_string.mp hdigest⟩
  · rintro ⟨data, hdata, hlength, hdigest⟩
    show (readFile host t (f.path.splitOn slash) >>= _) = _
    rw [(readFile_ok hplain).mpr hdata]
    refine if_neg (not_or.mpr ⟨not_not.mpr hlength, ?_⟩)
    rw [Bool.not_eq_true', Bool.not_eq_false]
    exact same_string.mpr hdigest

/-- What has no version is not a package of a manifest that has one. -/
theorem sameIdentity_null {manifest : Json}
    (h : Json.truthy (manifest.get? (text "version")) = true) : sameIdentity .null manifest = false := by
  rw [sameIdentity]
  cases hversion : manifest.get? (text "version") with
  | none =>
      rw [hversion] at h
      cases h
  | some version =>
      rw [Bool.and_eq_false_iff]
      exact .inr rfl

/-- Counts, files and metadata together. -/
theorem checkRelease_ok {manifest : Json} {files : List ListedFile}
    (hdistinct : (manifestFile :: files.map (·.path)).Nodup)
    (hversion : Json.truthy (manifest.get? (text "version")) = true) :
    checkRelease host t manifest (manifestFile :: files.map (·.path))
        (files.map ListedFile.toRelease) = .ok () ↔ Described host t manifest files := by
  have hfinds := packageFiles_finds host t
  rw [checkRelease]
  constructor
  · intro h
    obtain ⟨actual, hactual, h⟩ := Checks.bind_ok h
    obtain ⟨hbelow, hperm⟩ := hfinds.sound actual hactual
    have hplain := plain_below_iff.mp hbelow
    split at h
    · cases h
    · next hsame =>
      have hinventory := (counted_iff (hperm.nodup_iff.mpr (filesAmong_nodup t)) hdistinct).mp hsame
      obtain ⟨⟨⟩, hfiles, h⟩ := Checks.bind_ok h
      obtain ⟨metadata, hmetadata, h⟩ := Checks.bind_ok h
      obtain ⟨data, hdata, hparse⟩ := (readMetadata_ok hplain).mp hmetadata
      have hidentity : sameIdentity metadata manifest = true := by
        split at h
        · cases h
        · split at h
          · assumption
          · cases h
      refine ⟨hplain, fun path => ?_, fun f hf => ?_, data, metadata, hdata, hparse, hidentity⟩
      · rw [hinventory path, hperm.mem_iff]
        exact mem_filesAmong
      · exact (checkReleaseFile_ok hplain).mp (Checks.forM_ok hfiles _ (List.mem_map_of_mem hf))
  · intro h
    obtain ⟨data, metadata, hdata, hparse, hidentity⟩ := h.identity
    obtain ⟨actual, hactual⟩ := hfinds.complete fun p _ => h.plain p
    have hperm := (hfinds.sound actual hactual).2
    have hsame := (counted_iff (hperm.nodup_iff.mpr (filesAmong_nodup t)) hdistinct).mpr
      fun path => (h.inventory path).trans (mem_filesAmong.symm.trans hperm.mem_iff.symm)
    have hfiles : (files.map ListedFile.toRelease).forM (checkReleaseFile host t) = .ok () := by
      refine Checks.forM_of_ok fun f hf => ?_
      obtain ⟨listed, hlisted, rfl⟩ := List.mem_map.mp hf
      exact (checkReleaseFile_ok h.plain).mpr (h.contents listed hlisted)
    rw [hactual]
    show (if _ then _ else _) = _
    rw [if_neg hsame, hfiles]
    show (readMetadata host t >>= _) = _
    rw [(readMetadata_ok h.plain).mpr ⟨data, hdata, hparse⟩]
    cases metadata with
    | null =>
        rw [sameIdentity_null hversion] at hidentity
        cases hidentity
    | bool b => exact if_pos hidentity
    | number n => exact if_pos hidentity
    | infinity negative => exact if_pos hidentity
    | string s => exact if_pos hidentity
    | array items => exact if_pos hidentity
    | object fields => exact if_pos hidentity

/-! ## Both verifiers -/

/-- Where both accept the form of a manifest, both accept the same trees. -/
theorem verifyRelease_iff (hlauncher : LauncherForm host t) (hrelease : ReleaseForm host t) :
    (∃ result, verifyPackage host t none = .ok result) ↔
      ∃ manifest, verifyRelease host t = .ok manifest := by
  obtain ⟨raw, manifest, ⟨expected, files⟩, hraw, hparse, hread⟩ := hlauncher
  obtain ⟨raw', manifest', found, hraw', hparse', hread'⟩ := hrelease
  obtain rfl : raw = raw' := Except.ok.inj (hraw.symm.trans hraw')
  obtain rfl := host.agree raw manifest manifest' hparse hparse'
  obtain ⟨hform, rfl⟩ := readManifest_ok.mp hread
  obtain ⟨rfl, hversion⟩ := readReleaseManifest_ok hform hread'
  have hpackage : (∃ result, verifyPackage host t none = .ok result) ↔
      Described host t manifest files := by
    rw [← checkTree_ok]
    simp only [verifyPackage, mapError_ok, checkPackage, hraw, hostError]
    show (∃ result, ((host.parse raw).mapError VerifyError.host >>= _) = .ok result) ↔ _
    rw [hparse]
    show (∃ result, (readManifest manifest >>= _) = .ok result) ↔ _
    rw [hread]
    show (∃ result, (checkTree host t manifest _ files >>= _) = .ok result) ↔ _
    cases checkTree host t manifest (manifestFile :: files.map (·.path)) files with
    | error e =>
        refine iff_of_false ?_ Checks.error_ne_ok
        rintro ⟨_, hok⟩
        cases hok
    | ok u => exact iff_of_true ⟨_, rfl⟩ rfl
  have hscript : (∃ manifest, verifyRelease host t = .ok manifest) ↔
      Described host t manifest files := by
    rw [← checkRelease_ok hform.distinct hversion, verifyRelease, hraw]
    show (∃ result, ((host.parseText raw).mapError VerifyError.host >>= _) = .ok result) ↔ _
    rw [hparse']
    show (∃ result, (readReleaseManifest host manifest >>= _) = .ok result) ↔ _
    rw [hread']
    show (∃ result, (checkRelease host t manifest _ _ >>= _) = .ok result) ↔ _
    cases checkRelease host t manifest (manifestFile :: files.map (·.path))
        (files.map ListedFile.toRelease) with
    | error e =>
        refine iff_of_false ?_ Checks.error_ne_ok
        rintro ⟨_, hok⟩
        cases hok
    | ok u => exact iff_of_true ⟨_, rfl⟩ rfl
  rw [hpackage, hscript]

/-- The launcher verifies exactly the packages that their manifests describe, and so does the release
script where both accept the form of the manifest. -/
theorem packages_verified (host : VerifyHost) (t : HostTree) :
    (∀ expect manifest digest, verifyPackage host t expect = .ok (manifest, digest) ↔
      ∃ raw files, IsFileAt t [manifestFile] raw ∧ digest = host.sha256 raw ∧
        (∀ d, expect = some d → d = digest) ∧ host.parse raw = .ok manifest ∧
        Manifest manifest files ∧ Described host t manifest files) ∧
    (LauncherForm host t → ReleaseForm host t →
      ((∃ result, verifyPackage host t none = .ok result) ↔
        ∃ manifest, verifyRelease host t = .ok manifest)) :=
  ⟨fun expect manifest digest => verifyPackage_iff host t expect manifest digest, verifyRelease_iff⟩

/-! ## A package -/

/-- A package without files of its own: `package.json`, and the manifest that lists it. -/
def metadataBytes : List UInt8 :=
  ("\x7b\"name\":\"capnp-wasm\",\"version\":\"0.1.0\"\x7d").toUTF8.toList

/-- The digest of the metadata. -/
def metadataDigest : Str :=
  text "0e79cbbcd918be83182ff4d8dfcab19060e1bff503cd17567062b9fc4dfdbad1"

def sourceDigest : Str :=
  text "e3b0c44298fc1c149afbf4c8996fb92427ae41e4649b934ca495991b7852b855"

/-- The manifest, of which the host knows what it parses to. -/
def manifestBytes : List UInt8 :=
  ("\x7b\"format\":1,\"name\":\"capnp-wasm\",\"version\":\"0.1.0\",\"source\":\x7b\"commit\":\"c0ffee\"," ++
    "\"dirty\":false,\"sha256\":\"e3b0c44298fc1c149afbf4c8996fb92427ae41e4649b934ca495991b7852b855\"\x7d," ++
    "\"files\":[\x7b\"path\":\"package.json\",\"bytes\":39,\"sha256\":" ++
    "\"0e79cbbcd918be83182ff4d8dfcab19060e1bff503cd17567062b9fc4dfdbad1\"\x7d]\x7d").toUTF8.toList

def manifestDigest : Str :=
  text "30e29d82880271db472b69032241fb595b8f05f174eedd1c84d012d60c1b93b0"

/-- The name and the version of the package. -/
def packageIdentity : List (Str × Json) :=
  [(text "name", .string (text "capnp-wasm")), (text "version", .string (text "0.1.0"))]

/-- It lists the metadata, the one other file of the package. -/
def packageManifest : Json :=
  .object ((text "format", .number 1) :: packageIdentity ++
    [(text "source", .object [(text "commit", .string (text "c0ffee")), (text "dirty", .bool false),
        (text "sha256", .string sourceDigest)]),
      (text "files", .array [.object [(text "path", .string (text "package.json")),
        (text "bytes", .number 39), (text "sha256", .string metadataDigest)]])])

/-- A host that parses and hashes the two files as they are. -/
def packageHost : VerifyHost where
  parse raw :=
    if raw = manifestBytes then .ok packageManifest
    else if raw = metadataBytes then .ok (.object packageIdentity)
    else .error (text "SyntaxError")
  parseText raw :=
    if raw = manifestBytes then .ok packageManifest
    else if raw = metadataBytes then .ok (.object packageIdentity)
    else .error (text "SyntaxError")
  agree := by
    intro raw value value' h h'
    rw [h] at h'
    exact Except.ok.inj h'
  sha256 raw :=
    if raw = manifestBytes then manifestDigest
    else if raw = metadataBytes then metadataDigest
    else List.replicate 64 48
  toText
    | some (.string s) => s
    | some .null => text "null"
    | none => text "undefined"
    | _ => text "[object Object]"
  toText_string := fun _ => rfl
  linked := fun _ => .error (text "NotFound")
  failure := text "NotFound"

/-- The tree with these two files. -/
def packageTree : HostTree :=
  .ofEntries [([], ⟨.directory, true⟩), ([manifestFile], ⟨.file manifestBytes, true⟩),
    ([text "package.json"], ⟨.file metadataBytes, true⟩)] (by decide +kernel)

/-- The entry of the metadata. -/
def packageFile : ListedFile := ⟨text "package.json", 39, metadataDigest⟩

/-- What the host makes of the two files. -/
theorem packageHost_parse : packageHost.parse manifestBytes = .ok packageManifest ∧
    packageHost.parseText manifestBytes = .ok packageManifest ∧
    packageHost.parseText metadataBytes = .ok (.object packageIdentity) := by
  have hne : metadataBytes ≠ manifestBytes := by decide +kernel
  exact ⟨if_pos rfl, if_pos rfl, (if_neg hne).trans (if_pos rfl)⟩

/-- The digests of the two files. -/
theorem packageHost_sha256 : packageHost.sha256 manifestBytes = manifestDigest ∧
    packageHost.sha256 metadataBytes = metadataDigest := by
  have hne : metadataBytes ≠ manifestBytes := by decide +kernel
  exact ⟨if_pos rfl, (if_neg hne).trans (if_pos rfl)⟩

/-- There is nothing else. -/
theorem packageTree_lstat {p : Place} {e : Entry} : packageTree.lstat p = some e ↔
    (p = [] ∧ e = ⟨.directory, true⟩) ∨ (p = [manifestFile] ∧ e = ⟨.file manifestBytes, true⟩) ∨
      (p = [text "package.json"] ∧ e = ⟨.file metadataBytes, true⟩) := by
  rw [HostTree.lstat_eq]
  simp [packageTree, HostTree.ofEntries]

/-- The tree is what its manifest describes. -/
theorem packageTree_described : Described packageHost packageTree packageManifest [packageFile] := by
  have hmanifest : IsFileAt packageTree [manifestFile] manifestBytes :=
    ⟨true, packageTree_lstat.mpr (.inr (.inl ⟨rfl, rfl⟩))⟩
  have hmetadata : IsFileAt packageTree [text "package.json"] metadataBytes :=
    ⟨true, packageTree_lstat.mpr (.inr (.inr ⟨rfl, rfl⟩))⟩
  have hsplit : packageFile.path.splitOn slash = [text "package.json"] := by decide +kernel
  refine ⟨fun p e he => ?_, fun path => ?_, fun f hf => ?_, metadataBytes, .object packageIdentity, hmetadata,
    packageHost_parse.2.2, by decide +kernel⟩
  · rcases packageTree_lstat.mp he with ⟨-, rfl⟩ | ⟨-, rfl⟩ | ⟨-, rfl⟩
    · exact .inl rfl
    · exact .inr rfl
    · exact .inr rfl
  · rw [List.mem_cons, List.map_singleton, List.mem_singleton]
    constructor
    · rintro (rfl | rfl)
      · exact ⟨_, _, hmanifest, by decide +kernel⟩
      · exact ⟨_, _, hmetadata, by decide +kernel⟩
    · rintro ⟨p, data, ⟨writable, he⟩, rfl⟩
      rcases packageTree_lstat.mp he with ⟨-, hkind⟩ | ⟨rfl, -⟩ | ⟨rfl, -⟩
      · cases hkind
      · exact .inl (by decide +kernel)
      · exact .inr (by decide +kernel)
  · obtain rfl := List.mem_singleton.mp hf
    refine ⟨metadataBytes, ?_, by decide +kernel, packageHost_sha256.2⟩
    rw [hsplit]
    exact hmetadata

/-- Both verifiers accept the package. -/
theorem packages_verified_sample :
    verifyPackage packageHost packageTree (some manifestDigest) = .ok (packageManifest, manifestDigest) ∧
    ∃ manifest, verifyRelease packageHost packageTree = .ok manifest := by
  obtain ⟨hdescribes, hagrees⟩ := packages_verified packageHost packageTree
  have hread : readFile packageHost packageTree [manifestFile] = .ok manifestBytes := by decide +kernel
  have hform : readManifest packageManifest =
      .ok ([manifestFile, text "package.json"], [packageFile]) := by decide +kernel
  obtain ⟨found, hrelease⟩ : ∃ found, readReleaseManifest packageHost packageManifest = .ok found :=
    Checks.ok_of_isSome (by decide +kernel)
  have haccepts : ∀ expect, (∀ d, expect = some d → d = manifestDigest) →
      verifyPackage packageHost packageTree expect = .ok (packageManifest, manifestDigest) := by
    intro expect hexpect
    refine (hdescribes expect packageManifest manifestDigest).mpr ⟨manifestBytes, [packageFile],
      ⟨true, packageTree_lstat.mpr (.inr (.inl ⟨rfl, rfl⟩))⟩, packageHost_sha256.1.symm, hexpect,
      packageHost_parse.1, (readManifest_ok.mp hform).1, packageTree_described⟩
  refine ⟨haccepts _ fun d hd => (Option.some.inj hd).symm, ?_⟩
  exact (hagrees ⟨_, _, _, hread, packageHost_parse.1, hform⟩
    ⟨_, _, _, hread, packageHost_parse.2.1, hrelease⟩).mp ⟨_, haccepts none nofun⟩

end Launcher
