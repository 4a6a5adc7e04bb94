import CapnpcWasm.TsSdk.Agreement
import CapnpcWasm.TsSdk.Checks
import CapnpcWasm.TsSdk.Collecting

/-!
# The trees of a valid request

`validateCompile` accepts only files whose paths are canonical and do not pass through one
another, so they stage without an error in any order, and what is below the two mounts of the
tree are those files and the directories of their paths.

`Accepted` is what validation says of one map of files (`validateCompile_ok`).  From it
`Accepted.stageable_prefixed` gives that staging succeeds, with the mount's name in front of
every path, and `Holds.restored` that collecting the mount gives the files back, since there
is room for each of them (`Room`).  `collect_staged` joins the two for both mounts.
-/

namespace TsSdk

open Sdk Checks

/-! ## Paths -/

section

variable {limits : Limits} {path rest part : JsString} {parts : List JsString}

/-- A path below another. -/
theorem split_append (path rest : JsString) : split (path ++ slash :: rest) = split path ++ split rest := by
  rw [split, List.splitOn_append_cons_self]
  rfl

theorem join_split (path : JsString) : join (split path) = path := List.intercalate_splitOn slash

theorem split_join (hne : parts ≠ []) (h : ∀ part ∈ parts, slash ∉ part) :
    split (join parts) = parts := List.splitOn_intercalate slash h hne

/-- A path is its parts. -/
theorem split_injective : Function.Injective split := fun path rest h => by
  rw [← join_split path, h, join_split]

/-- No slash is half of a surrogate pair. -/
theorem codePoints_append (path rest : JsString) :
    Text.codePoints (path ++ slash :: rest) =
      Text.codePoints path ++ slash.toNat :: Text.codePoints rest := by
  have hslash : Text.codePoints (slash :: rest) = slash.toNat :: Text.codePoints rest :=
    Text.codePoints_cons (by decide) rest
  fun_induction Text.codePoints path with
  | case1 => exact hslash
  | case2 u =>
      show Text.codePoints (u :: slash :: rest) = _
      rw [Text.codePoints, show Text.isLow slash = false by decide, Bool.and_false, hslash]
      rfl
  | case3 u v s hpair ih =>
      show Text.codePoints (u :: v :: (s ++ slash :: rest)) = _
      rw [Text.codePoints, if_pos hpair, ih]
      rfl
  | case4 u v s hpair ih =>
      show Text.codePoints (u :: v :: (s ++ slash :: rest)) = _
      rw [Text.codePoints, if_neg hpair]
      exact congrArg _ ih

/-- The size fits if the sum over the code points does. -/
theorem utf8Size_le {maximum : Nat} : utf8Size path maximum ≤ maximum ↔
    path.length ≤ maximum ∧ ((Text.codePoints path).map pointSize).sum ≤ maximum := by
  rw [utf8Size]
  split
  · next h =>
    refine iff_of_false (by omega) fun hle => ?_
    exact absurd hle.1 (Nat.not_le.mpr h)
  · next h =>
    refine (iff_of_eq ?_).trans (and_iff_right (Nat.le_of_not_lt h)).symm
    by_cases hsum : ((Text.codePoints path).map pointSize).sum ≤ maximum
    · rw [sizeUpTo_eq (by omega), Nat.zero_add]
    · have hlt : maximum < sizeUpTo maximum 0 (Text.codePoints path) :=
        lt_sizeUpTo (by omega) (Nat.zero_le _)
      exact propext (iff_of_false (Nat.not_le.mpr hlt) hsum)

/-- What `checkPath` accepts. -/
theorem checkPath_ok : checkPath limits path = .ok () ↔
    utf8Size path limits.pathBytes ≤ limits.pathBytes ∧ (∀ u ∈ path, u ≠ 92 ∧ u ≠ 0) ∧
      isWellFormed path = true ∧
      ∀ part ∈ split path, part ≠ [] ∧ part ≠ text "." ∧ part ≠ text ".." := by
  rw [checkPath]
  split
  · next h => exact iff_of_false nofun fun hok => absurd hok.1 (Nat.not_le.mpr h)
  · next h =>
    refine Iff.trans ?_ (and_iff_right (Nat.le_of_not_lt h)).symm
    split
    · next hbad =>
      refine iff_of_false nofun fun ⟨hunits, hformed, hparts⟩ => ?_
      rw [hformed, Bool.not_true, Bool.or_false, Bool.or_eq_true, List.any_eq_true,
        List.any_eq_true] at hbad
      rcases hbad with ⟨u, hu, heq⟩ | ⟨part, hpart, heq⟩
      · have := hunits u hu
        simp [this.1, this.2] at heq
      · have := hparts part hpart
        simp [this.1, this.2.1, this.2.2] at heq
    · next hgood =>
      refine iff_of_true rfl ?_
      simp only [Bool.or_eq_true, not_or, Bool.not_eq_true', Bool.not_eq_false, List.any_eq_true,
        not_exists, not_and, beq_iff_eq] at hgood
      exact ⟨hgood.1.1, hgood.1.2, fun part hpart =>
        ⟨(hgood.2 part hpart).1.1, (hgood.2 part hpart).1.2, (hgood.2 part hpart).2⟩⟩

/-- A directory that an accepted path passes through is itself accepted. -/
theorem checkPath_directory (h : checkPath limits (path ++ slash :: rest) = .ok ()) :
    checkPath limits path = .ok () := by
  obtain ⟨hsize, hunits, hformed, hparts⟩ := checkPath_ok.mp h
  rw [utf8Size_le, codePoints_append, List.length_append, List.map_append, List.sum_append] at hsize
  rw [isWellFormed, codePoints_append, List.all_append, Bool.and_eq_true] at hformed
  rw [split_append] at hparts
  refine checkPath_ok.mpr ⟨utf8Size_le.mpr ⟨by omega, by omega⟩,
    fun u hu => hunits u (List.mem_append_left _ hu), hformed.1,
    fun part hpart => hparts part (List.mem_append_left _ hpart)⟩

theorem join_append {others : List JsString} (h : parts ≠ []) (h' : others ≠ []) :
    join (parts ++ others) = join parts ++ slash :: join others := Text.intercalate_append h h'

/-- The places on the way to an accepted path are accepted paths. -/
theorem checkPath_prefix (h : checkPath limits path = .ok ()) (hne : parts ≠ [])
    (hpre : parts <+: split path) : checkPath limits (join parts) = .ok () := by
  obtain ⟨rest, hrest⟩ := hpre
  by_cases hnil : rest = []
  · rw [hnil, List.append_nil] at hrest
    rwa [hrest, join_split]
  · rw [← join_split path, ← hrest, join_append hne hnil] at h
    exact checkPath_directory h

/-- A part of a path that passes is a name that passes. -/
theorem checkName_part {N : Type} (h : checkPath limits path = .ok ()) (hpart : part ∈ split path) :
    checkName (N := N) part = .ok () := by
  obtain ⟨-, hunits, -, hparts⟩ := checkPath_ok.mp h
  obtain ⟨hne, hdot, hdotdot⟩ := hparts part hpart
  obtain ⟨hslash, hsub⟩ := Text.mem_splitOn hpart
  rw [checkName, if_neg]
  rw [List.any_eq_true]
  rintro (heq | heq | heq | ⟨u, hu, hbad⟩)
  · exact hne heq
  · exact hdot heq
  · exact hdotdot heq
  · have hunit := hunits u (hsub u hu)
    have hother : u ≠ 47 := by
      rintro rfl
      exact hslash hu
    simp [hunit.1, hunit.2, hother] at hbad

end

/-! ## What validation accepts -/

/-- Files with accepted paths, none of which passes through another. -/
structure Accepted {A : Type} (limits : Limits) (files : List (JsString × A)) : Prop where
  path : ∀ file ∈ files, checkPath limits file.1 = .ok ()
  free : ∀ file ∈ files, ∀ directory ∈ directoriesOf file.1, directory ∉ files.map Prod.fst

section

variable {limits : Limits} {supplied : List Language} {input : CompileRequest} {job : CompileJob}
  {files : Files} {s s' : Scan} {path node : JsString}

/-- Counting adds no file. -/
theorem addNode_kept (h : addNode limits s node = .ok s') : s'.mount = s.mount ∧ s'.names = s.names := by
  rw [addNode] at h
  split at h
  · cases h
    exact ⟨rfl, rfl⟩
  · split at h
    · cases h
    · cases h
      exact ⟨rfl, rfl⟩

/-- Counting several nodes adds no file. -/
theorem addNodes_kept {nodes : List JsString} (h : nodes.foldlM (addNode limits) s = .ok s') :
    s'.mount = s.mount ∧ s'.names = s.names := by
  induction nodes generalizing s with
  | nil =>
      cases h
      exact ⟨rfl, rfl⟩
  | cons node nodes ih =>
      rw [List.foldlM_cons] at h
      obtain ⟨next, hone, hrest⟩ := bind_ok h
      obtain ⟨hmount, hnames⟩ := ih hrest
      obtain ⟨hmount', hnames'⟩ := addNode_kept hone
      exact ⟨hmount.trans hmount', hnames.trans hnames'⟩

/-- A file that passes is added to its mount. -/
theorem addFile_ok {entry : JsString × FileContents} (h : addFile limits s entry = .ok s') :
    checkPath limits entry.1 = .ok () ∧ s'.mount = s.mount ++ [entry] ∧
      s'.names = s.names ++ [entry.1] := by
  obtain ⟨⟨⟩, hpath, hrest⟩ := bind_ok h
  obtain ⟨next, hnodes, hrest⟩ := bind_ok hrest
  obtain ⟨hmount, hnames⟩ := addNodes_kept hnodes
  dsimp only at hrest
  split at hrest
  · cases hrest
  · cases hrest
    exact ⟨hpath, by dsimp only; rw [hmount], hnames⟩

/-- Files that pass are added in their order. -/
theorem addFiles_ok (h : files.foldlM (addFile limits) s = .ok s') :
    (∀ file ∈ files, checkPath limits file.1 = .ok ()) ∧ s'.mount = s.mount ++ files ∧
      s'.names = s.names ++ files.map Prod.fst := by
  induction files generalizing s with
  | nil =>
      cases h
      exact ⟨nofun, (List.append_nil _).symm, (List.append_nil _).symm⟩
  | cons file files ih =>
      rw [List.foldlM_cons] at h
      obtain ⟨next, hone, hrest⟩ := bind_ok h
      obtain ⟨hpath, hmount, hnames⟩ := addFile_ok hone
      obtain ⟨hpaths, hmount', hnames'⟩ := ih hrest
      refine ⟨List.forall_mem_cons.mpr ⟨hpath, hpaths⟩, ?_, ?_⟩
      · rw [hmount', hmount, List.append_assoc, List.singleton_append]
      · rw [hnames', hnames, List.append_assoc, List.singleton_append, List.map_cons]

/-- A mount captures its files as they come. -/
theorem scanMount_ok (h : scanMount limits files s = .ok s') :
    s'.mount = files ∧ Accepted limits files := by
  obtain ⟨next, hfiles, hrest⟩ := bind_ok h
  obtain ⟨⟨⟩, hcollisions, hend⟩ := bind_ok hrest
  cases hend
  obtain ⟨hpaths, hmount, hnames⟩ := addFiles_ok hfiles
  refine ⟨hmount, hpaths, fun file hfile directory hdirectory hmem => ?_⟩
  have hname : file.1 ∈ s'.names := by
    rw [hnames]
    exact List.mem_map_of_mem hfile
  have hcheck := forM_ok hcollisions file.1 hname
  rw [checkCollision, if_pos] at hcheck
  · cases hcheck
  · rw [List.any_eq_true]
    refine ⟨directory, hdirectory, ?_⟩
    rw [decide_eq_true_iff, hnames]
    exact hmem

/-- What an accepted request has been checked for. -/
theorem validateCompile_ok (h : validateCompile limits supplied input = .ok job) :
    job.sources = input.files ∧ job.annotations = input.includeFiles.getD [] ∧
      Accepted limits input.files ∧ Accepted limits (input.includeFiles.getD []) := by
  rw [validateCompile] at h
  obtain ⟨_, -, h⟩ := bind_ok h
  obtain ⟨_, -, h⟩ := bind_ok h
  obtain ⟨_, -, h⟩ := bind_ok h
  obtain ⟨_, -, h⟩ := bind_ok h
  obtain ⟨_, -, h⟩ := bind_ok h
  obtain ⟨_, -, h⟩ := bind_ok h
  obtain ⟨_, -, h⟩ := bind_ok h
  obtain ⟨_, -, h⟩ := bind_ok h
  obtain ⟨sources, hsources, h⟩ := bind_ok h
  obtain ⟨annotations, hannotations, h⟩ := bind_ok h
  obtain ⟨_, -, h⟩ := bind_ok h
  obtain ⟨_, -, h⟩ := bind_ok h
  obtain ⟨_, -, h⟩ := bind_ok h
  cases h
  obtain ⟨hmount, haccepted⟩ := scanMount_ok hsources
  obtain ⟨hmount', haccepted'⟩ := scanMount_ok hannotations
  exact ⟨hmount, hmount', haccepted, haccepted'⟩

end

/-! ## The files a mount is staged as -/

/-- A mount's files as bytes. -/
def encoded (files : Files) : Record Bytes := files.map fun file => (file.1, file.2.encode)

/-- A mount's files under its directory. -/
def prefixed (mount : JsString) (files : Record Bytes) : Record Bytes :=
  files.map fun file => (mount ++ slash :: file.1, file.2)

section

variable {A : Type} {limits : Limits} {files annotations : Files} {record : Record A}
  {path directory mount : JsString} {parts : List JsString}

/-- The nodes of a path are its beginnings. -/
theorem mem_nodesOf : path ∈ nodesOf directory ↔
    ∃ parts ≠ [], parts <+: split directory ∧ path = join parts := by
  rw [nodesOf, List.mem_map]
  constructor
  · rintro ⟨i, -, rfl⟩
    refine ⟨(split directory).take (i + 1), ?_, List.take_prefix _ _, rfl⟩
    rw [ne_eq, List.take_eq_nil_iff, not_or]
    exact ⟨Nat.succ_ne_zero i, split_ne_nil directory⟩
  · rintro ⟨parts, hne, hpre, rfl⟩
    have hlength := List.length_pos_of_ne_nil hne
    refine ⟨parts.length - 1, List.mem_range.mpr ?_, ?_⟩
    · have := hpre.length_le
      omega
    · rw [Nat.sub_add_cancel hlength, ← List.prefix_iff_eq_take.mp hpre]

/-- The paths of different files are on the way to each other only through a collision. -/
theorem Accepted.apart (h : Accepted limits record) (hnodup : (record.map Prod.fst).Nodup) :
    record.Pairwise fun f g => ¬split f.1 <+: split g.1 ∧ ¬split g.1 <+: split f.1 := by
  have hone : ∀ f ∈ record, ∀ g ∈ record, f.1 ≠ g.1 → ¬split f.1 <+: split g.1 := by
    intro f hf g hg hne hpre
    have hlength : (split f.1).length ≠ (split g.1).length := fun heq =>
      hne (split_injective (hpre.eq_of_length heq))
    have hle := hpre.length_le
    have hpos := List.length_pos_of_ne_nil (split_ne_nil f.1)
    refine h.free g hg f.1 ?_ (List.mem_map_of_mem hf)
    rw [directoriesOf, List.mem_map]
    refine ⟨(split f.1).length - 1, List.mem_range.mpr (by omega), ?_⟩
    rw [Nat.sub_add_cancel hpos, ← List.prefix_iff_eq_take.mp hpre, join_split]
  refine (List.pairwise_map.mp hnodup).imp_of_mem fun {f g} hf hg hne => ?_
  exact ⟨hone f hf g hg hne, hone g hg f hf (Ne.symm hne)⟩

/-- The mount is one part more. -/
theorem split_below (hmount : slash ∉ mount) (path : JsString) :
    split (mount ++ slash :: path) = mount :: split path := by
  rw [split_append, split, List.splitOn_eq_singleton hmount]
  rfl

/-- Encoding keeps the paths. -/
theorem keys_encoded (files : Files) : (encoded files).map Prod.fst = files.map Prod.fst := by
  rw [encoded, List.map_map]
  rfl

/-- So encoded files are accepted as well. -/
theorem Accepted.encoded (h : Accepted limits files) : Accepted limits (encoded files) := by
  refine ⟨fun file hfile => ?_, fun file hfile => ?_⟩
  · obtain ⟨original, hmem, rfl⟩ := List.mem_map.mp hfile
    exact h.path original hmem
  · obtain ⟨original, hmem, rfl⟩ := List.mem_map.mp hfile
    rw [keys_encoded]
    exact h.free original hmem

/-- The two mounts. -/
theorem prefixed_text (files : Record Bytes) :
    prefixed (text "src") files = files.map (fun file => (text "src/" ++ file.1, file.2)) ∧
    prefixed (text "include") files =
      files.map (fun file => (text "include/" ++ file.1, file.2)) := by
  have hsrc : text "src/" = text "src" ++ [slash] := by decide +kernel
  have hinclude : text "include/" = text "include" ++ [slash] := by decide +kernel
  rw [hsrc, hinclude, prefixed, prefixed]
  simp

/-- Their paths differ, in one mount and across. -/
theorem nodup_prefixed {files annotations : Record Bytes} (hfiles : (files.map Prod.fst).Nodup)
    (hannotations : (annotations.map Prod.fst).Nodup) :
    ((prefixed (text "src") files ++ prefixed (text "include") annotations).map Prod.fst).Nodup := by
  have hkeys : ∀ (mount : JsString) (files : Record Bytes), (prefixed mount files).map Prod.fst =
      (files.map Prod.fst).map (mount ++ slash :: ·) := fun mount files => by
    rw [prefixed, List.map_map, List.map_map]
    rfl
  have hinjective : ∀ mount : JsString, Function.Injective (mount ++ slash :: ·) :=
    fun mount a b hab => (List.cons.inj (List.append_cancel_left hab)).2
  rw [List.map_append, hkeys, hkeys]
  refine List.nodup_append.mpr ⟨hfiles.map (hinjective _), hannotations.map (hinjective _), ?_⟩
  intro a ha b hb hab
  obtain ⟨path, -, rfl⟩ := List.mem_map.mp ha
  obtain ⟨path', -, rfl⟩ := List.mem_map.mp hb
  have hsplit := congrArg split hab
  rw [split_below (by decide), split_below (by decide)] at hsplit
  exact absurd (List.cons.inj hsplit).1 (by decide +kernel)

/-- What is staged of a job: the files of both mounts, in some order. -/
theorem directFiles_perm {job : CompileJob} (hfiles : (job.sources.map Prod.fst).Nodup)
    (hannotations : (job.annotations.map Prod.fst).Nodup) :
    (directFiles job).Perm (prefixed (text "src") (encoded job.sources) ++
      prefixed (text "include") (encoded job.annotations)) := by
  have hcaptured : ∀ files : Files, (files.map Prod.fst).Nodup →
      (captured files).Perm files := fun files h => Properties.ofEntries_perm h
  have hsources := (hcaptured _ hfiles).map fun file => (text "src/" ++ file.1, file.2.encode)
  have hothers := (hcaptured _ hannotations).map fun file => (text "include/" ++ file.1, file.2.encode)
  have hsrc : text "src/" = 115 :: text "rc/" := by decide +kernel
  have hinclude : text "include/" = 105 :: text "nclude/" := by decide +kernel
  have hcopy := @copyFiles_below 115 (text "rc/") (by decide) job.sources
  have hcopy' := @copyFiles_below 105 (text "nclude/") (by decide) job.annotations
  rw [← hsrc] at hcopy
  rw [← hinclude] at hcopy'
  have hpreed := (prefixed_text (encoded job.sources)).1
  have hpreed' := (prefixed_text (encoded job.annotations)).2
  rw [encoded, List.map_map] at hpreed hpreed'
  have hboth := hsources.append hothers
  rw [show (job.sources.map fun file => (text "src/" ++ file.1, file.2.encode)) =
      prefixed (text "src") (encoded job.sources) from hpreed.symm,
    show (job.annotations.map fun file => (text "include/" ++ file.1, file.2.encode)) =
      prefixed (text "include") (encoded job.annotations) from hpreed'.symm] at hboth
  refine List.Perm.trans ?_ hboth
  have hnodup := nodup_prefixed (by rw [keys_encoded]; exact hfiles)
    (by rw [keys_encoded]; exact hannotations)
  have hall := (hboth.map Prod.fst).nodup_iff.mpr hnodup
  rw [directFiles, hcopy, hcopy']
  have hfirst : ((captured job.sources).map fun file => (text "src/" ++ file.1, file.2.encode)).map
      Prod.fst |>.Nodup := by
    rw [List.map_append] at hall
    exact (List.nodup_append.mp hall).1
  have hone := Properties.ofEntries_perm hfirst
  refine (Properties.extend_perm ?_).trans (hone.append_right _)
  exact ((hone.append_right _).map Prod.fst).nodup_iff.mpr hall

end

/-! ## Staging both mounts -/

section

variable {N : Type} {limits : Limits} {files : Record Bytes} {mount : JsString}

/-- Staging does not depend on the order. -/
theorem Stageable.perm {files' : Record Bytes} (h : Stageable N files) (hperm : files.Perm files') :
    Stageable N files' := by
  refine ⟨fun file hfile => h.names file (hperm.mem_iff.mpr hfile), ?_⟩
  exact h.apart.perm hperm fun hab => ⟨hab.2, hab.1⟩

/-- What was accepted stages. -/
theorem Accepted.stageable_prefixed (h : Accepted limits files)
    (hnodup : (files.map Prod.fst).Nodup) (hmount : slash ∉ mount)
    (hname : checkName (N := N) mount = .ok ()) : Stageable N (prefixed mount files) := by
  refine ⟨fun file hfile part hpart => ?_, ?_⟩
  · obtain ⟨original, hmem, rfl⟩ := List.mem_map.mp hfile
    rw [split_below hmount] at hpart
    rcases List.mem_cons.mp hpart with rfl | hpart
    · exact hname
    · exact checkName_part (h.path original hmem) hpart
  · refine List.pairwise_map.mpr ((h.apart hnodup).imp fun hapart => ?_)
    rw [split_below hmount, split_below hmount, List.cons_prefix_cons, List.cons_prefix_cons]
    exact ⟨fun hpre => hapart.1 hpre.2, fun hpre => hapart.2 hpre.2⟩

/-- The mounts of the compiler, before any file. -/
def mountPoints : List Place := [[], [text "src"], [text "include"]]

/-- The tree before staging is its root. -/
theorem grown_root (readonly : Bool) : Grown readonly ⟨[.directory []]⟩ [[]] (· = []) [] := by
  have hnil : ∀ id : Nat, contentsOf ⟨[.directory []]⟩ id = [] := fun id => by
    rcases id with _ | id
    · rfl
    · rfl
  refine ⟨⟨rfl, List.nodup_singleton _, rfl, fun id name child => ?_, fun id => ?_,
    fun p name hmem => ?_, fun id => ?_⟩, fun p => List.mem_singleton, fun id data ro => ?_⟩
  · rw [hnil]
    refine iff_of_false List.not_mem_nil ?_
    rintro ⟨p, -, hchild⟩
    exact absurd (List.mem_singleton.mp (List.mem_of_getElem? hchild)) (by simp)
  · rw [hnil]
    exact List.nodup_nil
  · exact absurd (List.mem_singleton.mp hmem) (by simp)
  · rcases id with _ | id
    · nofun
    · nofun
  · refine iff_of_false ?_ ?_
    · rcases id with _ | id
      · nofun
      · nofun
    · rintro ⟨p, -, hmem, -⟩
      exact absurd hmem List.not_mem_nil

/-- The two mount points are created first. -/
theorem grown_mountPoints : Grown true
    ⟨[.directory [(text "src", 1), (text "include", 2)], .directory [], .directory []]⟩
    mountPoints (· ∈ mountPoints) [] := by
  have hsrc : ¬[] ++ [text "src"] = ([] : Place) := nofun
  have hsource : Grown true (Filesystem.create ⟨[.directory []]⟩ 0 (text "src") (.directory []))
      ([[]] ++ [[] ++ [text "src"]]) (fun q => q = [] ∨ q = [] ++ [text "src"]) ([] ++ []) :=
    (grown_root true).create rfl ⟨[], rfl⟩ hsrc (fun q data hmem => absurd hmem List.not_mem_nil)
      (.inl rfl)
  have hinclude : ¬([] ++ [text "include"] = ([] : Place) ∨
      [] ++ [text "include"] = [] ++ [text "src"]) := by
    decide +kernel
  have hboth : Grown true (Filesystem.create (Filesystem.create ⟨[.directory []]⟩ 0 (text "src")
      (.directory [])) 0 (text "include") (.directory []))
      ([[]] ++ [[] ++ [text "src"]] ++ [[] ++ [text "include"]])
      (fun q => (q = [] ∨ q = [] ++ [text "src"]) ∨ q = [] ++ [text "include"]) ([] ++ [] ++ []) :=
    hsource.create rfl ⟨_, rfl⟩ hinclude (fun q data hmem => absurd hmem List.not_mem_nil) (.inl rfl)
  have hfs : ((⟨[.directory []]⟩ : Filesystem).create 0 (text "src") (.directory [])).create 0
      (text "include") (.directory []) =
      ⟨[.directory [(text "src", 1), (text "include", 2)], .directory [], .directory []]⟩ := by
    decide +kernel
  rw [hfs] at hboth
  exact hboth.congr fun q => by simp [mountPoints, or_assoc]

/-- Accepted files of both mounts, in any order, make a tree. -/
theorem stageFiles_grown {sources annotations copies : Record Bytes}
    (hsources : Accepted limits sources) (hannotations : Accepted limits annotations)
    (hnodup : (sources.map Prod.fst).Nodup) (hnodup' : (annotations.map Prod.fst).Nodup)
    (hcopies : copies.Perm (prefixed (text "src") sources ++ prefixed (text "include") annotations)) :
    ∃ fs places, stageFiles (N := N) copies true = .ok fs ∧
      Grown true fs places (fun q => q ∈ mountPoints ∨ ∃ file ∈ copies, q <+: split file.1)
        (copies.map fun file => (split file.1, file.2)) := by
  have hsrc : slash ∉ text "src" := by decide +kernel
  have hinclude : slash ∉ text "include" := by decide +kernel
  have hmounts : ∀ file ∈ copies, ∃ path, split file.1 = text "src" :: split path ∨
      split file.1 = text "include" :: split path := by
    intro file hfile
    rcases List.mem_append.mp (hcopies.mem_iff.mp hfile) with hmem | hmem
    · obtain ⟨original, -, rfl⟩ := List.mem_map.mp hmem
      exact ⟨original.1, .inl (split_below hsrc original.1)⟩
    · obtain ⟨original, -, rfl⟩ := List.mem_map.mp hmem
      exact ⟨original.1, .inr (split_below hinclude original.1)⟩
  have hboth : Stageable N (prefixed (text "src") sources ++ prefixed (text "include") annotations) := by
    have hfirst := hsources.stageable_prefixed (N := N) hnodup hsrc rfl
    have hsecond := hannotations.stageable_prefixed (N := N) hnodup' hinclude rfl
    refine ⟨fun file hfile => ?_, List.pairwise_append.mpr ⟨hfirst.apart, hsecond.apart, ?_⟩⟩
    · rcases List.mem_append.mp hfile with hmem | hmem
      · exact hfirst.names file hmem
      · exact hsecond.names file hmem
    · intro file hfile other hother
      obtain ⟨original, -, rfl⟩ := List.mem_map.mp hfile
      obtain ⟨original', -, rfl⟩ := List.mem_map.mp hother
      rw [split_below hsrc, split_below hinclude, List.cons_prefix_cons, List.cons_prefix_cons]
      have hne : text "src" ≠ text "include" := by decide +kernel
      exact ⟨fun h => hne h.1, fun h => hne h.1.symm⟩
  have hfree : ∀ file ∈ copies, (∀ q (data : Bytes), (q, data) ∈ ([] : List (Place × Bytes)) →
      ¬q <+: split file.1) ∧ split file.1 ∉ mountPoints := by
    intro file hfile
    refine ⟨fun q data hmem => absurd hmem List.not_mem_nil, fun hmem => ?_⟩
    have hlength : ∀ p ∈ mountPoints, p.length ≤ 1 := by
      intro p hp
      simp only [mountPoints, List.mem_cons, List.not_mem_nil, or_false] at hp
      rcases hp with rfl | rfl | rfl
      · exact Nat.zero_le 1
      · exact Nat.le_refl 1
      · exact Nat.le_refl 1
    have hle := hlength _ hmem
    obtain ⟨path, hpath | hpath⟩ := hmounts file hfile
    all_goals
      have := List.length_pos_of_ne_nil (split_ne_nil path)
      rw [hpath, List.length_cons] at hle
      omega
  obtain ⟨fs, places, hok, hgrown⟩ := grown_mountPoints.stageFiles (N := N)
    (fun q data hmem => absurd hmem List.not_mem_nil) (hboth.perm hcopies.symm) hfree
  exact ⟨fs, places, hok, hgrown⟩

end

/-! ## Collecting a mount -/

/-- A mount of a tree holds some files and nothing else. -/
structure Holds (places : List Place) (done : List (Place × Bytes)) (mount : JsString)
    (files : Record Bytes) : Prop where
  place : ∀ q ≠ [], mount :: q ∈ places ↔ ∃ file ∈ files, q <+: split file.1
  file : ∀ q data, (mount :: q, data) ∈ done ↔ ∃ file ∈ files, q = split file.1 ∧ data = file.2

/-- The output limits let the files through: their paths, the files with the directories they
imply, and their bytes. -/
structure Room (limits : Limits) (files : Record Bytes) : Prop where
  paths : ∀ file ∈ files, utf8Size file.1 limits.pathBytes ≤ limits.pathBytes
  entries : (files.flatMap fun file => nodesOf file.1).dedup.length ≤ limits.outputEntries
  bytes : totalBytes files ≤ limits.outputBytes

section

variable {N : Type} {limits output : Limits} {places : List Place} {done : List (Place × Bytes)}
  {mount : JsString} {files : Record Bytes}

/-- What is below a mount are the beginnings of its paths. -/
theorem Holds.mem_below (h : Holds places done mount files) {q : Place} :
    q ∈ below places [mount] ↔
      ∃ parts ≠ [], q = mount :: parts ∧ ∃ file ∈ files, parts <+: split file.1 := by
  rw [TsSdk.mem_below]
  constructor
  · rintro ⟨hmem, ⟨parts, rfl⟩, hne⟩
    have hparts : parts ≠ [] := fun hnil => hne (by rw [hnil, List.append_nil])
    exact ⟨parts, hparts, rfl, (h.place parts hparts).mp hmem⟩
  · rintro ⟨parts, hne, rfl, hfile⟩
    refine ⟨(h.place parts hne).mpr hfile, List.prefix_append [mount] parts, fun heq => hne ?_⟩
    exact (List.cons.inj heq).2.symm

/-- The files below a mount are the files it was staged from. -/
theorem Holds.filterMap_perm (h : Holds places done mount files) (hplaces : places.Nodup)
    (hdone : (done.map Prod.fst).Nodup) (hfiles : (files.map Prod.fst).Nodup) :
    ((below places [mount]).filterMap (fileAt [mount] done)).Perm files := by
  have hfile : ∀ q path data, q ∈ below places [mount] → fileAt [mount] done q = some (path, data) →
      q = mount :: split path ∧ (path, data) ∈ files := by
    intro q path data hq heq
    obtain ⟨parts, hne, rfl, -⟩ := h.mem_below.mp hq
    rw [fileAt, Option.map_eq_some_iff] at heq
    obtain ⟨data', hlookup, heq⟩ := heq
    obtain ⟨file, hmem, rfl, rfl⟩ := (h.file parts data').mp ((Places.lookup_eq_some hdone).mp hlookup)
    rw [show (mount :: split file.1).drop [mount].length = split file.1 from rfl, join_split] at heq
    obtain ⟨rfl, rfl⟩ := Prod.mk.inj heq
    exact ⟨rfl, hmem⟩
  refine (List.perm_ext_iff_of_nodup ?_ (List.Nodup.of_map _ hfiles)).mpr fun file => ?_
  · -- A file's place is its path split.
    have hnodup := hplaces.filter (fun q => decide ([mount] <+: q ∧ [mount] ≠ q))
    refine List.pairwise_filterMap.mpr (hnodup.imp_of_mem fun {q q'} hq hq' hne => ?_)
    rintro ⟨path, data⟩ heq ⟨path', data'⟩ heq' hsame
    obtain ⟨rfl, rfl⟩ := Prod.mk.inj hsame
    exact hne ((hfile q _ _ hq heq).1.trans (hfile q' _ _ hq' heq').1.symm)
  · obtain ⟨path, data⟩ := file
    rw [List.mem_filterMap]
    constructor
    · rintro ⟨q, hq, heq⟩
      exact (hfile q path data hq heq).2
    · intro hmem
      have hdata := (h.file (split path) data).mpr ⟨(path, data), hmem, rfl, rfl⟩
      refine ⟨mount :: split path, h.mem_below.mpr ⟨split path, split_ne_nil path, rfl, (path, data), hmem,
        List.prefix_refl _⟩, ?_⟩
      rw [fileAt, (Places.lookup_eq_some hdone).mpr hdata, Option.map_some]
      exact congrArg some (Prod.ext (join_split path) rfl)

/-- The places below a mount are the files and the directories they imply. -/
theorem Holds.length_below (h : Holds places done mount files) (hplaces : places.Nodup) :
    (below places [mount]).length = (files.flatMap fun file => nodesOf file.1).dedup.length := by
  have hslash : ∀ (parts : Place) (path : JsString), parts <+: split path → ∀ part ∈ parts, slash ∉ part :=
    fun parts path hpre part hpart => (Text.mem_splitOn (hpre.subset hpart)).1
  have hperm : ((below places [mount]).map fun q => join (q.drop 1)).Perm
      (files.flatMap fun file => nodesOf file.1).dedup := by
    refine (List.perm_ext_iff_of_nodup ?_ (List.nodup_dedup _)).mpr fun path => ?_
    · refine List.Nodup.map_on (fun q hq q' hq' heq => ?_) (hplaces.filter _)
      obtain ⟨parts, hne, rfl, file, -, hpre⟩ := h.mem_below.mp hq
      obtain ⟨parts', hne', rfl, file', -, hpre'⟩ := h.mem_below.mp hq'
      have hsplit := congrArg split heq
      rw [show (mount :: parts).drop 1 = parts from rfl, show (mount :: parts').drop 1 = parts' from rfl,
        split_join hne (hslash _ _ hpre), split_join hne' (hslash _ _ hpre')] at hsplit
      rw [hsplit]
    · rw [List.mem_dedup, List.mem_flatMap, List.mem_map]
      constructor
      · rintro ⟨q, hq, rfl⟩
        obtain ⟨parts, hne, rfl, file, hmem, hpre⟩ := h.mem_below.mp hq
        exact ⟨file, hmem, mem_nodesOf.mpr ⟨parts, hne, hpre, rfl⟩⟩
      · rintro ⟨file, hmem, hnode⟩
        obtain ⟨parts, hne, hpre, rfl⟩ := mem_nodesOf.mp hnode
        exact ⟨mount :: parts, h.mem_below.mpr ⟨parts, hne, rfl, file, hmem, hpre⟩, rfl⟩
  rw [← hperm.length_eq, List.length_map]

/-- Files and directories are within the limits that were checked. -/
theorem Holds.fits (h : Holds places done mount files) (hplaces : places.Nodup)
    (hdone : (done.map Prod.fst).Nodup) (hfiles : (files.map Prod.fst).Nodup)
    (haccepted : Accepted limits files) (hroom : Room output files) :
    Fits N output places done [mount] := by
  have hpath : ∀ q ∈ below places [mount], checkPath output (join (q.drop [mount].length)) = .ok () := by
    intro q hq
    obtain ⟨parts, hne, rfl, file, hmem, hpre⟩ := h.mem_below.mp hq
    have hfile : checkPath output file.1 = .ok () :=
      checkPath_ok.mpr ⟨hroom.paths file hmem, (checkPath_ok.mp (haccepted.path file hmem)).2⟩
    exact checkPath_prefix hfile hne hpre
  refine ⟨fun q hq name hname => ?_, fun q hq => (checkPath_ok.mp (hpath q hq)).1, hpath, ?_, ?_⟩
  · obtain ⟨parts, hne, rfl, file, hmem, hpre⟩ := h.mem_below.mp hq
    obtain ⟨directories, last, rfl⟩ := (List.eq_nil_or_concat parts).resolve_left hne
    rw [List.concat_eq_append, ← List.cons_append, List.getLast?_concat, Option.mem_some_iff] at hname
    subst hname
    refine checkName_part (haccepted.path file hmem) (hpre.subset ?_)
    rw [List.concat_eq_append]
    exact List.mem_append_right _ (List.mem_singleton_self _)
  · rw [h.length_below hplaces]
    exact hroom.entries
  · rw [totalBytes_perm (h.filterMap_perm hplaces hdone hfiles)]
    exact hroom.bytes

/-- Collecting a mount of a tree gives an object with the mount's files. -/
def Restored (N : Type) (output : Limits) (fs : Filesystem) (mount : JsString)
    (files : Record Bytes) : Prop :=
  ∃ id, (contentsOf fs 0).lookup mount = some id ∧ ∃ collected,
    collectFiles (N := N) output fs id = .ok collected ∧
    (Properties.ofEntries collected).Perm files

/-- Collecting a mount gives its files. -/
theorem Holds.restored {fs : Filesystem} {readonly : Bool} {present : Place → Prop}
    (hgrown : Grown readonly fs places present done) (hmount : [mount] ∈ places)
    (h : Holds places done mount files) (hdone : (done.map Prod.fst).Nodup)
    (hfiles : (files.map Prod.fst).Nodup) (haccepted : Accepted limits files)
    (hroom : Room output files) : Restored N output fs mount files := by
  obtain ⟨id, hid⟩ := List.mem_iff_getElem?.mp hmount
  have hfits : Fits N output places done [mount] :=
    h.fits hgrown.laid.nodup hdone hfiles haccepted hroom
  obtain ⟨collected, hok, hperm⟩ := collectFiles_staged hgrown hdone hfits hid
  have hall := hperm.trans (h.filterMap_perm hgrown.laid.nodup hdone hfiles)
  have hkeys := (hall.map Prod.fst).nodup_iff.mpr hfiles
  exact ⟨id, (hgrown.laid.lookup hgrown.laid.root).mpr hid, collected, hok,
    (Properties.ofEntries_perm hkeys).trans hall⟩

end

section

variable {sources annotations copies : Record Bytes}
  {places : List Place}

/-- What a tree holds below one of two mounts. -/
theorem holds_mount {mount other : JsString} {files others : Record Bytes} (hne : mount ≠ other)
    (hmount : slash ∉ mount) (hother : slash ∉ other)
    (hcopies : ∀ file, file ∈ copies ↔ file ∈ prefixed mount files ∨ file ∈ prefixed other others)
    (hplaces : ∀ q, q ∈ places ↔ q ∈ mountPoints ∨ ∃ file ∈ copies, q <+: split file.1) :
    Holds places (copies.map fun file => (split file.1, file.2)) mount files := by
  have hshort : ∀ q : Place, q ≠ [] → mount :: q ∉ mountPoints := by
    intro q hq hmem
    simp only [mountPoints, List.mem_cons, List.not_mem_nil, or_false, List.cons.injEq] at hmem
    rcases hmem with h | h | h
    · cases h
    · exact hq h.2
    · exact hq h.2
  have hin : ∀ original ∈ files, (mount ++ slash :: original.1, original.2) ∈ copies :=
    fun original hmem => (hcopies _).mpr (.inl (List.mem_map_of_mem hmem))
  refine ⟨fun q hq => ?_, fun q data => ?_⟩
  · rw [hplaces, or_iff_right (hshort q hq)]
    constructor
    · rintro ⟨file, hfile, hpre⟩
      rcases (hcopies file).mp hfile with hmem | hmem
      · obtain ⟨original, horiginal, rfl⟩ := List.mem_map.mp hmem
        rw [split_below hmount, List.cons_prefix_cons] at hpre
        exact ⟨original, horiginal, hpre.2⟩
      · obtain ⟨original, -, rfl⟩ := List.mem_map.mp hmem
        rw [split_below hother, List.cons_prefix_cons] at hpre
        exact absurd hpre.1 hne
    · rintro ⟨original, horiginal, hpre⟩
      refine ⟨_, hin original horiginal, ?_⟩
      rw [split_below hmount]
      exact List.cons_prefix_cons.mpr ⟨rfl, hpre⟩
  · rw [List.mem_map]
    constructor
    · rintro ⟨file, hfile, heq⟩
      obtain ⟨hplace, rfl⟩ := Prod.mk.inj heq
      rcases (hcopies file).mp hfile with hmem | hmem
      · obtain ⟨original, horiginal, rfl⟩ := List.mem_map.mp hmem
        rw [split_below hmount] at hplace
        exact ⟨original, horiginal, (List.cons.inj hplace).2.symm, rfl⟩
      · obtain ⟨original, -, rfl⟩ := List.mem_map.mp hmem
        rw [split_below hother] at hplace
        exact absurd (List.cons.inj hplace).1 (Ne.symm hne)
    · rintro ⟨original, horiginal, rfl, rfl⟩
      exact ⟨_, hin original horiginal, by rw [split_below hmount]⟩

/-- What a tree of both mounts holds below each. -/
theorem holds_mounts
    (hcopies : copies.Perm (prefixed (text "src") sources ++ prefixed (text "include") annotations))
    (hplaces : ∀ q, q ∈ places ↔ q ∈ mountPoints ∨ ∃ file ∈ copies, q <+: split file.1) :
    Holds places (copies.map fun file => (split file.1, file.2)) (text "src") sources ∧
    Holds places (copies.map fun file => (split file.1, file.2)) (text "include") annotations := by
  have hsrc : slash ∉ text "src" := by decide +kernel
  have hinclude : slash ∉ text "include" := by decide +kernel
  have hne : text "src" ≠ text "include" := by decide +kernel
  have hmem : ∀ file, file ∈ copies ↔
      file ∈ prefixed (text "src") sources ∨ file ∈ prefixed (text "include") annotations :=
    fun file => hcopies.mem_iff.trans List.mem_append
  exact ⟨holds_mount hne hsrc hinclude hmem hplaces,
    holds_mount (Ne.symm hne) hinclude hsrc (fun file => (hmem file).trans or_comm) hplaces⟩

end

/-- An accepted request stages as a tree whose mounts collect to its files. -/
theorem collect_staged (N : Type) {limits : Limits} {supplied : List Language}
    {input : CompileRequest} {job : CompileJob} (hfiles : (input.files.map Prod.fst).Nodup)
    (hannotations : ((input.includeFiles.getD []).map Prod.fst).Nodup)
    (h : validateCompile limits supplied input = .ok job) :
    ∃ fs, stageFiles (N := N) (directFiles job) true = .ok fs ∧ (∃ places, Laid fs places) ∧
      ∀ output,
        (Room output (encoded input.files) →
          Restored N output fs (text "src") (encoded input.files)) ∧
        (Room output (encoded (input.includeFiles.getD [])) →
          Restored N output fs (text "include") (encoded (input.includeFiles.getD []))) := by
  obtain ⟨hsources, hothers, haccepted, haccepted'⟩ := validateCompile_ok h
  have hcopies := @directFiles_perm job (by rw [hsources]; exact hfiles)
    (by rw [hothers]; exact hannotations)
  rw [hsources, hothers] at hcopies
  have hkeys : ((encoded input.files).map Prod.fst).Nodup := by
    rw [keys_encoded]
    exact hfiles
  have hkeys' : ((encoded (input.includeFiles.getD [])).map Prod.fst).Nodup := by
    rw [keys_encoded]
    exact hannotations
  obtain ⟨fs, places, hok, hgrown⟩ := stageFiles_grown (N := N) haccepted.encoded haccepted'.encoded
    hkeys hkeys' hcopies
  obtain ⟨hsrc, hinclude⟩ := holds_mounts hcopies hgrown.place
  have hdone : (((directFiles job).map fun file => (split file.1, file.2)).map Prod.fst).Nodup := by
    have hall := (hcopies.map Prod.fst).nodup_iff.mpr (nodup_prefixed hkeys hkeys')
    have hsplit : ((directFiles job).map fun file => (split file.1, file.2)).map Prod.fst =
        ((directFiles job).map Prod.fst).map split := by
      rw [List.map_map, List.map_map]
      rfl
    rw [hsplit]
    exact hall.map split_injective
  have hmount : ∀ p ∈ mountPoints, p ∈ places := fun p hmem => (hgrown.place p).mpr (.inl hmem)
  refine ⟨fs, hok, ⟨places, hgrown.laid⟩, fun output => ⟨fun hroom => ?_, fun hroom => ?_⟩⟩
  · exact hsrc.restored hgrown (hmount _ (by simp [mountPoints])) hdone hkeys haccepted.encoded hroom
  · exact hinclude.restored hgrown (hmount _ (by simp [mountPoints])) hdone hkeys' haccepted'.encoded hroom

end TsSdk
