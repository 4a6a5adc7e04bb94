import CapnpcWasm.Lib.Text
import CapnpcWasm.MemoryFs.Failure

/-!
# Staged mounts

What `newMemoryFS` builds from files whose paths are canonical and do not pass through one
another: every file under its name, and a directory at the root and at every name that a file's
path passes through.  Nothing else is there, and the snapshot is the files again.
-/

namespace MemoryFs

open Sdk

/-! ## Names in a directory -/

section

variable {name directory : Name} {parts : List Name}

theorem split_append (directory rest : Name) :
    split (directory ++ slash :: rest) = split directory ++ split rest := by
  rw [split, List.splitOn_append_cons_self]
  rfl

theorem split_ne_nil (name : Name) : split name ≠ [] := List.splitOn_ne_nil slash name

theorem join_append (h : parts ≠ []) {others : List Name} (h' : others ≠ []) :
    join (parts ++ others) = join parts ++ slash :: join others := Text.intercalate_append h h'

/-- The ancestors of a name are the directories its path passes through. -/
theorem mem_ancestors : directory ∈ ancestors name ↔ ∃ rest, name = directory ++ slash :: rest := by
  rw [ancestors, List.mem_map]
  constructor
  · rintro ⟨i, hi, rfl⟩
    have hlt : i + 1 < (split name).length := by
      have := List.mem_range.mp hi
      omega
    refine ⟨join ((split name).drop (i + 1)), ?_⟩
    rw [← join_append (by simp [split_ne_nil]) (by simp [hlt]), List.take_append_drop, join_split]
  · rintro ⟨rest, rfl⟩
    have hlength := List.length_pos_of_ne_nil (split_ne_nil directory)
    have hrest := List.length_pos_of_ne_nil (split_ne_nil rest)
    refine ⟨(split directory).length - 1, ?_, ?_⟩
    · rw [split_append, List.length_append, List.mem_range]
      omega
    · rw [Nat.sub_add_cancel hlength, split_append, List.take_left, join_split]

theorem canonical_ne_dot (h : Canonical name) : name ≠ dot := by
  rintro rfl
  have hplain : Plain dot := h.plain dot (by decide)
  exact hplain.2.1 rfl

theorem canonical_ancestor (h : Canonical name) (ha : directory ∈ ancestors name) :
    Canonical directory := by
  obtain ⟨rest, rfl⟩ := mem_ancestors.mp ha
  have hfit := h.fit
  rw [split_append] at hfit
  have hparts : Fit (split directory) := fun part hp => hfit part (List.mem_append_left _ hp)
  rw [← join_split directory]
  exact hparts.canonical (split_ne_nil directory)

end

/-! ## Staging -/

/-- Files with canonical paths, none of which passes through another. -/
structure Stageable (files : Contents) : Prop where
  canonical : ∀ name ∈ files.keys, Canonical name
  free : ∀ name ∈ files.keys, ∀ directory ∈ ancestors name, directory ∉ files.keys

/-- A mount with some of the files staged: what stands at each name. -/
structure Staged (files : Contents) (staged : List Name) (d : Disk) : Prop where
  linked : d.Linked
  file : ∀ name ∈ staged, ∃ n, d.lookup name = some n ∧ d.isDir n = false ∧
    (d.deref n).data = (files.lookup name).getD []
  directory : ∀ name, name = dot ∨ (∃ file ∈ staged, name ∈ ancestors file) →
    ∃ n, d.lookup name = some n ∧ d.isDir n = true
  only : ∀ name n, d.lookup name = some n →
    name ∈ staged ∨ name = dot ∨ ∃ file ∈ staged, name ∈ ancestors file

section

variable {files : Contents} {staged : List Name} {d : Disk} {name : Name}

theorem isDir_add (d : Disk) (name : Name) (mode : FileMode) (data : List UInt8) :
    (d.add name mode data).1.isDir d.heap.length = mode.dir := by
  rw [Disk.isDir, deref_add]

/-- What a new node leaves of the names there were. -/
theorem Disk.Linked.lookup_add_of_ne {mode : FileMode} {data : List UInt8} {other : Name}
    {n : Pointer} (h : d.Linked) (hne : other ≠ name) (hn : d.lookup other = some n) :
    (d.add name mode data).1.lookup other = some n ∧
      (d.add name mode data).1.deref n = d.deref n :=
  ⟨by rw [lookup_add, if_neg hne, hn], deref_add_of_lt (h other n hn)⟩

/-- The directories added by one file: those that were missing, on a mount that has none of them
as a file. -/
structure Extended (directories : List Name) (d d' : Disk) : Prop where
  linked : d'.Linked
  kept : ∀ name n, d.lookup name = some n → d'.lookup name = some n ∧ d'.deref n = d.deref n
  directory : ∀ name ∈ directories, d.lookup name = none →
    ∃ n, d'.lookup name = some n ∧ d'.isDir n = true
  only : ∀ name n, d'.lookup name = some n → d.lookup name = some n ∨ name ∈ directories

theorem addDirectories_extended (h : d.Linked) (directories : List Name) :
    Extended directories d (directories.foldl (fun d directory =>
      if (d.lookup directory).isNone then (d.add directory (.directory 0o755) []).1 else d) d) := by
  induction directories generalizing d with
  | nil =>
      exact ⟨h, fun _ _ hn => ⟨hn, rfl⟩, fun _ hmem => absurd hmem List.not_mem_nil,
        fun _ _ hn => .inl hn⟩
  | cons directory directories ih =>
      rw [List.foldl_cons]
      split
      · next hnone =>
        have hnone : d.lookup directory = none := Option.isNone_iff_eq_none.mp hnone
        have hadd : (d.add directory (.directory 0o755) []).1.Linked := h.add
        obtain ⟨hlinked, hkept, hdirectory, honly⟩ := ih hadd
        refine ⟨hlinked, fun name n hn => ?_, fun name hmem hmissing => ?_, fun name n hn => ?_⟩
        · have hne : name ≠ directory := by
            rintro rfl
            rw [hnone] at hn
            cases hn
          obtain ⟨hlookup, hderef⟩ := h.lookup_add_of_ne hne hn
          exact ⟨(hkept name n hlookup).1, (hkept name n hlookup).2.trans hderef⟩
        · by_cases heq : name = directory
          · obtain ⟨hlookup, hderef⟩ := hkept name d.heap.length (by rw [lookup_add, if_pos heq])
            exact ⟨_, hlookup, by rw [Disk.isDir, hderef, deref_add]; rfl⟩
          · refine hdirectory name ((List.mem_cons.mp hmem).resolve_left heq) ?_
            rw [lookup_add, if_neg heq, hmissing]
        · rcases honly name n hn with hn | hmem
          · rw [lookup_add] at hn
            split at hn
            · next heq => exact .inr (List.mem_cons.mpr (.inl heq))
            · exact .inl hn
          · exact .inr (List.mem_cons_of_mem _ hmem)
      · next hsome =>
        obtain ⟨hlinked, hkept, hdirectory, honly⟩ := ih h
        refine ⟨hlinked, hkept, fun name hmem hmissing => ?_, fun name n hn => ?_⟩
        · rcases List.mem_cons.mp hmem with rfl | hmem
          · exact absurd (Option.isNone_iff_eq_none.mpr hmissing) hsome
          · exact hdirectory name hmem hmissing
        · rcases honly name n hn with hn | hmem
          · exact .inl hn
          · exact .inr (List.mem_cons_of_mem _ hmem)

/-- One more file, whose path neither passes through a staged one nor is passed through. -/
theorem Staged.stage (h : Staged files staged d) (hfiles : Stageable files) (hname : name ∈ files.keys)
    (hstaged : ∀ other ∈ staged, other ∈ files.keys) (hnew : name ∉ staged) :
    Staged files (staged ++ [name]) (Disk.stage files d name) := by
  obtain ⟨hlinked, hfile, hdirectory, honly⟩ := h
  -- the name is free: it is no staged file, and no file is below another
  have hnone : d.lookup name = none := by
    by_contra hsome
    obtain ⟨n, hn⟩ := Option.ne_none_iff_exists'.mp hsome
    rcases honly name n hn with hmem | heq | ⟨other, hother, hancestor⟩
    · exact hnew hmem
    · exact canonical_ne_dot (hfiles.canonical name hname) heq
    · exact hfiles.free other (hstaged other hother) name hancestor hname
  obtain ⟨hlinked', hkept, hadded, honly'⟩ := addDirectories_extended hlinked (ancestors name)
  rw [Disk.stage]
  generalize (ancestors name).foldl _ d = d' at hlinked' hkept hadded honly'
  have hself : name ∉ ancestors name := fun hmem => hfiles.free name hname name hmem hname
  have hnone' : d'.lookup name = none := by
    by_contra hsome
    obtain ⟨n, hn⟩ := Option.ne_none_iff_exists'.mp hsome
    rcases honly' name n hn with hn | hmem
    · rw [hnone] at hn
      cases hn
    · exact hself hmem
  have hne : ∀ other n, d'.lookup other = some n → other ≠ name := by
    rintro other n hn rfl
    rw [hnone'] at hn
    cases hn
  refine ⟨hlinked'.add, fun other hmem => ?_, fun other hother => ?_, fun other n hn => ?_⟩
  · rcases List.mem_append.mp hmem with hmem | hmem
    · obtain ⟨n, hn, hregular, hdata⟩ := hfile other hmem
      obtain ⟨hn', hderef⟩ := hkept other n hn
      obtain ⟨hlookup, hderef'⟩ := hlinked'.lookup_add_of_ne (hne other n hn') hn'
      refine ⟨n, hlookup, ?_, ?_⟩
      · rw [Disk.isDir, hderef', hderef]
        exact hregular
      · rw [hderef', hderef, hdata]
    · rw [List.mem_singleton.mp hmem]
      exact ⟨d'.heap.length, by rw [lookup_add, if_pos rfl], isDir_add d' name _ _,
        by rw [deref_add]⟩
  · have hd' : ∃ n, d'.lookup other = some n ∧ d'.isDir n = true := by
      by_cases hold : other = dot ∨ ∃ file ∈ staged, other ∈ ancestors file
      · obtain ⟨n, hn, hdir⟩ := hdirectory other hold
        obtain ⟨hn', hderef⟩ := hkept other n hn
        exact ⟨n, hn', by rw [Disk.isDir, hderef]; exact hdir⟩
      · have hancestor : other ∈ ancestors name := by
          rcases hother with heq | ⟨file, hmem, hancestor⟩
          · exact absurd (.inl heq) hold
          · rcases List.mem_append.mp hmem with hmem | hmem
            · exact absurd (.inr ⟨file, hmem, hancestor⟩) hold
            · rwa [List.mem_singleton.mp hmem] at hancestor
        refine hadded other hancestor ?_
        by_contra hsome
        obtain ⟨n, hn⟩ := Option.ne_none_iff_exists'.mp hsome
        rcases honly other n hn with hmem | hroot | hdir
        · exact hfiles.free name hname other hancestor (hstaged other hmem)
        · exact hold (.inl hroot)
        · exact hold (.inr hdir)
    obtain ⟨n, hn, hdir⟩ := hd'
    obtain ⟨hlookup, hderef⟩ := hlinked'.lookup_add_of_ne (hne other n hn) hn
    exact ⟨n, hlookup, by rw [Disk.isDir, hderef]; exact hdir⟩
  · rw [lookup_add] at hn
    split at hn
    · next heq => exact .inl (List.mem_append_right _ (by rw [heq]; exact List.mem_singleton_self _))
    · rcases honly' other n hn with hn | hancestor
      · rcases honly other n hn with hmem | hroot | ⟨file, hmem, hancestor⟩
        · exact .inl (List.mem_append_left _ hmem)
        · exact .inr (.inl hroot)
        · exact .inr (.inr ⟨file, List.mem_append_left _ hmem, hancestor⟩)
      · exact .inr (.inr ⟨name, List.mem_append_right _ (List.mem_singleton_self _), hancestor⟩)

theorem Staged.foldl {names : List Name} (h : Staged files staged d) (hfiles : Stageable files)
    (hstaged : ∀ other ∈ staged ++ names, other ∈ files.keys) (hnew : (staged ++ names).Nodup) :
    Staged files (staged ++ names) (names.foldl (Disk.stage files) d) := by
  induction names generalizing staged d with
  | nil =>
      rw [List.append_nil]
      exact h
  | cons name names ih =>
      have hsplit : staged ++ name :: names = staged ++ [name] ++ names := by simp
      have hstep := h.stage hfiles (hstaged name (by simp))
        (fun other hmem => hstaged other (List.mem_append_left _ hmem))
        (fun hmem => (List.nodup_append.mp hnew).2.2 name hmem name List.mem_cons_self rfl)
      rw [hsplit] at hstaged hnew ⊢
      exact ih hstep hstaged hnew

theorem unstaged_staged (host : Host) (limits : Limits) : Staged files [] (unstaged host limits) := by
  have hempty : ∀ name, (∅ : Names).lookup name = none := fun name => AList.lookup_empty name
  have hlookup : ∀ name, (unstaged host limits).lookup name =
      if name = dot then some host.heap.length else none := fun name => by
    rw [unstaged, lookup_add]
    split
    · rfl
    · exact hempty name
  refine ⟨Disk.Linked.add fun name n hn => ?_, fun _ hmem => absurd hmem List.not_mem_nil,
    fun name hname => ⟨host.heap.length, ?_, ?_⟩, fun name n hn => ?_⟩
  · change (∅ : Names).lookup name = some n at hn
    rw [hempty] at hn
    cases hn
  · rw [hlookup, if_pos]
    exact hname.resolve_right fun ⟨_, hmem, _⟩ => absurd hmem List.not_mem_nil
  · exact isDir_add _ dot (.directory 0o755) []
  · rw [hlookup] at hn
    split at hn
    · next heq => exact .inr (.inl heq)
    · cases hn

theorem mem_sortedKeys : name ∈ sortedKeys files ↔ name ∈ files.keys :=
  (List.perm_insertionSort (· ≤ ·) files.keys).mem_iff

theorem nodup_sortedKeys (files : Contents) : (sortedKeys files).Nodup :=
  (List.perm_insertionSort (· ≤ ·) files.keys).nodup_iff.mpr files.keys_nodup

/-- What a mount holds that was built from stageable files. -/
theorem newMemoryFS_staged (host : Host) (hfiles : Stageable files) (readOnly : Bool)
    (limits : Limits) :
    Staged files (sortedKeys files) (newMemoryFS host files readOnly limits) := by
  have hstart : Staged files [] (unstaged host limits) := unstaged_staged host limits
  have h : Staged files ([] ++ sortedKeys files)
      ((sortedKeys files).foldl (Disk.stage files) (unstaged host limits)) :=
    hstart.foldl hfiles (fun other hmem => mem_sortedKeys.mp hmem) (nodup_sortedKeys files)
  exact ⟨h.linked, h.file, h.directory, h.only⟩

/-- Nodes that are added for other mounts change nothing of a staged one. -/
theorem Staged.grow (h : Staged files staged d) {d' : Disk} (hnodes : d'.fs.nodes = d.fs.nodes)
    (hheap : d.heap <+: d'.heap) : Staged files staged d' := by
  have hlookup : ∀ name, d'.lookup name = d.lookup name := fun name => by
    rw [Disk.lookup, Disk.lookup, hnodes]
  have hderef : ∀ name n, d.lookup name = some n → d'.deref n = d.deref n := fun name n hn => by
    obtain ⟨rest, hrest⟩ := hheap
    have hlt := h.linked name n hn
    rw [Disk.deref, Disk.deref, ← hrest, List.getD_eq_getElem?_getD, List.getD_eq_getElem?_getD,
      List.getElem?_append_left hlt]
  refine ⟨fun name n hn => ?_, fun name hmem => ?_, fun name hmem => ?_, fun name n hn => ?_⟩
  · rw [hlookup] at hn
    exact Nat.lt_of_lt_of_le (h.linked name n hn) hheap.length_le
  · obtain ⟨n, hn, hdir, hdata⟩ := h.file name hmem
    exact ⟨n, by rw [hlookup, hn], by rw [Disk.isDir, hderef name n hn]; exact hdir,
      by rw [hderef name n hn, hdata]⟩
  · obtain ⟨n, hn, hdir⟩ := h.directory name hmem
    exact ⟨n, by rw [hlookup, hn], by rw [Disk.isDir, hderef name n hn]; exact hdir⟩
  · rw [hlookup] at hn
    exact h.only name n hn

/-- A mount is built without changing the nodes there were. -/
theorem newMemoryFS_heap (host : Host) (files : Contents) (readOnly : Bool) (limits : Limits) :
    host.heap <+: (newMemoryFS host files readOnly limits).heap := by
  have hadd : ∀ (d : Disk) (name : Name) (mode : FileMode) (data : List UInt8),
      d.heap <+: (d.add name mode data).1.heap := fun d _ _ _ => List.prefix_append _ _
  have hstage : ∀ (d : Disk) (name : Name), d.heap <+: (Disk.stage files d name).heap := by
    intro d name
    rw [Disk.stage]
    refine List.IsPrefix.trans ?_ (hadd _ _ _ _)
    generalize ancestors name = directories
    induction directories generalizing d with
    | nil => exact List.prefix_refl _
    | cons directory directories ih =>
        rw [List.foldl_cons]
        split
        · exact (hadd d _ _ _).trans (ih _)
        · exact ih d
  have hfold : ∀ (names : List Name) (d : Disk), d.heap <+: (names.foldl (Disk.stage files) d).heap := by
    intro names
    induction names with
    | nil => exact fun d => List.prefix_refl _
    | cons name names ih => exact fun d => (hstage d name).trans (ih _)
  exact (List.prefix_append _ _).trans (hfold (sortedKeys files) (unstaged host limits))

/-- The directories of a mount are its root and the directories its files' paths pass through. -/
theorem Staged.isDir_iff (h : Staged files (sortedKeys files) d) :
    (∃ n, d.lookup name = some n ∧ d.isDir n = true) ↔
      name = dot ∨ ∃ file ∈ files.keys, name ∈ ancestors file := by
  constructor
  · rintro ⟨n, hn, hdir⟩
    rcases h.only name n hn with hmem | hother
    · obtain ⟨n', hn', hregular, -⟩ := h.file name hmem
      rw [hn] at hn'
      cases hn'
      rw [hdir] at hregular
      cases hregular
    · exact hother.imp_right fun ⟨file, hmem, ha⟩ => ⟨file, mem_sortedKeys.mp hmem, ha⟩
  · intro hother
    exact h.directory name (hother.imp_right fun ⟨file, hmem, ha⟩ =>
      ⟨file, mem_sortedKeys.mpr hmem, ha⟩)

/-- The snapshot of a mount is the files it was built from. -/
theorem Staged.mem_snapshot (h : Staged files (sortedKeys files) d) {data : List UInt8} :
    (name, data) ∈ d.snapshot ↔ files.lookup name = some data := by
  have hentry : ∀ n, (⟨name, n⟩ : Sigma fun _ : Name => Pointer) ∈ d.fs.nodes.entries ↔
      d.lookup name = some n := fun n => (AList.mem_lookup_iff).symm
  rw [Disk.snapshot, List.mem_map]
  constructor
  · rintro ⟨⟨other, n⟩, hmem, heq⟩
    obtain ⟨rfl, hdata⟩ := Prod.mk.inj heq
    obtain ⟨hmem, hregular⟩ := List.mem_filter.mp hmem
    have hn := (hentry n).mp hmem
    have hstaged : other ∈ sortedKeys files := by
      refine (h.only other n hn).resolve_right fun hdir => ?_
      obtain ⟨n', hn', hdir'⟩ := h.directory other hdir
      rw [hn] at hn'
      cases hn'
      simp [hdir'] at hregular
    obtain ⟨n', hn', -, hdata'⟩ := h.file other hstaged
    rw [hn] at hn'
    cases hn'
    have hsome := AList.lookup_isSome.mpr (mem_sortedKeys.mp hstaged)
    obtain ⟨data', hdata''⟩ := Option.isSome_iff_exists.mp hsome
    rw [hdata''] at hdata' ⊢
    rw [← hdata, hdata', Option.getD_some]
  · intro hdata
    have hkey : name ∈ files.keys := AList.lookup_isSome.mp (by rw [hdata]; rfl)
    obtain ⟨n, hn, hregular, hdata'⟩ := h.file name (mem_sortedKeys.mpr hkey)
    refine ⟨⟨name, n⟩, List.mem_filter.mpr ⟨(hentry n).mpr hn, by simp [hregular]⟩, ?_⟩
    rw [hdata', hdata, Option.getD_some]

/-- No name is in a snapshot twice. -/
theorem nodup_snapshot (d : Disk) : (d.snapshot.map Prod.fst).Nodup := by
  rw [Disk.snapshot, List.map_map]
  exact (d.fs.nodes.keys_nodup).sublist (List.filter_sublist.map Sigma.fst)

end

end MemoryFs
