import CapnpcWasm.TsSdk.Sizes

/-!
# Collecting any graph

A guest may leave directories that are shared or below themselves, and files with several
names.  `collectFiles` ends on every such graph, and returns exactly the files of those that
are trees of directories within the limits.
-/

namespace TsSdk

open Sdk

/-! ## Graphs -/

/-- What a guest can leave below a directory.  The names of a directory are the keys of a map. -/
structure Graph where
  fs : Filesystem
  root : InodeId
  rooted : fs.IsDirectory root
  distinct : ∀ id, ((contentsOf fs id).map Prod.fst).Nodup

/-- The names on the way to an inode, and the inode. -/
abbrev Entry := Place × InodeId

/-- The names lead from the root to the inode. -/
inductive Leads (g : Graph) : Place → InodeId → Prop where
  | root : Leads g [] g.root
  | entry {p : Place} {id : InodeId} {name : JsString} {child : InodeId} :
      Leads g p id → (name, child) ∈ contentsOf g.fs id → Leads g (p ++ [name]) child

/-- A name of one path segment. -/
structure Proper (name : JsString) : Prop where
  nonempty : name ≠ []
  dot : name ≠ text "."
  dotdot : name ≠ text ".."
  units : ∀ u ∈ name, u ≠ 92 ∧ u ≠ slash ∧ u ≠ 0

def isDirectory (fs : Filesystem) (id : InodeId) : Bool :=
  match fs.inodes[id]? with
  | some (.directory _) => true
  | _ => false

/-- The file an entry names, by its path. -/
def fileOf (fs : Filesystem) (e : Entry) : Option (JsString × Bytes) :=
  match fs.inodes[e.2]? with
  | some (.file data _) => some (join e.1, data)
  | _ => none

/-- A file or directory whose path is canonical and short enough. -/
structure Allowed (limits : Limits) (fs : Filesystem) (e : Entry) : Prop where
  names : ∀ name ∈ e.1, Proper name
  formed : isWellFormed (join e.1) = true
  size : (encodeText (join e.1)).length ≤ limits.pathBytes
  kind : isDirectory fs e.2 = true ∨ (fileOf fs e).isSome = true

/-- A graph whose directories have one path each, within the limits.  A file counts once for
each of its names. -/
structure Collectable (limits : Limits) (g : Graph) : Prop where
  once : ∀ p q id, isDirectory g.fs id = true → Leads g p id → Leads g q id → p = q
  allowed : ∀ p id, p ≠ [] → Leads g p id → Allowed limits g.fs (p, id)
  fits : ∃ entries : List Entry, entries.Nodup ∧
    (∀ e, e ∈ entries ↔ e.1 ≠ [] ∧ Leads g e.1 e.2) ∧
    entries.length ≤ limits.outputEntries ∧
    totalBytes (entries.filterMap (fileOf g.fs)) ≤ limits.outputBytes

section

variable {N : Type} {limits : Limits} {fs : Filesystem} {g : Graph} {name : JsString} {p : Place}
  {id : InodeId} {e : Entry} {c c' : Collecting}

theorem isDirectory_iff : isDirectory fs id = true ↔ fs.IsDirectory id := by
  rw [isDirectory, Filesystem.IsDirectory]
  split
  · next contents h => exact iff_of_true rfl ⟨contents, h⟩
  · next h => exact iff_of_false nofun fun ⟨contents, hcontents⟩ => h contents hcontents

theorem isDirectory_of_mem {entry : JsString × InodeId} (h : entry ∈ contentsOf fs id) :
    isDirectory fs id = true := by
  rw [contentsOf] at h
  split at h
  · next contents hinode => exact isDirectory_iff.mpr ⟨contents, hinode⟩
  · cases h

theorem fileOf_eq_some {path : JsString} {data : Bytes} : fileOf fs e = some (path, data) ↔
    ∃ readonly, fs.inodes[e.2]? = some (.file data readonly) ∧ path = join e.1 := by
  rw [fileOf]
  split
  · next data' readonly h =>
    rw [Option.some.injEq, Prod.mk.injEq]
    constructor
    · rintro ⟨rfl, rfl⟩
      exact ⟨readonly, h, rfl⟩
    · rintro ⟨readonly', h', rfl⟩
      rw [h] at h'
      injection h' with h'
      injection h' with h' _
      exact ⟨rfl, h'⟩
  · next h =>
    refine iff_of_false nofun ?_
    rintro ⟨readonly, h', -⟩
    exact h data readonly h'

/-- A directory is no file. -/
theorem fileOf_directory (h : isDirectory fs e.2 = true) : fileOf fs e = none := by
  obtain ⟨contents, hinode⟩ := isDirectory_iff.mp h
  rw [fileOf, hinode]

/-- An entry that is neither. -/
theorem not_allowed (hdirectory : isDirectory fs e.2 = false) (hfile : fileOf fs e = none) :
    ¬Allowed limits fs e := by
  intro h
  rcases h.kind with hkind | hkind
  · rw [hdirectory] at hkind
    cases hkind
  · rw [hfile] at hkind
    cases hkind

/-! ## One entry -/

theorem checkName_ok : checkName (N := N) name = .ok () ↔ Proper name := by
  rw [checkName]
  split
  · next h =>
    refine iff_of_false Checks.error_ne_ok fun hproper => ?_
    rcases h with h | h | h | h
    · exact hproper.nonempty h
    · exact hproper.dot h
    · exact hproper.dotdot h
    · obtain ⟨u, hu, hbad⟩ := List.any_eq_true.mp h
      obtain ⟨hbackslash, hslash, hnul⟩ := hproper.units u hu
      rcases decide_eq_true_iff.mp hbad with heq | heq | heq
      · exact hbackslash heq
      · exact hslash heq
      · exact hnul heq
  · next h =>
    refine iff_of_true rfl ⟨fun heq => h (.inl heq), fun heq => h (.inr (.inl heq)),
      fun heq => h (.inr (.inr (.inl heq))), fun u hu => ?_⟩
    have hunit : ¬(u = 92 ∨ u = 47 ∨ u = 0) := fun hbad =>
      h (.inr (.inr (.inr (List.any_eq_true.mpr ⟨u, hu, decide_eq_true_iff.mpr hbad⟩))))
    push Not at hunit
    exact hunit

/-- The path of proper names is split into them again. -/
theorem split_proper (hne : p ≠ []) (h : ∀ part ∈ p, Proper part) : split (join p) = p :=
  split_join hne fun part hpart hslash => ((h part hpart).units slash hslash).2.1 rfl

/-- The units of a joined path. -/
theorem mem_join {u : UInt16} (h : u ∈ join p) : u = slash ∨ ∃ part ∈ p, u ∈ part := by
  induction p with
  | nil => cases h
  | cons part p ih =>
      rcases p with _ | ⟨next, p⟩
      · rw [join, List.intercalate_singleton] at h
        exact .inr ⟨part, List.mem_cons_self, h⟩
      · have hcons : join (part :: next :: p) = part ++ [slash] ++ join (next :: p) :=
          List.intercalate_cons_cons
        rw [hcons, List.mem_append, List.mem_append, List.mem_singleton] at h
        rcases h with (h | h) | h
        · exact .inr ⟨part, List.mem_cons_self, h⟩
        · exact .inl h
        · obtain hslash | ⟨other, hother, hu⟩ := ih h
          · exact .inl hslash
          · exact .inr ⟨other, List.mem_cons_of_mem part hother, hu⟩

/-- The checks of a name and of its path, below directories with proper names. -/
theorem checks_iff (hproper : ∀ part ∈ p, Proper part) :
    (checkName (N := N) name = .ok () ∧
        utf8Size (join (p ++ [name])) limits.pathBytes ≤ limits.pathBytes ∧
        checkPath limits (join (p ++ [name])) = .ok ()) ↔
      (∀ part ∈ p ++ [name], Proper part) ∧ isWellFormed (join (p ++ [name])) = true ∧
        (encodeText (join (p ++ [name]))).length ≤ limits.pathBytes := by
  have hall : (∀ part ∈ p ++ [name], Proper part) ↔ Proper name := by
    rw [List.forall_mem_append, List.forall_mem_singleton]
    exact and_iff_right hproper
  have hne : p ++ [name] ≠ [] := List.append_ne_nil_of_right_ne_nil p (List.cons_ne_nil name [])
  rw [checkName_ok, utf8Size_le_iff, checkPath_ok, utf8Size_le_iff]
  constructor
  · rintro ⟨hname, hsize, -, -, hformed, -⟩
    exact ⟨hall.mpr hname, hformed, hsize⟩
  · rintro ⟨hparts, hformed, hsize⟩
    refine ⟨hall.mp hparts, hsize, hsize, fun u hu => ?_, hformed, ?_⟩
    · rcases mem_join hu with rfl | ⟨part, hpart, hunit⟩
      · exact ⟨by decide, by decide⟩
      · obtain ⟨hbackslash, -, hnul⟩ := (hparts part hpart).units u hunit
        exact ⟨hbackslash, hnul⟩
    · rw [split_proper hne hparts]
      exact fun part hpart => ⟨(hparts part hpart).nonempty, (hparts part hpart).dot,
        (hparts part hpart).dotdot⟩

/-- What is collected once an entry is read. -/
def Collecting.read (fs : Filesystem) (e : Entry) (c : Collecting) : Collecting where
  pending := (if isDirectory fs e.2 then [(e.2, above e.1)] else []) ++ c.pending
  visited := c.visited
  selected := c.selected ++ (fileOf fs e).toList
  bytes := c.bytes + totalBytes (fileOf fs e).toList
  entries := c.entries + 1

/-- An entry is read exactly when it is allowed and leaves the budgets intact. -/
theorem collectEntry_ok (hproper : ∀ part ∈ p, Proper part) (hroom : c.bytes ≤ limits.outputBytes) :
    collectEntry (N := N) limits fs (above p) c (name, id) = .ok c' ↔
      Allowed limits fs (p ++ [name], id) ∧ c.entries + 1 ≤ limits.outputEntries ∧
        c.bytes + totalBytes (fileOf fs (p ++ [name], id)).toList ≤ limits.outputBytes ∧
        c' = c.read fs (p ++ [name], id) := by
  have hchecks := @checks_iff N limits name p hproper
  rw [collectEntry]
  dsimp only
  rw [above_join]
  rcases hname : checkName (N := N) name with err | ⟨⟩
  · refine iff_of_false Checks.error_ne_ok fun hok => ?_
    have hfine := hchecks.mpr ⟨hok.1.names, hok.1.formed, hok.1.size⟩
    rw [hname] at hfine
    exact absurd hfine.1 Checks.error_ne_ok
  show (if _ then _ else _) = _ ↔ _
  by_cases hsize : limits.pathBytes < utf8Size (join (p ++ [name])) limits.pathBytes
  · rw [if_pos hsize]
    refine iff_of_false Checks.error_ne_ok fun hok => ?_
    have hfine := hchecks.mpr ⟨hok.1.names, hok.1.formed, hok.1.size⟩
    exact absurd hfine.2.1 (Nat.not_le.mpr hsize)
  rw [if_neg hsize]
  rcases hpath : checkPath limits (join (p ++ [name])) with err | ⟨⟩
  · refine iff_of_false Checks.error_ne_ok fun hok => ?_
    have hfine := hchecks.mpr ⟨hok.1.names, hok.1.formed, hok.1.size⟩
    rw [hpath] at hfine
    exact absurd hfine.2.2 Checks.error_ne_ok
  obtain ⟨hnames, hformed, hlength⟩ := hchecks.mp ⟨hname, Nat.le_of_not_lt hsize, hpath⟩
  show (if _ then _ else _) = _ ↔ _
  by_cases hentries : limits.outputEntries < c.entries + 1
  · rw [if_pos hentries]
    exact iff_of_false Checks.error_ne_ok fun hok => absurd hok.2.1 (Nat.not_le.mpr hentries)
  rw [if_neg hentries]
  rcases hinode : fs.inodes[id]? with _ | (⟨data, readonly⟩ | contents | _)
  · exact iff_of_false Checks.error_ne_ok fun hok => not_allowed (by rw [isDirectory, hinode])
      (by rw [fileOf, hinode]) hok.1
  · have hfile : fileOf fs (p ++ [name], id) = some (join (p ++ [name]), data) := by
      rw [fileOf, hinode]
    have hdirectory : isDirectory fs id = false := by rw [isDirectory, hinode]
    have hallowed : Allowed limits fs (p ++ [name], id) :=
      ⟨hnames, hformed, hlength, .inr (by rw [hfile]; rfl)⟩
    have htotal : totalBytes (fileOf fs (p ++ [name], id)).toList = data.length := by
      rw [hfile]
      rfl
    show (if _ then _ else _) = _ ↔ _
    rw [htotal]
    by_cases hbytes : limits.outputBytes < c.bytes + data.length
    · rw [if_pos hbytes]
      exact iff_of_false Checks.error_ne_ok fun hok => absurd hok.2.2.1 (Nat.not_le.mpr hbytes)
    · rw [if_neg hbytes]
      have hread : c.read fs (p ++ [name], id) = { c with
          entries := c.entries + 1, bytes := c.bytes + data.length
          selected := c.selected ++ [(join (p ++ [name]), data)] } := by
        rw [Collecting.read, htotal, hfile, hdirectory]
        rfl
      rw [hread]
      constructor
      · intro hok
        cases hok
        exact ⟨hallowed, Nat.le_of_not_lt hentries, Nat.le_of_not_lt hbytes, rfl⟩
      · rintro ⟨-, -, -, rfl⟩
        rfl
  · have hdirectory : isDirectory fs id = true := isDirectory_iff.mpr ⟨contents, hinode⟩
    have hfile : fileOf fs (p ++ [name], id) = none := fileOf_directory hdirectory
    have hallowed : Allowed limits fs (p ++ [name], id) := ⟨hnames, hformed, hlength, .inl hdirectory⟩
    have hread : c.read fs (p ++ [name], id) = { c with
        entries := c.entries + 1
        pending := (id, join (p ++ [name]) ++ text "/") :: c.pending } := by
      rw [Collecting.read, hfile, hdirectory, above_append, above_join]
      simp [totalBytes]
    rw [hread, hfile]
    constructor
    · intro hok
      cases hok
      exact ⟨hallowed, Nat.le_of_not_lt hentries, hroom, rfl⟩
    · rintro ⟨-, -, -, rfl⟩
      rfl
  · exact iff_of_false Checks.error_ne_ok fun hok => not_allowed (by rw [isDirectory, hinode])
      (by rw [fileOf, hinode]) hok.1

end

/-! ## The walk -/

/-- The entries of a directory. -/
def entriesOf (fs : Filesystem) (e : Entry) : List Entry :=
  (contentsOf fs e.2).map fun entry => (e.1 ++ [entry.1], entry.2)

/-- How far a walk over a graph is: the entries it has seen, those still to read of the directory
it is in, the pending directories and the read ones. -/
structure Reading (limits : Limits) (g : Graph) (c : Collecting)
    (seen todo pending done : List Entry) : Prop where
  entries : (seen ++ todo).Perm (done.flatMap (entriesOf g.fs))
  directories : (pending ++ done).Perm ((([], g.root) :: seen).filter fun e => isDirectory g.fs e.2)
  places : ((pending ++ done).map Prod.fst).Nodup
  leads : ∀ e ∈ pending ++ done, Leads g e.1 e.2
  stack : c.pending = pending.map fun e => (e.2, above e.1)
  visited : c.visited = done.map Prod.snd
  once : c.visited.Nodup
  allowed : ∀ e ∈ seen, Allowed limits g.fs e
  count : c.entries = seen.length
  selected : c.selected = seen.filterMap (fileOf g.fs)
  bytes : c.bytes = totalBytes c.selected
  enough : c.entries ≤ limits.outputEntries
  room : c.bytes ≤ limits.outputBytes

section

variable {N : Type} {limits : Limits} {g : Graph} {p q : Place} {id id' : InodeId} {d e : Entry}
  {c c' : Collecting} {seen todo pending done : List Entry}

theorem mem_entriesOf : e ∈ entriesOf g.fs d ↔
    ∃ name, e.1 = d.1 ++ [name] ∧ (name, e.2) ∈ contentsOf g.fs d.2 := by
  rw [entriesOf, List.mem_map]
  constructor
  · rintro ⟨⟨name, child⟩, hmem, rfl⟩
    exact ⟨name, rfl, hmem⟩
  · rintro ⟨name, hplace, hmem⟩
    exact ⟨(name, e.2), hmem, Prod.ext hplace.symm rfl⟩

/-- Directories at different places have their entries at different places. -/
theorem nodup_entries (h : (done.map Prod.fst).Nodup) :
    ((done.flatMap (entriesOf g.fs)).map Prod.fst).Nodup := by
  induction done with
  | nil => exact List.nodup_nil
  | cons d done ih =>
      rw [List.map_cons, List.nodup_cons] at h
      rw [List.flatMap_cons, List.map_append]
      refine List.nodup_append.mpr ⟨?_, ih h.2, ?_⟩
      · have hplaces : (entriesOf g.fs d).map Prod.fst =
            ((contentsOf g.fs d.2).map Prod.fst).map fun name => d.1 ++ [name] := by
          rw [entriesOf, List.map_map, List.map_map]
          rfl
        rw [hplaces]
        exact (g.distinct d.2).map fun a b hab => (List.cons.inj (List.append_cancel_left hab)).1
      · intro a ha b hb hab
        obtain ⟨e, he, rfl⟩ := List.mem_map.mp ha
        obtain ⟨e', he', rfl⟩ := List.mem_map.mp hb
        obtain ⟨d', hd', he'⟩ := List.mem_flatMap.mp he'
        obtain ⟨name, hplace, -⟩ := mem_entriesOf.mp he
        obtain ⟨name', hplace', -⟩ := mem_entriesOf.mp he'
        rw [hplace, hplace'] at hab
        have hsame : d.1 = d'.1 := by
          have := congrArg List.dropLast hab
          rwa [List.dropLast_concat, List.dropLast_concat] at this
        exact h.1 (hsame ▸ List.mem_map_of_mem hd')

theorem Reading.start (limits : Limits) (g : Graph) :
    Reading limits g ⟨[(g.root, [])], [], [], 0, 0⟩ [] [] [([], g.root)] [] where
  entries := .refl _
  directories := by
    have hroot : isDirectory g.fs g.root = true := isDirectory_iff.mpr g.rooted
    simp [hroot]
  places := List.nodup_singleton _
  leads e he := by
    obtain rfl := List.mem_singleton.mp he
    exact .root
  stack := rfl
  visited := rfl
  once := List.nodup_nil
  allowed := nofun
  count := rfl
  selected := rfl
  bytes := rfl
  enough := Nat.zero_le _
  room := Nat.zero_le _

/-- Where an entry comes from. -/
theorem Reading.source (h : Reading limits g c seen todo pending done) (he : e ∈ seen ++ todo) :
    ∃ d ∈ done, ∃ name, e.1 = d.1 ++ [name] ∧ (name, e.2) ∈ contentsOf g.fs d.2 := by
  obtain ⟨d, hd, hmem⟩ := List.mem_flatMap.mp (h.entries.mem_iff.mp he)
  exact ⟨d, hd, mem_entriesOf.mp hmem⟩

theorem Reading.leads_entry (h : Reading limits g c seen todo pending done) (he : e ∈ seen ++ todo) :
    e.1 ≠ [] ∧ Leads g e.1 e.2 := by
  obtain ⟨d, hd, name, hplace, hmem⟩ := h.source he
  rw [hplace]
  exact ⟨List.append_ne_nil_of_right_ne_nil _ (List.cons_ne_nil _ _),
    .entry (h.leads d (List.mem_append_right _ hd)) hmem⟩

theorem Reading.nodup_places (h : Reading limits g c seen todo pending done) :
    ((seen ++ todo).map Prod.fst).Nodup := by
  have hdone : (done.map Prod.fst).Nodup := by
    have hplaces := h.places
    rw [List.map_append] at hplaces
    exact (List.nodup_append.mp hplaces).2.1
  exact (h.entries.map Prod.fst).nodup_iff.mpr (nodup_entries hdone)

/-- A directory that is pending or read has proper names on its way. -/
theorem Reading.proper (h : Reading limits g c seen todo pending done) (hd : d ∈ pending ++ done) :
    ∀ part ∈ d.1, Proper part := by
  have hmem := (List.mem_filter.mp (h.directories.mem_iff.mp hd)).1
  rcases List.mem_cons.mp hmem with rfl | hmem
  · exact nofun
  · exact (h.allowed d hmem).names

/-- Reading an entry of the directory the walk is in. -/
theorem Reading.entry (h : Reading limits g c seen (e :: todo) pending done)
    (hallowed : Allowed limits g.fs e) (hentries : c.entries + 1 ≤ limits.outputEntries)
    (hbytes : c.bytes + totalBytes (fileOf g.fs e).toList ≤ limits.outputBytes) :
    Reading limits g (c.read g.fs e) (seen ++ [e]) todo
      ((if isDirectory g.fs e.2 then [e] else []) ++ pending) done := by
  have hmem : e ∈ seen ++ e :: todo := List.mem_append_right _ List.mem_cons_self
  have hleads := h.leads_entry hmem
  have hnew : e.1 ∉ (pending ++ done).map Prod.fst := by
    intro hplace
    obtain ⟨d, hd, hsame⟩ := List.mem_map.mp hplace
    rcases List.mem_cons.mp (List.mem_filter.mp (h.directories.mem_iff.mp hd)).1 with rfl | hseen
    · exact hleads.1 hsame.symm
    · have hnodup := h.nodup_places
      rw [List.map_append, List.map_cons] at hnodup
      exact (List.nodup_append.mp hnodup).2.2 d.1 (List.mem_map_of_mem hseen) e.1
        List.mem_cons_self hsame
  have hfile : (fileOf g.fs e).toList = [e].filterMap (fileOf g.fs) := by
    rw [List.filterMap_cons]
    cases fileOf g.fs e with
    | none => rfl
    | some file => rfl
  refine ⟨?_, ?_, ?_, ?_, ?_, h.visited, h.once, ?_, ?_, ?_, ?_, hentries, hbytes⟩
  · rw [List.append_assoc, List.singleton_append]
    exact h.entries
  · rw [← List.cons_append, List.filter_append]
    have hone : [e].filter (fun e => isDirectory g.fs e.2) =
        if isDirectory g.fs e.2 then [e] else [] := by
      rw [List.filter_singleton]
      cases isDirectory g.fs e.2 with
      | false => rfl
      | true => rfl
    rw [hone, List.append_assoc]
    exact List.perm_append_comm.trans (h.directories.append_right _)
  · split
    · exact List.nodup_cons.mpr ⟨hnew, h.places⟩
    · exact h.places
  · intro d hd
    rw [List.append_assoc] at hd
    rcases List.mem_append.mp hd with hd | hd
    · split at hd
      · obtain rfl := List.mem_singleton.mp hd
        exact hleads.2
      · cases hd
    · exact h.leads d hd
  · rw [Collecting.read, List.map_append, h.stack]
    split
    · rfl
    · rfl
  · intro d hd
    rcases List.mem_append.mp hd with hd | hd
    · exact h.allowed d hd
    · exact List.mem_singleton.mp hd ▸ hallowed
  · rw [List.length_append, List.length_singleton, ← h.count]
    rfl
  · rw [List.filterMap_append, ← hfile, ← h.selected]
    rfl
  · rw [Collecting.read, totalBytes_append, ← h.bytes]

/-- Reading the entries of a directory, up to the first that is refused. -/
theorem Reading.foldlM {contents : List (JsString × InodeId)} (hproper : ∀ part ∈ p, Proper part)
    (h : Reading limits g c seen (contents.map fun entry => (p ++ [entry.1], entry.2)) pending done)
    (hok : contents.foldlM (collectEntry (N := N) limits g.fs (above p)) c = .ok c') :
    ∃ seen' pending', Reading limits g c' seen' [] pending' done := by
  induction contents generalizing c seen pending with
  | nil =>
      cases hok
      exact ⟨seen, pending, h⟩
  | cons entry contents ih =>
      rw [List.foldlM_cons] at hok
      obtain ⟨next, hone, hrest⟩ := Checks.bind_ok hok
      obtain ⟨hallowed, hentries, hbytes, rfl⟩ := (collectEntry_ok hproper h.room).mp hone
      exact ih (h.entry hallowed hentries hbytes) hrest

theorem totalBytes_sublist {files files' : List (JsString × Bytes)} (h : files.Sublist files') :
    totalBytes files ≤ totalBytes files' := by
  induction h with
  | slnil => exact Nat.le_refl _
  | cons file _ ih => exact ih.trans (Nat.le_add_left _ _)
  | cons_cons file _ ih => exact Nat.add_le_add_left ih _

/-- A collectable graph lets an entry through. -/
theorem Reading.fits (hg : Collectable limits g)
    (h : Reading limits g c seen (e :: todo) pending done) :
    Allowed limits g.fs e ∧ c.entries + 1 ≤ limits.outputEntries ∧
      c.bytes + totalBytes (fileOf g.fs e).toList ≤ limits.outputBytes := by
  obtain ⟨entries, hnodup, hmem, hcount, hbytes⟩ := hg.fits
  have hleads := h.leads_entry (e := e) (List.mem_append_right _ List.mem_cons_self)
  have hsplit : seen ++ e :: todo = seen ++ [e] ++ todo := by simp
  have hsub : (seen ++ [e]).Subperm entries := by
    have hplaces := h.nodup_places
    rw [hsplit, List.map_append] at hplaces
    refine List.subperm_of_subset (List.Nodup.of_map _ (List.nodup_append.mp hplaces).1) ?_
    intro d hd
    exact (hmem d).mpr (h.leads_entry (by rw [hsplit]; exact List.mem_append_left _ hd))
  refine ⟨hg.allowed e.1 e.2 hleads.1 hleads.2, ?_, ?_⟩
  · have hlength := hsub.length_le
    rw [List.length_append, List.length_singleton, ← h.count] at hlength
    omega
  · have htotal : totalBytes ((seen ++ [e]).filterMap (fileOf g.fs)) =
        c.bytes + totalBytes (fileOf g.fs e).toList := by
      rw [List.filterMap_append, totalBytes_append, h.bytes, h.selected, List.filterMap_cons]
      cases fileOf g.fs e with
      | none => rfl
      | some file => rfl
    obtain ⟨part, hperm, hsublist⟩ := hsub
    have hpart := totalBytes_perm (hperm.filterMap (fileOf g.fs))
    have hle := totalBytes_sublist (hsublist.filterMap (fileOf g.fs))
    omega

theorem Reading.foldlM_fits {contents : List (JsString × InodeId)}
    (hproper : ∀ part ∈ p, Proper part) (hg : Collectable limits g)
    (h : Reading limits g c seen (contents.map fun entry => (p ++ [entry.1], entry.2)) pending done) :
    ∃ c', contents.foldlM (collectEntry (N := N) limits g.fs (above p)) c = .ok c' := by
  induction contents generalizing c seen pending with
  | nil => exact ⟨c, rfl⟩
  | cons entry contents ih =>
      obtain ⟨hallowed, hentries, hbytes⟩ := h.fits hg
      have hone := (collectEntry_ok (N := N) hproper h.room).mpr
        ⟨hallowed, hentries, hbytes, rfl⟩
      obtain ⟨c', hrest⟩ := ih (h.entry hallowed hentries hbytes)
      refine ⟨c', ?_⟩
      rw [List.foldlM_cons, hone]
      exact hrest

/-- Taking the last pending directory. -/
theorem Reading.pop {place : JsString} {stack : List (InodeId × JsString)}
    (h : Reading limits g c seen [] pending done) (hstack : c.pending = (id, place) :: stack)
    (hfresh : id ∉ c.visited) :
    ∃ p pending', pending = (p, id) :: pending' ∧ place = above p ∧
      Reading limits g { c with pending := stack, visited := id :: c.visited } seen
        (entriesOf g.fs (p, id)) pending' ((p, id) :: done) := by
  have hpending := h.stack
  rw [hstack] at hpending
  obtain ⟨⟨p, id'⟩, pending', rfl, heq, hrest⟩ := List.map_eq_cons_iff.mp hpending.symm
  obtain ⟨rfl, rfl⟩ := Prod.mk.inj heq
  refine ⟨p, pending', rfl, rfl, ?_⟩
  have hmiddle : (pending' ++ (p, id') :: done).Perm ((p, id') :: pending' ++ done) :=
    List.perm_middle
  refine ⟨?_, hmiddle.trans h.directories, (hmiddle.map Prod.fst).nodup_iff.mpr h.places,
    fun e he => h.leads e (hmiddle.mem_iff.mp he), hrest.symm, ?_, List.nodup_cons.mpr ⟨hfresh, h.once⟩,
    h.allowed, h.count, h.selected, h.bytes, h.enough, h.room⟩
  · have hentries := h.entries
    rw [List.append_nil] at hentries
    rw [List.flatMap_cons]
    exact List.perm_append_comm.trans (hentries.append_left _)
  · rw [List.map_cons, ← h.visited]

/-- Every directory is read once, so there are no more than inodes. -/
theorem Reading.length_done (h : Reading limits g c seen todo pending done) :
    done.length ≤ g.fs.inodes.length := by
  have hsub : c.visited ⊆ List.range g.fs.inodes.length := by
    intro id hid
    rw [h.visited] at hid
    obtain ⟨d, hd, rfl⟩ := List.mem_map.mp hid
    have hmem := h.directories.mem_iff.mp (List.mem_append_right _ hd)
    obtain ⟨contents, hinode⟩ := isDirectory_iff.mp (List.mem_filter.mp hmem).2
    exact List.mem_range.mpr (List.getElem?_eq_some_iff.mp hinode).1
  have hlength := (List.subperm_of_subset h.once hsub).length_le
  rwa [h.visited, List.length_map, List.length_range] at hlength

/-- More steps change nothing once there are enough of them. -/
theorem Reading.collectPending_more {steps : Nat} (h : Reading limits g c seen [] pending done)
    (hsteps : g.fs.inodes.length + 1 ≤ steps + done.length) (more : Nat) :
    collectPending (N := N) limits g.fs (steps + more) c = collectPending limits g.fs steps c := by
  induction steps generalizing c seen pending done with
  | zero =>
      have hlength := h.length_done
      omega
  | succ steps ih =>
      rw [Nat.add_right_comm, collectPending, collectPending]
      rcases hstack : c.pending with _ | ⟨⟨id, place⟩, stack⟩
      · rfl
      dsimp only
      split
      · rfl
      · next hfresh =>
        obtain ⟨p, pending', rfl, rfl, hpop⟩ := h.pop hstack hfresh
        have hproper := h.proper (d := (p, id)) (List.mem_append_left _ List.mem_cons_self)
        rcases hread : (contentsOf g.fs id).foldlM (collectEntry (N := N) limits g.fs (above p))
          { c with pending := stack, visited := id :: c.visited } with err | next
        · rfl
        · obtain ⟨seen', pending'', hnext⟩ := hpop.foldlM hproper hread
          refine ih hnext ?_
          rw [List.length_cons]
          omega

/-- A walk that ends has nothing pending. -/
theorem Reading.collectPending_ok {steps : Nat} (h : Reading limits g c seen [] pending done)
    (hsteps : g.fs.inodes.length + 1 ≤ steps + done.length)
    (hok : collectPending (N := N) limits g.fs steps c = .ok c') :
    c'.pending = [] ∧ ∃ seen' done', Reading limits g c' seen' [] [] done' := by
  induction steps generalizing c seen pending done with
  | zero =>
      have hlength := h.length_done
      omega
  | succ steps ih =>
      rw [collectPending] at hok
      rcases hstack : c.pending with _ | ⟨⟨id, place⟩, stack⟩
      · rw [hstack] at hok
        cases hok
        have hpending := h.stack
        rw [hstack] at hpending
        obtain rfl := List.map_eq_nil_iff.mp hpending.symm
        exact ⟨hstack, seen, done, h⟩
      rw [hstack] at hok
      dsimp only at hok
      split at hok
      · cases hok
      · next hfresh =>
        obtain ⟨p, pending', rfl, rfl, hpop⟩ := h.pop hstack hfresh
        have hproper := h.proper (d := (p, id)) (List.mem_append_left _ List.mem_cons_self)
        obtain ⟨next, hread, hrest⟩ := Checks.bind_ok hok
        obtain ⟨seen', pending'', hnext⟩ := hpop.foldlM hproper hread
        refine ih hnext ?_ hrest
        rw [List.length_cons]
        omega

/-- A walk over a collectable graph is never refused. -/
theorem Reading.collectPending_fits {steps : Nat} (hg : Collectable limits g)
    (h : Reading limits g c seen [] pending done) :
    ∃ c', collectPending (N := N) limits g.fs steps c = .ok c' := by
  induction steps generalizing c seen pending done with
  | zero => exact ⟨c, rfl⟩
  | succ steps ih =>
      rw [collectPending]
      rcases hstack : c.pending with _ | ⟨⟨id, place⟩, stack⟩
      · exact ⟨c, rfl⟩
      dsimp only
      have hfresh : id ∉ c.visited := by
        intro hmem
        have hpending := h.stack
        rw [hstack] at hpending
        obtain ⟨⟨p, id'⟩, pending', rfl, heq, -⟩ := List.map_eq_cons_iff.mp hpending.symm
        obtain ⟨rfl, rfl⟩ := Prod.mk.inj heq
        rw [h.visited] at hmem
        obtain ⟨d, hd, hsame⟩ := List.mem_map.mp hmem
        have hfirst : (p, id') ∈ (p, id') :: pending' ++ done := List.mem_cons_self
        have hdirectory := (List.mem_filter.mp (h.directories.mem_iff.mp hfirst)).2
        have hlast := h.leads d (List.mem_append_right _ hd)
        rw [hsame] at hlast
        have hplace : p = d.1 := hg.once p d.1 id' hdirectory (h.leads _ hfirst) hlast
        have hplaces := h.places
        rw [List.map_append, List.map_cons] at hplaces
        exact (List.nodup_append.mp hplaces).2.2 p List.mem_cons_self d.1
          (List.mem_map_of_mem hd) hplace
      rw [if_neg hfresh]
      obtain ⟨p, pending', rfl, rfl, hpop⟩ := h.pop hstack hfresh
      have hproper := h.proper (d := (p, id)) (List.mem_append_left _ List.mem_cons_self)
      obtain ⟨next, hread⟩ := hpop.foldlM_fits (N := N) hproper hg
      obtain ⟨seen', pending'', hnext⟩ := hpop.foldlM hproper hread
      obtain ⟨c', hrest⟩ := ih hnext
      refine ⟨c', ?_⟩
      rw [hread]
      exact hrest

theorem leads_nil (h : Leads g [] id) : id = g.root := by
  generalize hp : ([] : Place) = p at h
  cases h with
  | root => rfl
  | entry _ _ => exact absurd hp.symm (List.append_ne_nil_of_right_ne_nil _ (List.cons_ne_nil _ _))

/-- A walk that has ended has seen every entry. -/
theorem Reading.complete (h : Reading limits g c seen [] [] done) (hleads : Leads g p id) :
    (p, id) ∈ ([], g.root) :: seen := by
  induction hleads with
  | root => exact List.mem_cons_self
  | @entry p id name child hleads hmem ih =>
      have hdone : (p, id) ∈ done :=
        h.directories.mem_iff.mpr (List.mem_filter.mpr ⟨ih, isDirectory_of_mem hmem⟩)
      refine List.mem_cons_of_mem _ ?_
      have hentry : (p ++ [name], child) ∈ done.flatMap (entriesOf g.fs) :=
        List.mem_flatMap.mpr ⟨(p, id), hdone, mem_entriesOf.mpr ⟨name, rfl, hmem⟩⟩
      have hseen := h.entries.mem_iff.mpr hentry
      rwa [List.append_nil] at hseen

theorem Reading.mem_seen (h : Reading limits g c seen [] [] done) :
    e ∈ seen ↔ e.1 ≠ [] ∧ Leads g e.1 e.2 := by
  constructor
  · exact fun hmem => h.leads_entry (List.mem_append_left _ hmem)
  · rintro ⟨hne, hleads⟩
    rcases List.mem_cons.mp (h.complete hleads) with heq | hmem
    · exact absurd (congrArg Prod.fst heq) hne
    · exact hmem

/-- What a walk read to its end is collectable. -/
theorem Reading.collectable (h : Reading limits g c seen [] [] done) : Collectable limits g where
  once p q id hdirectory hp hq := by
    have hone := fun p hp => h.directories.mem_iff.mpr
      (List.mem_filter.mpr ⟨h.complete (p := p) hp, hdirectory⟩)
    have hnodup : (done.map Prod.snd).Nodup := h.visited ▸ h.once
    exact congrArg Prod.fst (List.inj_on_of_nodup_map hnodup (hone p hp) (hone q hq) rfl)
  allowed p id hne hleads := h.allowed (p, id) (h.mem_seen.mpr ⟨hne, hleads⟩)
  fits := by
    have hplaces := h.nodup_places
    rw [List.append_nil] at hplaces
    refine ⟨seen, .of_map _ hplaces, fun e => h.mem_seen, h.count ▸ h.enough, ?_⟩
    rw [← h.selected, ← h.bytes]
    exact h.room

/-- What a walk selected is every file by its path. -/
theorem Reading.files (h : Reading limits g c seen [] [] done) :
    (c.selected.map Prod.fst).Nodup ∧ ∀ path data, (path, data) ∈ c.selected ↔
      ∃ p id readonly, Leads g p id ∧ g.fs.inodes[id]? = some (.file data readonly) ∧
        path = join p := by
  have hplaces := h.nodup_places
  rw [List.append_nil] at hplaces
  have hproper : ∀ e ∈ seen, split (join e.1) = e.1 := fun e he =>
    split_proper (h.mem_seen.mp he).1 (h.allowed e he).names
  constructor
  · rw [h.selected, List.Nodup, List.pairwise_map, List.pairwise_filterMap]
    refine List.Pairwise.imp_of_mem ?_ (List.pairwise_map.mp hplaces)
    rintro e e' he he' hne ⟨path, data⟩ hfile ⟨path', data'⟩ hfile' rfl
    obtain ⟨-, -, rfl⟩ := fileOf_eq_some.mp hfile
    obtain ⟨-, -, hjoin⟩ := fileOf_eq_some.mp hfile'
    have hsplit := congrArg split hjoin
    rw [hproper e he, hproper e' he'] at hsplit
    exact hne hsplit
  · intro path data
    rw [h.selected, List.mem_filterMap]
    constructor
    · rintro ⟨e, he, hfile⟩
      obtain ⟨readonly, hinode, rfl⟩ := fileOf_eq_some.mp hfile
      exact ⟨e.1, e.2, readonly, (h.mem_seen.mp he).2, hinode, rfl⟩
    · rintro ⟨p, id, readonly, hleads, hinode, rfl⟩
      refine ⟨(p, id), h.mem_seen.mpr ⟨?_, hleads⟩, fileOf_eq_some.mpr ⟨readonly, hinode, rfl⟩⟩
      rintro rfl
      obtain ⟨contents, hroot⟩ := g.rooted
      rw [leads_nil hleads, hroot] at hinode
      cases hinode

end

/-! ## Collecting -/

/-- The walk ends on every graph: after as many steps as there are inodes and one, nothing is
pending or an error is thrown, and more steps change nothing.  The files are returned exactly
when the graph is collectable, each at its path whatever its name. -/
theorem collectFiles_exact (N : Type) (limits : Limits) (g : Graph) :
    (∀ more, collectPending (N := N) limits g.fs (g.fs.inodes.length + 1 + more)
        ⟨[(g.root, [])], [], [], 0, 0⟩ =
      collectPending limits g.fs (g.fs.inodes.length + 1) ⟨[(g.root, [])], [], [], 0, 0⟩) ∧
    (∀ c, collectPending (N := N) limits g.fs (g.fs.inodes.length + 1)
      ⟨[(g.root, [])], [], [], 0, 0⟩ = .ok c → c.pending = []) ∧
    ((∃ files, collectFiles (N := N) limits g.fs g.root = .ok files) ↔ Collectable limits g) ∧
    ∀ files, collectFiles (N := N) limits g.fs g.root = .ok files →
      ((Properties.ofEntries files).map Prod.fst).Nodup ∧
      ∀ path data, (path, data) ∈ Properties.ofEntries files ↔
        ∃ p id readonly, Leads g p id ∧ g.fs.inodes[id]? = some (.file data readonly) ∧
          path = join p := by
  have hstart := Reading.start limits g
  refine ⟨hstart.collectPending_more (Nat.le_refl _), fun c hc => ?_, ⟨?_, fun hg => ?_⟩, ?_⟩
  · exact (hstart.collectPending_ok (Nat.le_refl _) hc).1
  · rintro ⟨files, hfiles⟩
    obtain ⟨c, hc, -⟩ := Checks.bind_ok hfiles
    obtain ⟨-, seen, done, hread⟩ := hstart.collectPending_ok (Nat.le_refl _) hc
    exact hread.collectable
  · obtain ⟨c, hc⟩ : ∃ c, collectPending (N := N) limits g.fs (g.fs.inodes.length + 1) _ = .ok c :=
      hstart.collectPending_fits hg
    refine ⟨c.selected, ?_⟩
    rw [collectFiles, hc]
    rfl
  · intro files hfiles
    obtain ⟨c, hc, hend⟩ := Checks.bind_ok hfiles
    cases hend
    obtain ⟨-, seen, done, hread⟩ := hstart.collectPending_ok (Nat.le_refl _) hc
    obtain ⟨hkeys, hmem⟩ := hread.files
    have hperm := Properties.ofEntries_perm hkeys
    exact ⟨(hperm.map Prod.fst).nodup_iff.mpr hkeys, fun path data =>
      hperm.mem_iff.trans (hmem path data)⟩

/-- One file under three names, one of them that of an accessor, and one in a directory. -/
def shared : Graph where
  fs := ⟨[.directory [(text "__proto__", 1), ([97], 1), ([98], 2)], .file [7] false,
    .directory [([99], 1)]]⟩
  root := 0
  rooted := ⟨_, rfl⟩
  distinct := by
    intro id
    rcases id with _ | _ | _ | id
    · show List.Nodup [text "__proto__", [97], [98]]
      decide +kernel
    · exact List.nodup_nil
    · exact List.nodup_singleton _
    · exact List.nodup_nil

theorem collectFiles_exact_sample : ∃ files,
    collectFiles (N := Empty) defaultLimits shared.fs shared.root = .ok files ∧
    ∀ path data, (path, data) ∈ Properties.ofEntries files ↔
      ∃ p id readonly, Leads shared p id ∧ shared.fs.inodes[id]? = some (.file data readonly) ∧
        path = join p := by
  obtain ⟨-, -, -, hexact⟩ := collectFiles_exact Empty defaultLimits shared
  obtain ⟨files, hfiles⟩ : ∃ files, collectFiles (N := Empty) defaultLimits shared.fs shared.root =
      .ok files := Checks.ok_of_isSome (by decide +kernel)
  exact ⟨files, hfiles, (hexact files hfiles).2⟩

example : (collectFiles (N := Empty) defaultLimits ⟨[.directory [([97], 0)]]⟩ 0).toOption = none := by
  decide +kernel

end TsSdk
