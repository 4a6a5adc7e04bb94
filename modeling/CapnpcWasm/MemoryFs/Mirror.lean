import CapnpcWasm.MemoryFs.Shared
import CapnpcWasm.MemoryFs.Slashes
import CapnpcWasm.MemoryFs.Staged

/-!
# The root mirrors its mounts

A path below `/src/` or `/include/` finds through the root what it finds through the mount, and a
directory lists the same entries through both.

* `beneath point name` is a name of the mount as the root has it, and `root_lookup` says that
  the root holds exactly these, next to its own two directories.
* `Holding` is what the two mounts have in common: the heap and the names.  `Resolves` says that a
  path and its counterpart resolve to names that correspond.
* Each operation has a lemma `.._alike` from these two.  Listing needs that the names are
  canonical (`Lists`), so that what stands before a slash is a directory of the name.
* `compileMounts_mirrored` applies them to the mounts of a compile.
-/

namespace MemoryFs

open Sdk Outcome

/-! ## Names below a mount point -/

/-- Where the root has a name of a mount. -/
def beneath (point name : Name) : Name := if name = dot then point else point ++ slash :: name

section

variable {name point : Name} {parts : List Name}

/-- Different names of a mount stay different. -/
theorem beneath_injective {other : Name} (h : beneath point name = beneath point other) :
    name = other := by
  have hlonger : ∀ rest : Name, point ≠ point ++ slash :: rest := fun rest heq => by
    have hlength := congrArg List.length heq
    rw [List.length_append, List.length_cons] at hlength
    omega
  rw [beneath, beneath] at h
  split at h
  · next hdot =>
    split at h
    · next hdot' => rw [hdot, hdot']
    · exact absurd h (hlonger other)
  · split at h
    · exact absurd h.symm (hlonger name)
    · exact (List.cons.inj (List.append_cancel_left h)).2

/-- The directory part of a name, cleaned. -/
theorem clean_parent (h : Fit parts) :
    clean (join (parts ++ [[]])) = if parts = [] then dot else join parts := by
  split
  · next hnil =>
    subst hnil
    decide
  · next hne =>
    have hjoin : join (parts ++ [[]]) = join parts ++ [slash] := join_append hne (by simp)
    have hsplit : split (join parts ++ [slash]) = parts ++ [[]] := by
      rw [split_append, split_join hne fun part hp => (h part hp).2.1]
      rfl
    have hrooted : (join parts ++ [slash]).head? ≠ some slash := by
      obtain ⟨part, rest, rfl⟩ := List.exists_cons_of_ne_nil hne
      obtain ⟨hplain, hslash, -⟩ := h part List.mem_cons_self
      obtain ⟨b, part, rfl⟩ := List.exists_cons_of_ne_nil hplain.1
      have hb : b ≠ slash := fun heq => hslash (by rw [heq]; exact List.mem_cons_self)
      cases rest with
      | nil => simpa [join] using hb
      | cons next rest => simpa [join, List.intercalate_cons_cons] using hb
    have hfold : ∀ (rest parts : List Name), Fit rest →
        rest.foldl (cleanPart false) parts = parts ++ rest := by
      intro rest
      induction rest with
      | nil => exact fun parts _ => (List.append_nil parts).symm
      | cons part rest ih =>
          intro parts hfit
          obtain ⟨hplain, -, -⟩ := hfit part List.mem_cons_self
          have hone : cleanPart false parts part = parts ++ [part] := by
            rw [cleanPart, if_neg (not_or.mpr ⟨hplain.1, hplain.2.1⟩), if_neg hplain.2.2]
          rw [List.foldl_cons, hone, ih _ fun p hp => hfit p (List.mem_cons_of_mem part hp)]
          simp
    have hlast : cleanPart false parts [] = parts := rfl
    rw [hjoin, clean, hsplit]
    simp only [hrooted, decide_false, List.foldl_append, hfold parts [] h, List.nil_append,
      List.foldl_cons, List.foldl_nil, hlast, if_false, if_neg hne]

/-- The parent of a canonical name. -/
theorem dir_canonical (h : Canonical name) :
    dir name = if (split name).dropLast = [] then dot else join (split name).dropLast := by
  rw [dir, clean_parent h.fit.dropLast]

/-- A mount point: one component of a name. -/
structure Point (point : Name) : Prop where
  plain : Plain point
  slash : slash ∉ point
  allowed : forbidden point = false

theorem join_singleton (part : Name) : join [part] = part := by simp [join]

/-- A mount point is one part. -/
theorem Point.split (h : Point point) : split point = [point] := by
  have hsplit := @split_join [point] (List.cons_ne_nil _ _) fun part hp => by
    rw [List.mem_singleton.mp hp]
    exact h.slash
  rwa [join_singleton] at hsplit

/-- A mount point is a canonical name. -/
theorem Point.canonical (h : Point point) : Canonical point := by
  refine ⟨h.allowed, fun part hp => ?_⟩
  rw [h.split] at hp
  rw [List.mem_singleton.mp hp]
  exact h.plain

/-- Names below a mount point are canonical. -/
theorem Point.beneath (h : Point point) (hname : Canonical name) :
    Canonical (point ++ MemoryFs.slash :: name) := by
  have hfit : Fit (point :: MemoryFs.split name) := by
    intro part hp
    rcases List.mem_cons.mp hp with rfl | hp
    · exact ⟨h.plain, h.slash, h.allowed⟩
    · exact hname.fit part hp
  have hjoin := hfit.canonical (by simp)
  have happend := @join_append [point] (List.cons_ne_nil _ _) _ (split_ne_nil name)
  rw [List.singleton_append, join_split, join_singleton] at happend
  rwa [happend] at hjoin

/-- The parent of a name below it. -/
theorem dir_beneath (h : Point point) (hname : Canonical name) :
    dir (point ++ slash :: name) = beneath point (dir name) := by
  rw [dir_canonical (h.beneath hname), dir_canonical hname, split_append, h.split,
    List.singleton_append, List.dropLast_cons_of_ne_nil (split_ne_nil name),
    if_neg (List.cons_ne_nil _ _), beneath]
  by_cases hnil : (split name).dropLast = []
  · rw [hnil, if_pos rfl, if_pos rfl, join_singleton]
  · have hcanonical : Canonical (join (split name).dropLast) := hname.fit.dropLast.canonical hnil
    rw [if_neg hnil, if_neg (canonical_ne_dot hcanonical)]
    have happend := @join_append [point] (List.cons_ne_nil _ _) _ hnil
    rwa [List.singleton_append, join_singleton] at happend

/-- Canonical names do not end in a slash. -/
theorem getLast_canonical (h : Canonical name) : name.getLast? ≠ some slash := by
  intro hlast
  obtain ⟨start, rfl⟩ := List.getLast?_eq_some_iff.mp hlast
  refine (h.plain [] ?_).1 rfl
  rw [split_append]
  exact List.mem_append_right _ (by simp [split])

theorem rdropWhile_slash (h : name.getLast? ≠ some slash) : name.rdropWhile (· == slash) = name := by
  rw [List.rdropWhile_eq_self_iff]
  intro hnil hlast
  exact h (by rw [List.getLast?_eq_getLast_of_ne_nil hnil, beq_iff_eq.mp hlast])

theorem canonical_ne_nil (h : Canonical name) : name ≠ [] := by
  rintro rfl
  exact (h.plain [] (by simp [split])).1 rfl

/-- The last part is the same. -/
theorem base_beneath (hname : Canonical name) : base (point ++ slash :: name) = base name := by
  have hne := canonical_ne_nil hname
  have hlast : (point ++ slash :: name).getLast? = name.getLast? := by
    rw [List.getLast?_append_cons, List.getLast?_cons_of_ne_nil hne]
  rw [base, base, if_neg (by simp), if_neg hne, rdropWhile_slash (getLast_canonical hname),
    rdropWhile_slash (by rw [hlast]; exact getLast_canonical hname), split_append,
    List.getLast?_append_of_ne_nil _ (split_ne_nil name)]

end

/-! ## What the root holds -/

/-- The mounts the root holds, and where. -/
inductive MountedAt : Name → Mount → Prop where
  | source : MountedAt sourceMount .source
  | included : MountedAt includeMount .included

section

variable {d : Disk} {mount : MemoryFS} {name point : Name} {m : Mount} {n : Pointer}

/-- What is inserted under a prefix is found under it, and nothing else moves. -/
theorem lookup_insertAll {entries : List (Sigma fun _ : Name => Pointer)} (h : entries.NodupKeys)
    (nodes : Names) :
    (∀ name ≠ dot, (entries.foldl (fun nodes entry => if entry.1 = dot then nodes
        else nodes.insert (point ++ slash :: entry.1) entry.2) nodes).lookup
          (point ++ slash :: name) =
      (entries.dlookup name).or (nodes.lookup (point ++ slash :: name))) ∧
    ∀ other, (∀ name ≠ dot, other ≠ point ++ slash :: name) →
      (entries.foldl (fun nodes entry => if entry.1 = dot then nodes
        else nodes.insert (point ++ slash :: entry.1) entry.2) nodes).lookup other =
      nodes.lookup other := by
  induction entries generalizing nodes with
  | nil => exact ⟨fun _ _ => rfl, fun _ _ => rfl⟩
  | cons entry entries ih =>
      obtain ⟨key, n⟩ := entry
      obtain ⟨hkey, hrest⟩ := List.nodupKeys_cons.mp h
      rw [List.foldl_cons]
      dsimp only
      split
      · next hdot =>
        obtain ⟨hbeneath, hother⟩ := ih hrest nodes
        refine ⟨fun name hne => ?_, hother⟩
        rw [hbeneath name hne, List.dlookup_cons_ne _ _ (by rw [hdot]; exact hne)]
      · next hdot =>
        obtain ⟨hbeneath, hother⟩ := ih hrest (nodes.insert (point ++ slash :: key) n)
        refine ⟨fun name hne => ?_, fun other hne => ?_⟩
        · rw [hbeneath name hne]
          by_cases heq : name = key
          · subst heq
            rw [List.dlookup_eq_none.mpr hkey, AList.lookup_insert, List.dlookup_cons_eq]
            rfl
          · rw [List.dlookup_cons_ne _ _ heq, AList.lookup_insert_ne]
            exact fun h => heq (List.cons.inj (List.append_cancel_left h)).2
        · rw [hother other hne, AList.lookup_insert_ne (hne key hdot)]

/-- The names of a mount stand beneath its mount point. -/
theorem lookup_mirror (hne : name ≠ dot) :
    (d.mirror point mount).lookup (point ++ slash :: name) =
      (mount.nodes.lookup name).or (d.lookup (point ++ slash :: name)) := by
  have hadd : (d.add point (.directory 0o755) []).1.lookup (point ++ slash :: name) =
      d.lookup (point ++ slash :: name) := by
    rw [lookup_add, if_neg]
    intro heq
    have hlength := congrArg List.length heq
    rw [List.length_append, List.length_cons] at hlength
    omega
  rw [← hadd]
  exact (lookup_insertAll mount.nodes.nodupKeys _).1 name hne

/-- Other names of the root are untouched, the mount point apart. -/
theorem lookup_mirror_other {other : Name} (hne : ∀ name ≠ dot, other ≠ point ++ slash :: name) :
    (d.mirror point mount).lookup other =
      if other = point then some d.heap.length else d.lookup other := by
  rw [← lookup_add]
  exact (lookup_insertAll mount.nodes.nodupKeys _).2 other hne

theorem sourceMount_eq : sourceMount = [115, 114, 99] := by decide +kernel
theorem includeMount_eq : includeMount = [105, 110, 99, 108, 117, 100, 101] := by decide +kernel

/-- Both mount points are points. -/
theorem MountedAt.isPoint (h : MountedAt point m) : Point point := by
  cases h with
  | source => exact ⟨by rw [sourceMount_eq]; decide, by rw [sourceMount_eq]; decide,
      by rw [sourceMount_eq]; decide⟩
  | included => exact ⟨by rw [includeMount_eq]; decide, by rw [includeMount_eq]; decide,
      by rw [includeMount_eq]; decide⟩

/-- The root allows names longer by the longest prefix. -/
theorem MountedAt.length_le (h : MountedAt point m) :
    (slash :: point ++ [slash]).length ≤ longestMountPrefix := by
  cases h with
  | source => rw [sourceMount_eq]; decide
  | included => rw [includeMount_eq]; decide

/-- Neither mount point is at the start of the other. -/
theorem source_ne_include (rest rest' : Name) : sourceMount ++ rest ≠ includeMount ++ rest' := by
  rw [sourceMount_eq, includeMount_eq]
  exact fun heq => absurd (List.cons.inj heq).1 (by decide)

/-- A mount without files has its root only. -/
theorem lookup_empty (host : Host) (limits : Limits) (name : Name) :
    (newMemoryFS host ∅ true limits).lookup name =
      if name = dot then some host.heap.length else none := by
  rw [show (newMemoryFS host ∅ true limits).lookup name = (unstaged host limits).lookup name from rfl,
    unstaged, lookup_add]
  split
  · rfl
  · exact AList.lookup_empty name

variable (host : Host) (source included : Contents) (limits : Limits)

/-- A name of a mount is found beneath its mount point. -/
theorem root_lookup (h : MountedAt point m) (hne : name ≠ dot) :
    ((compileMounts host source included limits).world .root).lookup (point ++ slash :: name) =
      ((compileMounts host source included limits).world m).lookup name := by
  cases h with
  | source =>
      have hother : ∀ rest, sourceMount ++ slash :: name ≠ includeMount ++ rest := fun rest =>
        source_ne_include _ rest
      have hpoint : sourceMount ++ slash :: name ≠ includeMount := by
        have h := hother []
        rwa [List.append_nil] at h
      have hdot : sourceMount ++ slash :: name ≠ dot := by
        rw [sourceMount_eq]
        exact fun heq => absurd (List.cons.inj heq).1 (by decide)
      refine (lookup_mirror_other fun rest _ => hother (slash :: rest)).trans ?_
      rw [if_neg hpoint, lookup_mirror hne, lookup_empty, if_neg hdot]
      exact Option.or_none
  | included =>
      have hpoint : includeMount ++ slash :: name ≠ sourceMount := fun heq =>
        source_ne_include [] _ ((List.append_nil _).trans heq.symm)
      have hdot : includeMount ++ slash :: name ≠ dot := by
        rw [includeMount_eq]
        exact fun heq => absurd (List.cons.inj heq).1 (by decide)
      refine (lookup_mirror hne).trans ?_
      rw [lookup_mirror_other fun rest _ heq => source_ne_include _ _ heq.symm, if_neg hpoint,
        lookup_empty, if_neg hdot]
      exact Option.or_none

/-- The mount points are directories of the root. -/
theorem root_point (h : MountedAt point m) :
    ∃ p, ((compileMounts host source included limits).world .root).lookup point = some p ∧
      ((compileMounts host source included limits).world .root).isDir p = true := by
  let src := newMemoryFS host source true limits
  let inc := newMemoryFS src.toHost included true limits
  let empty := newMemoryFS inc.toHost ∅ true limits
  let first := empty.mirror sourceMount src.fs
  have hself : ∀ (point : Name), ∀ name ≠ dot, point ≠ point ++ slash :: name := by
    intro point name _ heq
    have hlength := congrArg List.length heq
    rw [List.length_append, List.length_cons] at hlength
    omega
  cases h with
  | source =>
      refine ⟨empty.heap.length, ?_, ?_⟩
      · refine (lookup_mirror_other fun rest _ heq => ?_).trans ?_
        · exact source_ne_include [] _ ((List.append_nil _).trans heq)
        · rw [if_neg fun heq => source_ne_include [] [] (by rw [List.append_nil, List.append_nil, heq]),
            lookup_mirror_other (hself sourceMount), if_pos rfl]
      · have hlt : empty.heap.length < first.heap.length := by
          show _ < (empty.heap ++ [_]).length
          simp
        show (first.add includeMount (.directory 0o755) []).1.isDir empty.heap.length = true
        rw [isDir_add_of_lt hlt]
        exact isDir_add empty sourceMount (.directory 0o755) []
  | included =>
      refine ⟨first.heap.length, ?_, isDir_add first includeMount (.directory 0o755) []⟩
      exact (lookup_mirror_other (hself includeMount)).trans (if_pos rfl)

/-- Every name of the root is the root, a mount point, or a name of a mount beneath one. -/
theorem root_names
    (hn : ((compileMounts host source included limits).world .root).lookup name = some n) :
    name = dot ∨ ∃ point m, MountedAt point m ∧ (name = point ∨ ∃ below, below ≠ dot ∧
      name = point ++ slash :: below) := by
  by_cases hincluded : ∃ below, below ≠ dot ∧ name = includeMount ++ slash :: below
  · exact .inr ⟨includeMount, .included, .included, .inr hincluded⟩
  · have hother : ∀ below ≠ dot, name ≠ includeMount ++ slash :: below := fun below hne heq =>
      hincluded ⟨below, hne, heq⟩
    replace hn := (lookup_mirror_other hother).symm.trans hn
    split at hn
    · next heq => exact .inr ⟨includeMount, .included, .included, .inl heq⟩
    · by_cases hsource : ∃ below, below ≠ dot ∧ name = sourceMount ++ slash :: below
      · exact .inr ⟨sourceMount, .source, .source, .inr hsource⟩
      · have hother : ∀ below ≠ dot, name ≠ sourceMount ++ slash :: below := fun below hne heq =>
          hsource ⟨below, hne, heq⟩
        rw [lookup_mirror_other hother, lookup_empty] at hn
        split at hn
        · next heq => exact .inr ⟨sourceMount, .source, .source, .inl heq⟩
        · split at hn
          · next heq => exact .inl heq
          · cases hn

end

/-! ## Paths through the root -/

section

variable {point path resolved : Name} {parts : List Name} {maximum : Int}

/-- Components resolved after others, which none of them ascends into. -/
theorem foldlM_pushPart_append {before others after : List Name}
    (h : others.foldlM pushPart parts = .ok after) :
    others.foldlM pushPart (before ++ parts) = .ok (before ++ after) := by
  induction others generalizing parts with
  | nil =>
      obtain rfl : parts = after := Except.ok.inj h
      rfl
  | cons part others ih =>
      rw [List.foldlM_cons] at h ⊢
      rcases hone : pushPart parts part with e | next
      · rw [hone] at h
        cases h
      · rw [hone] at h
        have hbefore : pushPart (before ++ parts) part = .ok (before ++ next) := by
          rw [pushPart] at hone ⊢
          split at hone
          · next hskip =>
            rw [if_pos hskip, Except.ok.inj hone]
          · next hskip =>
            rw [if_neg hskip]
            split at hone
            · next hup =>
              rw [if_pos hup]
              split at hone
              · cases hone
              · next hne =>
                rw [if_neg (by simp [hne]), ← Except.ok.inj hone,
                  List.dropLast_append_of_ne_nil hne]
            · next hup =>
              rw [if_neg hup, ← Except.ok.inj hone, List.append_assoc]
        rw [hbefore]
        exact ih h

/-- The path a guest opens through the root for a path in a mount. -/
def rootPath (point path : Name) : Name := slash :: point ++ slash :: path

/-- A path resolves through the root to the name below the mount point. -/
theorem guestPath_beneath (hpoint : Point point) (h : guestPath path maximum = .ok resolved)
    (hne : resolved ≠ dot) {maximum' : Int} (hlength : ((rootPath point path).length : Int) ≤ maximum') :
    guestPath (rootPath point path) maximum' = .ok (point ++ slash :: resolved) := by
  rw [guestPath] at h
  split at h
  · cases h
  · split at h
    · cases h
    · next hallowed =>
      split at h
      · cases h
      · next parts hparts =>
        have hresolved := Except.ok.inj h
        split at hresolved
        · exact absurd hresolved.symm hne
        · next hnil =>
          have hforbidden : ¬forbidden (rootPath point path) = true := by
            have hslash : (slash == backslash || slash == 0) = false := by decide
            have hpointAllowed := hpoint.allowed
            rw [forbidden] at hpointAllowed hallowed ⊢
            rw [rootPath, List.cons_append, List.any_cons, List.any_append, List.any_cons,
              hpointAllowed, hslash]
            simpa using hallowed
          have hsplit : split (rootPath point path) = [] :: point :: split path := by
            have hfirst := split_append [] (point ++ slash :: path)
            rw [List.nil_append, split_append, hpoint.split] at hfirst
            exact hfirst
          have hone : pushPart [] point = .ok [point] := by
            rw [pushPart, if_neg (not_or.mpr ⟨hpoint.plain.1, hpoint.plain.2.1⟩),
              if_neg hpoint.plain.2.2]
            rfl
          have hfold : (split (rootPath point path)).foldlM pushPart [] = .ok ([point] ++ parts) := by
            rw [hsplit, List.foldlM_cons]
            show (point :: split path).foldlM pushPart [] = _
            rw [List.foldlM_cons, hone]
            exact @foldlM_pushPart_append [] [point] (split path) parts hparts
          rw [guestPath, if_neg (by omega), if_neg hforbidden, hfold]
          dsimp only
          rw [if_neg (by simp), join_append (List.cons_ne_nil _ _) hnil, join_singleton, hresolved]

/-- It ends as it did, so a trailing slash stays one. -/
theorem getLast_rootPath (hne : path ≠ []) : (rootPath point path).getLast? = path.getLast? := by
  rw [rootPath, List.getLast?_append_cons, List.getLast?_cons_of_ne_nil hne]

/-- The empty path is the mount itself. -/
theorem guestPath_nil (maximum : Int) : guestPath [] maximum ≠ .ok resolved ∨ resolved = dot := by
  by_cases h : guestPath [] maximum = .ok resolved
  · refine .inr ?_
    rw [guestPath] at h
    split at h
    · cases h
    · exact (Except.ok.inj h).symm
  · exact .inl h

end

/-! ## Operations through the root -/

/-- What two opens have in common: the errno, or the handle but for its name. -/
inductive Alike (point : Name) : Except Errno MemoryFile → Except Errno MemoryFile → Prop where
  | error (e : Errno) : Alike point (.error e) (.error e)
  | ok (f : MemoryFile) : Alike point (.ok { f with name := beneath point f.name }) (.ok f)

section

variable {root mount : Disk} {point path resolved : Name}

/-- A disk that holds, beneath a mount point, what stands at the names of another, over the same
nodes. -/
structure Holding (root mount : Disk) (point : Name) : Prop where
  heap : root.heap = mount.heap
  readOnly : root.fs.readOnly = true ∧ mount.fs.readOnly = true
  top : ∃ p, root.lookup point = some p ∧ root.isDir p = true
  lookup : ∀ name ≠ dot, root.lookup (point ++ slash :: name) = mount.lookup name

/-- The nodes are shared. -/
theorem Holding.deref (h : Holding root mount point) (n : Pointer) : root.deref n = mount.deref n := by
  rw [Disk.deref, Disk.deref, h.heap]

/-- A path that resolves in the mount and, beneath the mount point, in the root. -/
structure Resolves (root mount : Disk) (point path resolved : Name) : Prop where
  mount : guestPath path mount.lookupBound = .ok resolved
  root : guestPath (rootPath point path) root.lookupBound = .ok (point ++ slash :: resolved)
  below : resolved ≠ dot

/-- The two resolutions fail alike or give the same name and flag. -/
theorem resolve_alike (h : Holding root mount point) (hr : Resolves root mount point path resolved)
    (creating : Bool) : (∃ e, mount.resolve path creating = (mount, .error e) ∧
        root.resolve (rootPath point path) creating = (root, .error e)) ∨
      ∃ flag, mount.resolve path creating = (mount, .ok (resolved, flag)) ∧
        root.resolve (rootPath point path) creating =
          (root, .ok (point ++ slash :: resolved, flag)) := by
  have hpath : path ≠ [] := by
    rintro rfl
    exact (guestPath_nil _).elim (fun hne => hne hr.mount) hr.below
  have hlonger : point ++ slash :: resolved ≠ dot := by
    intro heq
    have hlength := congrArg List.length heq
    have hdot : dot.length = 1 := rfl
    rw [List.length_append, List.length_cons, hdot] at hlength
    have hnil : resolved = [] := List.length_eq_zero_iff.mp (by omega)
    rcases guestPath_ok hr.mount with hroot | hcanonical
    · exact hr.below hroot
    · exact (hcanonical.plain [] (by rw [hnil]; simp [split])).1 rfl
  rw [Disk.resolve, Disk.resolve, hr.mount, hr.root]
  dsimp only
  rw [getLast_rootPath hpath, h.lookup resolved hr.below]
  have hflags : (path.getLast? == some slash && point ++ slash :: resolved != dot) =
      (path.getLast? == some slash && resolved != dot) := by
    rw [bne_iff_ne.mpr hlonger, bne_iff_ne.mpr hr.below]
  have hdir : (fun n => !root.isDir n) = fun n => !mount.isDir n := by
    funext n
    rw [Disk.isDir, Disk.isDir, h.deref]
  rw [hflags, hdir]
  split
  · exact .inl ⟨.ENOTDIR, rfl, rfl⟩
  · exact .inr ⟨_, rfl, rfl⟩

/-- `OpenFile` gives a handle on the same node. -/
theorem openFile_alike (h : Holding root mount point) (hr : Resolves root mount point path resolved)
    (flag : Oflag) (perm : Nat) :
    Alike point (root.openFile (rootPath point path) flag perm).2 (mount.openFile path flag perm).2 := by
  rw [Disk.openFile, Disk.openFile]
  rcases resolve_alike h hr flag.O_CREAT with ⟨e, hm, hroot⟩ | ⟨trailingSlash, hm, hroot⟩
  · rw [hm, hroot]
    exact .error e
  · rw [hm, hroot, andThen_ok, andThen_ok]
    dsimp only
    rw [h.readOnly.1, h.readOnly.2]
    split
    · exact .error .EROFS
    · next hflags =>
      obtain ⟨hwritable, hcreate, htruncate, -⟩ : flag.writable = false ∧ flag.O_CREAT = false ∧
          flag.O_TRUNC = false ∧ flag.O_APPEND = false := by simpa using hflags
      rw [Disk.openNode, Disk.openNode, h.lookup resolved hr.below, hcreate]
      cases mount.lookup resolved with
      | none => exact .error .ENOENT
      | some n =>
          have hdir : root.isDir n = mount.isDir n := by rw [Disk.isDir, Disk.isDir, h.deref]
          simp only [Bool.false_eq_true, false_and, and_false, ↓reduceIte, andThen_ok, hwritable,
            htruncate, hdir]
          by_cases hasks : ¬mount.isDir n = true ∧ flag.O_DIRECTORY = true
          · rw [if_pos hasks, if_pos hasks]
            exact .error .ENOTDIR
          · rw [if_neg hasks, if_neg hasks]
            have hname : beneath point resolved = point ++ slash :: resolved := if_neg hr.below
            rw [← hname]
            exact .ok ⟨n, resolved, 0, 0, !flag.O_WRONLY, false, flag.O_APPEND, false⟩

/-- `Stat` sees the same node. -/
theorem stat_alike (h : Holding root mount point) (hr : Resolves root mount point path resolved) :
    (root.stat (rootPath point path)).2 = (mount.stat path).2 := by
  rw [Disk.stat, Disk.stat]
  rcases resolve_alike h hr false with ⟨e, hm, hroot⟩ | ⟨trailingSlash, hm, hroot⟩
  · rw [hm, hroot]
    rfl
  · rw [hm, hroot, andThen_ok, andThen_ok]
    dsimp only
    rw [h.lookup resolved hr.below]
    cases mount.lookup resolved with
    | none => rfl
    | some n =>
        dsimp only
        rw [h.deref]

/-- The probe of a name beneath the mount point, after the mount point itself. -/
theorem probe_alike (h : Holding root mount point) {parts : List Name}
    (hnames : ∀ count < parts.length, join (parts.take (count + 1)) ≠ dot) (trailingSlash : Bool)
    {left : Nat} (hleft : left ≤ parts.length) :
    root.probe (point :: parts) trailingSlash left = mount.probe parts trailingSlash left := by
  induction left with
  | zero => rfl
  | succ left ih =>
      have hindex : (point :: parts).length - (left + 1) = parts.length - (left + 1) + 1 := by
        rw [List.length_cons]
        omega
      have htake : join ((point :: parts).take (parts.length - (left + 1) + 1 + 1)) =
          point ++ slash :: join (parts.take (parts.length - (left + 1) + 1)) := by
        have happend := @join_append [point] (List.cons_ne_nil _ _)
          (parts.take (parts.length - (left + 1) + 1)) (by
            intro hnil
            have hlength := congrArg List.length hnil
            rw [List.length_take, List.length_nil] at hlength
            omega)
        rw [join_singleton] at happend
        exact happend
      rw [Disk.probe, Disk.probe, hindex, htake,
        h.lookup _ (hnames _ (by omega)), ih (Nat.le_of_succ_le hleft)]
      have hlast : (parts.length - (left + 1) + 1 + 1 < (point :: parts).length) ↔
          (parts.length - (left + 1) + 1 < parts.length) := by
        rw [List.length_cons]
        omega
      have hdir : ∀ n, root.isDir n = mount.isDir n := fun n => by
        rw [Disk.isDir, Disk.isDir, h.deref]
      simp only [hlast, hdir]

/-- `Readlink` gives the same error. -/
theorem readlink_alike (h : Holding root mount point) (hpoint : Point point)
    (hr : Resolves root mount point path resolved) :
    (root.readlink (rootPath point path)).2 = (mount.readlink path).2 := by
  have hpath : path ≠ [] := by
    rintro rfl
    exact (guestPath_nil _).elim (fun hne => hne hr.mount) hr.below
  rw [Disk.readlink, Disk.readlink, if_neg (by simp [rootPath]), if_neg hpath]
  rcases resolve_alike h hr false with ⟨e, hm, hroot⟩ | ⟨trailingSlash, hm, hroot⟩
  · rw [hm, hroot]
    rfl
  · rw [hm, hroot, andThen_ok, andThen_ok]
    dsimp only
    have hcanonical := (guestPath_ok hr.mount).resolve_left hr.below
    have hnames : ∀ count < (split resolved).length,
        join ((split resolved).take (count + 1)) ≠ dot := fun count hlt => by
      refine canonical_ne_dot (Fit.canonical (fun part hp => hcanonical.fit part
        (List.mem_of_mem_take hp)) fun hnil => ?_)
      have hlength := congrArg List.length hnil
      rw [List.length_take, List.length_nil] at hlength
      omega
    obtain ⟨p, hp, hdir⟩ := h.top
    have hsplit : split (point ++ slash :: resolved) = point :: split resolved := by
      rw [split_append, hpoint.split]
      rfl
    rw [hsplit, List.length_cons, Disk.probe, List.length_cons, Nat.sub_self, List.take_succ_cons,
      List.take_zero, join_singleton, hp]
    dsimp only
    rw [if_neg (by simp [hdir]), probe_alike h hnames trailingSlash (Nat.le_refl _)]

/-! ## Directories through the root -/

/-- The names a directory lists, in order. -/
def listed (d : Disk) (directory : Name) : List Name :=
  (sortedKeys d.fs.nodes).filter fun name => name ≠ dot ∧ dir name = directory

/-- Every name of the root is listed beneath a mount point exactly where the mount lists it. -/
structure Lists (root mount : Disk) (point : Name) : Prop where
  canonical : ∀ name n, mount.lookup name = some n → name = dot ∨ Canonical name
  elsewhere : ∀ name n directory, root.lookup name = some n → name ≠ dot →
    dir name = beneath point directory → ∃ below, below ≠ dot ∧ name = point ++ slash :: below

/-- The sorted names are those that can be looked up. -/
theorem mem_keys_iff {d : Disk} {name : Name} :
    name ∈ sortedKeys d.fs.nodes ↔ ∃ n, d.lookup name = some n := by
  rw [sortedKeys, (List.perm_insertionSort (· ≤ ·) _).mem_iff, Disk.lookup, ← Option.isSome_iff_exists,
    AList.lookup_isSome]
  exact AList.mem_keys

/-- The entries of a directory, with the prefix. -/
theorem listed_mirror (h : Holding root mount point) (hpoint : Point point)
    (hlists : Lists root mount point) (directory : Name) :
    listed root (beneath point directory) = (listed mount directory).map (point ++ slash :: ·) := by
  have hsorted : ∀ d : Disk, ∀ directory, (listed d directory).Pairwise (· ≤ ·) :=
    fun d directory => (List.pairwise_insertionSort (· ≤ ·) _).filter _
  have hnodup : ∀ d : Disk, ∀ directory, (listed d directory).Nodup := fun d directory =>
    ((List.perm_insertionSort (· ≤ ·) _).nodup_iff.mpr d.fs.nodes.keys_nodup).filter _
  have hinjective : Function.Injective (point ++ slash :: · : Name → Name) := fun name other heq =>
    (List.cons.inj (List.append_cancel_left heq)).2
  have hmember : ∀ name, name ∈ listed root (beneath point directory) ↔
      name ∈ (listed mount directory).map (point ++ slash :: ·) := by
    intro name
    rw [listed, listed, List.mem_filter, List.mem_map, mem_keys_iff]
    simp only [List.mem_filter, mem_keys_iff, decide_eq_true_eq]
    constructor
    · rintro ⟨⟨n, hn⟩, hne, hdir⟩
      obtain ⟨below, hbelow, rfl⟩ := hlists.elsewhere name n directory hn hne hdir
      rw [h.lookup below hbelow] at hn
      have hcanonical := (hlists.canonical below n hn).resolve_left hbelow
      rw [dir_beneath hpoint hcanonical] at hdir
      exact ⟨below, ⟨⟨n, hn⟩, hbelow, beneath_injective hdir⟩, rfl⟩
    · rintro ⟨below, ⟨⟨n, hn⟩, hbelow, hdir⟩, rfl⟩
      have hcanonical := (hlists.canonical below n hn).resolve_left hbelow
      exact ⟨⟨n, by rw [h.lookup below hbelow, hn]⟩, canonical_ne_dot (hpoint.beneath hcanonical),
        by rw [dir_beneath hpoint hcanonical, hdir]⟩
  refine List.Perm.eq_of_pairwise' (r := (· ≤ ·)) (hsorted _ _) ?_
    ((List.perm_ext_iff_of_nodup (hnodup _ _) ((hnodup _ _).map hinjective)).mpr hmember)
  exact List.Pairwise.map _ (fun name other hle => List.append_left_le
    (List.cons_le_cons_iff.mpr (.inr ⟨rfl, hle⟩))) (hsorted mount directory)

/-- A directory has the same entries through both. -/
theorem entries_alike (h : Holding root mount point) (hpoint : Point point)
    (hlists : Lists root mount point) {f g : MemoryFile} (hname : f.name = beneath point g.name) :
    f.entries root = g.entries mount := by
  have hroot : f.entries root = (listed root (beneath point g.name)).filterMap fun name =>
      (root.lookup name).map fun n =>
        { name := base name, ino := (root.deref n).ino, dir := root.isDir n } := by
    rw [← hname]
    rfl
  rw [hroot, listed_mirror h hpoint hlists, List.filterMap_map]
  refine List.filterMap_congr fun name hmem => ?_
  obtain ⟨hkey, hne⟩ := List.mem_filter.mp hmem
  obtain ⟨n, hn⟩ := mem_keys_iff.mp hkey
  have hne : name ≠ dot := (of_decide_eq_true hne).1
  have hcanonical := (hlists.canonical name n hn).resolve_left hne
  dsimp only [Function.comp]
  rw [h.lookup name hne, hn, Option.map_some, Option.map_some, base_beneath hcanonical, h.deref,
    Disk.isDir, h.deref]
  rfl

/-- Directory handles at the same place of a directory and its mirror. -/
structure Beside (root mount : Disk) (point : Name) (f g : MemoryFile) : Prop where
  name : f.name = beneath point g.name
  directory : root.isDir f.node = mount.isDir g.node
  closed : f.closed = g.closed
  offset : f.dirOffset = g.dirOffset

/-- A page through a directory's mirror is the page through the directory: the same entries or the
same errno, and both panic or neither. -/
theorem readdir_alike (h : Holding root mount point) (hpoint : Point point)
    (hlists : Lists root mount point) {f g : MemoryFile} (hfg : Beside root mount point f g) (n : Int) :
    (f.readdir root n = none ∧ g.readdir mount n = none) ∨
      ∃ f' g' r, f.readdir root n = some (f', r) ∧ g.readdir mount n = some (g', r) ∧
        Beside root mount point f' g' := by
  rw [MemoryFile.readdir, MemoryFile.readdir, hfg.closed, hfg.directory]
  split
  · exact .inr ⟨f, g, _, rfl, rfl, hfg⟩
  · rw [entries_alike h hpoint hlists hfg.name, hfg.offset]
    dsimp only
    split
    · exact .inl ⟨rfl, rfl⟩
    · exact .inr ⟨_, _, _, rfl, rfl, hfg.name, hfg.directory, rfl, rfl⟩

/-- What an open on a read-only mount gives a handle on. -/
theorem openFile_found {d : Disk} (hr : d.fs.readOnly = true) (path : Name) (flag : Oflag)
    (perm : Nat) : (d.openFile path flag perm).Ends
      (fun _ f => guestPath path d.lookupBound = .ok f.name ∧ d.lookup f.name = some f.node ∧
        f.dirOffset = 0 ∧ f.closed = false) (fun _ _ => True) := by
  rw [Disk.openFile]
  refine (resolve_slash d path flag.O_CREAT).andThen ?_ fun _ _ _ => trivial
  rintro d ⟨resolved, trailingSlash⟩ ⟨rfl, hresolved, -, -⟩
  dsimp only
  split
  · exact .error trivial
  · next hflags =>
    obtain ⟨hwritable, hcreate, htruncate, -⟩ : flag.writable = false ∧ flag.O_CREAT = false ∧
        flag.O_TRUNC = false ∧ flag.O_APPEND = false := by simpa [hr] using hflags
    rw [Disk.openNode, hcreate, htruncate]
    cases hn : d.lookup resolved with
    | none => exact .error trivial
    | some n =>
        simp only [Bool.false_eq_true, false_and, ↓reduceIte, andThen_ok, hwritable, and_false]
        split
        · exact .error trivial
        · exact .ok ⟨hresolved, hn, rfl, rfl⟩

/-- Handles opened by any spelling of a directory and of its mirror. -/
theorem beside_of_open (h : Holding root mount point)
    (hroot : ∃ n, mount.lookup dot = some n ∧ mount.isDir n = true) {path' : Name} {f g : MemoryFile}
    {flag flag' : Oflag} {perm perm' : Nat} {d d' : Disk}
    (hpath : guestPath path' root.lookupBound = .ok (beneath point resolved))
    (hpath' : guestPath path mount.lookupBound = .ok resolved)
    (hf : root.openFile path' flag perm = (d, .ok f))
    (hg : mount.openFile path flag' perm' = (d', .ok g)) : Beside root mount point f g := by
  obtain ⟨hfname, hfnode, hfoffset, hfclosed⟩ :=
    (openFile_found h.readOnly.1 path' flag perm).of_ok d f hf
  obtain ⟨hgname, hgnode, hgoffset, hgclosed⟩ :=
    (openFile_found h.readOnly.2 path flag' perm').of_ok d' g hg
  rw [hpath] at hfname
  rw [hpath'] at hgname
  have hfname := (Except.ok.inj hfname).symm
  have hgname := Except.ok.inj hgname
  subst hgname
  refine ⟨hfname, ?_, hfclosed.trans hgclosed.symm, hfoffset.trans hgoffset.symm⟩
  rw [hfname, beneath] at hfnode
  split at hfnode
  · next hdot =>
    obtain ⟨p, hp, hdir⟩ := h.top
    obtain ⟨n, hn, hdir'⟩ := hroot
    rw [hp] at hfnode
    rw [hdot, hn] at hgnode
    rw [← Option.some.inj hfnode, ← Option.some.inj hgnode, hdir, hdir']
  · next hdot =>
    rw [h.lookup _ hdot, hgnode] at hfnode
    rw [← Option.some.inj hfnode, Disk.isDir, Disk.isDir, h.deref]

end

/-! ## The mounts of a compile -/

section

variable {point path resolved : Name} {m : Mount} {host : Host} {source included : Contents}
  {limits : Limits}

/-- All three mounts have the same limits. -/
theorem compileMounts_limits (m : Mount) :
    ((compileMounts host source included limits).fs m).limits = limits := by
  cases m with
  | source => exact newMemoryFS_limits host source true limits
  | included => exact newMemoryFS_limits _ included true limits
  | root =>
      let src := newMemoryFS host source true limits
      exact newMemoryFS_limits (newMemoryFS src.toHost included true limits).toHost ∅ true limits

/-- The mounts of a compile share their nodes. -/
theorem compileMounts_holding (h : MountedAt point m) :
    Holding ((compileMounts host source included limits).world .root).toDisk
      ((compileMounts host source included limits).world m).toDisk point := by
  obtain ⟨hreads, -⟩ := compileMounts_reads host source included limits
  exact ⟨rfl, ⟨(hreads .root).readOnly, (hreads m).readOnly⟩,
    root_point host source included limits h, fun name hne =>
      root_lookup host source included limits h hne⟩

/-- What stands at the names of a mount, whose nodes the mounts built after it keep. -/
theorem compileMounts_staged (hsource : Stageable source) (hincluded : Stageable included)
    (h : MountedAt point m) : ∃ files,
      Staged files (sortedKeys files) ((compileMounts host source included limits).world m).toDisk ∧
      Stageable files := by
  let src := newMemoryFS host source true limits
  let inc := newMemoryFS src.toHost included true limits
  let empty := newMemoryFS inc.toHost ∅ true limits
  let root := newRootFS inc.toHost src.fs inc.fs limits
  have hempty : inc.heap <+: empty.heap := newMemoryFS_heap _ _ _ _
  have hroot : empty.heap <+: root.heap :=
    (List.prefix_append _ _).trans (List.prefix_append (empty.heap ++ [_]) _)
  cases h with
  | source =>
      refine ⟨source, (newMemoryFS_staged host hsource true limits).grow rfl ?_, hsource⟩
      exact (newMemoryFS_heap _ _ _ _).trans (hempty.trans hroot)
  | included =>
      exact ⟨included, (newMemoryFS_staged _ hincluded true limits).grow rfl (hempty.trans hroot),
        hincluded⟩

/-- A name below a point starts with it. -/
theorem beneath_prefix (point name : Name) : ∃ rest, beneath point name = point ++ rest := by
  rw [beneath]
  split
  · exact ⟨[], (List.append_nil point).symm⟩
  · exact ⟨_, rfl⟩

/-- A name below a point is not the root. -/
theorem beneath_ne_dot (h : Point point) (name : Name) : beneath point name ≠ dot := by
  rw [beneath]
  split
  · exact h.plain.2.1
  · intro heq
    have hlength := congrArg List.length heq
    have hdot : dot.length = 1 := rfl
    rw [List.length_append, List.length_cons, hdot] at hlength
    exact h.plain.1 (List.length_eq_zero_iff.mp (by omega))

/-- Names beneath a mount point are beneath no other. -/
theorem MountedAt.unique {point' : Name} {m' : Mount} (h : MountedAt point m)
    (h' : MountedAt point' m') {name name' : Name} (heq : beneath point name = beneath point' name') :
    point = point' := by
  obtain ⟨rest, hrest⟩ := beneath_prefix point name
  obtain ⟨rest', hrest'⟩ := beneath_prefix point' name'
  rw [hrest, hrest'] at heq
  cases h with
  | source =>
      cases h' with
      | source => rfl
      | included => exact absurd heq (source_ne_include rest rest')
  | included =>
      cases h' with
      | source => exact absurd heq.symm (source_ne_include rest' rest)
      | included => rfl

/-- Staged names are canonical. -/
theorem compileMounts_canonical (hsource : Stageable source) (hincluded : Stageable included)
    (h : MountedAt point m) {name : Name} {n : Pointer}
    (hn : ((compileMounts host source included limits).world m).lookup name = some n) :
    name = dot ∨ Canonical name := by
  obtain ⟨files, hstaged, hfiles⟩ := compileMounts_staged hsource hincluded h
  rcases hstaged.only name n hn with hmem | hroot | ⟨file, hmem, hancestor⟩
  · exact .inr (hfiles.canonical name (mem_sortedKeys.mp hmem))
  · exact .inl hroot
  · exact .inr (canonical_ancestor (hfiles.canonical file (mem_sortedKeys.mp hmem)) hancestor)

/-- So both list alike. -/
theorem compileMounts_lists (hsource : Stageable source) (hincluded : Stageable included)
    (h : MountedAt point m) : Lists ((compileMounts host source included limits).world .root).toDisk
      ((compileMounts host source included limits).world m).toDisk point := by
  refine ⟨fun name n hn => compileMounts_canonical hsource hincluded h hn,
    fun name n directory hn hne hdir => ?_⟩
  rcases root_names host source included limits hn with hroot | ⟨point', m', h', htop | ⟨below, hbelow, rfl⟩⟩
  · exact absurd hroot hne
  · subst htop
    have hparent : dir name = dot := by
      rw [dir_canonical h'.isPoint.canonical, h'.isPoint.split]
      rfl
    exact absurd (hdir.symm.trans hparent) (beneath_ne_dot h.isPoint directory)
  · have hlookup := root_lookup host source included limits h' hbelow
    rw [hn] at hlookup
    have hcanonical := (compileMounts_canonical hsource hincluded h' hlookup.symm).resolve_left hbelow
    rw [dir_beneath h'.isPoint hcanonical] at hdir
    obtain rfl := h.unique h' hdir.symm
    exact ⟨below, hbelow, rfl⟩

/-- A path a mount resolves is resolved through the root: the bound on a lookup leaves room for
the mount point. -/
theorem compileMounts_resolves (hint : limits.pathBytes < 9223372036854775808)
    (h : MountedAt point m) (hlength : path.length ≤ limits.pathBytes)
    (hpath : guestPath path
      ((compileMounts host source included limits).world m).lookupBound = .ok resolved)
    (hne : resolved ≠ dot) : Resolves ((compileMounts host source included limits).world .root).toDisk
      ((compileMounts host source included limits).world m).toDisk point path resolved := by
  have hbound : ∀ m, ((compileMounts host source included limits).world m).toDisk.lookupBound =
      lookupBound limits := fun m => by
    show lookupBound ((compileMounts host source included limits).fs m).limits = _
    rw [compileMounts_limits]
  refine ⟨hpath, guestPath_beneath h.isPoint hpath hne ?_, hne⟩
  rw [hbound] at hpath ⊢
  have hfits : (path.length : Int) ≤ lookupBound limits := by
    rw [guestPath] at hpath
    split at hpath
    · cases hpath
    · omega
  have hpoint := h.length_le
  rw [List.length_append, List.length_cons, List.length_singleton, longestMountPrefix] at hpoint
  rw [rootPath, List.length_append, List.length_cons, List.length_cons]
  rw [lookupBound, int64, longestMountPrefix] at hfits ⊢
  omega

end

/-! ## The mirror -/

/-- A path gives the same through the root as through the mount. -/
structure Mirrored (root mount : Disk) (point path : Name) : Prop where
  nodes : ∀ n, root.deref n = mount.deref n
  openFile : ∀ flag perm,
    Alike point (root.openFile (rootPath point path) flag perm).2 (mount.openFile path flag perm).2
  stat : (root.stat (rootPath point path)).2 = (mount.stat path).2
  lstat : (root.lstat (rootPath point path)).2 = (mount.lstat path).2
  readlink : (root.readlink (rootPath point path)).2 = (mount.readlink path).2

/-- Handles opened by any spelling of a directory of a mount and of its mirror list the same, at
every call, and a call that panics on one panics on the other. -/
structure ListsAlike (root mount : Disk) (point : Name) : Prop where
  opened : ∀ path path' resolved flag flag' perm perm' d d' f g,
    guestPath path' root.lookupBound = .ok (beneath point resolved) →
    guestPath path mount.lookupBound = .ok resolved →
    root.openFile path' flag perm = (d, .ok f) → mount.openFile path flag' perm' = (d', .ok g) →
    Beside root mount point f g
  readdir : ∀ f g, Beside root mount point f g → ∀ n,
    (f.readdir root n = none ∧ g.readdir mount n = none) ∨
      ∃ f' g' r, f.readdir root n = some (f', r) ∧ g.readdir mount n = some (g', r) ∧
        Beside root mount point f' g'

/-- The root of a compile mirrors both of its mounts. -/
theorem compileMounts_mirrored (host : Host) {source included : Contents} {limits : Limits}
    (hint : limits.pathBytes < 9223372036854775808) (hsource : Stageable source)
    (hincluded : Stageable included) {point : Name} {m : Mount} (h : MountedAt point m) :
    (∀ path resolved, path.length ≤ limits.pathBytes →
      guestPath path ((compileMounts host source included limits).world m).lookupBound =
        .ok resolved → resolved ≠ dot →
      Mirrored ((compileMounts host source included limits).world .root).toDisk
        ((compileMounts host source included limits).world m).toDisk point path) ∧
    ListsAlike ((compileMounts host source included limits).world .root).toDisk
      ((compileMounts host source included limits).world m).toDisk point := by
  have hholding : Holding ((compileMounts host source included limits).world .root).toDisk
      ((compileMounts host source included limits).world m).toDisk point := compileMounts_holding h
  have hlists : Lists ((compileMounts host source included limits).world .root).toDisk
      ((compileMounts host source included limits).world m).toDisk point :=
    compileMounts_lists hsource hincluded h
  refine ⟨fun path resolved hlength hpath hne => ?_, fun path path' resolved flag flag' perm perm' d d'
    f g hpath' hpath hf hg => ?_, fun f g hfg n => readdir_alike hholding h.isPoint hlists hfg n⟩
  · have hr := compileMounts_resolves hint h hlength hpath hne
    exact ⟨hholding.deref, openFile_alike hholding hr, stat_alike hholding hr,
      stat_alike hholding hr, readlink_alike hholding h.isPoint hr⟩
  · obtain ⟨files, hstaged, -⟩ : ∃ files, Staged files (sortedKeys files)
        ((compileMounts host source included limits).world m).toDisk ∧ Stageable files :=
      compileMounts_staged hsource hincluded h
    exact beside_of_open hholding (hstaged.directory dot (.inl rfl)) hpath' hpath hf hg

end MemoryFs
