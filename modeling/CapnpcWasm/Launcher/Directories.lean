import CapnpcWasm.Launcher.Parsing

/-!
# The deepest common directory

`commonPath` gives the greatest directory that holds every path of a list, where directories
are ordered by their parts, compared as the flavour compares them.
-/

namespace Launcher

section

variable (lower : Str → Str) (windows : Bool)

/-- What the flavour compares of a drive or a part. -/
def key (part : Str) : Str := if windows then lower part else part

def keys (parts : List Str) : List Str := parts.map (key lower windows)

/-- Two paths name the same file, up to case on Windows. -/
structure SamePath (path other : ParsedPath) : Prop where
  drive : key lower windows path.drive = key lower windows other.drive
  rooted : path.rooted = other.rooted
  parts : keys lower windows path.parts = keys lower windows other.parts

/-- The greatest directory that holds every path of a list. -/
structure Deepest (paths : List Str) (root : Str) : Prop where
  within : ∀ path ∈ paths, isWithin lower windows path root = true
  deepest : ∀ directory, (∀ path ∈ paths, isWithin lower windows path directory = true) →
    isWithin lower windows root directory = true

end

/-- An absolute path whose drive is no verbatim start. -/
structure Settled (windows : Bool) (path : Str) : Prop where
  absolute : isAbsolute windows path = true
  plain : stripped ((parsePath windows path).drive ++ [backslash]) = false

variable {lower : Str → Str} {windows : Bool}

theorem samePart_iff {part other : Str} :
    samePart lower windows part other = true ↔
      key lower windows part = key lower windows other := by
  rw [samePart, key, key]
  cases windows with
  | true => exact beq_iff_eq
  | false => exact beq_iff_eq

theorem startOf_iff {parts others : List Str} :
    startOf lower windows parts others = true ↔
      keys lower windows parts <+: keys lower windows others := by
  induction parts generalizing others with
  | nil => simp [startOf, keys]
  | cons part parts ih =>
      cases others with
      | nil => simp [startOf, keys]
      | cons other others =>
          have htail := @ih others
          rw [startOf, Bool.and_eq_true, samePart_iff, htail]
          simp only [keys, List.map_cons, List.cons_prefix_cons]

/-- The shared length bounds the starts of the first list that start the second one. -/
theorem le_sharedLength {parts others : List Str} {length : Nat} :
    length ≤ sharedLength lower windows parts others ↔ length ≤ parts.length ∧
      keys lower windows (parts.take length) <+: keys lower windows others := by
  induction parts generalizing others length with
  | nil => simp [sharedLength, keys]
  | cons part parts ih =>
      cases length with
      | zero => simp [keys]
      | succ length =>
          cases others with
          | nil => simp [sharedLength, keys]
          | cons other others =>
              rw [sharedLength]
              split
              · next hsame =>
                have hkey := samePart_iff.mp hsame
                rw [Nat.add_le_add_iff_right, ih, List.length_cons, Nat.add_le_add_iff_right]
                simp only [keys, List.take_succ_cons, List.map_cons, List.cons_prefix_cons, hkey,
                  true_and]
              · next hsame =>
                have hkey : key lower windows part ≠ key lower windows other := fun h =>
                  hsame (samePart_iff.mpr h.symm)
                simp [keys, hkey]

theorem isWithin_iff {path root : Str} :
    isWithin lower windows path root = true ↔
      key lower windows (parsePath windows path).drive =
        key lower windows (parsePath windows root).drive ∧
      (parsePath windows path).rooted = (parsePath windows root).rooted ∧
      keys lower windows (parsePath windows root).parts <+:
        keys lower windows (parsePath windows path).parts := by
  rw [isWithin]
  simp only [Bool.and_eq_true, samePart_iff, startOf_iff, beq_iff_eq, decide_eq_true_eq]
  constructor
  · rintro ⟨⟨⟨hdrive, hrooted⟩, -⟩, hstart⟩
    exact ⟨hdrive, hrooted, hstart⟩
  · rintro ⟨hdrive, hrooted, hstart⟩
    have hlength := hstart.length_le
    rw [keys, keys, List.length_map, List.length_map] at hlength
    exact ⟨⟨⟨hdrive, hrooted⟩, hlength⟩, hstart⟩

/-- A settled path is read off its formatted form, with any of its parts dropped at the end. -/
theorem Settled.kept {path : Str} (h : Settled windows path) :
    Kept windows (parsePath windows path).drive ∧ (parsePath windows path).rooted = true := by
  have habsolute := h.absolute
  rw [isAbsolute, Bool.and_eq_true] at habsolute
  refine ⟨?_, habsolute.1⟩
  cases windows with
  | true =>
      have hdrive : (parsePath true path).drive ≠ [] := by simpa using habsolute.2
      exact ⟨(splitDrive_shape path).1.resolve_left hdrive, h.plain⟩
  | false => rfl

theorem Settled.parsePath_take {path : Str} (h : Settled windows path) (length : Nat) :
    parsePath windows (formatPath windows { parsePath windows path with
      parts := (parsePath windows path).parts.take length }) =
      ⟨(parsePath windows path).drive, true, (parsePath windows path).parts.take length⟩ := by
  obtain ⟨hkept, hrooted⟩ := h.kept
  dsimp only
  rw [hrooted]
  exact parsePath_formatPath hkept fun p hp =>
    parsePath_proper hrooted p (List.mem_of_mem_take hp)

/-- Every path of a POSIX flavour that is absolute is settled. -/
theorem settled_posix {path : Str} (h : isAbsolute false path = true) : Settled false path :=
  ⟨h, rfl⟩

/-! ## The common directory -/

/-- One step of the loop of `commonPath`: the length shared with one more path. -/
def shareWith (lower : Str → Str) (windows : Bool) (first : ParsedPath) (length : Nat)
    (other : ParsedPath) : Option Nat :=
  if !samePart lower windows other.drive first.drive || other.rooted != first.rooted then none
  else some (sharedLength lower windows (first.parts.take length) other.parts)

theorem commonPath_cons (path : Str) (paths : List Str) :
    commonPath lower windows (path :: paths) =
      (((path :: paths).map (parsePath windows)).foldlM
        (shareWith lower windows (parsePath windows path))
        (parsePath windows path).parts.length).map fun length =>
          formatPath windows { parsePath windows path with
            parts := (parsePath windows path).parts.take length } := rfl

/-- What the loop knows of the paths it has met. -/
theorem shareWith_foldlM {first : ParsedPath} {others : List ParsedPath} {start length : Nat}
    (h : others.foldlM (shareWith lower windows first) start = some length) :
    length ≤ start ∧
    (∀ other ∈ others, key lower windows other.drive = key lower windows first.drive ∧
      other.rooted = first.rooted) ∧
    ∀ k ≤ first.parts.length, (k ≤ length ↔ k ≤ start ∧ ∀ other ∈ others,
      keys lower windows (first.parts.take k) <+: keys lower windows other.parts) := by
  induction others generalizing start with
  | nil =>
      obtain rfl : start = length := Option.some.inj h
      exact ⟨Nat.le_refl _, fun _ hmem => absurd hmem (by simp), fun k _ => by simp⟩
  | cons other others ih =>
      rw [List.foldlM_cons] at h
      obtain ⟨next, hshare, hrest⟩ := Option.bind_eq_some_iff.mp h
      obtain ⟨hbound, hsame, hle⟩ := ih hrest
      rw [shareWith] at hshare
      split at hshare
      · cases hshare
      · next hcompatible =>
        obtain rfl := Option.some.inj hshare
        simp only [Bool.or_eq_true, Bool.not_eq_true', bne_iff_ne, not_or, Bool.not_eq_false,
          not_not, samePart_iff] at hcompatible
        have hshared := (le_sharedLength.mp (Nat.le_refl
          (sharedLength lower windows (first.parts.take start) other.parts))).1
        rw [List.length_take] at hshared
        refine ⟨by omega, List.forall_mem_cons.mpr ⟨hcompatible, hsame⟩, fun k hk => ?_⟩
        rw [hle k hk, le_sharedLength, List.forall_mem_cons, List.take_take, List.length_take]
        constructor
        · rintro ⟨⟨hlength, hstart⟩, hothers⟩
          rw [Nat.min_eq_left (by omega : k ≤ start)] at hstart
          exact ⟨by omega, hstart, hothers⟩
        · rintro ⟨hlength, hstart, hothers⟩
          rw [Nat.min_eq_left hlength]
          exact ⟨⟨by omega, hstart⟩, hothers⟩

/-- The common directory of a settled path and others: a start of the path, and the deepest
directory of all of them. -/
theorem commonPath_spec {path : Str} {paths : List Str} {root : Str} (hpath : Settled windows path)
    (h : commonPath lower windows (path :: paths) = some root) :
    Deepest lower windows (path :: paths) root ∧ ∃ length ≤ (parsePath windows path).parts.length,
      root = formatPath windows { parsePath windows path with
        parts := (parsePath windows path).parts.take length } ∧
      parsePath windows root =
        ⟨(parsePath windows path).drive, true, (parsePath windows path).parts.take length⟩ := by
  rw [commonPath_cons] at h
  obtain ⟨length, hloop, rfl⟩ := Option.map_eq_some_iff.mp h
  obtain ⟨hlength, hsame, hle⟩ := shareWith_foldlM hloop
  have hparsed := hpath.parsePath_take length
  obtain ⟨-, hrooted⟩ := hpath.kept
  refine ⟨⟨fun other hother => ?_, fun directory hall => ?_⟩, length, hlength, rfl, hparsed⟩
  · obtain ⟨hdrive, hroot⟩ := hsame _ (List.mem_map_of_mem hother)
    rw [isWithin_iff, hparsed]
    exact ⟨hdrive, hroot.trans hrooted,
      ((hle length hlength).mp (Nat.le_refl _)).2 _ (List.mem_map_of_mem hother)⟩
  · have hstarts := fun other hother => isWithin_iff.mp (hall other hother)
    obtain ⟨hdrive, hroot, hstart⟩ := hstarts path List.mem_cons_self
    rw [isWithin_iff, hparsed]
    refine ⟨hdrive, hrooted.symm.trans hroot, ?_⟩
    have hcount : (parsePath windows directory).parts.length ≤
        (parsePath windows path).parts.length := by
      have hcount := hstart.length_le
      rwa [keys, keys, List.length_map, List.length_map] at hcount
    -- The directory is a start of the path, so it is bounded by the shared length.
    have heq : keys lower windows (parsePath windows directory).parts =
        keys lower windows
          ((parsePath windows path).parts.take (parsePath windows directory).parts.length) := by
      rw [keys, keys, List.map_take]
      have htake := List.prefix_iff_eq_take.mp hstart
      rwa [keys, keys, List.length_map] at htake
    have hbound : (parsePath windows directory).parts.length ≤ length := by
      refine (hle _ hcount).mpr ⟨hcount, fun other hother => ?_⟩
      obtain ⟨source, hsource, rfl⟩ := List.mem_map.mp hother
      rw [← heq]
      exact (hstarts source hsource).2.2
    rw [heq, keys, keys]
    exact (List.take_prefix_take_left hbound).map _

end Launcher
