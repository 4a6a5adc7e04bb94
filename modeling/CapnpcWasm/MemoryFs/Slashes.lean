import CapnpcWasm.MemoryFs.Invariant

/-!
# Trailing slashes

A path that ends in a slash asks for a directory.  `resolve` refuses it where a regular file
stands, and returns the rest of the rule as a flag: the caller must not make a file of a name
that is missing.  `Rename` drops the flag of its target.
-/

namespace MemoryFs

open Sdk Outcome

/-- The path ends in a slash and does not resolve to the root of the mount. -/
def Disk.Slashed (d : Disk) (path : Name) : Prop :=
  path.getLast? = some slash ∧ guestPath path d.lookupBound ≠ .ok dot

/-- One of the paths of an operation that finds or names a file is slashed. -/
def Op.Slashed (d : Disk) : Op → Prop
  | .openFile path _ _ | .stat path | .lstat path | .unlink path => d.Slashed path
  | .rename source target => d.Slashed source ∨ d.Slashed target
  | _ => False

/-- The operation did not succeed on a regular file: an open or a report is of a directory, and
a removal or a move, which are of files only, fails. -/
def Spares (w' : World) (a : Answer) : Op → Prop
  | .openFile _ _ _ => ∀ h f, a = .ok (.handle h) → w'.files[h]? = some f → w'.isDir f.node = true
  | .stat _ | .lstat _ => ∀ s, a = .ok (.stat s) → s.mode.dir = true
  | .unlink _ | .rename _ _ => ∃ e, a = .error e
  | _ => True

/-- A file moves to a slashed name that is missing, within the budgets. -/
structure Disk.Moves (d : Disk) (source target : Name) : Prop where
  writable : d.fs.readOnly = false
  slashed : d.Slashed target
  file : ¬d.Slashed source ∧ ∃ s n, guestPath source d.lookupBound = .ok s ∧
    d.lookup s = some n ∧ d.isDir n = false
  missing : ∃ t, guestPath target d.lookupBound = .ok t ∧ d.lookup t = none ∧
    (∃ p, d.lookup (dir t) = some p ∧ d.isDir p = true) ∧ t.length ≤ d.fs.limits.pathBytes
  room : d.fs.created < d.fs.limits.outputEntries

/-- The operation is a rename whose target's slash is dropped. -/
def Op.Drops (d : Disk) : Op → Prop
  | .rename source target => d.Moves source target
  | _ => False

section

variable {d : Disk} {path source target : Name} {flag : Oflag} {perm : Nat}

/-- A resolved path, its flag, and what the flag promises of a node that is there. -/
theorem resolve_slash (d : Disk) (path : Name) (creating : Bool) :
    (d.resolve path creating).Ends
      (fun d' r => d' = d ∧ guestPath path d.lookupBound = .ok r.1 ∧
        (r.2 = true ↔ d.Slashed path) ∧
        (d.Slashed path → ∀ n, d.lookup r.1 = some n → d.isDir n = true))
      (fun _ _ => True) := by
  rw [Disk.resolve]
  split
  · split
    · exact .error trivial
    · exact .error trivial
  · next resolved hresolved =>
    have hflag : (path.getLast? == some slash && resolved != dot) = true ↔ d.Slashed path := by
      rw [Bool.and_eq_true, beq_iff_eq, bne_iff_ne, Disk.Slashed, hresolved, ne_eq, ne_eq,
        Except.ok.injEq]
    dsimp only
    split
    · exact .error trivial
    · next hfile =>
      refine .ok ⟨rfl, hresolved, hflag, fun hslashed n hn => ?_⟩
      by_contra hdir
      rw [hflag.mpr hslashed, hn] at hfile
      simp [hdir] at hfile

/-- An open of a slashed path is of a directory. -/
theorem openFile_slashed (h : d.Slashed path) :
    (d.openFile path flag perm).Ends (fun d' f => d'.isDir f.node = true) (fun _ _ => True) := by
  rw [Disk.openFile]
  refine (resolve_slash d path flag.O_CREAT).andThen ?_ fun _ _ _ => trivial
  rintro d ⟨resolved, trailingSlash⟩ ⟨rfl, -, hflag, hdir⟩
  obtain rfl : trailingSlash = true := hflag.mpr h
  dsimp only
  split
  · exact .error trivial
  · have hnode : (d.openNode resolved true flag perm).Ends
        (fun d' n => d' = d ∧ d.isDir n = true) (fun _ _ => True) := by
      rw [Disk.openNode]
      split
      · split
        · exact .error trivial
        · exact .error trivial
      · next n hn =>
        split
        · exact .error trivial
        · exact .ok ⟨rfl, hdir h n hn⟩
    refine hnode.andThen ?_ fun _ _ _ => trivial
    rintro d n ⟨rfl, hn⟩
    split
    · exact .error trivial
    · next hwritable =>
      split
      · exact .error trivial
      · split
        · -- A directory is not truncated: the handle may not write.
          have hw : flag.writable = false := by simpa [hn] using hwritable
          rw [MemoryFile.truncate, if_pos (.inr (by simp [hw]))]
          exact .error trivial
        · exact .ok hn

theorem stat_slashed (h : d.Slashed path) :
    (d.stat path).Ends (fun _ s => s.mode.dir = true) (fun _ _ => True) := by
  rw [Disk.stat]
  refine (resolve_slash d path false).andThen ?_ fun _ _ _ => trivial
  rintro d ⟨resolved, trailingSlash⟩ ⟨rfl, -, -, hdir⟩
  dsimp only
  split
  · exact .error trivial
  · next n hn => exact .ok (hdir h n hn)

theorem unlink_slashed (h : d.Slashed path) :
    (d.unlink path).Ends (fun _ _ => False) (fun _ _ => True) := by
  rw [Disk.unlink]
  split
  · exact .error trivial
  · refine (resolve_slash d path false).andThen ?_ fun _ _ _ => trivial
    rintro d ⟨resolved, trailingSlash⟩ ⟨rfl, -, -, hdir⟩
    dsimp only
    split
    · exact .error trivial
    · next n hn =>
      rw [if_pos (hdir h n hn)]
      exact .error trivial

/-- A rename with a slashed path succeeds only where it drops the slash of its target. -/
theorem rename_slashed (h : d.Slashed source ∨ d.Slashed target) :
    (d.rename source target).Ends (fun _ _ => d.Moves source target) (fun _ _ => True) := by
  rw [Disk.rename]
  split
  · exact .error trivial
  · next hwritable =>
    refine (resolve_slash d source false).andThen ?_ fun _ _ _ => trivial
    rintro d ⟨s, _⟩ ⟨rfl, hs, -, hsource⟩
    refine (resolve_slash d target true).andThen ?_ fun _ _ _ => trivial
    rintro d ⟨t, _⟩ ⟨rfl, ht, -, htarget⟩
    dsimp only at hsource htarget ⊢
    split
    · exact .error trivial
    · next n hn =>
      split
      · exact .error trivial
      · next hfile =>
        have hplain : ¬d.Slashed source := fun hslashed => hfile (hsource hslashed n hn)
        have hslashed : d.Slashed target := h.resolve_left hplain
        refine (parent_ends d t).andThen ?_ fun _ _ _ => trivial
        rintro d _ ⟨rfl, hparent⟩
        split
        · next hmissing =>
          split
          · next heq =>
            rw [heq, hmissing] at hn
            cases hn
          · refine (chargeEntry_ends d t).andThen ?_ fun _ _ _ => trivial
            rintro _ _ ⟨-, hlength, hroom⟩
            exact .ok ⟨by simpa using hwritable, hslashed,
              ⟨hplain, s, n, hs, hn, by simpa using hfile⟩, ⟨t, ht, hmissing, hparent, hlength⟩, hroom⟩
        · next old hold =>
          rw [if_pos (htarget hslashed old hold)]
          exact .error trivial

/-- Where the slash is dropped, the rename succeeds. -/
theorem rename_moves (h : d.Moves source target) : ∃ d', d.rename source target = (d', .ok ()) := by
  obtain ⟨hwritable, hslashed, ⟨hplain, s, n, hs, hn, hfile⟩, ⟨t, ht, hmissing, hparent, hlength⟩,
    hroom⟩ := h
  have hsource : ∃ flag, d.resolve source false = (d, .ok (s, flag)) := by
    rw [Disk.resolve, hs]
    dsimp only
    refine ⟨source.getLast? == some slash && s != dot, if_neg ?_⟩
    simp only [Bool.and_eq_true, beq_iff_eq, bne_iff_ne]
    rintro ⟨⟨hslash, hroot⟩, -⟩
    exact hplain ⟨hslash, by rwa [hs, ne_eq, Except.ok.injEq]⟩
  have htarget : ∃ flag, d.resolve target true = (d, .ok (t, flag)) := by
    rw [Disk.resolve, ht]
    dsimp only
    exact ⟨_, if_neg (by simp [hmissing])⟩
  obtain ⟨p, hp, hdir⟩ := hparent
  obtain ⟨flag, hsource⟩ := hsource
  obtain ⟨flag', htarget⟩ := htarget
  have hne : s ≠ t := by
    rintro rfl
    rw [hmissing] at hn
    cases hn
  rw [Disk.rename, if_neg (by simp [hwritable]), hsource, andThen_ok]
  dsimp only
  rw [htarget, andThen_ok]
  dsimp only
  rw [hn]
  dsimp only
  rw [if_neg (by simp [hfile]), Disk.parent, hp]
  dsimp only
  rw [if_pos hdir, andThen_ok, hmissing]
  dsimp only
  rw [if_neg hne, Disk.chargeEntry, if_neg (Nat.not_lt.mpr hlength), if_neg (Nat.not_le.mpr hroom)]
  exact ⟨_, rfl⟩

end

/-- In any state of a mount, an operation with a slashed path spares the files of the mount
exactly where it is no rename that drops the slash of its target. -/
theorem spares_iff {w w' : World} {op : Op} {a : Answer} (h : Does w (op, a) w')
    (hs : op.Slashed w.toDisk) : Spares w' a op ↔ ¬op.Drops w.toDisk := by
  have hstep : w.step op = some (w', a) := h
  cases op with
  | openFile path flag perm =>
      refine iff_of_true ?_ fun hdrops => hdrops
      intro k f ha hf
      rw [World.step, World.openFile] at hstep
      rcases hopen : w.toDisk.openFile path flag perm with ⟨d, e | g⟩
      · rw [hopen] at hstep
        cases hstep
        cases ha
      · rw [hopen] at hstep
        cases hstep
        cases ha
        have hg : (w.files ++ [g])[w.files.length]? = some f := hf
        rw [List.getElem?_concat_length] at hg
        obtain rfl := Option.some.inj hg
        exact (openFile_slashed hs).of_ok d g hopen
  | stat path =>
      refine iff_of_true ?_ fun hdrops => hdrops
      intro s ha
      rw [World.step, World.answer] at hstep
      rcases hstat : w.toDisk.stat path with ⟨d, e | t⟩
      · rw [hstat] at hstep
        cases hstep
        cases ha
      · rw [hstat] at hstep
        cases hstep
        cases ha
        exact (stat_slashed hs).of_ok d s hstat
  | lstat path =>
      refine iff_of_true ?_ fun hdrops => hdrops
      intro s ha
      rw [World.step, World.answer] at hstep
      rcases hstat : w.toDisk.stat path with ⟨d, e | t⟩
      · rw [Disk.lstat, hstat] at hstep
        cases hstep
        cases ha
      · rw [Disk.lstat, hstat] at hstep
        cases hstep
        cases ha
        exact (stat_slashed hs).of_ok d s hstat
  | unlink path =>
      refine iff_of_true ?_ fun hdrops => hdrops
      rw [World.step, World.answer] at hstep
      rcases hunlink : w.toDisk.unlink path with ⟨d, e | _⟩
      · rw [hunlink] at hstep
        cases hstep
        exact ⟨e, rfl⟩
      · exact absurd ((unlink_slashed hs).of_ok d _ hunlink) id
  -- the exception: the target loses its slash
  | rename source target =>
      rw [World.step, World.answer] at hstep
      rcases hrename : w.toDisk.rename source target with ⟨d, e | _⟩
      · rw [hrename] at hstep
        cases hstep
        refine iff_of_true ⟨e, rfl⟩ fun hdrops => ?_
        obtain ⟨d', hok⟩ := rename_moves hdrops
        rw [hrename] at hok
        cases hok
      · rw [hrename] at hstep
        cases hstep
        refine iff_of_false ?_ fun hkeeps => hkeeps ((rename_slashed hs).of_ok d _ hrename)
        rintro ⟨e, he⟩
        cases he
  | readlink path => cases hs
  | mkdir path perm => cases hs
  | file k op => cases hs

/-- A regular file moved to a missing name with a trailing slash. -/
def slashedRename : Op := .rename [97] [98, slash]

theorem slashedRename_run : ∃ w w', Runs (fresh 0 defaultLimits)
    [(.openFile [97] { O_CREAT := true } 0o644, .ok (.handle 0))] w ∧
    Does w (slashedRename, .ok .none) w' ∧ slashedRename.Slashed w.toDisk := by
  have hanswers : ((fresh 0 defaultLimits).step (.openFile [97] { O_CREAT := true } 0o644)).bind
      (fun r => (r.1.step slashedRename).map fun r' => (r.2, r'.2,
        (guestPath [98, slash] r.1.lookupBound).toOption)) =
      some (.ok (.handle 0), .ok .none, some [98]) := by decide +kernel
  obtain ⟨⟨w, a⟩, hopen, hrest⟩ := Option.bind_eq_some_iff.mp hanswers
  obtain ⟨⟨w', a'⟩, hrename, heq⟩ := Option.map_eq_some_iff.mp hrest
  obtain ⟨rfl, heq⟩ := Prod.mk.inj heq
  obtain ⟨rfl, hresolved⟩ := Prod.mk.inj heq
  refine ⟨w, w', .snoc .nil hopen, hrename, .inr ⟨rfl, fun hroot => ?_⟩⟩
  dsimp only at hresolved
  rw [hroot] at hresolved
  cases hresolved

theorem spares_iff_sample : ∃ w w', Runs (fresh 0 defaultLimits)
    [(.openFile [97] { O_CREAT := true } 0o644, .ok (.handle 0))] w ∧
    Does w (slashedRename, .ok .none) w' ∧
    (Spares w' (.ok .none) slashedRename ↔ ¬slashedRename.Drops w.toDisk) := by
  obtain ⟨w, w', hruns, hrename, hslashed⟩ := slashedRename_run
  exact ⟨w, w', hruns, hrename, spares_iff hrename hslashed⟩

/-- The target's trailing slash is dropped: the file has the name now. -/
theorem rename_drops_slash : ¬∀ (events : List Event) (w w' : World) (op : Op) (a : Answer),
    Runs (fresh 0 defaultLimits) events w → Does w (op, a) w' → op.Slashed w.toDisk →
      Spares w' a op := by
  intro h
  obtain ⟨w, w', hruns, hrename, hslashed⟩ := slashedRename_run
  obtain ⟨e, he⟩ := h _ w w' _ _ hruns hrename hslashed
  cases he

end MemoryFs
