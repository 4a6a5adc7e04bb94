import CapnpcWasm.Launcher.Arguments
import CapnpcWasm.Launcher.Walk
import CapnpcWasm.Lib.Checks
import CapnpcWasm.Lib.Outcome

/-!
# Publishing staged output

`publishOutput` checks every staged entry against the output, and only then moves them.  Any call
of the move pass may fail, without an effect.
-/

namespace Launcher

/-- A directory of the host as a move pass sees it. -/
abbrev Entries := List (Place × Entry)

/-- The stage and the output, which share no place, the staging directories to remove on exit, and
the calls made so far. -/
structure Publication where
  stage : Entries
  output : Entries
  cleanup : List Str
  calls : Nat
deriving DecidableEq, Repr

/-! ## Calls of the host -/

/-- A new directory. -/
def newDirectory : Entry := ⟨.directory, true⟩

def isDirectoryAt (tree : Entries) (p : Place) : Bool := (tree.lookup p).any Entry.isDirectory

def mkdir (tree : Entries) (p : Place) : Option Entries :=
  if tree.lookup p = none ∧ isDirectoryAt tree p.dropLast then
    some (Places.put tree p newDirectory)
  else none

/-- Moves what is no directory to the place of anything that is none. -/
def rename (source target : Entries) (start stop : Place) : Option (Entries × Entries) :=
  match source.lookup start with
  | none => none
  | some e =>
      if e.isDirectory ∨ isDirectoryAt target stop ∨ !isDirectoryAt target stop.dropLast then none
      else some (Places.remove source start, Places.put target stop e)

/-! ## The two passes -/

/-- The first link on the way to an entry, and at it. -/
def symlinkInPath (output : Entries) (path : Place) : Place → Option Place
  | [] => none
  | part :: parts =>
      if (output.lookup (path ++ [part])).any Entry.isSymlink then some (path ++ [part])
      else symlinkInPath output (path ++ [part]) parts

section

variable (lower : Str → Str) (windows : Bool) (stagePath outputPath : Str)

/-- `join(base, ...names)`. -/
def pathOf (base : Str) (names : Place) : Str := names.foldl (joinPath lower windows) base

def fail73 (message : Str) : Except Failure Unit := .error ⟨73, message⟩

/-- The check pass, for one entry. -/
def checkEntry (output : Entries) (entry : WalkEntry) : Except Failure Unit :=
  let destination := pathOf lower windows outputPath entry.parts
  let existing := output.lookup entry.parts
  match symlinkInPath output [] entry.parts with
  | some bad =>
      fail73 (text "output path is a symlink or below one: " ++ pathOf lower windows outputPath bad)
  | none =>
      if entry.info.isSymlink then fail73 (text "generator produced a symlink: " ++ destination)
      else if entry.info.isDirectory then
        if existing.any fun e => !(e.isDirectory && e.writable) then
          fail73 (text "output directory conflicts with an existing entry: " ++ destination)
        else .ok ()
      else if entry.info.isFile then
        if existing.any Entry.isDirectory then
          fail73 (text "output file conflicts with an existing directory: " ++ destination)
        else if existing.any fun e => !e.writable then
          fail73 (text "output file is read-only: " ++ destination)
        else .ok ()
      else fail73 (text "generator produced an unsupported entry: " ++ destination)

def checkPass (output : Entries) (entries : List WalkEntry) : Except Failure Unit :=
  entries.forM (checkEntry lower windows outputPath output)

/-- A failure of the move pass keeps the stage. -/
def publishFail (message : Str) (s : Publication) : Outcome Publication Failure Unit :=
  ({ s with cleanup := s.cleanup.filter fun path => path != stagePath },
    fail73 (message ++ text "; unpublished output kept in " ++ stagePath))

variable (allows : Nat → Bool)

/-- The move pass, for one entry.  `allows` says which calls the host lets succeed. -/
def moveEntry (entry : WalkEntry) (s : Publication) : Outcome Publication Failure Unit :=
  let destination := pathOf lower windows outputPath entry.parts
  let called := { s with calls := s.calls + 1 }
  match symlinkInPath s.output [] entry.parts with
  | some bad =>
      publishFail stagePath
        (text "output path became a symlink: " ++ pathOf lower windows outputPath bad) s
  | none =>
      if entry.info.isDirectory then
        if isDirectoryAt s.output entry.parts then (s, .ok ())
        else match if allows s.calls then mkdir s.output entry.parts else none with
          | some output => ({ called with output := output }, .ok ())
          | none =>
              publishFail stagePath (text "cannot create output directory: " ++ destination) called
      else match if allows s.calls then rename s.stage s.output entry.parts entry.parts else none with
        | some (stage, output) => ({ called with stage := stage, output := output }, .ok ())
        | none => publishFail stagePath (text "cannot publish output file: " ++ destination) called

def movePass : List WalkEntry → Publication → Outcome Publication Failure Unit
  | [], s => (s, .ok ())
  | entry :: entries, s =>
      (moveEntry lower windows stagePath outputPath allows entry s).andThen fun s _ =>
        movePass entries s

/-- Publishes a stage.  No result is one of a walk that fails. -/
def publishOutput (stage output : HostTree) (cleanup : List Str) :
    Option (Outcome Publication Failure Unit) :=
  (walk stage).map fun entries =>
    let start : Publication := ⟨stage.entries, output.entries, cleanup, 0⟩
    match checkPass lower windows outputPath output.entries entries with
    | .error failure => (start, .error failure)
    | .ok () => movePass lower windows stagePath outputPath allows entries start

end

/-! ## What publishing means -/

/-- The output with the stage laid over it. -/
def overlay (output stage : HostTree) (p : Place) : Option Entry :=
  match stage.lstat p with
  | none => output.lstat p
  | some e => if e.isDirectory then some ((output.lstat p).getD newDirectory) else some e

section

variable (lower : Str → Str) (windows : Bool) (stagePath outputPath : Str) (allows : Nat → Bool)

/-- What a move pass has done when the entries before one are published. -/
structure Progress (output stage : HostTree) (done : List WalkEntry) (s : Publication) : Prop where
  staged : ∀ p, s.stage.lookup p =
    if ∃ entry ∈ done, entry.parts = p ∧ entry.info.isDirectory = false then none else stage.lstat p
  published : ∀ p, s.output.lookup p =
    if p ∈ done.map (·.parts) then overlay output stage p else output.lstat p

/-- Why a move pass stops: a call that the host refuses, at one entry. -/
inductive StopsAt (entry : WalkEntry) : Failure → Prop
  | mkdir : StopsAt entry ⟨73, text "cannot create output directory: " ++
      pathOf lower windows outputPath entry.parts ++
      text "; unpublished output kept in " ++ stagePath⟩
  | rename : StopsAt entry ⟨73, text "cannot publish output file: " ++
      pathOf lower windows outputPath entry.parts ++
      text "; unpublished output kept in " ++ stagePath⟩

/-- A move pass that has stopped before an entry. -/
structure Stopped (output stage : HostTree) (cleanup : List Str) (done : List WalkEntry)
    (s : Publication) (f : Failure) : Prop where
  progress : Progress output stage done s
  cleanup : s.cleanup = cleanup.filter fun path => path != stagePath
  refused : ∃ n < s.calls, allows n = false
  reason : ∃ entry, StopsAt lower windows stagePath outputPath entry f

end

variable {lower : Str → Str} {windows : Bool} {stagePath outputPath : Str} {allows : Nat → Bool}
  {output stage : HostTree} {cleanup : List Str} {s : Publication} {done after : List WalkEntry}
  {entry : WalkEntry}

/-! ## Links on the way -/

theorem symlinkInPath_none {tree : Entries} {path parts : Place} :
    symlinkInPath tree path parts = none ↔
      ∀ p rest, p ≠ [] → parts = p ++ rest → (tree.lookup (path ++ p)).any Entry.isSymlink = false := by
  induction parts generalizing path with
  | nil =>
      refine iff_of_true rfl fun p rest hp heq => absurd ?_ hp
      exact (List.append_eq_nil_iff.mp heq.symm).1
  | cons part parts ih =>
      rw [symlinkInPath]
      split
      · next hlink =>
        refine iff_of_false nofun fun hall => ?_
        have hpart := hall [part] parts nofun rfl
        rw [hlink] at hpart
        cases hpart
      · next hplain =>
        rw [ih]
        constructor
        · intro hall p rest hp heq
          rcases p with _ | ⟨name, p⟩
          · exact absurd rfl hp
          · obtain ⟨rfl, htail⟩ := List.cons.inj heq
            rcases p with _ | ⟨name, p⟩
            · exact Bool.not_eq_true _ ▸ hplain
            · have := hall (name :: p) rest nofun htail
              rwa [List.append_assoc] at this
        · intro hall p rest hp heq
          rw [List.append_assoc]
          exact hall (part :: p) rest nofun (by rw [heq]; rfl)

/-! ## The check pass -/

/-- What the check of an entry promises. -/
structure Checked (output : HostTree) (entry : WalkEntry) : Prop where
  plain : ∀ p rest, p ≠ [] → entry.parts = p ++ rest →
    (output.lstat p).any Entry.isSymlink = false
  kind : entry.info.isDirectory = true ∨ entry.info.isFile = true
  directory : entry.info.isDirectory = true → ∀ e, output.lstat entry.parts = some e →
    e.isDirectory = true
  file : entry.info.isDirectory = false → ∀ e, output.lstat entry.parts = some e →
    e.isDirectory = false

theorem checked_of_ok (h : checkEntry lower windows outputPath output.entries entry = .ok ()) :
    Checked output entry := by
  rw [checkEntry] at h
  split at h
  · cases h
  · next hplain =>
    have hlinks : ∀ p rest, p ≠ [] → entry.parts = p ++ rest →
        (output.lstat p).any Entry.isSymlink = false := symlinkInPath_none.mp hplain
    split at h
    · cases h
    · split at h
      · next hdirectory =>
        split at h
        · cases h
        · next hexisting =>
          refine ⟨hlinks, .inl hdirectory, fun _ e he => ?_, fun hfile => ?_⟩
          · have he : output.entries.lookup entry.parts = some e := he
            rw [he] at hexisting
            simpa using (by simpa using hexisting : _ ∧ _).1
          · rw [hdirectory] at hfile
            cases hfile
      · next hdirectory =>
        split at h
        · next hfile =>
          split at h
          · cases h
          · next hexisting =>
            refine ⟨hlinks, .inr hfile, fun hyes => absurd hyes hdirectory, fun _ e he => ?_⟩
            have he : output.entries.lookup entry.parts = some e := he
            rw [he] at hexisting
            exact Bool.eq_false_iff.mpr hexisting
        · cases h

theorem checked_of_pass {entries : List WalkEntry}
    (h : checkPass lower windows outputPath output.entries entries = .ok ()) :
    ∀ entry ∈ entries, Checked output entry := fun entry hentry =>
  checked_of_ok (Checks.forM_ok h entry hentry)

/-! ## One move -/

theorem not_symlink_of_directory {e : Entry} (h : e.isDirectory = true) : e.isSymlink = false := by
  rw [Entry.isDirectory, decide_eq_true_iff] at h
  rw [Entry.isSymlink, h]
  rfl

theorem overlay_of_directory {p : Place} {e : Entry} (he : stage.lstat p = some e)
    (hdirectory : e.isDirectory = true) :
    overlay output stage p = some ((output.lstat p).getD newDirectory) := by
  rw [overlay, he]
  exact if_pos hdirectory

theorem overlay_of_file {p : Place} {e : Entry} (he : stage.lstat p = some e)
    (hfile : e.isDirectory = false) : overlay output stage p = some e := by
  rw [overlay, he]
  exact if_neg (by rw [hfile]; exact Bool.false_ne_true)

/-- A directory on the way to the next entry is one in the stage, and one in the output by then. -/
theorem Progress.parent (h : Progress output stage done s)
    (hlisted : Listed stage (done ++ entry :: after))
    (hchecked : ∀ found ∈ done ++ entry :: after, Checked output found) {p rest : Place}
    (hparts : entry.parts = p ++ rest) (hrest : rest ≠ []) :
    (s.output.lookup p).any Entry.isDirectory = true := by
  by_cases hp : p = []
  · obtain ⟨root, hroot, hdirectory⟩ := output.root
    have hnot : [] ∉ done.map (·.parts) := by
      intro hmem
      have hbelow := hlisted.perm.mem_iff.mp (by
        rw [List.map_append]
        exact List.mem_append_left _ hmem)
      exact (Places.mem_below_root.mp hbelow).2 rfl
    rw [hp, h.published, if_neg hnot, output.lstat_eq.mpr hroot]
    exact hdirectory
  · have hbefore := hlisted.before hparts hp hrest
    obtain ⟨found, hfound, rfl⟩ := List.mem_map.mp hbefore
    have hinfo := hlisted.info found (List.mem_append_left _ hfound)
    have hdirectory := stage.directory_of_prefix (hparts ▸ hlisted.info entry
      (List.mem_append_right _ List.mem_cons_self)) hrest hinfo
    rw [h.published, if_pos hbefore, overlay_of_directory hinfo hdirectory]
    cases hold : output.lstat found.parts with
    | none => rfl
    | some e => exact (hchecked found (List.mem_append_left _ hfound)).directory hdirectory e hold

/-- The move pass meets no link of its own. -/
theorem Progress.plain (h : Progress output stage done s)
    (hlisted : Listed stage (done ++ entry :: after))
    (hchecked : ∀ found ∈ done ++ entry :: after, Checked output found) :
    symlinkInPath s.output [] entry.parts = none := by
  refine symlinkInPath_none.mpr fun p rest hp hparts => ?_
  rw [List.nil_append]
  by_cases hrest : rest = []
  · have hnot : p ∉ done.map (·.parts) := by
      rw [hrest, List.append_nil] at hparts
      have hnodup := hlisted.nodup
      rw [List.map_append, List.map_cons, hparts] at hnodup
      exact fun hmem => (List.disjoint_of_nodup_append hnodup) hmem List.mem_cons_self
    rw [h.published, if_neg hnot]
    exact (hchecked entry (List.mem_append_right _ List.mem_cons_self)).plain p rest hp hparts
  · have hdirectory := h.parent hlisted hchecked hparts hrest
    cases hfound : s.output.lookup p with
    | none => rfl
    | some e =>
        rw [hfound] at hdirectory
        exact not_symlink_of_directory hdirectory

/-- One more entry is published. -/
theorem Progress.next {s' : Publication} (h : Progress output stage done s)
    (hstaged : ∀ p, s'.stage.lookup p =
      if p = entry.parts ∧ entry.info.isDirectory = false then none else s.stage.lookup p)
    (hpublished : ∀ p, s'.output.lookup p =
      if p = entry.parts then overlay output stage p else s.output.lookup p) :
    Progress output stage (done ++ [entry]) s' := by
  refine ⟨fun p => ?_, fun p => ?_⟩
  · rw [hstaged, h.staged]
    by_cases hlast : p = entry.parts ∧ entry.info.isDirectory = false
    · rw [if_pos hlast, if_pos ⟨entry, by simp, hlast.1.symm, hlast.2⟩]
    · rw [if_neg hlast]
      refine if_congr ⟨fun ⟨found, hfound, hwhich⟩ => ⟨found, by simp [hfound], hwhich⟩, ?_⟩ rfl rfl
      rintro ⟨found, hfound, rfl, hfile⟩
      refine ⟨found, (List.mem_append.mp hfound).resolve_right fun hsame => ?_, rfl, hfile⟩
      rw [List.mem_singleton.mp hsame] at hlast hfile
      exact hlast ⟨rfl, hfile⟩
  · rw [hpublished, h.published]
    by_cases heq : p = entry.parts
    · rw [if_pos heq, if_pos (by simp [heq])]
    · rw [if_neg heq]
      exact if_congr (by simp [heq]) rfl rfl

theorem Progress.stopped (h : Progress output stage done s) (hcleanup : s.cleanup = cleanup)
    {message : Str} (hrefused : allows s.calls = false)
    (hreason : StopsAt lower windows stagePath outputPath entry
      ⟨73, message ++ text "; unpublished output kept in " ++ stagePath⟩)
    {P : Publication → Unit → Prop} :
    (publishFail stagePath message { s with calls := s.calls + 1 }).Ends P
      fun s' f => Stopped lower windows stagePath outputPath allows output stage cleanup done s' f := by
  refine .error ⟨⟨h.staged, h.published⟩, ?_, ⟨s.calls, Nat.lt_succ_self _, hrefused⟩, entry, hreason⟩
  show s.cleanup.filter _ = _
  rw [hcleanup]

theorem moveEntry_spec (h : Progress output stage done s)
    (hlisted : Listed stage (done ++ entry :: after))
    (hchecked : ∀ found ∈ done ++ entry :: after, Checked output found)
    (hcleanup : s.cleanup = cleanup) (hcalls : ∀ n < s.calls, allows n = true) :
    (moveEntry lower windows stagePath outputPath allows entry s).Ends
      (fun s' _ => Progress output stage (done ++ [entry]) s' ∧ s'.cleanup = cleanup ∧
        ∀ n < s'.calls, allows n = true)
      (fun s' f => Stopped lower windows stagePath outputPath allows output stage cleanup done s' f) := by
  have hmem : entry ∈ done ++ entry :: after := List.mem_append_right _ List.mem_cons_self
  have hinfo := hlisted.info entry hmem
  have hentry := hchecked entry hmem
  have hne : entry.parts ≠ [] :=
    (Places.mem_below_root.mp (hlisted.perm.mem_iff.mp (List.mem_map_of_mem hmem))).2
  have hnot : entry.parts ∉ done.map (·.parts) := by
    have hnodup := hlisted.nodup
    rw [List.map_append, List.map_cons] at hnodup
    exact fun hdone => (List.disjoint_of_nodup_append hnodup) hdone List.mem_cons_self
  have hold : s.output.lookup entry.parts = output.lstat entry.parts := by
    rw [h.published, if_neg hnot]
  have hparent : isDirectoryAt s.output entry.parts.dropLast = true :=
    h.parent hlisted hchecked (List.dropLast_append_getLast hne).symm nofun
  have hnext : allows s.calls = true → ∀ n < s.calls + 1, allows n = true := by
    intro hallowed n hn
    rcases Nat.lt_succ_iff_lt_or_eq.mp hn with hlt | rfl
    · exact hcalls n hlt
    · exact hallowed
  rw [moveEntry, h.plain hlisted hchecked]
  dsimp only
  split
  · next hdirectory =>
    have hoverlay : overlay output stage entry.parts =
        some ((output.lstat entry.parts).getD newDirectory) :=
      overlay_of_directory hinfo hdirectory
    split
    · next hthere =>
      refine .ok ⟨h.next (fun p => ?_) (fun p => ?_), hcleanup, hcalls⟩
      · rw [if_neg fun hboth => by rw [hdirectory] at hboth; cases hboth.2]
      · split
        · next heq =>
          rw [heq, hoverlay, hold]
          rw [isDirectoryAt, hold] at hthere
          cases hfound : output.lstat entry.parts with
          | none =>
              rw [hfound] at hthere
              cases hthere
          | some e => rfl
        · rfl
    · next hthere =>
      have hnone : output.lstat entry.parts = none := by
        rw [Option.eq_none_iff_forall_not_mem]
        intro e he
        rw [isDirectoryAt, hold, he] at hthere
        exact hthere (hentry.directory hdirectory e he)
      have hmkdir : mkdir s.output entry.parts =
          some (Places.put s.output entry.parts newDirectory) :=
        if_pos ⟨hold.trans hnone, hparent⟩
      rw [hmkdir]
      cases hallowed : allows s.calls with
      | false => exact h.stopped hcleanup hallowed .mkdir
      | true =>
          refine .ok ⟨h.next (fun p => ?_) (fun p => ?_), hcleanup, hnext hallowed⟩
          · rw [if_neg fun hboth => by rw [hdirectory] at hboth; cases hboth.2]
          · show (Places.put s.output entry.parts newDirectory).lookup p = _
            rw [Places.lookup_put]
            split
            · next heq => rw [heq, hoverlay, hnone, Option.getD_none]
            · rfl
  · next hdirectory =>
    have hfile : entry.info.isDirectory = false := Bool.not_eq_true _ ▸ hdirectory
    -- the entry was not moved yet, since it is listed once
    have hsource : s.stage.lookup entry.parts = some entry.info := by
      rw [h.staged, if_neg, hinfo]
      rintro ⟨found, hfound, heq, -⟩
      exact hnot (heq ▸ List.mem_map_of_mem hfound)
    -- the first pass has refused a directory in the place of a file
    have htarget : isDirectoryAt s.output entry.parts = false := by
      rw [isDirectoryAt, hold]
      cases hfound : output.lstat entry.parts with
      | none => rfl
      | some e => exact hentry.file hfile e hfound
    have hrename : rename s.stage s.output entry.parts entry.parts =
        some (Places.remove s.stage entry.parts, Places.put s.output entry.parts entry.info) := by
      rw [rename, hsource]
      exact if_neg (by rw [hfile, htarget, hparent]; simp)
    rw [hrename]
    cases hallowed : allows s.calls with
    | false => exact h.stopped hcleanup hallowed .rename
    | true =>
        refine .ok ⟨h.next (fun p => ?_) (fun p => ?_), hcleanup, hnext hallowed⟩
        · show (Places.remove s.stage entry.parts).lookup p = _
          rw [Places.lookup_remove, hfile]
          simp only [and_true]
        · show (Places.put s.output entry.parts entry.info).lookup p = _
          rw [Places.lookup_put]
          split
          · next heq => rw [heq, overlay_of_file hinfo hfile]
          · rfl

/-- The whole move pass: it lays the stage over the output, or stops before an entry. -/
theorem movePass_spec (h : Progress output stage done s) (hlisted : Listed stage (done ++ after))
    (hchecked : ∀ found ∈ done ++ after, Checked output found)
    (hcleanup : s.cleanup = cleanup) (hcalls : ∀ n < s.calls, allows n = true) :
    (movePass lower windows stagePath outputPath allows after s).Ends
      (fun s' _ => Progress output stage (done ++ after) s' ∧ s'.cleanup = cleanup ∧
        ∀ n < s'.calls, allows n = true)
      (fun s' f => ∃ before, before <+: done ++ after ∧
        Stopped lower windows stagePath outputPath allows output stage cleanup before s' f) := by
  induction after generalizing done s with
  | nil =>
      rw [List.append_nil]
      exact .ok ⟨h, hcleanup, hcalls⟩
  | cons entry after ih =>
      rw [movePass]
      refine (moveEntry_spec h hlisted hchecked hcleanup hcalls).andThen (fun s' _ hmoved => ?_)
        fun s' f hstopped => ⟨done, List.prefix_append _ _, hstopped⟩
      obtain ⟨hprogress, hcleanup', hcalls'⟩ := hmoved
      have hassoc : done ++ entry :: after = done ++ [entry] ++ after := by simp
      rw [hassoc] at hlisted hchecked ⊢
      exact ih hprogress hlisted hchecked hcleanup' hcalls'

/-! ## The whole -/

/-- A staged file is at its destination with its bytes, or still in the stage with them, and then
its destination is what it was. -/
def FileKept (output : HostTree) (s : Publication) (p : Place) (e : Entry) : Prop :=
  s.output.lookup p = some e ∧ s.stage.lookup p = none ∨
    s.stage.lookup p = some e ∧ s.output.lookup p = output.lstat p

/-- What publishing leaves when a call of the move pass was refused. -/
structure StageKept (stagePath : Str) (stage output : HostTree) (cleanup : List Str)
    (s : Publication) : Prop where
  cleanup : s.cleanup = cleanup.filter fun path => path != stagePath
  directories : ∀ p e, stage.lstat p = some e → e.isDirectory = true → s.stage.lookup p = some e
  files : ∀ p e, stage.lstat p = some e → e.isDirectory = false → FileKept output s p e
  others : ∀ p e, output.lstat p = some e → s.output.lookup p = some e ∨
    ∃ e', stage.lstat p = some e' ∧ e'.isDirectory = false ∧ s.output.lookup p = some e' ∧
      s.stage.lookup p = none

/-- What publishing promises, whichever calls of the move pass the host refuses. -/
structure Conservative (lower : Str → Str) (windows : Bool) (stagePath outputPath : Str)
    (allows : Nat → Bool) (stage output : HostTree) (cleanup : List Str) (entries : List WalkEntry)
    (r : Outcome Publication Failure Unit) : Prop where
  refused : ∀ f, checkPass lower windows outputPath output.entries entries = .error f →
    r = (⟨stage.entries, output.entries, cleanup, 0⟩, .error f)
  published : checkPass lower windows outputPath output.entries entries = .ok () →
    (∀ n < r.1.calls, allows n = true) →
    r.2 = .ok () ∧ ∀ p, r.1.output.lookup p = overlay output stage p
  stopped : checkPass lower windows outputPath output.entries entries = .ok () →
    (∃ n < r.1.calls, allows n = false) →
    (∃ f entry, r.2 = .error f ∧ StopsAt lower windows stagePath outputPath entry f) ∧
      StageKept stagePath stage output cleanup r.1

theorem Progress.start (stage output : HostTree) (cleanup : List Str) :
    Progress output stage [] ⟨stage.entries, output.entries, cleanup, 0⟩ := by
  refine ⟨fun p => (if_neg ?_).symm, fun p => (if_neg List.not_mem_nil).symm⟩
  rintro ⟨entry, hentry, -⟩
  cases hentry

/-- With every entry published, the stage is laid over the output. -/
theorem Progress.finish {entries : List WalkEntry} (h : Progress output stage entries s)
    (hlisted : Listed stage entries) (p : Place) : s.output.lookup p = overlay output stage p := by
  rw [h.published]
  split
  · rfl
  · next hnot =>
    have hstaged : stage.lstat p = none ∨ p = [] := by
      by_contra hboth
      obtain ⟨hsome, hne⟩ := not_or.mp hboth
      obtain ⟨e, he⟩ := Option.ne_none_iff_exists'.mp hsome
      exact hnot (List.mem_map_of_mem (hlisted.mem_iff.mpr ⟨he, hne⟩))
    rcases hstaged with hnone | rfl
    · rw [overlay, hnone]
    · obtain ⟨root, hroot, hdirectory⟩ := stage.root
      obtain ⟨old, hold, -⟩ := output.root
      rw [overlay_of_directory (stage.lstat_eq.mpr hroot) hdirectory, output.lstat_eq.mpr hold,
        Option.getD_some]

theorem Stopped.kept {entries before : List WalkEntry} {f : Failure}
    (h : Stopped lower windows stagePath outputPath allows output stage cleanup before s f)
    (hlisted : Listed stage entries) (hbefore : before <+: entries) :
    StageKept stagePath stage output cleanup s := by
  have hinfo : ∀ entry ∈ before, stage.lstat entry.parts = some entry.info :=
    fun entry hentry => hlisted.info entry (hbefore.mem hentry)
  have hmoved : ∀ p e, stage.lstat p = some e → e.isDirectory = false → p ∈ before.map (·.parts) →
      s.output.lookup p = some e ∧ s.stage.lookup p = none := by
    intro p e he hfile hmem
    obtain ⟨entry, hentry, rfl⟩ := List.mem_map.mp hmem
    obtain rfl : entry.info = e := Option.some.inj ((hinfo entry hentry).symm.trans he)
    rw [h.progress.published, if_pos hmem, overlay_of_file he hfile, h.progress.staged,
      if_pos ⟨entry, hentry, rfl, hfile⟩]
    exact ⟨rfl, rfl⟩
  refine ⟨h.cleanup, fun p e he hdirectory => ?_, fun p e he hfile => ?_, fun p e he => ?_⟩
  · rw [h.progress.staged, if_neg, he]
    rintro ⟨entry, hentry, rfl, hfile⟩
    obtain rfl : entry.info = e := Option.some.inj ((hinfo entry hentry).symm.trans he)
    rw [hdirectory] at hfile
    cases hfile
  · by_cases hmem : p ∈ before.map (·.parts)
    · exact .inl (hmoved p e he hfile hmem)
    · refine .inr ⟨?_, ?_⟩
      · rw [h.progress.staged, if_neg, he]
        rintro ⟨entry, hentry, rfl, -⟩
        exact hmem (List.mem_map_of_mem hentry)
      · rw [h.progress.published, if_neg hmem]
  · by_cases hmem : p ∈ before.map (·.parts)
    · obtain ⟨entry, hentry, rfl⟩ := List.mem_map.mp hmem
      have hstaged := hinfo entry hentry
      cases hdirectory : entry.info.isDirectory with
      | true =>
          rw [h.progress.published, if_pos hmem, overlay_of_directory hstaged hdirectory, he]
          exact .inl rfl
      | false =>
          obtain ⟨hout, hstage⟩ := hmoved _ _ hstaged hdirectory hmem
          exact .inr ⟨entry.info, hstaged, hdirectory, hout, hstage⟩
    · rw [h.progress.published, if_neg hmem]
      exact .inl he

/-- Publishing is conservative. -/
theorem publishOutput_conservative (lower : Str → Str) (windows : Bool) (stagePath outputPath : Str)
    (allows : Nat → Bool) (stage output : HostTree) (cleanup : List Str) :
    ∃ entries r, walk stage = some entries ∧ Listed stage entries ∧
      publishOutput lower windows stagePath outputPath allows stage output cleanup = some r ∧
      Conservative lower windows stagePath outputPath allows stage output cleanup entries r := by
  obtain ⟨entries, hwalk, hlisted⟩ := walk_listed stage
  refine ⟨entries, _, hwalk, hlisted, by rw [publishOutput, hwalk]; rfl, ?_⟩
  dsimp only
  cases hcheck : checkPass lower windows outputPath output.entries entries with
  | error f =>
      refine ⟨fun f' hf => ?_, fun hok => ?_, fun hok => ?_⟩
      · rw [hcheck] at hf
        rw [Except.error.inj hf]
      · rw [hcheck] at hok
        cases hok
      · rw [hcheck] at hok
        cases hok
  | ok _ =>
      have hspec : (movePass lower windows stagePath outputPath allows entries
          ⟨stage.entries, output.entries, cleanup, 0⟩).Ends
          (fun s' _ => Progress output stage entries s' ∧ s'.cleanup = cleanup ∧
            ∀ n < s'.calls, allows n = true)
          (fun s' f => ∃ before, before <+: entries ∧
            Stopped lower windows stagePath outputPath allows output stage cleanup before s' f) :=
        movePass_spec (.start stage output cleanup) hlisted (checked_of_pass hcheck) rfl
          fun n hn => absurd hn (Nat.not_lt_zero n)
      dsimp only
      refine ⟨fun f hf => ?_, fun _ hallowed => ?_, fun _ hrefused => ?_⟩
      · rw [hcheck] at hf
        cases hf
      · rcases hrun : movePass lower windows stagePath outputPath allows entries
          ⟨stage.entries, output.entries, cleanup, 0⟩ with ⟨s, f | ⟨⟩⟩
        · obtain ⟨before, -, hstopped⟩ := hspec.of_error s f hrun
          obtain ⟨n, hn, hfalse⟩ := hstopped.refused
          rw [hrun] at hallowed
          rw [hallowed n hn] at hfalse
          cases hfalse
        · exact ⟨rfl, fun p => (hspec.of_ok s () hrun).1.finish hlisted p⟩
      · rcases hrun : movePass lower windows stagePath outputPath allows entries
          ⟨stage.entries, output.entries, cleanup, 0⟩ with ⟨s, f | ⟨⟩⟩
        · obtain ⟨before, hbefore, hstopped⟩ := hspec.of_error s f hrun
          obtain ⟨entry, hreason⟩ := hstopped.reason
          exact ⟨⟨f, entry, rfl, hreason⟩, hstopped.kept hlisted hbefore⟩
        · obtain ⟨n, hn, hfalse⟩ := hrefused
          rw [hrun] at hn
          rw [(hspec.of_ok s () hrun).2.2 n hn] at hfalse
          cases hfalse

/-- A generated file in a new directory, and one that replaces an older file. -/
def generated : HostTree :=
  .ofEntries [([], newDirectory), ([text "lib"], newDirectory),
    ([text "lib", text "a.h"], ⟨.file [1], true⟩), ([text "b.h"], ⟨.file [2], true⟩)] (by decide +kernel)

def older : HostTree :=
  .ofEntries [([], newDirectory), ([text "b.h"], ⟨.file [3], true⟩)] (by decide +kernel)

/-- The host refuses the second call of the move pass. -/
theorem publishOutput_conservative_sample : ∃ entries r,
    publishOutput id false (text "/out/.stage") (text "/out") (· != 1) generated older
      [text "/out/.stage"] = some r ∧
    Conservative id false (text "/out/.stage") (text "/out") (· != 1) generated older
      [text "/out/.stage"] entries r := by
  obtain ⟨entries, r, -, -, hr, hconservative⟩ := publishOutput_conservative id false
    (text "/out/.stage") (text "/out") (· != 1) generated older [text "/out/.stage"]
  exact ⟨entries, r, hr, hconservative⟩

end Launcher
