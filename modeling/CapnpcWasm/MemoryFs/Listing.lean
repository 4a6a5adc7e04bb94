import CapnpcWasm.MemoryFs.Mirror

/-!
# Listing a directory in pages

`Readdir` filters the names of the filesystem by their directory, sorts them, and cuts the list at
an offset that the handle keeps.  Pages of any sizes partition the children of the directory, as
long as no page size takes the end of a page past the range of an `int`.
-/

namespace MemoryFs

open Sdk Outcome

/-! ## Pages -/

/-- The pages of some calls, each with what the disk is then, and the handle after them. -/
def MemoryFile.pages (f : MemoryFile) : List (Disk × Int) → Option (MemoryFile × List (List Dirent))
  | [] => some (f, [])
  | (d, n) :: calls =>
      match f.readdir d n with
      | some (f', .ok entries) => (f'.pages calls).map fun r => (r.1, entries :: r.2)
      | _ => none

/-- The tree of two disks is the same: the names, and the kind and inode of each node. -/
structure SameTree (d d' : Disk) : Prop where
  nodes : d'.fs.nodes = d.fs.nodes
  ino : ∀ n, (d'.deref n).ino = (d.deref n).ino
  isDir : ∀ n, d'.isDir n = d.isDir n

/-! ## Children -/

/-- The name of what stands in a directory under a component. -/
def childName (directory part : Name) : Name :=
  if directory = dot then part else directory ++ slash :: part

/-- An immediate child of a directory. -/
structure Child (d : Disk) (directory : Name) (e : Dirent) : Prop where
  component : Plain e.name ∧ slash ∉ e.name
  node : ∃ n, d.lookup (childName directory e.name) = some n ∧ e.ino = (d.deref n).ino ∧
    e.dir = d.isDir n

/-- The immediate children of a directory in byte order, each once. -/
structure Listing (d : Disk) (directory : Name) (entries : List Dirent) : Prop where
  sorted : entries.Pairwise fun a b => a.name < b.name
  mem : ∀ e, e ∈ entries ↔ Child d directory e

section

variable {d : Disk} {name directory part : Name} {f : MemoryFile}

theorem childName_lt {other : Name} :
    childName directory part < childName directory other ↔ part < other := by
  have hstart : ∀ start : Name, start ++ part < start ++ other ↔ part < other := by
    intro start
    induction start with
    | nil => exact Iff.rfl
    | cons b start ih =>
        rw [List.cons_append, List.cons_append, List.cons_lt_cons_iff, ih]
        exact ⟨fun h => h.elim (fun hlt => absurd hlt (UInt8.lt_irrefl b)) And.right, fun h => .inr ⟨rfl, h⟩⟩
  rw [childName, childName]
  split
  · exact Iff.rfl
  · have hassoc : ∀ rest : Name, directory ++ slash :: rest = directory ++ [slash] ++ rest :=
      fun rest => by simp
    rw [hassoc part, hassoc other]
    exact hstart _

/-- The directory and the last component of a canonical name. -/
theorem canonical_last (h : Canonical name) {parts : List Name} (hsplit : split name = parts ++ [part]) :
    dir name = (if parts = [] then dot else join parts) ∧ base name = part ∧
      name = childName (if parts = [] then dot else join parts) part := by
  refine ⟨by rw [dir_canonical h, hsplit, List.dropLast_concat], ?_, ?_⟩
  · have hplain := h.plain part (by simp [hsplit])
    rw [base, if_neg (canonical_ne_nil h), rdropWhile_slash (getLast_canonical h), hsplit,
      List.getLast?_concat]
    split
    · next heq => exact absurd (Option.some.inj heq) hplain.1
    · next heq => cases heq
    · next heq => exact (Option.some.inj heq).symm
  · have hjoin := join_split name
    rw [hsplit] at hjoin
    rw [childName]
    by_cases hnil : parts = []
    · rw [hnil, List.nil_append, join_singleton] at hjoin
      rw [if_pos hnil, if_pos rfl, hjoin]
    · have hfit : Fit parts := fun p hp => h.fit p (by
        rw [hsplit]
        exact List.mem_append_left _ hp)
      rw [if_neg hnil, if_neg (canonical_ne_dot (hfit.canonical hnil)), ← hjoin,
        join_append hnil (List.cons_ne_nil _ _), join_singleton]

/-- A canonical name is that of a child of its directory, by its last component. -/
theorem canonical_child (h : Canonical name) :
    name = childName (dir name) (base name) ∧ Plain (base name) ∧ slash ∉ base name := by
  have hsplit := (List.dropLast_append_getLast (split_ne_nil name)).symm
  obtain ⟨hdir, hbase, hname⟩ := canonical_last h hsplit
  have hmem : (split name).getLast (split_ne_nil name) ∈ split name := List.getLast_mem _
  rw [hdir, hbase]
  exact ⟨hname, h.plain _ hmem, (of_mem_split hmem).1⟩

theorem childName_canonical (hdirectory : directory = dot ∨ Canonical directory)
    (hslash : slash ∉ part) (hname : Canonical (childName directory part)) :
    dir (childName directory part) = directory ∧ base (childName directory part) = part := by
  have hpart : split part = [part] := List.splitOn_eq_singleton hslash
  rcases hdirectory with rfl | hcanonical
  · obtain ⟨hdir, hbase, -⟩ := @canonical_last _ part hname [] hpart
    exact ⟨hdir, hbase⟩
  · have hsplit : split (childName directory part) = split directory ++ [part] := by
      rw [childName, if_neg (canonical_ne_dot hcanonical), split_append, hpart]
    obtain ⟨hdir, hbase, -⟩ := canonical_last hname hsplit
    rw [if_neg (split_ne_nil directory), join_split] at hdir
    exact ⟨hdir, hbase⟩

/-- What the handle lists are the children of its directory. -/
theorem entries_listing (hnames : ∀ name n, d.lookup name = some n → name = dot ∨ Canonical name)
    (hdirectory : f.name = dot ∨ Canonical f.name) : Listing d f.name (f.entries d) := by
  have hmem : ∀ name, name ∈ listed d f.name ↔
      (∃ n, d.lookup name = some n) ∧ name ≠ dot ∧ dir name = f.name := by
    intro name
    rw [listed, List.mem_filter, mem_keys_iff, decide_eq_true_iff]
  have hentries : f.entries d = (listed d f.name).filterMap fun name =>
      (d.lookup name).map fun n => ⟨base name, (d.deref n).ino, d.isDir n⟩ := rfl
  constructor
  · rw [hentries]
    have hnodup : (listed d f.name).Nodup :=
      ((List.perm_insertionSort (· ≤ ·) _).nodup_iff.mpr d.fs.nodes.keys_nodup).filter _
    have hsorted : (listed d f.name).Pairwise (· ≤ ·) :=
      (List.pairwise_insertionSort (· ≤ ·) _).filter _
    refine List.pairwise_filterMap.mpr ((hsorted.and hnodup).imp_of_mem ?_)
    rintro a b ha hb ⟨hle, hne⟩ e he e' he'
    -- The names of two children compare as their last components do.
    obtain ⟨⟨n, hn⟩, hadot, hadir⟩ := (hmem a).mp ha
    obtain ⟨⟨m, hm⟩, hbdot, hbdir⟩ := (hmem b).mp hb
    have hachild := (canonical_child ((hnames a n hn).resolve_left hadot)).1
    have hbchild := (canonical_child ((hnames b m hm).resolve_left hbdot)).1
    obtain ⟨_, -, rfl⟩ := Option.map_eq_some_iff.mp he
    obtain ⟨_, -, rfl⟩ := Option.map_eq_some_iff.mp he'
    have hlt : a < b := by
      by_contra hnot
      exact hne (List.le_antisymm hle (List.not_lt.mp hnot))
    rw [hachild, hbchild, hadir, hbdir, childName_lt] at hlt
    exact hlt
  · intro e
    rw [hentries, List.mem_filterMap]
    constructor
    · rintro ⟨name, hname, he⟩
      obtain ⟨-, hne, hdir⟩ := (hmem name).mp hname
      obtain ⟨n, hn, rfl⟩ := Option.map_eq_some_iff.mp he
      obtain ⟨hchild, hplain, hslash⟩ := canonical_child ((hnames name n hn).resolve_left hne)
      rw [hdir] at hchild
      exact ⟨⟨hplain, hslash⟩, n, by rw [← hchild]; exact hn, rfl, rfl⟩
    · rintro ⟨⟨hplain, hslash⟩, n, hn, hino, hdir⟩
      have hcanonical : Canonical (childName f.name e.name) := by
        refine (hnames _ n hn).resolve_left fun hdot => ?_
        rw [childName] at hdot
        split at hdot
        · exact hplain.2.1 hdot
        · next hne =>
          have hlength := congrArg List.length hdot
          have hname := List.length_pos_iff.mpr
            (canonical_ne_nil (hdirectory.resolve_left hne))
          rw [List.length_append, List.length_cons, dot, List.length_singleton] at hlength
          omega
      obtain ⟨hdirectory', hbase⟩ := childName_canonical hdirectory hslash hcanonical
      refine ⟨childName f.name e.name, (hmem _).mpr ⟨⟨n, hn⟩, canonical_ne_dot hcanonical,
        hdirectory'⟩, ?_⟩
      rw [hn, Option.map_some, hbase, ← hino, ← hdir]

/-! ## A listing -/

/-- Where a page ends that starts somewhere in a list. -/
def pageEnd (total start : Nat) (n : Int) : Nat := if 0 < n then min total (start + n.toNat) else total

/-- No page size takes the end of a page past the range of an `int`. -/
def Fits (total : Nat) : Nat → List Int → Prop
  | _, [] => True
  | start, n :: sizes => (0 < n → start + n ≤ 9223372036854775807) ∧ Fits total (pageEnd total start n) sizes

/-- A handle on an open directory, between its first child and its last. -/
structure Open (d : Disk) (f : MemoryFile) : Prop where
  isOpen : f.closed = false
  directory : d.isDir f.node = true
  offset : f.dirOffset ≤ (f.entries d).length

theorem SameTree.entries {d' : Disk} (h : SameTree d d') (f : MemoryFile) :
    f.entries d' = f.entries d := by
  have hlookup : ∀ name, d'.lookup name = d.lookup name := fun name => by
    rw [Disk.lookup, h.nodes, Disk.lookup]
  rw [MemoryFile.entries, MemoryFile.entries, h.nodes]
  simp only [hlookup, h.ino, h.isDir]

/-- A page of an open directory. -/
theorem readdir_open {d' : Disk} (h : Open d f) (hsame : SameTree d d') (n : Int) : f.readdir d' n =
    if 0 < n ∧ 9223372036854775807 < f.dirOffset + n then none
    else some ({ f with dirOffset := pageEnd (f.entries d).length f.dirOffset n },
      .ok (((f.entries d).take (pageEnd (f.entries d).length f.dirOffset n)).drop f.dirOffset)) := by
  have hopen : ¬(f.closed = true ∨ ¬d'.isDir f.node = true) := by
    simp [h.isOpen, (hsame.isDir f.node).trans h.directory]
  have hmin : min f.dirOffset (f.entries d).length = f.dirOffset := Nat.min_eq_left h.offset
  rw [MemoryFile.readdir, if_neg hopen, hsame.entries]
  dsimp only
  rw [hmin]
  rfl

theorem pageEnd_le (total start : Nat) (n : Int) : pageEnd total start n ≤ total := by
  rw [pageEnd]
  split
  · omega
  · exact Nat.le_refl _

/-- Every page goes on that does not end at the last child. -/
theorem lt_pageEnd {total start : Nat} {n : Int} (h : pageEnd total start n < total) :
    start < pageEnd total start n := by
  rw [pageEnd] at h ⊢
  split
  · next hpos =>
    rw [if_pos hpos] at h
    omega
  · next hneg =>
    rw [if_neg hneg] at h
    omega

theorem le_pageEnd {total start : Nat} (h : start ≤ total) (n : Int) : start ≤ pageEnd total start n := by
  rw [pageEnd]
  split
  · omega
  · exact h

theorem Open.next (h : Open d f) (n : Int) :
    Open d { f with dirOffset := pageEnd (f.entries d).length f.dirOffset n } where
  isOpen := h.isOpen
  directory := h.directory
  offset := pageEnd_le _ _ n

/-- What some pages list of a directory, and where they leave the handle. -/
structure Cut (entries : List Dirent) (start : Nat) (pages : List (List Dirent)) (finish : Nat) :
    Prop where
  bound : finish ≤ entries.length
  forward : start ≤ finish
  listed : pages.flatten ++ entries.drop finish = entries.drop start
  ended : [] ∈ pages → finish = entries.length
  going : [] ∉ pages → start + pages.length ≤ finish

/-- A page that lists nothing is the last, and one that lists something goes on. -/
theorem Cut.cons {entries : List Dirent} {start finish : Nat} {pages : List (List Dirent)} {n : Int}
    (hstart : start ≤ entries.length) (h : Cut entries (pageEnd entries.length start n) pages finish) :
    Cut entries start ((entries.take (pageEnd entries.length start n)).drop start :: pages) finish := by
  have hle := le_pageEnd hstart n
  have hbound := pageEnd_le entries.length start n
  have hpage : (entries.take (pageEnd entries.length start n)).drop start ++
      entries.drop (pageEnd entries.length start n) = entries.drop start := by
    conv_rhs => rw [← List.take_append_drop (pageEnd entries.length start n) entries]
    rw [List.drop_append_of_le_length]
    rw [List.length_take, Nat.min_eq_left hbound]
    exact hle
  have hlength : ((entries.take (pageEnd entries.length start n)).drop start).length =
      pageEnd entries.length start n - start := by
    rw [List.length_drop, List.length_take, Nat.min_eq_left hbound]
  refine ⟨h.bound, hle.trans h.forward,
    by rw [List.flatten_cons, List.append_assoc, h.listed, hpage], fun hmem => ?_, fun hmem => ?_⟩
  · rcases List.mem_cons.mp hmem with hnil | hmem
    · -- An empty page starts and ends at the last child.
      rw [← hnil, List.length_nil] at hlength
      have hend : pageEnd entries.length start n = entries.length := by
        by_contra hne
        have hlt := lt_pageEnd (Nat.lt_of_le_of_ne hbound hne)
        omega
      have hforward := h.forward
      have hlast := h.bound
      omega
    · exact h.ended hmem
  · obtain ⟨hne, hrest⟩ := not_or.mp (List.mem_cons.not.mp hmem)
    have hpos := List.length_pos_iff.mpr (Ne.symm hne)
    have hgoing := h.going hrest
    rw [List.length_cons]
    omega

/-- Pages of any sizes cut the children of a directory, unless a call panics. -/
theorem pages_cut (h : Open d f) {calls : List (Disk × Int)}
    (hsame : ∀ call ∈ calls, SameTree d call.1) :
    (Fits (f.entries d).length f.dirOffset (calls.map Prod.snd) ∧
      ∃ g pages, f.pages calls = some (g, pages) ∧ pages.length = calls.length ∧
        Cut (f.entries d) f.dirOffset pages g.dirOffset) ∨
    (¬Fits (f.entries d).length f.dirOffset (calls.map Prod.snd) ∧ f.pages calls = none) := by
  induction calls generalizing f with
  | nil =>
      exact .inl ⟨trivial, f, [], rfl, rfl, h.offset, Nat.le_refl _, rfl, fun hmem => absurd hmem List.not_mem_nil,
        fun _ => Nat.le_refl _⟩
  | cons call calls ih =>
      obtain ⟨d', n⟩ := call
      obtain ⟨hfirst, hrest⟩ := List.forall_mem_cons.mp hsame
      rw [List.map_cons, Fits, MemoryFile.pages, readdir_open h hfirst n]
      by_cases hpanics : 0 < n ∧ 9223372036854775807 < f.dirOffset + n
      · rw [if_pos hpanics]
        refine .inr ⟨fun hfits => ?_, rfl⟩
        have hle := hfits.1 hpanics.1
        omega
      · have hfits : 0 < n → f.dirOffset + n ≤ 9223372036854775807 := fun hpos =>
          Int.not_lt.mp fun hlt => hpanics ⟨hpos, hlt⟩
        rw [if_neg hpanics, and_iff_right hfits]
        rcases ih (h.next n) hrest with ⟨hall, g, pages, hpages, hlength, hcut⟩ | ⟨hnot, hnone⟩
        · refine .inl ⟨hall, g, _ :: pages, ?_, congrArg (· + 1) hlength, hcut.cons h.offset⟩
          dsimp only
          rw [hpages]
          rfl
        · refine .inr ⟨hnot, ?_⟩
          dsimp only
          rw [hnone]
          rfl

end

/-! ## Reachable states -/

/-- The names of a mount are canonical, and a handle on a directory has the directory's name. -/
structure World.Named (w : World) : Prop where
  names : ∀ name n, w.lookup name = some n → name = dot ∨ Canonical name
  stands : ∀ f ∈ w.files, w.isDir f.node = true → w.lookup f.name = some f.node

section

variable {d d' : Disk} {name : Name} {n : Pointer} {w w' : World} {op : Op} {a : Answer}

/-- No effect takes a directory from its name. -/
theorem Effect.keeps (h : Effect d d') (hn : d.lookup name = some n) (hdir : d.isDir n = true) :
    d'.lookup name = some n := by
  have hother : ∀ {other : Name} {m : Pointer}, d.lookup other = some m → d.isDir m = false →
      name ≠ other := by
    rintro other m hm hfile rfl
    rw [hn] at hm
    rw [← Option.some.inj hm, hdir] at hfile
    cases hfile
  have hnew : ∀ {other : Name}, d.lookup other = none → name ≠ other := by
    rintro other hnone rfl
    rw [hn] at hnone
    cases hnone
  cases h with
  | create hadmits =>
      rw [lookup_add, if_neg (hnew hadmits.absent)]
      exact hn
  | delete hm hfile => rw [lookup_delete, if_neg (hother hm hfile), hn]
  | replace hm hfile hold hfile' hne =>
      rw [lookup_move, if_neg (hother hold hfile'), if_neg (hother hm hfile), hn]
  | move hm hfile hadmits =>
      rw [lookup_move, if_neg (hnew hadmits.absent), if_neg (hother hm hfile)]
      exact hn
  | store _ _ _ _ => exact hn

theorem Effects.keeps (hs : Sound d) (h : Effects d d') (hn : d.lookup name = some n)
    (hdir : d.isDir n = true) : d'.lookup name = some n := by
  induction h with
  | refl => exact hn
  | tail hrest he ih =>
      refine he.keeps ih ?_
      rw [(Effects.extends hrest).isDir n (hs.linked name n hn), hdir]

theorem lookup_notes (d : Disk) (b : Option Limit) : (d.notes b).lookup name = d.lookup name := by
  cases b with
  | none => rfl
  | some b => rfl

theorem truncate_nodes (d : Disk) (f : MemoryFile) (size : Int) :
    (f.truncate d size).Ends (fun d' _ => d'.fs.nodes = d.fs.nodes) fun _ _ => True := by
  rw [MemoryFile.truncate]
  split
  · exact .error trivial
  · split
    · exact .error trivial
    · split
      · exact .error trivial
      · dsimp only
        split
        · exact .error trivial
        · split
          · exact .ok rfl
          · exact .ok rfl

/-- The handle of an open has the name it was found or created by. -/
theorem openFile_named (d : Disk) (path : Name) (flag : Oflag) (perm : Nat) :
    (d.openFile path flag perm).Ends (fun d' f => d'.lookup f.name = some f.node) fun _ _ => True := by
  have hnode : ∀ (d : Disk) resolved trailingSlash, (d.openNode resolved trailingSlash flag perm).Ends
      (fun d' n => d'.lookup resolved = some n) fun _ _ => True := by
    intro d resolved trailingSlash
    rw [Disk.openNode]
    split
    · split
      · exact .error trivial
      · split
        · exact .error trivial
        · split
          · exact .error trivial
          · refine (parent_ends d resolved).andThen ?_ fun _ _ _ => trivial
            rintro d _ -
            rw [Disk.create]
            refine (chargeEntry_ends d resolved).andThen ?_ fun _ _ _ => trivial
            rintro d _ -
            exact .ok (AList.lookup_insert _)
    · next hn =>
      split
      · exact .error trivial
      · exact .ok hn
  rw [Disk.openFile]
  refine (resolve_slash d path flag.O_CREAT).andThen ?_ fun _ _ _ => trivial
  rintro d ⟨resolved, trailingSlash⟩ -
  dsimp only
  split
  · exact .error trivial
  · refine (hnode d resolved trailingSlash).andThen ?_ fun _ _ _ => trivial
    intro d n hn
    split
    · exact .error trivial
    · split
      · exact .error trivial
      · split
        · refine (truncate_nodes d _ 0).andThen ?_ fun _ _ _ => trivial
          intro d' _ hnodes
          refine .ok ?_
          show d'.fs.nodes.lookup resolved = some n
          rw [hnodes]
          exact hn
        · exact .ok hn

/-- A handle after an operation was one before it, or is new and stands at its name. -/
theorem step_files (h : Does w (op, a) w') : ∀ g ∈ w'.files,
    (∃ f ∈ w.files, g.node = f.node ∧ g.name = f.name) ∨ w'.lookup g.name = some g.node := by
  have hstep : w.step op = some (w', a) := h
  have hkept : w'.files = w.files → ∀ g ∈ w'.files,
      (∃ f ∈ w.files, g.node = f.node ∧ g.name = f.name) ∨ w'.lookup g.name = some g.node :=
    fun hfiles g hg => .inl ⟨g, hfiles ▸ hg, rfl, rfl⟩
  cases op with
  | openFile path flag perm =>
      rw [World.step, World.openFile] at hstep
      rcases hopen : w.toDisk.openFile path flag perm with ⟨d, e | f⟩
      · rw [hopen] at hstep
        cases hstep
        exact hkept rfl
      · rw [hopen] at hstep
        cases hstep
        intro g hg
        rcases List.mem_append.mp hg with hg | hg
        · exact .inl ⟨g, hg, rfl, rfl⟩
        · rw [List.mem_singleton.mp hg]
          exact .inr ((openFile_named w.toDisk path flag perm).of_ok d f hopen)
  | file k op =>
      obtain ⟨f, d, f', hf, happly, rfl⟩ := World.step_file.mp hstep
      intro g hg
      rcases List.mem_or_eq_of_mem_set hg with hg | rfl
      · exact .inl ⟨g, hg, rfl, rfl⟩
      · have hsame := apply_same happly
        exact .inl ⟨f, List.mem_of_getElem? hf, hsame.node, hsame.name⟩
  | stat path =>
      cases hstep
      exact hkept rfl
  | lstat path =>
      cases hstep
      exact hkept rfl
  | readlink path =>
      cases hstep
      exact hkept rfl
  | mkdir path perm =>
      cases hstep
      exact hkept rfl
  | unlink path =>
      cases hstep
      exact hkept rfl
  | rename source target =>
      cases hstep
      exact hkept rfl

/-- A step on a writable mount keeps directories at their names. -/
theorem World.Named.step (h : w.Named) (hk : w.Kept) (hs : Does w (op, a) w') : w'.Named := by
  obtain ⟨d, b, heffects, hdisk, -⟩ := (hk.acts hs).1.effects
  have hk' := hk.step hs
  refine ⟨fun name n hn => (hk'.sound.names name n hn).imp id fun hfits => hfits.canonical,
    fun g hg hdir => ?_⟩
  rcases step_files hs g hg with ⟨f, hf, hnode, hname⟩ | hnew
  · have hlt := (hk.held f hf).node
    have hkind : w'.isDir f.node = w.isDir f.node := by
      rw [hdisk]
      exact ((notes_extends d b).isDir _ (Nat.lt_of_lt_of_le hlt (Effects.extends heffects).heap)).trans
        ((Effects.extends heffects).isDir _ hlt)
    rw [hnode, hkind] at hdir
    rw [hnode, hname, hdisk, lookup_notes]
    exact Effects.keeps hk.sound heffects (h.stands f hf hdir) hdir
  · exact hnew

end

section

variable {M : Type} [DecidableEq M] {s s' : Mounts M}

/-- A step on one of several read-only mounts. -/
theorem Mounts.named_step {event : M × Event} (h : ∀ m, (s.world m).Named) (hreads : s.Reads)
    (hs : DoesOn s event s') : ∀ m, (s'.world m).Named := by
  obtain ⟨hheap, hfs, -⟩ := hreads.step hs
  have hlookup : ∀ m name, (s'.world m).lookup name = (s.world m).lookup name := fun m name =>
    congrArg (fun fs : MemoryFS => fs.nodes.lookup name) (congrFun hfs m)
  have hkind : ∀ m n, (s'.world m).isDir n = (s.world m).isDir n := fun m n =>
    congrArg (fun heap : List Node => (heap.getD n default).mode.dir) hheap
  have hfiles : ∀ m, ∀ g ∈ s'.files m, (∃ f ∈ s.files m, g.node = f.node ∧ g.name = f.name) ∨
      (s'.world m).lookup g.name = some g.node := by
    intro m g hg
    obtain ⟨m₀, op, a⟩ := event
    obtain ⟨⟨w, b⟩, hw, heq⟩ := Option.map_eq_some_iff.mp hs
    obtain ⟨rfl, rfl⟩ := Prod.mk.inj heq
    have hupdate : g ∈ Function.update s.files m₀ w.files m := hg
    rw [Function.update_apply] at hupdate
    split at hupdate
    · next hm =>
      subst hm
      have hnames : w.lookup g.name = (s.world m).lookup g.name :=
        congrArg (fun d : Disk => d.lookup g.name) ((hreads m).kept hw).1
      rw [hlookup, ← hnames]
      exact step_files hw g hupdate
    · exact .inl ⟨g, hupdate, rfl, rfl⟩
  refine fun m => ⟨fun name n hn => (h m).names name n (by rwa [← hlookup]), fun g hg hdir => ?_⟩
  rcases hfiles m g hg with ⟨f, hf, hnode, hname⟩ | hnew
  · rw [hnode, hkind] at hdir
    rw [hnode, hname, hlookup]
    exact (h m).stands f hf hdir
  · exact hnew

theorem Mounts.named_runs {events : List (M × Event)} (h : ∀ m, (s.world m).Named)
    (hreads : s.Reads) (hr : Trace DoesOn s events s') : ∀ m, (s'.world m).Named := by
  induction hr with
  | nil => exact h
  | snoc hrest hs ih => exact Mounts.named_step ih (hreads.runs hrest).2.2 hs

end

/-- The states of a mount: the writable one of a generator, and the three of a compile. -/
inductive Reached : World → Prop
  | written {device : Nat} {limits : Limits} {events : List Event} {w : World} :
      Runs (fresh device limits) events w → Reached w
  | mounted {host : Host} {source included : Contents} {limits : Limits}
      {events : List (Mount × Event)} {s : Mounts Mount} (m : Mount) :
      Stageable source → Stageable included →
      Trace DoesOn (compileMounts host source included limits) events s → Reached (s.world m)

theorem compileMounts_named {source included : Contents} (host : Host) (limits : Limits)
    (hsource : Stageable source) (hincluded : Stageable included) (m : Mount) :
    ((compileMounts host source included limits).world m).Named := by
  refine ⟨fun name n hn => ?_, fun f hf => absurd hf List.not_mem_nil⟩
  cases m with
  | source => exact compileMounts_canonical hsource hincluded .source hn
  | included => exact compileMounts_canonical hsource hincluded .included hn
  | root =>
      rcases root_names host source included limits hn with
        hroot | ⟨point, m, hmounted, htop | ⟨below, hbelow, rfl⟩⟩
      · exact .inl hroot
      · rw [htop]
        exact .inr hmounted.isPoint.canonical
      · have hlookup := root_lookup host source included limits hmounted hbelow
        rw [hn] at hlookup
        have hcanonical :=
          (compileMounts_canonical hsource hincluded hmounted hlookup.symm).resolve_left hbelow
        exact .inr (hmounted.isPoint.beneath hcanonical)

theorem Reached.named {w : World} (h : Reached w) : w.Named := by
  cases h with
  | @written device limits events w hruns =>
      have hnamed : ∀ {events : List Event} {w : World}, Runs (fresh device limits) events w →
          w.Named := by
        intro events w hruns
        induction hruns with
        | nil =>
            exact ⟨fun name n hn => ((fresh_kept device limits).sound.names name n hn).imp id
              fun hfits => hfits.canonical, fun f hf => absurd hf List.not_mem_nil⟩
        | snoc hrest hs ih => exact ih.step (kept_of_runs hrest).1 hs
      exact hnamed hruns
  | @mounted host source included limits events s m hsource hincluded hruns =>
      exact Mounts.named_runs (compileMounts_named host limits hsource hincluded)
        (compileMounts_reads host source included limits).1 hruns m

/-- What the pages of a directory list, read one after the other: nothing twice, nothing skipped, and
all of its children once a page is empty, which comes in the end. -/
structure Paged (d : Disk) (f : MemoryFile) (calls : List (Disk × Int)) : Prop where
  answered : ∃ g pages, f.pages calls = some (g, pages) ∧
    (∃ rest, Listing d f.name (pages.flatten ++ rest)) ∧
    ([] ∈ pages → Listing d f.name pages.flatten) ∧
    ((f.entries d).length < calls.length → [] ∈ pages)

theorem Open.paged_iff {d : Disk} {f : MemoryFile} (h : Open d f) (hzero : f.dirOffset = 0)
    (hlisting : Listing d f.name (f.entries d)) {calls : List (Disk × Int)}
    (hsame : ∀ call ∈ calls, SameTree d call.1) :
    Paged d f calls ↔ Fits (f.entries d).length 0 (calls.map Prod.snd) := by
  rw [← hzero]
  rcases pages_cut h hsame with ⟨hfits, g, pages, hpages, hlength, hcut⟩ | ⟨hnot, hnone⟩
  · rw [hzero] at hcut
    refine iff_of_true ⟨g, pages, hpages, ?_, fun hempty => ?_, fun hmore => ?_⟩ hfits
    · exact ⟨(f.entries d).drop g.dirOffset, hcut.listed ▸ hlisting⟩
    · have hall := hcut.listed
      rw [hcut.ended hempty, List.drop_length, List.append_nil] at hall
      exact hall ▸ hlisting
    · by_contra hempty
      have hgoing := hcut.going hempty
      have hbound := hcut.bound
      omega
  · refine iff_of_false (fun hpaged => ?_) hnot
    obtain ⟨g, pages, hpages, -⟩ := hpaged.answered
    rw [hnone] at hpages
    cases hpages

/-- From any point a directory is listed anew after a seek to its start, as it is after an open, and
its pages partition its children unless a page size takes the end of a page past the range of an
`int`. -/
theorem readdir_paged_iff {w : World} (h : Reached w) {f : MemoryFile} (hf : f ∈ w.files)
    (hopen : f.closed = false) (hdir : w.isDir f.node = true) (calls : List (Disk × Int))
    (hsame : ∀ call ∈ calls, SameTree w.toDisk call.1) :
    w.lookup f.name = some f.node ∧
    ∃ g, f.seek w.toDisk 0 0 = (g, .ok 0) ∧ g.name = f.name ∧ (f.dirOffset = 0 → g = f) ∧
      (Paged w.toDisk g calls ↔ Fits (f.entries w.toDisk).length 0 (calls.map Prod.snd)) := by
  have hnamed := h.named
  have hstands := hnamed.stands f hf hdir
  have hlisting : Listing w.toDisk f.name (f.entries w.toDisk) :=
    entries_listing hnamed.names (hnamed.names f.name f.node hstands)
  refine ⟨hstands, { f with dirOffset := 0 }, ?_, rfl, fun hzero => ?_, ?_⟩
  · rw [MemoryFile.seek, if_neg (by simp [hopen]), if_pos hdir, if_neg (by simp)]
  · rw [← hzero]
  · have hstart : Open w.toDisk { f with dirOffset := 0 } := ⟨hopen, hdir, Nat.zero_le _⟩
    exact hstart.paged_iff rfl hlisting hsame

/-- A directory in the root of a fresh mount, and a handle on the root. -/
def rootOps : List Op := [.mkdir [97] 0o755, .openFile dot {} 0]

def rootHandle : MemoryFile :=
  { node := 0, name := dot, offset := 0, dirOffset := 0, readable := true, writable := false,
    appendMode := false, closed := false }

theorem rootOps_run : ∃ w, Reached w ∧ rootHandle ∈ w.files ∧ w.isDir rootHandle.node = true ∧
    (rootHandle.entries w.toDisk).length = 1 ∧
    rootHandle.pages [(w.toDisk, 1), (w.toDisk, 9223372036854775807)] = none := by
  have hrun : ((fresh 0 defaultLimits).run rootOps).map (fun r => (r.1.files,
      r.1.isDir rootHandle.node, (rootHandle.entries r.1.toDisk).length,
      (rootHandle.pages [(r.1.toDisk, 1), (r.1.toDisk, 9223372036854775807)]).isNone)) =
      some ([rootHandle], true, 1, true) := by decide +kernel
  obtain ⟨⟨w, answers⟩, hw, heq⟩ := Option.map_eq_some_iff.mp hrun
  obtain ⟨hfiles, heq⟩ := Prod.mk.inj heq
  obtain ⟨hdir, heq⟩ := Prod.mk.inj heq
  obtain ⟨hlength, hnone⟩ := Prod.mk.inj heq
  refine ⟨w, .written (runs_of_run hw), ?_, hdir, hlength, Option.isNone_iff_eq_none.mp hnone⟩
  dsimp only at hfiles
  rw [hfiles]
  exact List.mem_singleton_self _

/-- Pages of one child each. -/
theorem readdir_paged_sample : ∃ w g, Reached w ∧ rootHandle.seek w.toDisk 0 0 = (g, .ok 0) ∧
    (Paged w.toDisk g [(w.toDisk, 1), (w.toDisk, 1)] ↔
      Fits (rootHandle.entries w.toDisk).length 0 [1, 1]) := by
  obtain ⟨w, hreached, hmem, hdir, -⟩ := rootOps_run
  have hsame : ∀ call ∈ [(w.toDisk, (1 : Int)), (w.toDisk, 1)], SameTree w.toDisk call.1 := by
    intro call hcall
    simp only [List.mem_cons, List.not_mem_nil, or_false, or_self] at hcall
    rw [hcall]
    exact ⟨rfl, fun _ => rfl, fun _ => rfl⟩
  obtain ⟨-, g, hseek, -, -, hpaged⟩ := readdir_paged_iff hreached hmem rfl hdir _ hsame
  exact ⟨w, g, hreached, hseek, hpaged⟩

/-- One child listed, the largest `int` as a page size takes the end of the page past its range. -/
theorem readdir_overflows : ¬∀ (w : World) (f : MemoryFile) (calls : List (Disk × Int)), Reached w →
    f ∈ w.files → f.closed = false → w.isDir f.node = true → f.dirOffset = 0 →
    (∀ call ∈ calls, SameTree w.toDisk call.1) → ∃ g pages, f.pages calls = some (g, pages) := by
  intro h
  obtain ⟨w, hreached, hmem, hdir, -, hnone⟩ := rootOps_run
  obtain ⟨g, pages, hpages⟩ := h w rootHandle
    [(w.toDisk, 1), (w.toDisk, 9223372036854775807)] hreached hmem rfl hdir rfl (by
    rintro ⟨d, n⟩ hcall
    have hd : d = w.toDisk := by
      rcases List.mem_cons.mp hcall with heq | hcall
      · exact congrArg Prod.fst heq
      · exact congrArg Prod.fst (List.mem_singleton.mp hcall)
    rw [hd]
    exact ⟨rfl, fun _ => rfl, fun _ => rfl⟩)
  rw [hnone] at hpages
  cases hpages

end MemoryFs
