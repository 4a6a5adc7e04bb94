import CapnpcWasm.Launcher.Paths
import CapnpcWasm.Lib.Places
import Mathlib.Data.List.Sort

/-!
# Walking a host directory

`walk` lists every entry below a directory, parents before their children.
-/

namespace Launcher

/-- The names from a directory down to an entry. -/
abbrev Place := List Str

inductive Kind where
  | directory
  | file (data : List UInt8)
  | symlink
  | special
deriving DecidableEq, Repr

/-- What `lstat` tells of an entry, with the bytes of a file. -/
structure Entry where
  kind : Kind
  writable : Bool
deriving DecidableEq, Repr

namespace Entry

def isDirectory (e : Entry) : Bool := e.kind = .directory

def isFile (e : Entry) : Bool :=
  match e.kind with
  | .file _ => true
  | _ => false

def isSymlink (e : Entry) : Bool := e.kind = .symlink

end Entry

/-- A directory of the host with everything below it. -/
structure HostTree where
  entries : List (Place × Entry)
  distinct : (entries.map Prod.fst).Nodup
  root : ∃ e, ([], e) ∈ entries ∧ e.isDirectory = true
  parent : ∀ p name, p ++ [name] ∈ entries.map Prod.fst →
    ∃ e, (p, e) ∈ entries ∧ e.isDirectory = true
  named : ∀ p ∈ entries.map Prod.fst, ∀ name ∈ p, name ≠ [] ∧ slash ∉ name

/-- Whether some entries are a tree: each at a place of its own, with a proper name, in a directory. -/
def isTree (entries : List (Place × Entry)) : Bool :=
  decide (entries.map Prod.fst).Nodup && (entries.lookup []).any Entry.isDirectory &&
    entries.all fun entry =>
      (entry.1 == [] || (entries.lookup entry.1.dropLast).any Entry.isDirectory) &&
        entry.1.all fun name => name != [] && !name.contains slash

theorem directory_of_lookup {entries : List (Place × Entry)} (hnodup : (entries.map Prod.fst).Nodup)
    {p : Place} (h : (entries.lookup p).any Entry.isDirectory = true) :
    ∃ e, (p, e) ∈ entries ∧ e.isDirectory = true := by
  obtain ⟨e, he, hdirectory⟩ := (Option.any_eq_true _ _).mp h
  exact ⟨e, (Places.lookup_eq_some hnodup).mp he, hdirectory⟩

/-- The tree of some entries. -/
def HostTree.ofEntries (entries : List (Place × Entry)) (h : isTree entries = true) : HostTree where
  entries := entries
  distinct := by
    rw [isTree, Bool.and_eq_true, Bool.and_eq_true, decide_eq_true_iff] at h
    exact h.1.1
  root := by
    rw [isTree, Bool.and_eq_true, Bool.and_eq_true, decide_eq_true_iff] at h
    exact directory_of_lookup h.1.1 h.1.2
  parent := by
    intro p name hmem
    rw [isTree, Bool.and_eq_true, Bool.and_eq_true, decide_eq_true_iff, List.all_eq_true] at h
    obtain ⟨entry, hentry, hparts⟩ := List.mem_map.mp hmem
    have hall := (Bool.and_eq_true _ _ ▸ h.2 entry hentry).1
    rw [hparts, List.dropLast_concat, Bool.or_eq_true, beq_iff_eq] at hall
    exact directory_of_lookup h.1.1 (hall.resolve_left (by simp))
  named := by
    intro p hp name hname
    rw [isTree, Bool.and_eq_true, Bool.and_eq_true, decide_eq_true_iff, List.all_eq_true] at h
    obtain ⟨entry, hentry, rfl⟩ := List.mem_map.mp hp
    have hall := (Bool.and_eq_true _ _ ▸ h.2 entry hentry).2
    have hone := List.all_eq_true.mp hall name hname
    simpa using hone

def HostTree.places (t : HostTree) : List Place := t.entries.map Prod.fst

/-- An entry, without following links. -/
def HostTree.lstat (t : HostTree) (p : Place) : Option Entry := t.entries.lookup p

/-- The names in a directory, in any order. -/
def HostTree.readDir (t : HostTree) (p : Place) : Option (List Str) :=
  if (t.lstat p).any Entry.isDirectory then
    some ((Places.children t.places p).filterMap List.getLast?)
  else none

/-! ## The walk -/

structure WalkEntry where
  parts : Place
  info : Entry
deriving DecidableEq, Repr

/-- `names.sort()`, by code units. -/
def sortNames (names : List Str) : List Str := names.mergeSort fun a b => !decide (b < a)

def compareParts : Place → Place → Int
  | name :: a, name' :: b =>
      if name ≠ name' then if name < name' then -1 else 1 else compareParts a b
  | a, b => a.length - b.length

/-- The entries of one directory. -/
def listDirectory (t : HostTree) (directory : Place) : Option (List WalkEntry) := do
  let names ← t.readDir directory
  (sortNames names).mapM fun name =>
    (t.lstat (directory ++ [name])).map fun info => ⟨directory ++ [name], info⟩

/-- The loop of a walk, with the directories it has not read, the next one first. -/
def walkFrom (t : HostTree) : Nat → List WalkEntry → List Place → Option (List WalkEntry)
  | _, entries, [] => some entries
  | 0, _, _ :: _ => none
  | fuel + 1, entries, directory :: pending => do
      let found ← listDirectory t directory
      let children := (found.filter (·.info.isDirectory)).map (·.parts)
      walkFrom t fuel (entries ++ found) (children ++ pending)

/-- Every entry below the root, parents before children, without following links: a walk that is
not tolerant and has no limit. -/
def walk (t : HostTree) : Option (List WalkEntry) :=
  (walkFrom t t.entries.length [] [[]]).map
    (List.mergeSort · fun a b => compareParts a.parts b.parts ≤ 0)

/-! ## Order -/

theorem str_lt_or_lt {a b : Str} (h : a ≠ b) : a < b ∨ b < a := by
  by_contra hnot
  obtain ⟨hab, hba⟩ := not_or.mp hnot
  exact h (List.le_antisymm (List.not_lt.mp hba) (List.not_lt.mp hab))

theorem str_lt_trans {a b c : Str} (h : a < b) (h' : b < c) : a < c := List.lt_trans h h'

theorem compareParts_nil (b : Place) : compareParts [] b = -(b.length : Int) := by
  rw [compareParts, List.length_nil, Int.natCast_zero, Int.zero_sub]
  exact nofun

theorem compareParts_nil_right (a : Place) : compareParts a [] = a.length := by
  rw [compareParts, List.length_nil, Int.natCast_zero, Int.sub_zero]
  exact nofun

theorem compareParts_cons {name name' : Str} {a b : Place} :
    compareParts (name :: a) (name' :: b) ≤ 0 ↔
      name < name' ∨ name = name' ∧ compareParts a b ≤ 0 := by
  rw [compareParts]
  split
  · next hne =>
    split
    · next hlt => exact iff_of_true (by omega) (.inl hlt)
    · next hlt => exact iff_of_false (by omega) (not_or.mpr ⟨hlt, fun hboth => hne hboth.1⟩)
  · next heq =>
    obtain rfl := not_not.mp heq
    exact ⟨fun hle => .inr ⟨rfl, hle⟩,
      fun hor => (hor.resolve_left (List.lt_irrefl name)).2⟩

theorem compareParts_total (a b : Place) : compareParts a b ≤ 0 ∨ compareParts b a ≤ 0 := by
  induction a generalizing b with
  | nil =>
      left
      rw [compareParts_nil]
      omega
  | cons name a ih =>
      cases b with
      | nil =>
          right
          rw [compareParts_nil]
          omega
      | cons name' b =>
          rw [compareParts_cons, compareParts_cons]
          by_cases heq : name = name'
          · exact (ih b).imp (fun hle => .inr ⟨heq, hle⟩) fun hle => .inr ⟨heq.symm, hle⟩
          · exact (str_lt_or_lt heq).imp .inl .inl

theorem compareParts_trans (a b c : Place) (h : compareParts a b ≤ 0) (h' : compareParts b c ≤ 0) :
    compareParts a c ≤ 0 := by
  induction a generalizing b c with
  | nil =>
      rw [compareParts_nil]
      omega
  | cons name a ih =>
      cases b with
      | nil =>
          rw [compareParts_nil_right, List.length_cons] at h
          omega
      | cons name' b =>
          cases c with
          | nil =>
              rw [compareParts_nil_right, List.length_cons] at h'
              omega
          | cons name'' c =>
              rw [compareParts_cons] at h h' ⊢
              rcases h with hlt | ⟨rfl, hle⟩
              · rcases h' with hlt' | ⟨rfl, -⟩
                · exact .inl (str_lt_trans hlt hlt')
                · exact .inl hlt
              · exact h'.imp_right fun hboth => ⟨hboth.1, ih b c hle hboth.2⟩

/-- A directory comes before what is below it. -/
theorem compareParts_below (p : Place) {rest : Place} (h : rest ≠ []) :
    0 < compareParts (p ++ rest) p := by
  induction p with
  | nil =>
      rw [List.nil_append, compareParts_nil_right]
      have := List.length_pos_iff.mpr h
      omega
  | cons name p ih =>
      rw [List.cons_append, compareParts, if_neg (not_not.mpr rfl)]
      exact ih

/-! ## What a walk finds -/

namespace HostTree

variable (t : HostTree)

theorem closed : Places.Closed t.places := by
  refine ⟨t.distinct, fun p name hmem => ?_⟩
  obtain ⟨e, he, -⟩ := t.parent p name hmem
  exact List.mem_map_of_mem he

theorem lstat_eq {p : Place} {e : Entry} : t.lstat p = some e ↔ (p, e) ∈ t.entries :=
  Places.lookup_eq_some t.distinct

theorem mem_places {p : Place} : p ∈ t.places ↔ ∃ e, t.lstat p = some e := by
  rw [places, List.mem_map]
  constructor
  · rintro ⟨⟨q, e⟩, hmem, rfl⟩
    exact ⟨e, t.lstat_eq.mpr hmem⟩
  · rintro ⟨e, he⟩
    exact ⟨(p, e), t.lstat_eq.mp he, rfl⟩

/-- Nothing is below an entry that is no directory. -/
theorem below_file {p : Place} {e : Entry} (he : t.lstat p = some e) (h : e.isDirectory = false) :
    Places.below t.places p = [] := by
  rw [List.eq_nil_iff_forall_not_mem]
  intro q hq
  obtain ⟨hmem, ⟨rest, rfl⟩, hne⟩ := Places.mem_below.mp hq
  obtain ⟨name, rest, rfl⟩ := List.exists_cons_of_ne_nil
    (fun hnil : rest = [] => hne (by rw [hnil, List.append_nil]))
  have hassoc : p ++ name :: rest = p ++ [name] ++ rest := by simp
  rw [hassoc] at hmem
  obtain ⟨d, hd, hdirectory⟩ := t.parent p name (t.closed.of_prefix hmem)
  rw [← t.lstat_eq, he] at hd
  obtain rfl := Option.some.inj hd
  rw [h] at hdirectory
  cases hdirectory

/-- What has anything below it is a directory. -/
theorem directory_of_prefix {p rest : Place} {e d : Entry} (he : t.lstat (p ++ rest) = some e)
    (hrest : rest ≠ []) (hd : t.lstat p = some d) : d.isDirectory = true := by
  by_contra hfile
  have hbelow : p ++ rest ∈ Places.below t.places p :=
    Places.mem_below.mpr ⟨t.mem_places.mpr ⟨e, he⟩, List.prefix_append _ _,
      fun heq => hrest (List.append_right_eq_self.mp heq.symm)⟩
  rw [t.below_file hd (Bool.not_eq_true _ ▸ hfile)] at hbelow
  cases hbelow

end HostTree

variable {t : HostTree}

theorem mapM_some {A B C : Type} {f : A → Option B} {key : A → C} {result : B → C} {P : B → Prop}
    {l : List A} (h : ∀ a ∈ l, ∃ b, f a = some b ∧ result b = key a ∧ P b) :
    ∃ bs, l.mapM f = some bs ∧ bs.map result = l.map key ∧ ∀ b ∈ bs, P b := by
  induction l with
  | nil => exact ⟨[], rfl, rfl, fun _ h => absurd h List.not_mem_nil⟩
  | cons a l ih =>
      obtain ⟨⟨b, hb, hkey, hP⟩, hrest⟩ := List.forall_mem_cons.mp h
      obtain ⟨bs, hbs, hkeys, hall⟩ := ih hrest
      refine ⟨b :: bs, ?_, ?_, List.forall_mem_cons.mpr ⟨hP, hall⟩⟩
      · rw [List.mapM_cons, hb, hbs]
        rfl
      · rw [List.map_cons, List.map_cons, hkey, hkeys]

/-- The names of a directory lead to its children. -/
theorem readDir_children {directory : Place} {e : Entry} (he : t.lstat directory = some e)
    (hdirectory : e.isDirectory = true) : ∃ names, t.readDir directory = some names ∧
      names.map (fun name => directory ++ [name]) = Places.children t.places directory := by
  have hchild : ∀ p ∈ Places.children t.places directory,
      (p.getLast?.map fun name => directory ++ [name]) = some p := by
    intro p hp
    obtain ⟨-, name, rfl⟩ := Places.mem_children.mp hp
    rw [List.getLast?_concat]
    rfl
  refine ⟨_, if_pos (by rw [he]; exact hdirectory), ?_⟩
  rw [List.map_filterMap]
  exact (List.filterMap_congr hchild).trans List.filterMap_some

/-- A directory's entries, each once. -/
theorem listDirectory_spec {directory : Place} {e : Entry} (he : t.lstat directory = some e)
    (hdirectory : e.isDirectory = true) : ∃ found, listDirectory t directory = some found ∧
      (found.map (·.parts)).Perm (Places.children t.places directory) ∧
      ∀ entry ∈ found, t.lstat entry.parts = some entry.info := by
  obtain ⟨names, hread, hnames⟩ := readDir_children he hdirectory
  have hperm : ((sortNames names).map fun name => directory ++ [name]).Perm
      (Places.children t.places directory) := by
    rw [← hnames]
    exact (List.mergeSort_perm _ _).map _
  have heach : ∀ name ∈ sortNames names,
      ∃ entry : WalkEntry, ((t.lstat (directory ++ [name])).map fun info =>
          (⟨directory ++ [name], info⟩ : WalkEntry)) = some entry ∧
        entry.parts = directory ++ [name] ∧ t.lstat entry.parts = some entry.info := by
    intro name hname
    have hmem := hperm.mem_iff.mp (List.mem_map_of_mem hname)
    obtain ⟨info, hinfo⟩ := t.mem_places.mp (Places.mem_children.mp hmem).1
    exact ⟨⟨directory ++ [name], info⟩, by rw [hinfo]; rfl, rfl, hinfo⟩
  obtain ⟨found, hfound, hparts, hinfo⟩ := mapM_some heach
  refine ⟨found, ?_, ?_, hinfo⟩
  · rw [listDirectory, hread]
    exact hfound
  · rw [hparts]
    exact hperm

/-- Only directories have anything below them. -/
theorem flatMap_below {found : List WalkEntry} (h : ∀ entry ∈ found, t.lstat entry.parts = some entry.info) :
    ((found.filter (·.info.isDirectory)).map (·.parts)).flatMap (Places.below t.places) =
      (found.map (·.parts)).flatMap (Places.below t.places) := by
  induction found with
  | nil => rfl
  | cons entry found ih =>
      obtain ⟨hentry, hrest⟩ := List.forall_mem_cons.mp h
      rw [List.map_cons, List.flatMap_cons, ← ih hrest, List.filter_cons]
      split
      · rw [List.map_cons, List.flatMap_cons]
      · next hfile =>
        rw [t.below_file hentry (Bool.not_eq_true _ ▸ hfile)]
        rfl

/-- The directories that are left to a walk hold the rest of what it finds. -/
theorem walkFrom_spec {fuel : Nat} {entries : List WalkEntry} {pending : List Place}
    (hpending : ∀ p ∈ pending, ∃ e, t.lstat p = some e ∧ e.isDirectory = true)
    (hfuel : pending.length + (pending.flatMap (Places.below t.places)).length ≤ fuel) :
    ∃ found, walkFrom t fuel entries pending = some (entries ++ found) ∧
      (found.map (·.parts)).Perm (pending.flatMap (Places.below t.places)) ∧
      ∀ entry ∈ found, t.lstat entry.parts = some entry.info := by
  induction fuel generalizing entries pending with
  | zero =>
      cases pending with
      | nil => exact ⟨[], by rw [walkFrom, List.append_nil], .nil, fun _ h => absurd h List.not_mem_nil⟩
      | cons p pending =>
          rw [List.length_cons] at hfuel
          omega
  | succ fuel ih =>
      cases pending with
      | nil => exact ⟨[], by rw [walkFrom, List.append_nil], .nil, fun _ h => absurd h List.not_mem_nil⟩
      | cons p pending =>
          obtain ⟨⟨e, he, hdirectory⟩, hrest⟩ := List.forall_mem_cons.mp hpending
          obtain ⟨found, hfound, hperm, hinfo⟩ := listDirectory_spec he hdirectory
          have hbelow : (Places.below t.places p).Perm (found.map (·.parts) ++
              ((found.filter (·.info.isDirectory)).map (·.parts)).flatMap (Places.below t.places)) := by
            rw [flatMap_below hinfo]
            exact (t.closed.below_perm p).trans (hperm.symm.append (hperm.symm.flatMap_right _))
          have hlength := hbelow.length_eq
          have hdirectories := (found.filter_sublist (p := (·.info.isDirectory))).length_le
          rw [List.length_append, List.length_map] at hlength
          rw [List.length_cons, List.flatMap_cons, List.length_append] at hfuel
          obtain ⟨others, hothers, hperm', hinfo'⟩ := @ih (entries ++ found)
            ((found.filter (·.info.isDirectory)).map (·.parts) ++ pending)
            (fun q hq => by
              rcases List.mem_append.mp hq with hq | hq
              · obtain ⟨entry, hentry, rfl⟩ := List.mem_map.mp hq
                obtain ⟨hmem, hdirectory⟩ := List.mem_filter.mp hentry
                exact ⟨entry.info, hinfo entry hmem, hdirectory⟩
              · exact hrest q hq)
            (by
              rw [List.length_append, List.length_map, List.flatMap_append, List.length_append]
              omega)
          refine ⟨found ++ others, ?_, ?_, ?_⟩
          · rw [walkFrom, hfound, ← List.append_assoc]
            exact hothers
          · rw [List.map_append, List.flatMap_cons]
            rw [List.flatMap_append] at hperm'
            refine (hperm'.append_left _).trans ?_
            rw [← List.append_assoc]
            exact hbelow.symm.append_right _
          · intro entry hentry
            exact (List.mem_append.mp hentry).elim (hinfo entry) (hinfo' entry)

/-- What a walk lists. -/
structure Listed (t : HostTree) (entries : List WalkEntry) : Prop where
  perm : (entries.map (·.parts)).Perm (Places.below t.places [])
  info : ∀ entry ∈ entries, t.lstat entry.parts = some entry.info
  sorted : entries.Pairwise fun a b => compareParts a.parts b.parts ≤ 0

/-- A walk lists every entry below the root once, in order. -/
theorem walk_listed (t : HostTree) : ∃ entries, walk t = some entries ∧ Listed t entries := by
  obtain ⟨root, hroot, hdirectory⟩ := t.root
  have hfuel : [([] : Place)].length +
      ([([] : Place)].flatMap (Places.below t.places)).length ≤ t.entries.length := by
    have hmem : [] ∈ t.places := List.mem_map_of_mem hroot
    have hcount : (Places.below t.places []).length < t.places.length :=
      List.length_filter_lt_length_iff_exists.mpr ⟨[], hmem, by simp⟩
    rw [List.flatMap_singleton, List.length_singleton]
    rw [HostTree.places, List.length_map] at hcount
    exact Nat.add_comm 1 _ ▸ hcount
  obtain ⟨found, hfound, hperm, hinfo⟩ := @walkFrom_spec t t.entries.length [] [[]]
    (fun p hp => ⟨root, by rw [List.mem_singleton.mp hp, t.lstat_eq]; exact hroot, hdirectory⟩) hfuel
  refine ⟨_, by rw [walk, hfound]; rfl, ?_, ?_, ?_⟩
  · rw [List.flatMap_singleton] at hperm
    exact ((List.mergeSort_perm _ _).map _).trans hperm
  · exact fun entry hentry => hinfo entry ((List.mergeSort_perm _ _).mem_iff.mp hentry)
  · refine (List.pairwise_mergeSort (fun a b c hab hbc => ?_) (fun a b => ?_) _).imp
      fun hab => of_decide_eq_true hab
    · exact decide_eq_true (compareParts_trans _ _ _ (of_decide_eq_true hab) (of_decide_eq_true hbc))
    · rw [Bool.or_eq_true, decide_eq_true_iff, decide_eq_true_iff]
      exact compareParts_total a.parts b.parts

theorem Listed.mem_iff {entries : List WalkEntry} (h : Listed t entries) {p : Place} {e : Entry} :
    (⟨p, e⟩ : WalkEntry) ∈ entries ↔ t.lstat p = some e ∧ p ≠ [] := by
  constructor
  · intro hmem
    have hbelow := h.perm.mem_iff.mp (List.mem_map_of_mem hmem)
    exact ⟨h.info _ hmem, (Places.mem_below_root.mp hbelow).2⟩
  · rintro ⟨he, hne⟩
    have hmem : p ∈ entries.map (·.parts) :=
      h.perm.mem_iff.mpr (Places.mem_below_root.mpr ⟨t.mem_places.mpr ⟨e, he⟩, hne⟩)
    obtain ⟨⟨q, e'⟩, hentry, rfl⟩ := List.mem_map.mp hmem
    have he' := h.info _ hentry
    obtain rfl : e = e' := Option.some.inj (he.symm.trans he')
    exact hentry

theorem Listed.nodup {entries : List WalkEntry} (h : Listed t entries) :
    (entries.map (·.parts)).Nodup := h.perm.nodup_iff.mpr (t.closed.nodup_below [])

/-- Every directory on the way to an entry is listed before it. -/
theorem Listed.before {before after : List WalkEntry} {entry : WalkEntry} {p rest : Place}
    (h : Listed t (before ++ entry :: after)) (hparts : entry.parts = p ++ rest) (hp : p ≠ [])
    (hrest : rest ≠ []) : p ∈ before.map (·.parts) := by
  have hentry : p ++ rest ∈ t.places := by
    rw [← hparts, t.mem_places]
    exact ⟨entry.info, h.info entry (List.mem_append_right _ List.mem_cons_self)⟩
  have hmem : p ∈ (before ++ entry :: after).map (·.parts) :=
    h.perm.mem_iff.mpr (Places.mem_below_root.mpr ⟨t.closed.of_prefix hentry, hp⟩)
  rw [List.map_append, List.map_cons] at hmem
  refine (List.mem_append.mp hmem).resolve_right fun hlater => ?_
  rcases List.mem_cons.mp hlater with rfl | hafter
  · exact hrest (List.append_right_eq_self.mp hparts.symm)
  · obtain ⟨later, hfound, rfl⟩ := List.mem_map.mp hafter
    have hle := List.rel_of_pairwise_cons (List.pairwise_append.mp h.sorted).2.1 hfound
    have hlt := compareParts_below later.parts hrest
    rw [hparts] at hle
    omega

end Launcher
