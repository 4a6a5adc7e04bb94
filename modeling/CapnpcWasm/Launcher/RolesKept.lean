import CapnpcWasm.Launcher.Insertion
import Mathlib.Data.List.Infix

/-!
# Translations keep roles

Exactly when the flags a translation inserts are options, every argument of the caller keeps its
role, an include inside the root leaves the root alone, and a compile gains a source prefix unless
one of its source prefixes holds the current directory.
-/

namespace Launcher

/-- What the launcher adds for an include directory. -/
def includeFlags : Option Str → List Str
  | none => []
  | some path => [text "--no-standard-import", text "-I" ++ path]

/-- The arguments of a translation, with the flags for an include directory. -/
def withInclude (args : List Str) (includes : Option Str) : List Str :=
  spliceAt (args.idxOf (text "--")) args (includeFlags includes)

/-- The roles of arguments with those flags among them as options. -/
def insertedRoles (args : List Str) (includes : Option Str) : List Role :=
  spliceAt (args.idxOf (text "--")) (roles .leading args)
    ((includeFlags includes).map fun _ => .option)

/-- Options are read before an index. -/
def Ready (args : List Str) (stop : Nat) : Prop := (Reading.after .leading (args.take stop)).ready = true

/-- A path argument that is a source prefix. -/
def SourcePrefix (args : List Str) (a : PathArgument) : Prop :=
  a.start = text "--src-prefix=" ∨
    (roles .leading args)[a.index]? = some (.value (text "--src-prefix"))

/-- A compile that names a path. -/
def Compiles (args : List Str) : Prop :=
  (compilerOperation args).map (·.2) = some (text "compile") ∧ named args ≠ []

section

variable (lower : Str → Str) (windows : Bool)

/-- A source prefix holds the current directory. -/
def Covered (args : List Str) (cwd : Str) : Prop :=
  ∃ a ∈ named args, SourcePrefix args a ∧
    isWithin lower windows cwd (a.absolute lower windows args cwd) = true

/-- A translation has added a source prefix. -/
def Gained (args : List Str) (includes : Option Str) (t : Translation) : Prop :=
  (withInclude args includes).length < t.args.length

/-- What a translation leaves of the roles of its arguments, with what follows from it. -/
structure RolesKept (args : List Str) (cwd : Str) (includes : Option Str) (t : Translation) :
    Prop where
  kept : ¬Gained args includes t → roles .leading t.args = insertedRoles args includes
  gained : Gained args includes t → roles .leading t.args =
    spliceAt (t.args.idxOf (text "--") - 1) (insertedRoles args includes) [.option]
  includeFlags : ∀ path, includes = some path →
    t.args[args.idxOf (text "--")]? = some (text "--no-standard-import") ∧
      ∃ guest, t.args[args.idxOf (text "--") + 1]? = some (text "-I" ++ guest)
  prefixFlag : Gained args includes t → t.args[t.args.idxOf (text "--") - 1]? =
    some (text "--src-prefix=" ++ t.guestCwd)
  root : ∀ path before, includes = some path →
    translatePaths lower windows args cwd none = .ok before →
    isWithin lower windows (normalizePath windows
      (joinPath lower windows (normalizePath windows cwd) path)) before.root = true →
    t.root = before.root
  covered : Compiles (withInclude args includes) → (Gained args includes t ↔
    ¬Covered lower windows (withInclude args includes) (normalizePath windows cwd))

/-- No option waits for a value where a flag is inserted, and no text that only looks like a source
prefix decides. -/
structure FlagsFit (args : List Str) (cwd : Str) (includes : Option Str) : Prop where
  flags : includes ≠ none → Ready args (args.idxOf (text "--"))
  sourcePrefix : includes = none → Compiles args →
    ¬Covered lower windows args (normalizePath windows cwd) → Ready args (stopFrom .leading args)
  looks : Compiles (withInclude args includes) → ∀ a ∈ named (withInclude args includes),
    LooksPrefix (withInclude args includes) a →
    isWithin lower windows (normalizePath windows cwd)
      (a.absolute lower windows (withInclude args includes) (normalizePath windows cwd)) = true →
    Covered lower windows (withInclude args includes) (normalizePath windows cwd)

end

variable {lower : Str → Str} {windows : Bool} {args : List Str} {cwd : Str} {includes : Option Str}
  {t : Translation}

/-! ## Translated arguments -/

theorem path_of_named {a : PathArgument} (ha : a ∈ named args) :
    ∃ arg, args[a.index]? = some arg ∧
      (Reading.after .leading (args.take a.index)).path arg = some (a.start, a.directory) := by
  have hmem := (List.mem_filter.mp ha).1
  rw [compilerPathArguments_eq] at hmem
  obtain ⟨k, arg, hget, hindex, hpath⟩ := mem_pathsFrom.mp hmem
  obtain rfl : a.index = k := hindex.trans (Nat.zero_add k)
  exact ⟨arg, hget, hpath⟩

theorem translated_moved {root : Str} {result : List Str}
    (h : result = (named args).foldl (fun result a => result.set a.index (a.start ++
      guestPath windows (a.absolute lower windows args cwd) root)) args) :
    Moved .leading args result := by
  have hindexed := compilerPathArguments_indexed args
  obtain ⟨hlength, hset, hothers⟩ := foldl_set (·.index)
    (fun a : PathArgument => a.start ++ guestPath windows (a.absolute lower windows args cwd) root)
    (hindexed.ordered.filter fun a => a.value args != []) args
  rw [h]
  refine moved_of_index hlength fun k arg hget => ?_
  by_cases hnamed : ∃ a ∈ named args, a.index = k
  · obtain ⟨a, ha, rfl⟩ := hnamed
    obtain ⟨arg', hget', hpath⟩ := path_of_named ha
    obtain rfl : arg = arg' := Option.some.inj (hget.symm.trans hget')
    have hlt := (List.getElem?_eq_some_iff.mp hget).1
    exact .inl ⟨a.start, a.directory, _, hpath, hset a ha hlt⟩
  · refine .inr ⟨(hothers k fun a ha heq => hnamed ⟨a, ha, heq⟩).trans hget,
      fun start directory hpath => ?_⟩
    by_contra hvalue
    refine hnamed ⟨⟨k, start, directory⟩, List.mem_filter.mpr ⟨?_, ?_⟩, rfl⟩
    · rw [compilerPathArguments_eq]
      exact mem_pathsFrom.mpr ⟨k, arg, hget, (Nat.zero_add k).symm, hpath⟩
    · have hvalue' : PathArgument.value args ⟨k, start, directory⟩ = arg.drop start.length := by
        rw [PathArgument.value, List.getD_eq_getElem?_getD, hget]
        rfl
      rw [hvalue']
      exact bne_iff_ne.mpr hvalue

/-- What a translated argument is. -/
theorem Moved.getElem? {s : Reading} {result : List Str} (h : Moved s args result) {k : Nat}
    {arg : Str} (hget : args[k]? = some arg) :
    result[k]? = some arg ∨ ∃ start directory guest,
      (s.after (args.take k)).path arg = some (start, directory) ∧
        result[k]? = some (start ++ slash :: guest) := by
  induction h generalizing k with
  | nil => cases hget
  | same _ _ ih =>
      cases k with
      | zero => exact .inl hget
      | succ k => exact ih hget
  | @path s arg' start guest directory args result hpath _ ih =>
      cases k with
      | zero =>
          obtain rfl : arg' = arg := Option.some.inj hget
          exact .inr ⟨start, directory, guest, hpath, rfl⟩
      | succ k => exact ih hget

theorem Moved.length {s : Reading} {result : List Str} (h : Moved s args result) :
    result.length = args.length := by
  induction h with
  | nil => rfl
  | same _ _ ih => exact congrArg (· + 1) ih
  | path _ _ ih => exact congrArg (· + 1) ih

theorem withInclude_none (args : List Str) : withInclude args none = args := by
  rw [withInclude, spliceAt, includeFlags, List.append_nil, List.take_append_drop]

theorem insertedRoles_none (args : List Str) : insertedRoles args none = roles .leading args := by
  rw [insertedRoles, spliceAt, includeFlags, List.map_nil, List.append_nil, List.take_append_drop]

theorem translatePaths_include : translatePaths lower windows args cwd includes =
    translatePaths lower windows (withInclude args includes) cwd none := by
  cases includes with
  | none => rw [withInclude_none]
  | some path => rfl

/-! ## Source prefixes -/

/-- A source prefix looks like one. -/
theorem looksPrefix_of_sourcePrefix {a : PathArgument} (ha : a ∈ named args)
    (h : SourcePrefix args a) : LooksPrefix args a := by
  refine h.imp_right fun hrole => ?_
  obtain ⟨j, operation, position, hindex, hget, hs⟩ := value_follows hrole
  obtain ⟨arg, -, hpath⟩ := path_of_named ha
  rw [hs, Reading.path] at hpath
  split at hpath
  · refine ⟨(Prod.mk.inj (Option.some.inj hpath)).1.symm, by omega, ?_⟩
    rw [hindex, Nat.add_sub_cancel, List.getD_eq_getElem?_getD, hget]
    rfl
  · cases hpath

/-! ## Places -/

section

variable {A : Type} {xs : List A} {stop k : Nat}

theorem length_splice (stop : Nat) (xs added : List A) :
    (spliceAt stop xs added).length = xs.length + added.length := by
  rw [spliceAt, List.length_append, List.length_append, List.length_take, List.length_drop]
  omega

theorem take_splice (added : List A) (hstop : stop ≤ xs.length) (hk : k ≤ stop) :
    (spliceAt stop xs added).take k = xs.take k := by
  rw [spliceAt, List.append_assoc, List.take_append_of_le_length (by rw [List.length_take]; omega),
    List.take_take, Nat.min_eq_left hk]

theorem take_splice_added (added : List A) (hstop : stop ≤ xs.length) :
    (spliceAt stop xs added).take (stop + added.length) = xs.take stop ++ added := by
  have hlength : (xs.take stop ++ added).length = stop + added.length := by
    rw [List.length_append, List.length_take]
    omega
  rw [spliceAt, ← hlength, List.take_left]

theorem getElem?_splice_before (added : List A) (hk : k < stop) (hstop : stop ≤ xs.length) :
    (spliceAt stop xs added)[k]? = xs[k]? := by
  have htake := congrArg (·[k]?) (take_splice added hstop (Nat.le_refl stop))
  rwa [List.getElem?_take_of_lt hk, List.getElem?_take_of_lt hk] at htake

theorem getElem?_splice_added (added : List A) (hstop : stop ≤ xs.length) (hk : k < added.length) :
    (spliceAt stop xs added)[stop + k]? = added[k]? := by
  have htake := congrArg (·[stop + k]?) (take_splice_added added hstop)
  rw [List.getElem?_take_of_lt (by omega), List.getElem?_append_right (by rw [List.length_take]; omega),
    List.length_take, Nat.min_eq_left hstop, Nat.add_sub_cancel_left] at htake
  exact htake

end

/-! ## The two insertions -/

/-- The steps of a translation, by its insertions. -/
structure Inserts (lower : Str → Str) (windows : Bool) (args : List Str) (cwd : Str)
    (t : Translation) (result : List Str) : Prop where
  moved : Moved .leading args result
  gains : Gains lower windows args cwd →
    t.args = spliceAt (stopFrom .leading args) result [text "--src-prefix=" ++ t.guestCwd]
  keeps : ¬Gains lower windows args cwd → t.args = result
  flag : Flag (text "--src-prefix=" ++ t.guestCwd)

theorem translatePaths_inserts (h : translatePaths lower windows args cwd none = .ok t) :
    ∃ result, Inserts lower windows args (normalizePath windows cwd) t result := by
  obtain ⟨-, hguest, result, hresult, hgains, hkeeps⟩ := translatePaths_steps h
  have hmoved := translated_moved hresult
  have hstart : startsWith (text "--src-prefix=") (text "-") = true := by decide +kernel
  refine ⟨result, hmoved, ?_, hkeeps, ?_⟩
  · intro hgained
    rw [hgains hgained, ← hmoved.idxOf]
    rfl
  · refine .of_slash (startsWith_iff.mpr ((startsWith_iff.mp hstart).trans (List.prefix_append _ _)))
      (List.mem_append_right _ ?_)
    rw [hguest]
    exact List.mem_cons_self

variable {result : List Str}

theorem Inserts.stop_le (h : Inserts lower windows args cwd t result) :
    stopFrom .leading args ≤ result.length := by
  rw [h.moved.length]
  exact stopFrom_le .leading args

theorem Inserts.gained_iff
    (h : Inserts lower windows (withInclude args includes) cwd t result) :
    Gained args includes t ↔ Gains lower windows (withInclude args includes) cwd := by
  have hlength := h.moved.length
  constructor
  · intro hgained
    by_contra hnot
    rw [Gained, h.keeps hnot] at hgained
    omega
  · intro hgains
    rw [Gained, h.gains hgains, length_splice, List.length_singleton]
    omega

/-- The place of the source prefix that was inserted. -/
theorem Inserts.idxOf (h : Inserts lower windows args cwd t result)
    (hgains : Gains lower windows args cwd) :
    t.args.idxOf (text "--") - 1 = stopFrom .leading args := by
  have hflags : ∀ flag ∈ [text "--src-prefix=" ++ t.guestCwd], flag ≠ text "--" := by
    intro flag hflag
    rw [List.mem_singleton.mp hflag]
    exact h.flag.ne_end
  rw [h.gains hgains, ← h.moved.idxOf, idxOf_splice hflags]
  exact Nat.add_sub_cancel _ 1

/-- Before the source prefix, the arguments are read as they were. -/
theorem Inserts.after_take (h : Inserts lower windows args cwd t result) {k : Nat}
    (hk : Gains lower windows args cwd → k ≤ stopFrom .leading args) :
    Reading.after .leading (t.args.take k) = Reading.after .leading (args.take k) := by
  by_cases hgains : Gains lower windows args cwd
  · rw [h.gains hgains, take_splice _ h.stop_le (hk hgains), h.moved.after_take]
  · rw [h.keeps hgains, h.moved.after_take]

theorem Inserts.getElem? (h : Inserts lower windows args cwd t result) {k : Nat}
    (hk : k < stopFrom .leading args) : t.args[k]? = result[k]? := by
  by_cases hgains : Gains lower windows args cwd
  · rw [h.gains hgains, getElem?_splice_before _ hk h.stop_le]
  · rw [h.keeps hgains]

/-- The source prefix is an option and changes no other role, where options are read. -/
theorem Inserts.roles (h : Inserts lower windows args cwd t result)
    (hgains : Gains lower windows args cwd) (hready : Ready args (stopFrom .leading args)) :
    Launcher.roles .leading t.args =
      spliceAt (stopFrom .leading args) (Launcher.roles .leading args) [.option] := by
  rw [h.gains hgains, roles_splice (by rw [h.moved.after_take]; exact hready), h.moved.roles]
  · rfl
  · intro flag hflag
    rw [List.mem_singleton.mp hflag]
    exact h.flag

/-- The flags for an include directory are options and change no role, where options are read. -/
theorem include_flags (hincludes : includes ≠ some []) : ∀ flag ∈ includeFlags includes, Flag flag := by
  intro flag hflag
  cases includes with
  | none => cases hflag
  | some path =>
      rcases List.mem_cons.mp hflag with rfl | hflag
      · exact flag_noStandardImport
      · rw [List.mem_singleton.mp hflag]
        exact flag_include fun hnil => hincludes (congrArg some hnil)

theorem roles_withInclude (hincludes : includes ≠ some [])
    (hready : includes ≠ none → Ready args (args.idxOf (text "--"))) :
    roles .leading (withInclude args includes) = insertedRoles args includes := by
  cases includes with
  | none => rw [withInclude_none, insertedRoles_none]
  | some path => exact roles_splice (hready nofun) (include_flags hincludes)

/-- The flags for an include directory leave the options open. -/
theorem ready_withInclude {path : Str} (hpath : path ≠ [])
    (hready : Ready args (args.idxOf (text "--"))) :
    Ready (withInclude args (some path)) (stopFrom .leading (withInclude args (some path))) := by
  have hflags : ∀ flag ∈ includeFlags (some path), Flag flag :=
    include_flags fun heq => hpath (Option.some.inj heq)
  rw [Ready, withInclude, stopFrom_splice hready hflags,
    take_splice_added _ List.idxOf_le_length, after_append, (roles_flags hready hflags).2]
  exact hready

/-! ## The root -/

theorem attachedPath_include (path : Str) : attachedPath (text "-I" ++ path) = some (text "-I") := by
  have hother : ∀ start ∈ [text "--import-path=", text "--src-prefix="],
      ¬start.take 2 <+: text "-I" := by decide +kernel
  have hnot : ∀ start ∈ [text "--import-path=", text "--src-prefix="],
      ¬startsWith (text "-I" ++ path) start = true := by
    intro start hstart hpre
    have htake := List.IsPrefix.take (startsWith_iff.mp hpre) 2
    rw [List.take_left' (by decide +kernel)] at htake
    exact hother start hstart htake
  rw [attachedPath, if_neg, if_pos (startsWith_iff.mpr (List.prefix_append _ _))]
  rw [Bool.or_eq_true, not_or]
  exact ⟨hnot _ (by simp), hnot _ (by simp)⟩

/-- What the flags for an include directory name. -/
theorem path_include {s : Reading} {path : Str} (hs : s.ready = true) (hpath : path ≠ []) :
    s.path (text "--no-standard-import") = none ∧
      ∀ start directory, s.path (text "-I" ++ path) = some (start, directory) →
        start = text "-I" ∧ directory = true := by
  cases s with
  | leading => exact ⟨rfl, nofun⟩
  | options operation position =>
      have hflag := flag_include hpath
      have hread := (option_read operation position hflag.ne_end hflag.plain hflag.start).1
      have hattached : attachedPath (text "--no-standard-import") = none := by decide +kernel
      refine ⟨?_, fun start directory hsome => ?_⟩
      · rw [(option_read operation position flag_noStandardImport.ne_end flag_noStandardImport.plain
          flag_noStandardImport.start).1, hattached]
        rfl
      · rw [hread, attachedPath_include] at hsome
        obtain ⟨rfl, rfl⟩ := Prod.mk.inj (Option.some.inj hsome)
        exact ⟨rfl, rfl⟩
  | unread => cases hs
  | value option operation position => cases hs
  | operands operation position => cases hs

theorem mentions_include {s : Reading} {path : Str} (hs : s.ready = true) (hpath : path ≠ []) :
    mentions s (includeFlags (some path)) ⊆ [(path, true)] := by
  obtain ⟨hnone, hI⟩ := path_include hs hpath
  intro mention hmention
  rw [includeFlags, mentions, mentions, mentions, hnone, (ready_flag hs flag_noStandardImport).2]
    at hmention
  simp only [Option.toList_none, List.map_nil, List.nil_append, List.append_nil, List.mem_map,
    Option.mem_toList] at hmention
  obtain ⟨⟨start, directory⟩, hsome, rfl⟩ := hmention
  obtain ⟨rfl, rfl⟩ := hI start directory hsome
  rw [List.drop_left]
  exact List.mem_singleton_self _

/-- The directory of an include is the only one that its flags add. -/
theorem neededFrom_include (lower : Str → Str) (windows : Bool) (cwd : Str) {path : Str}
    (hpath : path ≠ [])
    (hready : Ready args (args.idxOf (text "--"))) :
    neededFrom lower windows cwd .leading args ⊆
      neededFrom lower windows cwd .leading (withInclude args (some path)) ∧
    ∀ needed ∈ neededFrom lower windows cwd .leading (withInclude args (some path)),
      needed ∈ neededFrom lower windows cwd .leading args ∨
        needed = normalizePath windows (joinPath lower windows cwd path) := by
  have hflags : ∀ flag ∈ includeFlags (some path), Flag flag :=
    include_flags fun heq => hpath (Option.some.inj heq)
  have hplain : neededFrom lower windows cwd .leading args =
      neededFrom lower windows cwd .leading (args.take (args.idxOf (text "--"))) ++
        neededFrom lower windows cwd (Reading.after .leading (args.take (args.idxOf (text "--"))))
          (args.drop (args.idxOf (text "--"))) := by
    rw [← neededFrom_append, List.take_append_drop]
  rw [withInclude, spliceAt, neededFrom_append, neededFrom_append, after_append,
    (roles_flags hready hflags).2, hplain]
  refine ⟨fun needed hmem => ?_, fun needed hmem => ?_⟩
  · rcases List.mem_append.mp hmem with hbefore | hafter
    · exact List.mem_append_left _ (List.mem_append_left _ hbefore)
    · exact List.mem_append_right _ hafter
  · rcases List.mem_append.mp hmem with hmem | hafter
    · rcases List.mem_append.mp hmem with hbefore | hadded
      · exact .inl (List.mem_append_left _ hbefore)
      · obtain ⟨mention, hmention, rfl⟩ := List.mem_map.mp hadded
        have hmem := mentions_include hready hpath (List.mem_of_mem_filter hmention)
        rw [List.mem_singleton.mp hmem]
        exact .inr rfl
    · exact .inl (List.mem_append_right _ hafter)

theorem root_unmoved (hsettled : Settled windows (normalizePath windows cwd)) {path : Str}
    (hpath : path ≠ []) (hready : Ready args (args.idxOf (text "--"))) {before : Translation}
    (h : translatePaths lower windows args cwd (some path) = .ok t)
    (hbefore : translatePaths lower windows args cwd none = .ok before)
    (hinside : isWithin lower windows (normalizePath windows
      (joinPath lower windows (normalizePath windows cwd) path)) before.root = true) :
    t.root = before.root := by
  rw [translatePaths_include] at h
  obtain ⟨hcommon, -⟩ := translatePaths_steps h
  obtain ⟨hcommon', -⟩ := translatePaths_steps hbefore
  rw [needs_eq] at hcommon hcommon'
  obtain ⟨hsub, hmem⟩ :=
    neededFrom_include lower windows (normalizePath windows cwd) hpath hready
  refine commonPath_unmoved hsettled hcommon' hcommon (fun other hother => ?_) hsub
  rcases hmem other hother with hold | rfl
  · exact (commonPath_spec hsettled hcommon').1.within other (List.mem_cons_of_mem _ hold)
  · exact hinside

/-- The flags for an include directory stand where they were inserted. -/
theorem Inserts.include_kept {path : Str}
    (h : Inserts lower windows (withInclude args (some path)) cwd t result) (hpath : path ≠ [])
    (hready : Ready args (args.idxOf (text "--"))) :
    t.args[args.idxOf (text "--")]? = some (text "--no-standard-import") ∧
      ∃ guest, t.args[args.idxOf (text "--") + 1]? = some (text "-I" ++ guest) := by
  have hstop : args.idxOf (text "--") ≤ args.length := List.idxOf_le_length
  have hflags : ∀ flag ∈ includeFlags (some path), Flag flag :=
    include_flags fun heq => hpath (Option.some.inj heq)
  have hlt : stopFrom .leading (withInclude args (some path)) = args.idxOf (text "--") + 2 :=
    stopFrom_splice hready hflags
  obtain ⟨hnone, hI⟩ := path_include hready hpath
  have hfirst : (withInclude args (some path))[args.idxOf (text "--")]? =
      some (text "--no-standard-import") :=
    getElem?_splice_added (includeFlags (some path)) hstop (k := 0) Nat.two_pos
  have hsecond : (withInclude args (some path))[args.idxOf (text "--") + 1]? =
      some (text "-I" ++ path) :=
    getElem?_splice_added (includeFlags (some path)) hstop (k := 1) Nat.one_lt_two
  have htake := take_splice (includeFlags (some path)) hstop (Nat.le_refl _)
  have hafter : Reading.after .leading ((withInclude args (some path)).take
      (args.idxOf (text "--") + 1)) = Reading.after .leading (args.take (args.idxOf (text "--"))) := by
    rw [List.take_add_one, hfirst, withInclude, htake, after_append]
    exact (ready_flag hready flag_noStandardImport).2
  refine ⟨?_, ?_⟩
  · rw [h.getElem? (by omega)]
    rcases h.moved.getElem? hfirst with hsame | ⟨start, directory, guest, hsome, -⟩
    · exact hsame
    · rw [withInclude, htake, hnone] at hsome
      cases hsome
  · rw [h.getElem? (by omega)]
    rcases h.moved.getElem? hsecond with hsame | ⟨start, directory, guest, hsome, hget⟩
    · exact ⟨path, hsame⟩
    · rw [hafter] at hsome
      obtain ⟨rfl, -⟩ := hI start directory hsome
      exact ⟨slash :: guest, hget⟩

/-! ## Exactly when -/

theorem rolesKept_of_fit (hsettled : Settled windows (normalizePath windows cwd))
    (hincludes : includes ≠ some []) (h : translatePaths lower windows args cwd includes = .ok t)
    (hfit : FlagsFit lower windows args cwd includes) :
    RolesKept lower windows args cwd includes t := by
  have h' := h
  rw [translatePaths_include] at h'
  obtain ⟨result, hinserts⟩ := translatePaths_inserts h'
  have hroles := roles_withInclude hincludes hfit.flags
  have hready : Gains lower windows (withInclude args includes) (normalizePath windows cwd) →
      Ready (withInclude args includes) (stopFrom .leading (withInclude args includes)) := by
    intro hgains
    cases includes with
    | some path =>
        exact ready_withInclude (fun hnil => hincludes (congrArg some hnil)) (hfit.flags nofun)
    | none =>
        rw [withInclude_none] at hgains ⊢
        refine hfit.sourcePrefix rfl ⟨hgains.1, hgains.2.1⟩ fun ⟨a, ha, hprefix, hwithin⟩ => ?_
        exact hgains.2.2 ⟨a, ha, looksPrefix_of_sourcePrefix ha hprefix, hwithin⟩
  refine ⟨fun hnot => ?_, fun hgained => ?_, fun path hsome => ?_, fun hgained => ?_,
    fun path before hsome hbefore hinside => ?_, fun hcompiles => ?_⟩
  · rw [hinserts.gained_iff] at hnot
    rw [hinserts.keeps hnot, hinserts.moved.roles, hroles]
  · rw [hinserts.gained_iff] at hgained
    rw [hinserts.idxOf hgained, hinserts.roles hgained (hready hgained), hroles]
  · subst hsome
    exact hinserts.include_kept (fun hnil => hincludes (congrArg some hnil)) (hfit.flags nofun)
  · rw [hinserts.gained_iff] at hgained
    rw [hinserts.idxOf hgained, hinserts.gains hgained]
    exact getElem?_splice_added [text "--src-prefix=" ++ t.guestCwd] hinserts.stop_le (k := 0)
      Nat.one_pos
  · subst hsome
    exact root_unmoved hsettled (fun hnil => hincludes (congrArg some hnil)) (hfit.flags nofun) h
      hbefore hinside
  · rw [hinserts.gained_iff]
    constructor
    · rintro hgains ⟨a, ha, hprefix, hwithin⟩
      exact hgains.2.2 ⟨a, ha, looksPrefix_of_sourcePrefix ha hprefix, hwithin⟩
    · intro hnot
      exact ⟨hcompiles.1, hcompiles.2, fun ⟨a, ha, hlooks, hwithin⟩ =>
        hnot (hfit.looks hcompiles a ha hlooks hwithin)⟩

theorem fit_of_rolesKept (hincludes : includes ≠ some [])
    (h : translatePaths lower windows args cwd includes = .ok t)
    (hkept : RolesKept lower windows args cwd includes t) :
    FlagsFit lower windows args cwd includes := by
  rw [translatePaths_include] at h
  obtain ⟨result, hinserts⟩ := translatePaths_inserts h
  refine ⟨fun hsome => ?_, fun hnone hcompiles hnot => ?_, fun hcompiles a ha hlooks hwithin => ?_⟩
  · obtain ⟨path, rfl⟩ := Option.ne_none_iff_exists'.mp hsome
    have hstop : args.idxOf (text "--") ≤ args.length := List.idxOf_le_length
    have hroles : (insertedRoles args (some path))[args.idxOf (text "--")]? = some .option :=
      getElem?_splice_added _ (by rw [length_roles]; exact hstop) (k := 0) Nat.two_pos
    have hlt : args.idxOf (text "--") < stopFrom .leading (withInclude args (some path)) := by
      have hfound := idxOf_le_stopFrom .leading (withInclude args (some path))
      rw [withInclude, idxOf_splice fun flag hflag => (include_flags hincludes flag hflag).ne_end,
        ← withInclude] at hfound
      exact Nat.lt_of_lt_of_le (Nat.lt_add_of_pos_right Nat.two_pos) hfound
    have hrole : (roles .leading t.args)[args.idxOf (text "--")]? = some .option := by
      by_cases hgained : Gained args (some path) t
      · rw [hkept.gained hgained, hinserts.idxOf (hinserts.gained_iff.mp hgained),
          getElem?_splice_before _ hlt ?_, hroles]
        rw [insertedRoles, length_splice, List.length_map, length_roles, ← length_splice]
        exact stopFrom_le .leading _
      · rw [hkept.kept hgained, hroles]
    have hready := ready_of_role hrole
    rw [hinserts.after_take fun _ => Nat.le_of_lt hlt, withInclude,
      take_splice _ hstop (Nat.le_refl _)] at hready
    exact hready
  · subst hnone
    have hgained := (hkept.covered (by rwa [withInclude_none])).mpr (by rwa [withInclude_none])
    have hroles := hkept.gained hgained
    have hgains := hinserts.gained_iff.mp hgained
    rw [hinserts.idxOf hgains, insertedRoles_none, withInclude_none] at hroles
    rw [withInclude_none] at hinserts
    have hrole : (roles .leading t.args)[stopFrom .leading args]? = some .option := by
      rw [hroles]
      exact getElem?_splice_added [Role.option]
        (by rw [length_roles]; exact stopFrom_le .leading args) (k := 0) Nat.one_pos
    have hready := ready_of_role hrole
    rw [hinserts.after_take fun _ => Nat.le_refl _] at hready
    exact hready
  · by_contra hnot
    have hgained := (hkept.covered hcompiles).mpr hnot
    rw [hinserts.gained_iff] at hgained
    exact hgained.2.2 ⟨a, ha, hlooks, hwithin⟩

/-- A translation keeps the roles of its arguments exactly when its flags fit. -/
theorem translatePaths_roles_iff (hcwd : isAbsolute windows cwd = true)
    (hcwdDrive : windows = true → Settled true (normalizePath true cwd))
    (hincludes : includes ≠ some [])
    (h : translatePaths lower windows args cwd includes = .ok t) :
    RolesKept lower windows args cwd includes t ↔ FlagsFit lower windows args cwd includes := by
  have hsettled : Settled windows (normalizePath windows cwd) := by
    cases windows with
    | true => exact hcwdDrive rfl
    | false => exact settled_normalize hcwd
  exact ⟨fit_of_rolesKept hincludes h, rolesKept_of_fit hsettled hincludes h⟩

/-- The caller's own arguments, with a `--` after the options. -/
def sampleArgs : List Str := [text "compile", text "-o-", text "a.capnp", text "--", text "b.capnp"]

theorem flagsFit_sample {lower : Str → Str} {windows : Bool} {cwd includes : Str}
    (hplain : ∀ a ∈ named (withInclude sampleArgs (some includes)),
      ¬LooksPrefix (withInclude sampleArgs (some includes)) a) :
    FlagsFit lower windows sampleArgs cwd (some includes) := by
  refine ⟨fun _ => ?_, fun h => absurd h (Option.some_ne_none _), fun _ a ha hlooks =>
    absurd hlooks (hplain a ha)⟩
  rw [Ready]
  decide +kernel

theorem translatePaths_roles_kept :
    RolesKept lowerAscii false sampleArgs (text "/p") (some (text "/p/inc"))
      ⟨text "/p", text "/", [text "compile", text "-o-", text "/a.capnp",
        text "--no-standard-import", text "-I/inc", text "--src-prefix=/", text "--",
        text "/b.capnp"]⟩ ∧
    RolesKept lowerAscii true sampleArgs (text "C:\\p") (some (text "C:\\p\\inc"))
      ⟨text "C:\\p", text "/", [text "compile", text "-o-", text "/a.capnp",
        text "--no-standard-import", text "-I/inc", text "--src-prefix=/", text "--",
        text "/b.capnp"]⟩ := by
  have hplain : ∀ a ∈ named (withInclude sampleArgs (some (text "/p/inc"))),
      ¬LooksPrefix (withInclude sampleArgs (some (text "/p/inc"))) a := by
    simp only [LooksPrefix]
    decide +kernel
  have hplain' : ∀ a ∈ named (withInclude sampleArgs (some (text "C:\\p\\inc"))),
      ¬LooksPrefix (withInclude sampleArgs (some (text "C:\\p\\inc"))) a := by
    simp only [LooksPrefix]
    decide +kernel
  have hnormal : normalizePath true (text "C:\\p") = text "C:\\p" := by decide +kernel
  have hsettled : Settled true (normalizePath true (text "C:\\p")) := by
    rw [hnormal]
    exact ⟨by decide +kernel, by decide +kernel⟩
  constructor
  · have hcwd : isAbsolute false (text "/p") = true := by decide +kernel
    have hposix : false = true → Settled true (normalizePath true (text "/p")) :=
      fun h => Bool.noConfusion h
    refine (translatePaths_roles_iff hcwd hposix (by decide +kernel) (by decide +kernel)).mpr ?_
    exact flagsFit_sample hplain
  · refine (translatePaths_roles_iff (by decide +kernel) (fun _ => hsettled) (by decide +kernel)
      (by decide +kernel)).mpr ?_
    exact flagsFit_sample hplain'

/-- An option that waits for its value takes the flag that was inserted. -/
theorem translatePaths_swallows : ¬∀ (args : List Str) (cwd : Str) (includes : Option Str)
    (t : Translation), isAbsolute false cwd = true → includes ≠ some [] →
    translatePaths lowerAscii false args cwd includes = .ok t →
    RolesKept lowerAscii false args cwd includes t := by
  intro h
  have hkept := h [text "compile", text "a.capnp", text "-o"] (text "/p") (some (text "/p/inc"))
    ⟨text "/p", text "/", [text "compile", text "/a.capnp", text "-o", text "--no-standard-import",
      text "-I/inc", text "--src-prefix=/"]⟩
    (by decide +kernel) (by decide +kernel) (by decide +kernel)
  have hroles := hkept.gained (by rw [Gained]; decide +kernel)
  exact absurd hroles (by decide +kernel)

end Launcher
