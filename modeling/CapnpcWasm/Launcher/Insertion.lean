import CapnpcWasm.Launcher.Roles

/-!
# Inserted flags

`translatePaths` inserts its flags before the first `--`, or at the end.  They are read as options,
and every other argument keeps its role, where no option waits for a value there.
-/

namespace Launcher

variable {s : Reading} {arg : Str} {args : List Str}

/-! ## Flags -/

/-- An option whose value, if any, is attached. -/
structure Flag (flag : Str) : Prop where
  start : startsWith flag (text "-") = true
  ne_end : flag ≠ text "--"
  plain : takesValue flag = false

/-- The options that take a value, and the end of the options. -/
theorem reserved_of_not {arg : Str} (h : ¬(arg ≠ text "--" ∧ takesValue arg = false)) :
    arg ∈ text "--" :: pathOptions ++ textOptions := by
  rw [not_and_or, not_not, Bool.not_eq_false, takesValue, Bool.or_eq_true, List.contains_iff_mem,
    List.contains_iff_mem] at h
  rcases h with rfl | hpath | htext
  · exact List.mem_cons_self
  · exact List.mem_append_left _ (List.mem_cons_of_mem _ hpath)
  · exact List.mem_append_right _ htext

theorem plain_of_slash (h : slash ∈ arg) : arg ≠ text "--" ∧ takesValue arg = false := by
  have hreserved : ∀ option ∈ text "--" :: pathOptions ++ textOptions, slash ∉ option := by
    decide +kernel
  by_contra hnot
  exact hreserved arg (reserved_of_not hnot) h

theorem Flag.of_slash (hstart : startsWith arg (text "-") = true) (h : slash ∈ arg) : Flag arg :=
  ⟨hstart, (plain_of_slash h).1, (plain_of_slash h).2⟩

theorem flag_noStandardImport : Flag (text "--no-standard-import") :=
  ⟨by decide +kernel, by decide +kernel, by decide +kernel⟩

theorem flag_include {path : Str} (h : path ≠ []) : Flag (text "-I" ++ path) := by
  have hreserved : ∀ option ∈ text "--" :: pathOptions ++ textOptions,
      startsWith option (text "-I") = true → option = text "-I" := by decide +kernel
  have hplain : text "-I" ++ path ≠ text "--" ∧ takesValue (text "-I" ++ path) = false := by
    by_contra hnot
    have heq := hreserved _ (reserved_of_not hnot) (startsWith_iff.mpr (List.prefix_append _ _))
    exact h (List.append_right_eq_self.mp heq)
  have hstart : startsWith (text "-I") (text "-") = true := by decide +kernel
  exact ⟨startsWith_iff.mpr ((startsWith_iff.mp hstart).trans (List.prefix_append _ _)),
    hplain.1, hplain.2⟩

theorem ready_flag (hs : s.ready = true) (h : Flag arg) : s.role arg = .option ∧ s.next arg = s := by
  cases s with
  | leading => exact ⟨by rw [Reading.role, if_neg h.ne_end, if_pos h.start],
      by rw [Reading.next, if_neg h.ne_end, if_pos h.start]⟩
  | options operation position =>
      refine ⟨by rw [Reading.role, if_neg h.ne_end, if_pos h.start], ?_⟩
      exact (option_read operation position h.ne_end h.plain h.start).2
  | unread => cases hs
  | value option operation position => cases hs
  | operands operation position => cases hs

/-- Nothing is an option where none may stand. -/
theorem role_unready (hs : s.ready = false) (arg : Str) : s.role arg ≠ .option := by
  cases s with
  | leading => cases hs
  | options operation position => cases hs
  | unread => exact nofun
  | value option operation position => exact nofun
  | operands operation position => exact nofun

/-! ## Insertion -/

/-- A list with others inserted before an index. -/
def spliceAt {A : Type} (stop : Nat) (xs added : List A) : List A :=
  xs.take stop ++ added ++ xs.drop stop

theorem roles_flags {flags : List Str} (hs : s.ready = true) (hflags : ∀ flag ∈ flags, Flag flag) :
    roles s flags = flags.map (fun _ => .option) ∧ s.after flags = s := by
  induction flags with
  | nil => exact ⟨rfl, rfl⟩
  | cons flag flags ih =>
      obtain ⟨hflag, hrest⟩ := List.forall_mem_cons.mp hflags
      obtain ⟨hrole, hnext⟩ := ready_flag hs hflag
      obtain ⟨hroles, hafter⟩ := ih hrest
      refine ⟨?_, ?_⟩
      · rw [roles, hrole, hnext, hroles, List.map_cons]
      · show (s.next flag).after flags = s
        rw [hnext, hafter]

/-- Flags inserted where options are read are options, and no other role changes. -/
theorem roles_splice {flags : List Str} {stop : Nat} (hs : (s.after (args.take stop)).ready = true)
    (hflags : ∀ flag ∈ flags, Flag flag) :
    roles s (spliceAt stop args flags) =
      spliceAt stop (roles s args) (flags.map fun _ => .option) := by
  obtain ⟨hroles, hafter⟩ := roles_flags hs hflags
  rw [spliceAt, roles_append, roles_append, after_append, hroles, hafter, spliceAt, take_roles,
    drop_roles]

/-- A role that says option stands where options are read. -/
theorem ready_of_role {k : Nat} (h : (roles s args)[k]? = some .option) :
    (s.after (args.take k)).ready = true := by
  rw [getElem?_roles] at h
  obtain ⟨arg, -, hrole⟩ := Option.map_eq_some_iff.mp h
  by_contra hs
  exact role_unready (Bool.not_eq_true _ ▸ hs) arg hrole

/-! ## Translated paths -/

theorem attachedPath_flag {start : Str} (guest : Str) (h : attachedPath arg = some start) :
    Flag (start ++ slash :: guest) := by
  refine .of_slash ?_ (List.mem_append_right _ List.mem_cons_self)
  have hdash := attachedPath_start h
  have hstart : startsWith start (text "-") = true := by
    rw [attachedPath] at h
    split at h
    · obtain rfl := Option.some.inj h
      obtain ⟨rest, rfl⟩ := startsWith_iff.mp hdash
      exact startsWith_iff.mpr ⟨rest.takeWhile (· != 61) ++ [61], rfl⟩
    · split at h
      · obtain rfl := Option.some.inj h
        decide +kernel
      · cases h
  exact startsWith_iff.mpr ((startsWith_iff.mp hstart).trans (List.prefix_append _ _))

theorem role_positional (operation : Str) (position : Nat)
    (h : startsWith arg (text "-") = false) :
    (Reading.options operation position).role arg = .positional position := by
  have hend : arg ≠ text "--" := by
    rintro rfl
    exact absurd h (by decide +kernel)
  rw [Reading.role, if_neg hend, h, if_neg Bool.false_ne_true]

/-- A guest path in the place of a path is read as the path was. -/
theorem path_moved {start guest : Str} {directory : Bool}
    (h : s.path arg = some (start, directory)) :
    s.role (start ++ slash :: guest) = s.role arg ∧ s.next (start ++ slash :: guest) = s.next arg := by
  cases s with
  | leading => cases h
  | unread => cases h
  | value option operation position => exact ⟨rfl, rfl⟩
  | operands operation position => exact ⟨rfl, rfl⟩
  | options operation position =>
      rw [Reading.path] at h
      split at h
      · cases h
      · next hplain =>
        obtain ⟨hend, hvalue⟩ := not_or.mp hplain
        split at h
        · next start' hattached =>
          obtain ⟨rfl, rfl⟩ := Prod.mk.inj (Option.some.inj h)
          obtain ⟨hrole, hnext⟩ := ready_flag (s := .options operation position) rfl
            ⟨attachedPath_start hattached, hend, Bool.eq_false_iff.mpr hvalue⟩
          obtain ⟨hrole', hnext'⟩ := ready_flag (s := .options operation position) rfl
            (attachedPath_flag guest hattached)
          exact ⟨hrole'.trans hrole.symm, hnext'.trans hnext.symm⟩
        · split at h
          · next hpositional =>
            obtain ⟨rfl, rfl⟩ := Prod.mk.inj (Option.some.inj h)
            have hdash : startsWith arg (text "-") = false := by
              simpa using (Bool.and_eq_true_iff.mp hpositional).1
            have hslash : startsWith ([] ++ slash :: guest) (text "-") = false := rfl
            rw [role_positional operation position hdash, role_positional operation position hslash,
              (positional_read operation position hdash).2,
              (positional_read operation position hslash).2]
            exact ⟨rfl, rfl⟩
          · cases h

/-- Arguments with guest paths in the place of those that have one. -/
inductive Moved : Reading → List Str → List Str → Prop
  | nil {s : Reading} : Moved s [] []
  | same {s : Reading} {arg : Str} {args result : List Str} :
      (∀ start directory, s.path arg = some (start, directory) → arg.drop start.length = []) →
      Moved (s.next arg) args result → Moved s (arg :: args) (arg :: result)
  | path {s : Reading} {arg start guest : Str} {directory : Bool} {args result : List Str} :
      s.path arg = some (start, directory) → Moved (s.next arg) args result →
      Moved s (arg :: args) ((start ++ slash :: guest) :: result)

/-- The end of the options as the translated arguments show it: a path is no longer `--`. -/
def stopFrom (s : Reading) : List Str → Nat
  | [] => 0
  | arg :: args =>
      if arg = text "--" ∧ s.path arg = none then 0 else stopFrom (s.next arg) args + 1

theorem Moved.roles {result : List Str} (h : Moved s args result) :
    Launcher.roles s result = Launcher.roles s args := by
  induction h with
  | nil => rfl
  | same _ _ ih => exact congrArg (_ :: ·) ih
  | path hpath _ ih =>
      obtain ⟨hrole, hnext⟩ := path_moved hpath
      rw [Launcher.roles, hrole, hnext, ih, Launcher.roles]

theorem Moved.after_take {result : List Str} (h : Moved s args result) (k : Nat) :
    s.after (result.take k) = s.after (args.take k) := by
  induction h generalizing k with
  | nil => rfl
  | same _ _ ih =>
      cases k with
      | zero => rfl
      | succ k => exact ih k
  | path hpath _ ih =>
      cases k with
      | zero => rfl
      | succ k =>
          obtain ⟨-, hnext⟩ := path_moved hpath
          rw [List.take_succ_cons, List.take_succ_cons, Reading.after, List.foldl_cons, hnext]
          exact ih k

/-- A path argument of this text is one from its first character on. -/
theorem path_end {start : Str} {directory : Bool}
    (h : s.path (text "--") = some (start, directory)) : start = [] := by
  cases s with
  | leading => cases h
  | unread => cases h
  | options operation position =>
      rw [(terminator_read operation position).1] at h
      cases h
  | value option operation position =>
      rw [Reading.path] at h
      split at h
      · exact (Prod.mk.inj (Option.some.inj h)).1.symm
      · cases h
  | operands operation position =>
      rw [Reading.path] at h
      split at h
      · exact (Prod.mk.inj (Option.some.inj h)).1.symm
      · cases h

theorem Moved.idxOf {result : List Str} (h : Moved s args result) :
    result.idxOf (text "--") = stopFrom s args := by
  induction h with
  | nil => rfl
  | @same s arg args result hempty _ ih =>
      rw [List.idxOf_cons, stopFrom, ih]
      by_cases hend : arg = text "--"
      · subst hend
        have hnone : s.path (text "--") = none := by
          by_contra hsome
          obtain ⟨⟨start, directory⟩, hpath⟩ := Option.ne_none_iff_exists'.mp hsome
          obtain rfl := path_end hpath
          exact absurd (hempty _ _ hpath) (by decide +kernel)
        rw [if_pos ⟨rfl, hnone⟩, beq_self_eq_true]
        rfl
      · rw [if_neg fun hboth => hend hboth.1, beq_eq_false_iff_ne.mpr hend]
        rfl
  | @path s arg start guest directory args result hpath _ ih =>
      have hne : start ++ slash :: guest ≠ text "--" :=
        (plain_of_slash (List.mem_append_right _ List.mem_cons_self)).1
      have hsome : ¬(arg = text "--" ∧ s.path arg = none) := by
        rw [hpath]
        exact fun hboth => nomatch hboth.2
      rw [List.idxOf_cons, stopFrom, ih, if_neg hsome, beq_eq_false_iff_ne.mpr hne]
      rfl

/-- Arguments translated index by index. -/
theorem moved_of_index {result : List Str} (hlength : result.length = args.length)
    (h : ∀ k arg, args[k]? = some arg →
      (∃ start directory guest, (s.after (args.take k)).path arg = some (start, directory) ∧
        result[k]? = some (start ++ slash :: guest)) ∨
      result[k]? = some arg ∧ ∀ start directory,
        (s.after (args.take k)).path arg = some (start, directory) → arg.drop start.length = []) :
    Moved s args result := by
  induction args generalizing s result with
  | nil =>
      obtain rfl := List.length_eq_zero_iff.mp hlength
      exact .nil
  | cons arg args ih =>
      obtain ⟨arg', result, rfl⟩ := List.exists_cons_of_length_eq_add_one hlength
      have hrest : Moved (s.next arg) args result :=
        ih (Nat.succ.inj hlength) fun k => h (k + 1)
      rcases h 0 arg rfl with ⟨start, directory, guest, hpath, hget⟩ | ⟨hget, hempty⟩
      · obtain rfl := Option.some.inj hget
        exact .path hpath hrest
      · obtain rfl := Option.some.inj hget
        exact .same hempty hrest

theorem stopFrom_le (s : Reading) (args : List Str) : stopFrom s args ≤ args.length := by
  induction args generalizing s with
  | nil => exact Nat.le_refl 0
  | cons arg args ih =>
      have hrest := ih (s.next arg)
      rw [stopFrom, List.length_cons]
      split
      · omega
      · omega

theorem idxOf_le_stopFrom (s : Reading) (args : List Str) :
    args.idxOf (text "--") ≤ stopFrom s args := by
  induction args generalizing s with
  | nil => exact Nat.le_refl 0
  | cons arg args ih =>
      have hrest := ih (s.next arg)
      rw [stopFrom, List.idxOf_cons]
      split
      · next hend =>
        rw [hend.1, beq_self_eq_true]
        exact Nat.le_refl 0
      · cases arg == text "--" with
        | true => exact Nat.zero_le _
        | false => exact Nat.succ_le_succ hrest

/-- Flags do not end the options. -/
theorem stopFrom_flags {flags : List Str} (hs : s.ready = true) (hflags : ∀ flag ∈ flags, Flag flag) :
    stopFrom s (flags ++ args) = flags.length + stopFrom s args := by
  induction flags with
  | nil => exact (Nat.zero_add _).symm
  | cons flag flags ih =>
      obtain ⟨hflag, hrest⟩ := List.forall_mem_cons.mp hflags
      rw [List.cons_append, stopFrom, if_neg fun hboth => hflag.ne_end hboth.1, (ready_flag hs hflag).2,
        ih hrest, List.length_cons]
      omega

theorem ready_end (hs : s.ready = true) : s.path (text "--") = none := by
  cases s with
  | leading => rfl
  | options operation position => exact (terminator_read operation position).1
  | unread => cases hs
  | value option operation position => cases hs
  | operands operation position => cases hs

theorem stopFrom_splice {flags : List Str}
    (hs : (s.after (args.take (args.idxOf (text "--")))).ready = true)
    (hflags : ∀ flag ∈ flags, Flag flag) :
    stopFrom s (spliceAt (args.idxOf (text "--")) args flags) =
      args.idxOf (text "--") + flags.length := by
  induction args generalizing s with
  | nil =>
      have hs : s.ready = true := hs
      show stopFrom s ([] ++ flags ++ []) = 0 + flags.length
      rw [List.nil_append, stopFrom_flags hs hflags, stopFrom, Nat.add_zero, Nat.zero_add]
  | cons arg args ih =>
      by_cases hend : arg = text "--"
      · subst hend
        rw [List.idxOf_cons_self] at hs ⊢
        have hs : s.ready = true := hs
        show stopFrom s ([] ++ flags ++ text "--" :: args) = 0 + flags.length
        rw [List.nil_append, stopFrom_flags hs hflags, stopFrom, if_pos ⟨rfl, ready_end hs⟩,
          Nat.add_zero, Nat.zero_add]
      · rw [List.idxOf_cons_ne _ hend] at hs ⊢
        show stopFrom s (arg :: spliceAt (args.idxOf (text "--")) args flags) = _
        rw [stopFrom, if_neg fun hboth => hend hboth.1, ih hs]
        omega

theorem idxOf_splice {flags : List Str} (hflags : ∀ flag ∈ flags, flag ≠ text "--")
    (args : List Str) :
    (spliceAt (args.idxOf (text "--")) args flags).idxOf (text "--") =
      args.idxOf (text "--") + flags.length := by
  have hnot : text "--" ∉ flags := fun hmem => hflags _ hmem rfl
  induction args with
  | nil =>
      show ([] ++ flags ++ []).idxOf (text "--") = 0 + flags.length
      rw [List.nil_append, List.append_nil, List.idxOf_eq_length hnot, Nat.zero_add]
  | cons arg args ih =>
      by_cases hend : arg = text "--"
      · subst hend
        rw [List.idxOf_cons_self]
        show ([] ++ flags ++ text "--" :: args).idxOf (text "--") = 0 + flags.length
        rw [List.nil_append, List.idxOf_append_of_notMem hnot, List.idxOf_cons_self, Nat.add_zero,
          Nat.zero_add]
      · rw [List.idxOf_cons_ne _ hend]
        show (arg :: spliceAt (args.idxOf (text "--")) args flags).idxOf (text "--") = _
        rw [List.idxOf_cons_ne _ hend, ih]
        omega

/-! ## The root -/

section

variable (lower : Str → Str) (windows : Bool)

/-- The values of path arguments, and whether they are directories. -/
def mentions (s : Reading) : List Str → List (Str × Bool)
  | [] => []
  | arg :: args =>
      (s.path arg).toList.map (fun found => (arg.drop found.1.length, found.2)) ++
        mentions (s.next arg) args

/-- The directory that a value needs. -/
def neededBy (cwd : Str) (mention : Str × Bool) : Str :=
  let absolute := normalizePath windows (joinPath lower windows cwd mention.1)
  if mention.2 then absolute else directoryOf windows absolute

/-- The directories that a list of arguments needs. -/
def neededFrom (cwd : Str) (s : Reading) (args : List Str) : List Str :=
  ((mentions s args).filter fun mention => mention.1 != []).map (neededBy lower windows cwd)

end

variable {lower : Str → Str} {windows : Bool}

theorem mentions_append (s : Reading) (args others : List Str) :
    mentions s (args ++ others) = mentions s args ++ mentions (s.after args) others := by
  induction args generalizing s with
  | nil => rfl
  | cons arg args ih =>
      show _ ++ mentions (s.next arg) (args ++ others) = _
      rw [ih, ← List.append_assoc]
      rfl

theorem neededFrom_append (cwd : Str) (s : Reading) (args others : List Str) :
    neededFrom lower windows cwd s (args ++ others) =
      neededFrom lower windows cwd s args ++ neededFrom lower windows cwd (s.after args) others := by
  rw [neededFrom, mentions_append, List.filter_append, List.map_append]
  rfl

theorem needs_eq (args : List Str) (cwd : Str) :
    (named args).map (·.needs lower windows args cwd) =
      neededFrom lower windows cwd .leading args := by
  have hfrom : ∀ (rest : List Str) (s : Reading) (index : Nat), args.drop index = rest →
      ((pathsFrom s index rest).filter fun a => a.value args != []).map
        (·.needs lower windows args cwd) = neededFrom lower windows cwd s rest := by
    intro rest
    induction rest with
    | nil => exact fun _ _ _ => rfl
    | cons arg rest ih =>
        intro s index hdrop
        have hget : args.getD index [] = arg := by
          rw [List.getD_eq_getElem?_getD, ← List.head?_drop, hdrop]
          rfl
        have hrest := ih (s.next arg) (index + 1) (by rw [← List.tail_drop, hdrop]; rfl)
        cases hpath : s.path arg with
        | none =>
            rw [pathsFrom_none hpath, hrest, neededFrom, neededFrom, mentions, hpath]
            rfl
        | some found =>
            have hvalue : PathArgument.value args ⟨index, found.1, found.2⟩ =
                arg.drop found.1.length := by
              rw [PathArgument.value, hget]
            have hneeds : PathArgument.needs lower windows args cwd ⟨index, found.1, found.2⟩ =
                neededBy lower windows cwd (arg.drop found.1.length, found.2) := by
              rw [PathArgument.needs, PathArgument.absolute, hvalue]
              rfl
            rw [pathsFrom_some hpath, neededFrom, mentions, hpath, List.filter_cons, hvalue]
            show _ = List.map _ (List.filter _ ((arg.drop found.1.length, found.2) :: mentions _ rest))
            rw [List.filter_cons]
            split
            · rw [List.map_cons, List.map_cons, hneeds, hrest]
              rfl
            · exact hrest
  rw [named, compilerPathArguments_eq]
  exact hfrom args .leading 0 rfl

/-- Directories inside the common directory do not move it. -/
theorem commonPath_unmoved {path root root' : Str} {paths paths' : List Str}
    (hpath : Settled windows path) (h : commonPath lower windows (path :: paths) = some root)
    (h' : commonPath lower windows (path :: paths') = some root')
    (hinside : ∀ other ∈ paths', isWithin lower windows other root = true) (hsub : paths ⊆ paths') :
    root' = root := by
  obtain ⟨hdeepest, length, hlength, hroot, hparsed⟩ := commonPath_spec hpath h
  obtain ⟨hdeepest', length', hlength', hroot', hparsed'⟩ := commonPath_spec hpath h'
  have hle : isWithin lower windows root' root = true :=
    hdeepest'.deepest root (List.forall_mem_cons.mpr ⟨hdeepest.within path List.mem_cons_self, hinside⟩)
  have hge : isWithin lower windows root root' = true :=
    hdeepest.deepest root' (List.forall_mem_cons.mpr ⟨hdeepest'.within path List.mem_cons_self,
      fun other hother => hdeepest'.within other (List.mem_cons_of_mem _ (hsub hother))⟩)
  obtain ⟨-, -, hstart⟩ := isWithin_iff.mp hle
  obtain ⟨-, -, hstart'⟩ := isWithin_iff.mp hge
  have hcount := hstart.length_le
  have hcount' := hstart'.length_le
  rw [hparsed, hparsed', keys, keys, List.length_map, List.length_map, List.length_take,
    List.length_take] at hcount hcount'
  have heq : length' = length := by omega
  rw [hroot, hroot', heq]

end Launcher
