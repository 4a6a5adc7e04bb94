import CapnpcWasm.Launcher.Translation

/-!
# Roles of arguments

What `compilerPathArguments` takes each argument of a command for, as a machine that reads one
argument at a time.  A flag inserted where the machine reads options is an option, and leaves
every other argument its role.

`Reading` is the state of the machine: before the operation, among the options, waiting for
the value of one, or behind `--`.  `compilerPathArguments_eq` says that the grammar of the
source is this machine, so that a list can be cut anywhere (`roles_append`) and an argument
looked at alone (`getElem?_roles`, `mem_pathsFrom`).
-/

namespace Launcher

/-- What an argument is taken for. -/
inductive Role where
  | operation
  | option
  | value (option : Str)
  | terminator
  | positional (position : Nat)
  /-- Nothing: no operation is read, or an unknown one. -/
  | unread
deriving DecidableEq, Repr

/-- What the arguments so far say of the next one. -/
inductive Reading where
  | leading
  | unread
  | options (operation : Str) (position : Nat)
  | value (option operation : Str) (position : Nat)
  | operands (operation : Str) (position : Nat)
deriving DecidableEq, Repr

/-- The options whose value is a path. -/
def pathOptions : List Str := [text "-I", text "--import-path", text "--src-prefix"]

/-- The options whose value is not. -/
def textOptions : List Str := [text "-o", text "--output", text "--segment-size"]

/-- The next argument is the value of the option. -/
def takesValue (arg : Str) : Bool := pathOptions.contains arg || textOptions.contains arg

/-- What stands before the path in an option, for an option that holds a path. -/
def attachedPath (arg : Str) : Option Str :=
  if startsWith arg (text "--import-path=") || startsWith arg (text "--src-prefix=") then
    some (optionStart arg)
  else if startsWith arg (text "-I") then some (text "-I")
  else none

namespace Reading

/-- What an argument is taken for. -/
def role (s : Reading) (arg : Str) : Role :=
  match s with
  | leading =>
      if arg = text "--" then .terminator
      else if startsWith arg (text "-") then .option
      else if arg ∈ compilerOperations then .operation
      else .unread
  | unread => .unread
  | options _ position =>
      if arg = text "--" then .terminator
      else if startsWith arg (text "-") then .option
      else .positional position
  | value option _ _ => .value option
  | operands _ position => .positional position

/-- The state after it. -/
def next (s : Reading) (arg : Str) : Reading :=
  match s with
  | leading =>
      if arg = text "--" then unread
      else if startsWith arg (text "-") then leading
      else if arg ∈ compilerOperations then options arg 0
      else unread
  | unread => unread
  | options operation position =>
      if arg = text "--" then operands operation position
      else if takesValue arg then value arg operation position
      else if startsWith arg (text "-") then options operation position
      else options operation (position + 1)
  | value _ operation position => options operation position
  | operands operation position => operands operation (position + 1)

/-- The path an argument names: what stands before it, and whether it is a directory. -/
def path (s : Reading) (arg : Str) : Option (Str × Bool) :=
  match s with
  | options operation position =>
      if arg = text "--" ∨ takesValue arg = true then none
      else match attachedPath arg with
        | some start => some (start, true)
        | none =>
            if !startsWith arg (text "-") && readsPath operation position then some ([], false)
            else none
  | value option _ _ => if pathOptions.contains option then some ([], true) else none
  | operands operation position => if readsPath operation position then some ([], false) else none
  | _ => none

/-- The state after several. -/
def after (s : Reading) (args : List Str) : Reading := args.foldl next s

/-- An option may stand here. -/
def ready : Reading → Bool
  | leading => true
  | options _ _ => true
  | _ => false

end Reading

/-- The role of each argument. -/
def roles (s : Reading) : List Str → List Role
  | [] => []
  | arg :: args => s.role arg :: roles (s.next arg) args

/-- The path arguments, by the machine. -/
def pathsFrom (s : Reading) (index : Nat) : List Str → List PathArgument
  | [] => []
  | arg :: args =>
      (s.path arg).toList.map (fun found => ⟨index, found.1, found.2⟩) ++
        pathsFrom (s.next arg) (index + 1) args

variable {s : Reading} {arg : Str} {args : List Str}

/-! ## The machine reads the grammar -/

/-- Where the grammar stands, as a state. -/
def reading (operation : Str) (options : Bool) (position : Nat) : Reading :=
  if options then .options operation position else .operands operation position

/-- Options that take a value begin with a dash. -/
theorem takesValue_start (h : takesValue arg = true) :
    startsWith arg (text "-") = true ∧ arg ≠ text "--" := by
  simp only [takesValue, pathOptions, textOptions, Bool.or_eq_true, List.contains_iff_mem,
    List.mem_cons, List.not_mem_nil, or_false] at h
  rcases h with (rfl | rfl | rfl) | (rfl | rfl | rfl) <;> decide +kernel

/-- So do those with the path attached. -/
theorem attachedPath_start {start : Str} (h : attachedPath arg = some start) :
    startsWith arg (text "-") = true := by
  have hdash : ∀ flag : Str, startsWith flag (text "-") = true → startsWith arg flag = true →
      startsWith arg (text "-") = true := fun flag hflag harg =>
    startsWith_iff.mpr ((startsWith_iff.mp hflag).trans (startsWith_iff.mp harg))
  rw [attachedPath] at h
  split at h
  · next heq =>
    rcases Bool.or_eq_true _ _ ▸ heq with heq | heq
    · exact hdash _ (by decide +kernel) heq
    · exact hdash _ (by decide +kernel) heq
  · split at h
    · next hI => exact hdash _ (by decide +kernel) hI
    · cases h

/-- An argument that is no path adds nothing. -/
theorem pathsFrom_none (hpath : s.path arg = none) (index : Nat) :
    pathsFrom s index (arg :: args) = pathsFrom (s.next arg) (index + 1) args := by
  rw [pathsFrom, hpath]
  rfl

/-- An argument that is a path is added with its place. -/
theorem pathsFrom_some {start : Str} {directory : Bool} (hpath : s.path arg = some (start, directory))
    (index : Nat) : pathsFrom s index (arg :: args) =
      ⟨index, start, directory⟩ :: pathsFrom (s.next arg) (index + 1) args := by
  rw [pathsFrom, hpath]
  rfl

/-- An option that takes the next argument as its value. -/
theorem takesValue_read (operation : Str) (position : Nat) (h : takesValue arg = true) :
    (Reading.options operation position).path arg = none ∧
      (Reading.options operation position).next arg = .value arg operation position := by
  rw [Reading.path, Reading.next, if_pos (.inr h), if_neg (takesValue_start h).2, if_pos h]
  exact ⟨rfl, rfl⟩

/-- Behind `--` nothing is an option. -/
theorem terminator_read (operation : Str) (position : Nat) :
    (Reading.options operation position).path (text "--") = none ∧
      (Reading.options operation position).next (text "--") = .operands operation position := by
  rw [Reading.path, Reading.next, if_pos (.inl rfl), if_pos rfl]
  exact ⟨rfl, rfl⟩

/-- An option with its value, or without one. -/
theorem option_read (operation : Str) (position : Nat) (hend : arg ≠ text "--")
    (hvalue : takesValue arg = false) (hstart : startsWith arg (text "-") = true) :
    (Reading.options operation position).path arg = (attachedPath arg).map (·, true) ∧
      (Reading.options operation position).next arg = .options operation position := by
  have hplain : ¬(arg = text "--" ∨ takesValue arg = true) := by simp [hend, hvalue]
  rw [Reading.path, Reading.next, if_neg hplain, if_neg hend, hvalue, if_neg Bool.false_ne_true,
    if_pos hstart, hstart]
  refine ⟨?_, rfl⟩
  cases attachedPath arg with
  | none => rfl
  | some start => rfl

/-- An operand counts, and may be a path by its position. -/
theorem positional_read (operation : Str) (position : Nat)
    (hstart : startsWith arg (text "-") = false) :
    (Reading.options operation position).path arg =
        (if readsPath operation position then some ([], false) else none) ∧
      (Reading.options operation position).next arg = .options operation (position + 1) := by
  have hend : arg ≠ text "--" := by
    rintro rfl
    exact absurd hstart (by decide +kernel)
  have hvalue : takesValue arg = false := by
    by_contra h
    rw [(takesValue_start (Bool.not_eq_false _ ▸ h)).1] at hstart
    cases hstart
  have hattached : attachedPath arg = none := by
    by_contra h
    obtain ⟨start, h⟩ := Option.ne_none_iff_exists'.mp h
    rw [attachedPath_start h] at hstart
    cases hstart
  have hplain : ¬(arg = text "--" ∨ takesValue arg = true) := by simp [hend, hvalue]
  rw [Reading.path, Reading.next, if_neg hplain, if_neg hend, hvalue, if_neg Bool.false_ne_true,
    hstart, hattached]
  exact ⟨rfl, rfl⟩

/-- An option with a path attached is none of those whose path is the next argument. -/
theorem attached_plain {start : Str} (h : attachedPath arg = some start)
    (hpaths : pathOptions.contains arg = false) : takesValue arg = false := by
  rw [takesValue, hpaths, Bool.false_or]
  by_contra htext
  rw [Bool.not_eq_false, textOptions, List.contains_iff_mem] at htext
  simp only [List.mem_cons, List.not_mem_nil, or_false] at htext
  have hnone : attachedPath arg = none := by
    rcases htext with rfl | rfl | rfl <;> decide +kernel
  rw [hnone] at h
  cases h

/-- The grammar behind the operation, by induction on the arguments. -/
theorem pathArguments_eq (operation : Str) (options : Bool) (position index : Nat)
    (args : List Str) : pathArguments operation options position index args =
      pathsFrom (reading operation options position) index args := by
  -- the cases are the branches of the source, in their order
  fun_induction pathArguments operation options position index args with
  | case1 => rfl
  | case2 options position index arg args h ih =>
      obtain ⟨rfl, harg⟩ := Bool.and_eq_true_iff.mp h
      obtain rfl := beq_iff_eq.mp harg
      obtain ⟨hpath, hnext⟩ := terminator_read operation position
      rw [ih, reading, reading, if_pos rfl, pathsFrom_none hpath, hnext]
      rfl
  | case3 options position index arg _ h =>
      obtain ⟨rfl, harg⟩ := Bool.and_eq_true_iff.mp h
      obtain ⟨hpath, -⟩ := takesValue_read operation position (Bool.or_eq_true_iff.mpr (.inl harg))
      rw [reading, if_pos rfl, pathsFrom_none hpath]
      rfl
  | case4 options position index arg _ h value args ih =>
      obtain ⟨rfl, harg⟩ := Bool.and_eq_true_iff.mp h
      obtain ⟨hpath, hnext⟩ :=
        takesValue_read operation position (Bool.or_eq_true_iff.mpr (.inl harg))
      have hvalue : (Reading.value arg operation position).path value = some ([], true) := if_pos harg
      rw [ih, reading, if_pos rfl, pathsFrom_none hpath, hnext, pathsFrom_some hvalue]
      rfl
  | case5 options position index arg args hend hpaths hstart ih =>
      obtain ⟨rfl, hattached⟩ := Bool.and_eq_true_iff.mp hstart
      have hpath : attachedPath arg = some (optionStart arg) := if_pos hattached
      obtain ⟨hread, hnext⟩ := option_read operation position (by simpa using hend)
        (attached_plain hpath (Bool.eq_false_iff.mpr hpaths)) (attachedPath_start hpath)
      rw [ih, reading, if_pos rfl, pathsFrom_some (hread.trans (by rw [hpath]; rfl)), hnext]
  | case6 options position index arg args hend hpaths hassigned hstart ih =>
      obtain ⟨rfl, hI⟩ := Bool.and_eq_true_iff.mp hstart
      have hpath : attachedPath arg = some (text "-I") := by
        rw [attachedPath, if_neg (by simpa using hassigned), if_pos hI]
      obtain ⟨hread, hnext⟩ := option_read operation position (by simpa using hend)
        (attached_plain hpath (Bool.eq_false_iff.mpr hpaths)) (attachedPath_start hpath)
      rw [ih, reading, if_pos rfl, pathsFrom_some (hread.trans (by rw [hpath]; rfl)), hnext]
  | case7 options position index arg _ _ _ _ h =>
      obtain ⟨rfl, harg⟩ := Bool.and_eq_true_iff.mp h
      obtain ⟨hpath, -⟩ := takesValue_read operation position (Bool.or_eq_true_iff.mpr (.inr harg))
      rw [reading, if_pos rfl, pathsFrom_none hpath]
      rfl
  | case8 options position index arg _ hpaths _ _ h value args ih =>
      obtain ⟨rfl, harg⟩ := Bool.and_eq_true_iff.mp h
      obtain ⟨hpath, hnext⟩ :=
        takesValue_read operation position (Bool.or_eq_true_iff.mpr (.inr harg))
      have hvalue : (Reading.value arg operation position).path value = none :=
        if_neg hpaths
      rw [ih, reading, if_pos rfl, pathsFrom_none hpath, hnext, pathsFrom_none hvalue]
      rfl
  | case9 options position index arg args hend hpaths hassigned hI htexts hstart ih =>
      obtain ⟨rfl, hdash⟩ := Bool.and_eq_true_iff.mp hstart
      have hpath : attachedPath arg = none := by
        rw [attachedPath, if_neg (by simpa using hassigned), if_neg (by simpa using hI)]
      have hvalue : takesValue arg = false := Bool.or_eq_false_iff.mpr
        ⟨Bool.eq_false_iff.mpr hpaths, Bool.eq_false_iff.mpr htexts⟩
      obtain ⟨hread, hnext⟩ := option_read operation position (by simpa using hend) hvalue hdash
      rw [ih, reading, if_pos rfl, pathsFrom_none (hread.trans (by rw [hpath]; rfl)), hnext]
  | case10 options position index arg args _ _ _ _ _ hdash hreads ih =>
      rw [ih]
      cases options with
      | true =>
          obtain ⟨hread, hnext⟩ := positional_read operation position (Bool.eq_false_iff.mpr hdash)
          show _ = pathsFrom (.options operation position) index (arg :: args)
          rw [pathsFrom_some (hread.trans (if_pos hreads)), hnext]
          rfl
      | false =>
          have hpath : (Reading.operands operation position).path arg = some ([], false) :=
            if_pos hreads
          exact (pathsFrom_some hpath index).symm
  | case11 options position index arg args _ _ _ _ _ hdash hreads ih =>
      rw [ih]
      cases options with
      | true =>
          obtain ⟨hread, hnext⟩ := positional_read operation position (Bool.eq_false_iff.mpr hdash)
          show _ = pathsFrom (.options operation position) index (arg :: args)
          rw [pathsFrom_none (hread.trans (if_neg hreads)), hnext]
          rfl
      | false =>
          have hpath : (Reading.operands operation position).path arg = none := if_neg hreads
          exact (pathsFrom_none hpath index).symm

/-- Where no operation is known, nothing is a path. -/
theorem pathsFrom_unread (index : Nat) (args : List Str) : pathsFrom .unread index args = [] := by
  induction args generalizing index with
  | nil => rfl
  | cons arg args ih => exact (pathsFrom_none rfl index).trans (ih (index + 1))

/-- The operation is the first argument that is no option. -/
theorem compilerOperation_cons (arg : Str) (args : List Str) :
    compilerOperation (arg :: args) =
      if arg = text "--" then none
      else if startsWith arg (text "-") then
        (compilerOperation args).map fun found => (found.1 + 1, found.2)
      else if arg ∈ compilerOperations then some (0, arg)
      else none := by
  rw [compilerOperation, List.findIdx?_cons]
  by_cases hend : arg = text "--"
  · rw [hend, beq_self_eq_true, Bool.true_or, if_pos rfl, if_pos rfl]
    exact if_pos rfl
  · rw [beq_eq_false_iff_ne.mpr hend, Bool.false_or, if_neg hend]
    cases hdash : startsWith arg (text "-") with
    | true =>
        rw [Bool.not_true, if_neg Bool.false_ne_true, if_pos rfl, compilerOperation]
        cases args.findIdx? fun arg => arg == text "--" || !startsWith arg (text "-") with
        | none => rfl
        | some index =>
            dsimp only [Option.map_some]
            rw [List.getD_cons_succ, apply_ite (Option.map _), apply_ite (Option.map _)]
            rfl
    | false =>
        rw [Bool.not_false, if_pos rfl, if_neg Bool.false_ne_true]
        exact if_neg hend

/-- The machine finds the path arguments after an operation. -/
theorem pathsFrom_leading (index : Nat) (args : List Str) : pathsFrom .leading index args =
    match compilerOperation args with
    | none => []
    | some (found, operation) =>
        pathArguments operation true 0 (index + found + 1) (args.drop (found + 1)) := by
  induction args generalizing index with
  | nil => rfl
  | cons arg args ih =>
      rw [pathsFrom_none rfl, compilerOperation_cons, Reading.next]
      split
      · exact pathsFrom_unread _ args
      · split
        · rw [ih]
          cases compilerOperation args with
          | none => rfl
          | some found =>
              have hindex : index + 1 + found.1 + 1 = index + (found.1 + 1) + 1 := by omega
              exact congrArg (pathArguments found.2 true 0 · _) hindex
        · split
          · exact (pathArguments_eq arg true 0 (index + 1) args).symm
          · exact pathsFrom_unread _ args

/-- The machine finds the path arguments. -/
theorem compilerPathArguments_eq (args : List Str) :
    compilerPathArguments args = pathsFrom .leading 0 args := by
  rw [compilerPathArguments, pathsFrom_leading]
  cases compilerOperation args with
  | none => rfl
  | some found =>
      have hindex : found.1 + 1 = 0 + found.1 + 1 := by omega
      exact congrArg (pathArguments found.2 true 0 · _) hindex

/-! ## One argument of a list -/

/-- A value has its role from the state alone. -/
theorem role_value {option : Str} (h : s.role arg = .value option) :
    ∃ operation position, s = .value option operation position := by
  cases s with
  | leading =>
      rw [Reading.role] at h
      split_ifs at h
  | unread => cases h
  | options operation position =>
      rw [Reading.role] at h
      split_ifs at h
  | value option' operation position =>
      obtain rfl := Role.value.inj h
      exact ⟨operation, position, rfl⟩
  | operands operation position => cases h

/-- The machine waits for the option it has just read. -/
theorem next_value {option operation : Str} {position : Nat}
    (h : s.next arg = .value option operation position) : arg = option := by
  cases s with
  | leading =>
      rw [Reading.next] at h
      split_ifs at h
  | unread => cases h
  | options operation' position' =>
      rw [Reading.next] at h
      split_ifs at h
      exact (Reading.value.inj h).1
  | value option' operation' position' => cases h
  | operands operation' position' => cases h

/-- Each argument has one role. -/
theorem length_roles (s : Reading) (args : List Str) : (roles s args).length = args.length := by
  induction args generalizing s with
  | nil => rfl
  | cons arg args ih => exact congrArg (· + 1) (ih _)

/-- The second list is read from where the first one ended. -/
theorem roles_append (s : Reading) (args others : List Str) :
    roles s (args ++ others) = roles s args ++ roles (s.after args) others := by
  induction args generalizing s with
  | nil => rfl
  | cons arg args ih => exact congrArg (s.role arg :: ·) (ih _)

theorem after_append (s : Reading) (args others : List Str) :
    s.after (args ++ others) = (s.after args).after others := List.foldl_append

theorem take_roles (s : Reading) (args : List Str) (k : Nat) :
    (roles s args).take k = roles s (args.take k) := by
  induction args generalizing s k with
  | nil => rw [roles, List.take_nil, List.take_nil, roles]
  | cons arg args ih =>
      cases k with
      | zero => rfl
      | succ k => exact congrArg (s.role arg :: ·) (ih _ k)

theorem drop_roles (s : Reading) (args : List Str) (k : Nat) :
    (roles s args).drop k = roles (s.after (args.take k)) (args.drop k) := by
  induction args generalizing s k with
  | nil => rw [roles, List.drop_nil, List.drop_nil, roles]
  | cons arg args ih =>
      cases k with
      | zero => rfl
      | succ k => exact ih _ k

/-- The role of one argument depends on those before it. -/
theorem getElem?_roles (s : Reading) (args : List Str) (k : Nat) :
    (roles s args)[k]? = args[k]?.map (s.after (args.take k)).role := by
  induction args generalizing s k with
  | nil => rfl
  | cons arg args ih =>
      cases k with
      | zero => rfl
      | succ k => exact ih (s.next arg) k

/-- A path among the arguments, with its place. -/
theorem mem_pathsFrom {index : Nat} {a : PathArgument} :
    a ∈ pathsFrom s index args ↔ ∃ k arg, args[k]? = some arg ∧ a.index = index + k ∧
      (s.after (args.take k)).path arg = some (a.start, a.directory) := by
  induction args generalizing s index with
  | nil => exact iff_of_false List.not_mem_nil nofun
  | cons arg args ih =>
      rw [pathsFrom, List.mem_append, ih]
      constructor
      · rintro (hfirst | ⟨k, arg', hget, hindex, hpath⟩)
        · obtain ⟨found, hfound, rfl⟩ := List.mem_map.mp hfirst
          exact ⟨0, arg, rfl, rfl, Option.mem_toList.mp hfound⟩
        · exact ⟨k + 1, arg', hget, by omega, hpath⟩
      · rintro ⟨k, arg', hget, hindex, hpath⟩
        cases k with
        | zero =>
            obtain rfl : arg = arg' := Option.some.inj hget
            refine .inl (List.mem_map.mpr ⟨_, Option.mem_toList.mpr hpath, ?_⟩)
            cases a
            cases hindex
            rfl
        | succ k => exact .inr ⟨k, arg', hget, by omega, hpath⟩

/-- The value of an option stands after it. -/
theorem value_follows {option : Str} {k : Nat}
    (h : (roles .leading args)[k]? = some (.value option)) :
    ∃ j operation position, k = j + 1 ∧ args[j]? = some option ∧
      Reading.after .leading (args.take k) = .value option operation position := by
  rw [getElem?_roles] at h
  obtain ⟨arg, hget, hrole⟩ := Option.map_eq_some_iff.mp h
  obtain ⟨operation, position, hs⟩ := role_value hrole
  cases k with
  | zero => cases hs
  | succ j =>
      have hlt : j < args.length := by
        have := (List.getElem?_eq_some_iff.mp hget).1
        omega
      refine ⟨j, operation, position, rfl, ?_, hs⟩
      rw [List.take_succ_eq_append_getElem hlt, after_append] at hs
      rw [List.getElem?_eq_getElem hlt, next_value hs]

end Launcher
