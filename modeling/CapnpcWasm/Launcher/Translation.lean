import CapnpcWasm.Launcher.Arguments
import CapnpcWasm.Launcher.Directories
import Mathlib.Data.List.TakeWhile

/-!
# Translated arguments name the paths they were given

The root of a translation is the deepest directory of the current directory and of the named
paths, and below it every guest path names the host path it stands for.
-/

namespace Launcher

section

variable (lower : Str → Str) (windows : Bool)

/-- The path arguments that have a value. -/
def named (args : List Str) : List PathArgument :=
  (compilerPathArguments args).filter fun a => a.value args != []

/-- The normalized absolute path of an argument. -/
def PathArgument.absolute (args : List Str) (cwd : Str) (a : PathArgument) : Str :=
  normalizePath windows (joinPath lower windows cwd (a.value args))

/-- The directory an argument needs: itself, or the directory of the file it names. -/
def PathArgument.needs (args : List Str) (cwd : Str) (a : PathArgument) : Str :=
  if a.directory then a.absolute lower windows args cwd
  else directoryOf windows (a.absolute lower windows args cwd)

/-- What a translation takes for a source prefix, by the text of an argument and of the one
before it. -/
def LooksPrefix (args : List Str) (a : PathArgument) : Prop :=
  a.start = text "--src-prefix=" ∨
    a.start = [] ∧ 0 < a.index ∧ args.getD (a.index - 1) [] = text "--src-prefix"

/-- A translation adds a source prefix for the current directory. -/
def Gains (args : List Str) (cwd : Str) : Prop :=
  (compilerOperation args).map (·.2) = some (text "compile") ∧ named args ≠ [] ∧
    ¬∃ a ∈ named args, LooksPrefix args a ∧
      isWithin lower windows cwd (a.absolute lower windows args cwd) = true

/-- A path that starts at the guest root and never leaves it. -/
def GuestPath (guest : Str) : Prop := startsWith guest [slash] = true ∧ dotdot ∉ guest.splitOn slash

/-- A guest path names a host path below a root. -/
structure Names (root guest path : Str) : Prop where
  inside : GuestPath guest
  same : SamePath lower windows (parsePath windows (root ++ guest)) (parsePath windows path)

/-- Arguments with the value of every named path replaced by a guest path for it. -/
structure Translated (args : List Str) (cwd root : Str) (result : List Str) : Prop where
  length : result.length = args.length
  names : ∀ a ∈ named args, args[a.index]? = some (a.start ++ a.value args) ∧
    ∃ guest, result[a.index]? = some (a.start ++ guest) ∧
      Names lower windows root guest (a.absolute lower windows args cwd)
  others : ∀ index, (∀ a ∈ named args, a.index ≠ index) → result[index]? = args[index]?

/-- What a translation without an include keeps of its arguments. -/
structure Faithful (args : List Str) (cwd : Str) (t : Translation) : Prop where
  root : Deepest lower windows (cwd :: (named args).map (·.needs lower windows args cwd)) t.root
  guestCwd : Names lower windows t.root t.guestCwd cwd
  args : ∃ result, Translated lower windows args cwd t.root result ∧
    (t.args = result ∨ t.args = spliceOptions result [text "--src-prefix=" ++ t.guestCwd])

end

variable {lower : Str → Str} {windows : Bool}

/-! ## Guest paths -/

theorem guestPath_of_proper {parts : List Str} (h : ∀ p ∈ parts, Proper windows p) :
    GuestPath (slash :: join slash parts) := by
  refine ⟨by simp [startsWith], ?_⟩
  rw [List.splitOn_cons_eq_if_modifyHead, if_pos (beq_self_eq_true _)]
  have hne : dotdot ≠ [] := List.cons_ne_nil _ _
  rcases parts with _ | ⟨part, parts⟩
  · simp [join, hne]
  · rw [join, List.splitOn_intercalate _ (fun p hp => (h p hp).slash) (by simp)]
    intro hmem
    rcases List.mem_cons.mp hmem with heq | hmem
    · exact hne heq
    · exact (h dotdot hmem).ne_dotdot rfl

/-- A path inside a root that is read as it was formatted is named by its guest path. -/
theorem guestPath_names {root path drive : Str} {parts : List Str} (hdrive : Kept windows drive)
    (hparts : ∀ p ∈ parts, Proper windows p) (hroot : root = formatPath windows ⟨drive, true, parts⟩)
    (h : isWithin lower windows path root = true) :
    Names lower windows root (guestPath windows path root) path := by
  have hparsed : parsePath windows root = ⟨drive, true, parts⟩ := by
    rw [hroot, parsePath_formatPath hdrive hparts]
  obtain ⟨hsame, hrooted, hstart⟩ := isWithin_iff.mp h
  rw [hparsed] at hsame hrooted hstart
  have hproper := parsePath_proper hrooted
  have hdropped : ∀ p ∈ (parsePath windows path).parts.drop parts.length, Proper windows p :=
    fun p hp => hproper p (List.mem_of_mem_drop hp)
  rw [guestPath, hparsed]
  refine ⟨guestPath_of_proper hdropped, ?_⟩
  rw [hroot, parsePath_extend hdrive hparts hdropped]
  refine ⟨hsame.symm, hrooted.symm, ?_⟩
  obtain ⟨rest, hrest⟩ := hstart
  have hlength : (keys lower windows parts).length = parts.length := List.length_map _
  show keys lower windows (parts ++ (parsePath windows path).parts.drop parts.length) =
    keys lower windows (parsePath windows path).parts
  rw [keys, List.map_append, List.map_drop, ← keys, ← keys, ← hrest, ← hlength,
    List.drop_left]

/-! ## Settled paths -/

theorem isAbsolute_posix (path : Str) : isAbsolute false path = startsWith path [slash] := by
  simp [isAbsolute, parsePath, splitDrive]

theorem settled_normalize {path : Str} (h : isAbsolute false path = true) :
    Settled false (normalizePath false path) := by
  refine settled_posix ?_
  have hrooted : (parsePath false path).rooted = true := by
    rw [isAbsolute, Bool.and_eq_true] at h
    exact h.1
  have hformat : normalizePath false path =
      [] ++ slash :: join slash (parsePath false path).parts := by
    have hparsed : parsePath false path = ⟨[], true, (parsePath false path).parts⟩ := by
      rw [← hrooted]
      rfl
    rw [normalizePath, hparsed]
    exact formatPath_rooted [] _
  rw [isAbsolute_posix, hformat]
  simp [startsWith]

theorem joinPath_absolute {cwd value : Str} (h : isAbsolute false cwd = true) :
    isAbsolute false (joinPath lower false cwd value) = true := by
  rw [joinPath, if_pos (by rfl)]
  split
  · next hstart => rwa [isAbsolute_posix]
  · rw [isAbsolute_posix] at h ⊢
    rw [startsWith, beq_iff_eq] at h ⊢
    cases cwd with
    | nil => cases h
    | cons u cwd => exact h

/-- The directory of a settled file holds the file. -/
theorem isWithin_directoryOf {path root : Str} (hpath : Settled windows path)
    (h : isWithin lower windows (directoryOf windows path) root = true) :
    isWithin lower windows path root = true := by
  obtain ⟨-, hrooted⟩ := hpath.kept
  have hparsed := hpath.parsePath_take ((parsePath windows path).parts.length - 1)
  rw [← List.dropLast_eq_take] at hparsed
  obtain ⟨hdrive, hroot, hstart⟩ := isWithin_iff.mp h
  rw [directoryOf, hparsed] at hdrive hroot hstart
  rw [isWithin_iff]
  exact ⟨hdrive, hrooted.trans hroot, hstart.trans ((List.dropLast_prefix _).map _)⟩

/-! ## Indices of path arguments -/

/-- Path arguments found from an index on: in order, each at an argument it starts. -/
structure Indexed (index : Nat) (args : List Str) (found : List PathArgument) : Prop where
  ordered : found.Pairwise (·.index < ·.index)
  starts : ∀ a ∈ found, index ≤ a.index ∧ a.start <+: args.getD (a.index - index) [] ∧
    a.index < index + args.length

variable {index : Nat} {args : List Str} {found : List PathArgument}

theorem Indexed.skip (h : Indexed (index + 1) args found) (arg : Str) :
    Indexed index (arg :: args) found := by
  refine ⟨h.ordered, fun a ha => ?_⟩
  obtain ⟨hle, hstart, hlt⟩ := h.starts a ha
  obtain ⟨n, hn⟩ := Nat.exists_eq_add_of_le hle
  have hsub : a.index - index = a.index - (index + 1) + 1 := by omega
  rw [hsub, List.getD_cons_succ, List.length_cons]
  exact ⟨by omega, hstart, by omega⟩

theorem Indexed.push (h : Indexed (index + 1) args found) {arg start : Str} (hstart : start <+: arg)
    (directory : Bool) : Indexed index (arg :: args) (⟨index, start, directory⟩ :: found) := by
  refine ⟨List.pairwise_cons.mpr ⟨fun a ha => (h.starts a ha).1, h.ordered⟩, fun a ha => ?_⟩
  rcases List.mem_cons.mp ha with rfl | ha
  · show index ≤ index ∧ start <+: (arg :: args).getD (index - index) [] ∧
      index < index + (arg :: args).length
    rw [Nat.sub_self, List.getD_cons_zero, List.length_cons]
    exact ⟨Nat.le_refl _, hstart, by omega⟩
  · exact (h.skip arg).starts a ha

theorem startsWith_iff {s start : Str} : startsWith s start = true ↔ start <+: s := by
  rw [startsWith, beq_iff_eq, List.prefix_iff_eq_take]
  exact eq_comm

theorem optionStart_prefix {arg start : Str} (h : startsWith arg start = true) (heq : 61 ∈ start) :
    optionStart arg <+: arg := by
  have hmem : 61 ∈ arg := (startsWith_iff.mp h).mem heq
  have hne : arg.dropWhile (· != 61) ≠ [] := by
    intro hnil
    have hall := List.dropWhile_eq_nil_iff.mp hnil 61 hmem
    simp at hall
  have hhead : (arg.dropWhile (· != 61)).head hne = 61 := by
    simpa using List.head_dropWhile_not (· != (61 : UInt16)) hne
  refine ⟨(arg.dropWhile (· != 61)).tail, ?_⟩
  conv_rhs => rw [← List.takeWhile_append_dropWhile (p := (· != 61)) (l := arg),
    ← List.cons_head_tail hne, hhead]
  rw [optionStart, List.append_assoc]
  rfl

theorem pathArguments_indexed (operation : Str) (options : Bool) (position index : Nat)
    (args : List Str) : Indexed index args (pathArguments operation options position index args) := by
  fun_induction pathArguments operation options position index args with
  | case1 => exact ⟨.nil, fun a ha => absurd ha List.not_mem_nil⟩
  | case2 _ _ _ arg args _ ih => exact ih.skip arg
  | case3 => exact ⟨.nil, fun a ha => absurd ha List.not_mem_nil⟩
  | case4 _ _ _ arg _ _ value args ih => exact (ih.push List.nil_prefix true).skip arg
  | case5 options position index arg args _ _ hstart ih =>
      rw [Bool.and_eq_true, Bool.or_eq_true] at hstart
      refine ih.push ?_ true
      rcases hstart.2 with h | h
      · exact optionStart_prefix h (by decide +kernel)
      · exact optionStart_prefix h (by decide +kernel)
  | case6 options position index arg args _ _ _ hstart ih =>
      rw [Bool.and_eq_true] at hstart
      exact ih.push (startsWith_iff.mp hstart.2) true
  | case7 => exact ⟨.nil, fun a ha => absurd ha List.not_mem_nil⟩
  | case8 _ _ _ arg _ _ _ _ _ value args ih => exact (ih.skip value).skip arg
  | case9 options position index arg args _ _ _ _ _ _ ih => exact ih.skip arg
  | case10 options position index arg args _ _ _ _ _ _ _ ih => exact ih.push List.nil_prefix false
  | case11 options position index arg args _ _ _ _ _ _ _ ih => exact ih.skip arg

theorem compilerPathArguments_indexed (args : List Str) :
    Indexed 0 args (compilerPathArguments args) := by
  rw [compilerPathArguments]
  split
  · exact ⟨.nil, fun a ha => absurd ha List.not_mem_nil⟩
  · next index operation _ =>
    obtain ⟨hordered, hstarts⟩ :=
      pathArguments_indexed operation true 0 (index + 1) (args.drop (index + 1))
    refine ⟨hordered, fun a ha => ?_⟩
    obtain ⟨hle, hstart, hlt⟩ := hstarts a ha
    rw [List.length_drop] at hlt
    rw [List.getD_eq_getElem?_getD, List.getElem?_drop, Nat.add_sub_cancel' hle,
      ← List.getD_eq_getElem?_getD] at hstart
    exact ⟨Nat.zero_le _, hstart, by omega⟩

/-! ## The two loops of a translation -/

/-- Every path argument with a value adds its directory and its absolute path, in order. -/
theorem resolveArgument_foldlM {args : List Str} {cwd : Str} {as : List PathArgument}
    {start result : List Str × List HostPath}
    (h : as.foldlM (resolveArgument lower windows args cwd) start = .ok result) :
    result.1 = start.1 ++ (as.filter fun a => a.value args != []).map
      (·.needs lower windows args cwd) ∧
    result.2 = start.2 ++ (as.filter fun a => a.value args != []).map
      fun a => ⟨a.index, a.start, a.absolute lower windows args cwd⟩ := by
  induction as generalizing start with
  | nil =>
      obtain rfl : start = result := Except.ok.inj h
      simp
  | cons a as ih =>
      rw [List.foldlM_cons] at h
      rcases hone : resolveArgument lower windows args cwd start a with failure | next
      · rw [hone] at h
        cases h
      · rw [hone] at h
        obtain ⟨hroots, hpaths⟩ := ih h
        rw [resolveArgument] at hone
        dsimp only at hone
        split at hone
        · next hempty =>
          obtain rfl := Except.ok.inj hone
          rw [List.filter_cons_of_neg (by simp [hempty])]
          exact ⟨hroots, hpaths⟩
        · next hvalue =>
          split at hone
          · cases hone
          · obtain rfl := Except.ok.inj hone
            rw [List.filter_cons_of_pos (by simp [hvalue])]
            exact ⟨by rw [hroots]; simp [PathArgument.needs, PathArgument.absolute],
              by rw [hpaths]; simp [PathArgument.absolute]⟩

/-- Setting the elements at increasing indices sets each of them, and no other. -/
theorem foldl_set {α β : Type} (at' : α → Nat) (value : α → β) {sets : List α}
    (h : sets.Pairwise (at' · < at' ·)) (result : List β) :
    (sets.foldl (fun result a => result.set (at' a) (value a)) result).length = result.length ∧
    (∀ a ∈ sets, at' a < result.length →
      (sets.foldl (fun result a => result.set (at' a) (value a)) result)[at' a]? =
        some (value a)) ∧
    ∀ index, (∀ a ∈ sets, at' a ≠ index) →
      (sets.foldl (fun result a => result.set (at' a) (value a)) result)[index]? =
        result[index]? := by
  induction sets generalizing result with
  | nil => exact ⟨rfl, fun a ha => absurd ha List.not_mem_nil, fun _ _ => rfl⟩
  | cons a sets ih =>
      obtain ⟨hfirst, hrest⟩ := List.pairwise_cons.mp h
      obtain ⟨hlength, hset, hothers⟩ := ih hrest (result.set (at' a) (value a))
      rw [List.length_set] at hlength hset
      rw [List.foldl_cons]
      refine ⟨hlength, fun b hb hlt => ?_, fun index hne => ?_⟩
      · rcases List.mem_cons.mp hb with rfl | hb
        · rw [hothers _ fun c hc => (hfirst c hc).ne', List.getElem?_set_self hlt]
        · exact hset b hb hlt
      · obtain ⟨hne, hnes⟩ := List.forall_mem_cons.mp hne
        rw [hothers index hnes, List.getElem?_set_ne hne]

/-! ## Translations -/

/-- The test of a translation that succeeds, on the paths it has resolved. -/
theorem gains_iff {args : List Str} {cwd : Str} {paths : List HostPath}
    (hpaths : paths = (named args).map fun a =>
      ⟨a.index, a.start, a.absolute lower windows args cwd⟩) :
    ((compilerOperation args).map (·.2) = some (text "compile") ∧ paths ≠ [] ∧
      !(paths.filter fun p => p.start == text "--src-prefix=" ||
        (p.start == [] && 0 < p.index && args.getD (p.index - 1) [] == text "--src-prefix")).any
          fun p => isWithin lower windows cwd p.absolute) ↔ Gains lower windows args cwd := by
  rw [Gains, hpaths, ne_eq, List.map_eq_nil_iff, Bool.not_eq_true', List.any_eq_false]
  refine and_congr_right fun _ => and_congr_right fun _ => ?_
  rw [not_exists]
  constructor
  · rintro hall a ⟨ha, hprefix, hwithin⟩
    refine hall _ (List.mem_filter.mpr ⟨List.mem_map_of_mem ha, ?_⟩) hwithin
    simpa [LooksPrefix, and_assoc] using hprefix
  · intro hall p hp hwithin
    obtain ⟨hmem, hprefix⟩ := List.mem_filter.mp hp
    obtain ⟨a, ha, rfl⟩ := List.mem_map.mp hmem
    refine hall a ⟨ha, ?_, hwithin⟩
    simpa [LooksPrefix, and_assoc] using hprefix

/-- The steps of a translation without an include that succeeds. -/
theorem translatePaths_steps {args : List Str} {cwd : Str} {t : Translation}
    (h : translatePaths lower windows args cwd none = .ok t) :
    commonPath lower windows (normalizePath windows cwd ::
      (named args).map (·.needs lower windows args (normalizePath windows cwd))) = some t.root ∧
    t.guestCwd = guestPath windows (normalizePath windows cwd) t.root ∧
    ∃ result, result = (named args).foldl (fun result a => result.set a.index (a.start ++
        guestPath windows (a.absolute lower windows args (normalizePath windows cwd)) t.root)) args ∧
      (Gains lower windows args (normalizePath windows cwd) →
        t.args = spliceOptions result [text "--src-prefix=" ++ t.guestCwd]) ∧
      (¬Gains lower windows args (normalizePath windows cwd) → t.args = result) := by
  rw [translatePaths] at h
  dsimp only at h
  rcases hloop : (compilerPathArguments args).foldlM
      (resolveArgument lower windows args (normalizePath windows cwd))
      ([normalizePath windows cwd], []) with failure | ⟨roots, paths⟩
  · rw [hloop] at h
    cases h
  · obtain ⟨hroots, hpaths⟩ := resolveArgument_foldlM hloop
    dsimp only at hroots hpaths
    rw [List.nil_append] at hpaths
    rw [hloop] at h
    dsimp only [bind, Except.bind] at h
    rcases hcommon : commonPath lower windows roots with _ | root
    · rw [hcommon] at h
      cases h
    · rw [hcommon] at h
      dsimp only at h
      split at h
      · cases h
      · rw [hroots] at hcommon
        have hfold : paths.foldl
            (fun result p => result.set p.index (p.start ++ guestPath windows p.absolute root)) args =
            (named args).foldl (fun result a => result.set a.index (a.start ++ guestPath windows
              (a.absolute lower windows args (normalizePath windows cwd)) root)) args := by
          rw [hpaths, List.foldl_map]
          rfl
        split at h
        · next hgains =>
          obtain rfl := Except.ok.inj h
          refine ⟨hcommon, rfl, _, rfl, fun _ => by rw [← hfold], fun hnot => ?_⟩
          exact absurd ((gains_iff hpaths).mp hgains) hnot
        · next hgains =>
          obtain rfl := Except.ok.inj h
          refine ⟨hcommon, rfl, _, rfl, fun hyes => ?_, fun _ => hfold⟩
          exact absurd ((gains_iff hpaths).mpr hyes) hgains

/-- A translation names every path it was given, when the drives of the current directory and of
the named files are read as they were formatted. -/
theorem translatePaths_faithful {args : List Str} {cwd : Str} {t : Translation}
    (hcwd : isAbsolute windows cwd = true)
    (hcwdDrive : windows = true → Settled true (normalizePath true cwd))
    (hfiles : windows = true → ∀ a ∈ named args, a.directory = false →
      Settled true (a.absolute lower true args (normalizePath true cwd)))
    (h : translatePaths lower windows args cwd none = .ok t) :
    Faithful lower windows args (normalizePath windows cwd) t := by
  obtain ⟨hcommon, hguest, result, hresult, hgains, hkeeps⟩ := translatePaths_steps h
  have hargs : t.args = result ∨ t.args = spliceOptions result [text "--src-prefix=" ++ t.guestCwd] :=
    (em' _).imp hkeeps hgains
  have hsettled : Settled windows (normalizePath windows cwd) := by
    cases windows with
    | true => exact hcwdDrive rfl
    | false => exact settled_normalize hcwd
  have hfile : ∀ a ∈ named args, a.directory = false →
      Settled windows (a.absolute lower windows args (normalizePath windows cwd)) := by
    cases windows with
    | true => exact hfiles rfl
    | false => exact fun a _ _ => settled_normalize (joinPath_absolute hsettled.absolute)
  obtain ⟨hkept, hrooted⟩ := hsettled.kept
  obtain ⟨hdeepest, length, -, hroot, -⟩ := commonPath_spec hsettled hcommon
  dsimp only at hroot
  rw [hrooted] at hroot
  have hproper : ∀ p ∈ (parsePath windows (normalizePath windows cwd)).parts.take length,
      Proper windows p := fun p hp => parsePath_proper hrooted p (List.mem_of_mem_take hp)
  have hnames : ∀ path, isWithin lower windows path t.root = true →
      Names lower windows t.root (guestPath windows path t.root) path := fun path hpath =>
    guestPath_names hkept hproper hroot hpath
  have hindexed := compilerPathArguments_indexed args
  obtain ⟨hlength, hset, hothers⟩ := foldl_set (·.index)
    (fun a : PathArgument => a.start ++
      guestPath windows (a.absolute lower windows args (normalizePath windows cwd)) t.root)
    (hindexed.ordered.filter fun a => a.value args != []) args
  refine ⟨hdeepest, ?_, result, ⟨?_, fun a ha => ⟨?_, guestPath windows
    (a.absolute lower windows args (normalizePath windows cwd)) t.root, ?_, ?_⟩, ?_⟩, hargs⟩
  · rw [hguest]
    exact hnames _ (hdeepest.within _ List.mem_cons_self)
  · rw [hresult]
    exact hlength
  · obtain ⟨-, hstart, hlt⟩ := hindexed.starts a (List.mem_of_mem_filter ha)
    rw [Nat.zero_add] at hlt
    have hget : args.getD a.index [] = args[a.index] := by
      rw [List.getD_eq_getElem?_getD, List.getElem?_eq_getElem hlt, Option.getD_some]
    rw [Nat.sub_zero, hget] at hstart
    rw [List.getElem?_eq_getElem hlt, PathArgument.value, hget,
      List.prefix_iff_eq_append.mp hstart]
  · rw [hresult]
    refine hset a ha ?_
    have hlt := (hindexed.starts a (List.mem_of_mem_filter ha)).2.2
    rwa [Nat.zero_add] at hlt
  · refine hnames _ ?_
    have hwithin := hdeepest.within _ (List.mem_cons_of_mem _
      (List.mem_map_of_mem (f := (·.needs lower windows args (normalizePath windows cwd))) ha))
    dsimp only [PathArgument.needs] at hwithin
    split at hwithin
    · exact hwithin
    · next hdirectory =>
      exact isWithin_directoryOf (hfile a ha (Bool.not_eq_true _ ▸ hdirectory)) hwithin
  · rw [hresult]
    exact hothers

/-- The lower case of an ASCII string. -/
def lowerAscii (s : Str) : Str := s.map fun u => if 65 ≤ u ∧ u ≤ 90 then u + 32 else u

theorem translatePaths_faithful_windows :
    Faithful lowerAscii true [text "compile", text "..\\lib/s.capnp"] (text "C:\\work\\a")
      ⟨text "C:\\work", text "/a",
        [text "compile", text "/lib/s.capnp", text "--src-prefix=/a"]⟩ := by
  have hnormal : normalizePath true (text "C:\\work\\a") = text "C:\\work\\a" := by decide +kernel
  have hnamed : named [text "compile", text "..\\lib/s.capnp"] = [⟨1, [], false⟩] := by
    decide +kernel
  rw [← hnormal]
  refine translatePaths_faithful (by decide +kernel)
    (fun _ => ⟨by decide +kernel, by decide +kernel⟩) (fun _ a ha _ => ?_) (by decide +kernel)
  rw [hnamed] at ha
  obtain rfl := List.mem_singleton.mp ha
  exact ⟨by decide +kernel, by decide +kernel⟩

/-- A verbatim start below another one is stripped again when the normalized path is read, and
the root no longer holds the current directory. -/
theorem translatePaths_verbatim_unfaithful :
    ¬ ∀ (args : List Str) (cwd : Str) (t : Translation), isAbsolute true cwd = true →
      translatePaths lowerAscii true args cwd none = .ok t →
      Faithful lowerAscii true args (normalizePath true cwd) t := by
  intro h
  have hfaithful := h [] (text "\\\\?\\UNC\\?\\UNC\\?\\UNC\\a\\b")
    ⟨text "\\\\?\\UNC\\a\\b", text "/a/b", []⟩ (by decide +kernel) (by decide +kernel)
  exact absurd hfaithful.guestCwd.same.drive (by decide +kernel)

end Launcher
