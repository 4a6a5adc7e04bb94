import CapnpcWasm.Launcher.Directories
import Mathlib.Data.List.TakeWhile

/-!
# Normalized paths

Reading a normalized path gives what reading the path gave, unless the path is still verbatim
after reading has stripped it and turned its slashes into backslashes.  On such paths everything
that compares paths agrees with their normalized forms.
-/

namespace Launcher

/-- A path that is verbatim again once it has been stripped and written with backslashes: a start
written with slashes, or a start after a start. -/
def verbatimAgain (path : Str) : Bool :=
  stripped (withBackslashes (stripVerbatim path) ++ [backslash])

section

variable (lower : Str → Str) (windows : Bool)

/-- A path and its normalized form mean the same. -/
structure SameMeaning (path : Str) : Prop where
  parsed : parsePath windows (normalizePath windows path) = parsePath windows path
  idempotent : normalizePath windows (normalizePath windows path) = normalizePath windows path
  absolute : isAbsolute windows (normalizePath windows path) = isAbsolute windows path
  within : ∀ other, isWithin lower windows (normalizePath windows path) other =
    isWithin lower windows path other
  contains : ∀ other, isWithin lower windows other (normalizePath windows path) =
    isWithin lower windows other path
  common : ∀ before after, commonPath lower windows (before ++ normalizePath windows path :: after) =
    commonPath lower windows (before ++ path :: after)
  guest : ∀ root, guestPath windows (normalizePath windows path) root = guestPath windows path root
  guestRoot : ∀ other, guestPath windows other (normalizePath windows path) =
    guestPath windows other path

end

variable {lower : Str → Str} {windows : Bool}

/-! ## What a drive is read off -/

theorem dropWhile_part (value : Str) :
    value.dropWhile isPart = [] ∨ ∃ more, value.dropWhile isPart = backslash :: more := by
  cases hdrop : value.dropWhile isPart with
  | nil => exact .inl rfl
  | cons u more =>
      have hne : value.dropWhile isPart ≠ [] := by
        rw [hdrop]
        exact List.cons_ne_nil _ _
      have hnot := List.head_dropWhile_not isPart hne
      simp only [hdrop, List.head_cons, isPart, bne_eq_false_iff_eq] at hnot
      exact .inr ⟨more, by rw [hnot]⟩

theorem uncDrive_append {value drive rest : Str} (h : uncDrive value = some (drive, rest)) :
    drive ++ rest = value ∧ (rest = [] ∨ ∃ more, rest = backslash :: more) := by
  rw [uncDrive.eq_def] at h
  split at h
  · next value =>
    split at h
    · cases h
    · next u others hothers =>
      have hvalue := List.takeWhile_append_dropWhile (p := isPart) (l := value)
      have hrest := List.takeWhile_append_dropWhile (p := isPart) (l := others)
      obtain rfl : u = backslash := by
        rcases dropWhile_part value with hnil | ⟨more, hmore⟩
        · rw [hnil] at hothers
          cases hothers
        · rw [hmore] at hothers
          exact (List.cons.inj hothers).1.symm
      split at h
      · obtain ⟨rfl, rfl⟩ := Prod.mk.inj (Option.some.inj h)
        refine ⟨?_, dropWhile_part others⟩
        conv_rhs => rw [← hvalue, hothers, ← hrest]
        simp [backslash]
      · cases h
  · cases h

/-- A drive and the rest of an absolute path are the path as reading leaves it. -/
theorem splitDrive_value {path : Str} (h : isAbsolute true path = true) :
    (splitDrive true path).1 ++ (splitDrive true path).2 = withBackslashes (stripVerbatim path) ∧
      ((splitDrive true path).2 = [] ∨ ∃ more, (splitDrive true path).2 = backslash :: more) := by
  rw [isAbsolute, parsePath] at h
  rw [splitDrive, if_pos rfl] at h ⊢
  dsimp only at h ⊢
  generalize withBackslashes (stripVerbatim path) = value at h ⊢
  cases hunc : uncDrive value with
  | some found => exact uncDrive_append hunc
  | none =>
      rw [hunc] at h
      dsimp only at h ⊢
      split
      · next hdrive =>
        rw [if_pos hdrive] at h
        refine ⟨List.take_append_drop 2 value, ?_⟩
        have hletter : startsWith (value.take 2) [backslash, backslash] = false := by
          rw [startsWithDrive.eq_def] at hdrive
          split at hdrive
          · next letter colon more =>
            rw [Bool.and_eq_true, beq_iff_eq] at hdrive
            obtain ⟨-, rfl⟩ := hdrive
            simp [startsWith, backslash]
          · cases hdrive
        rw [if_pos rfl, hletter, Bool.false_or, Bool.and_eq_true] at h
        cases hrest : value.drop 2 with
        | nil => exact .inl rfl
        | cons u more =>
            have hstart := h.1
            rw [hrest] at hstart
            simp only [startsWith, List.length_singleton, List.take_succ_cons, List.take_zero,
              beq_iff_eq, List.cons.injEq, and_true] at hstart
            exact .inr ⟨more, by rw [hstart]⟩
      · next hdrive =>
        rw [if_neg hdrive] at h
        simp at h

/-- What is asked of a path is asked of its drive. -/
theorem verbatimAgain_eq {path : Str} (h : isAbsolute true path = true) :
    verbatimAgain path = stripped ((parsePath true path).drive ++ [backslash]) := by
  obtain ⟨hvalue, hrest⟩ := splitDrive_value h
  have hdrive : (splitDrive true path).1 ≠ [] := by
    rw [isAbsolute, Bool.and_eq_true] at h
    exact bne_iff_ne.mp h.2
  have hshape := (splitDrive_shape path).1.resolve_left hdrive
  show verbatimAgain path = stripped ((splitDrive true path).1 ++ [backslash])
  rw [verbatimAgain, ← hvalue]
  rcases hrest with hnil | ⟨more, hmore⟩
  · rw [hnil, List.append_nil]
  · rw [hmore, List.append_assoc, List.cons_append]
    exact stripped_append hshape _

/-- An absolute path that is not verbatim again is settled. -/
theorem settled_iff {path : Str} (h : isAbsolute windows path = true)  :
    Settled windows path ↔ (windows = true → verbatimAgain path = false) := by
  cases windows with
  | true =>
      rw [verbatimAgain_eq h]
      exact ⟨fun hsettled _ => hsettled.plain, fun hplain => ⟨h, hplain rfl⟩⟩
  | false => exact iff_of_true (settled_posix h) nofun

theorem Settled.parsePath_normalize {path : Str} (h : Settled windows path) :
    parsePath windows (normalizePath windows path) = parsePath windows path := by
  obtain ⟨-, hrooted⟩ := h.kept
  have htake := h.parsePath_take (parsePath windows path).parts.length
  rw [List.take_length, ← hrooted] at htake
  exact htake

/-! ## Reading a verbatim drive again -/

theorem upper_backslash {u : UInt16} (h : upper u = 92) : u = 92 := by
  rw [upper] at h
  split at h
  · next hlower =>
    have hnext : u = 124 := by
      rw [← UInt16.sub_add_cancel u 32, h]
      rfl
    rw [hnext] at hlower
    exact absurd hlower.2 (by decide)
  · exact h

/-- A server that is verbatim is a question mark. -/
theorem verbatim_server {server rest : Str} (hserver : server ≠ [])
    (hparts : ∀ u ∈ server, isPart u = true)
    (h : startsWith (92 :: 92 :: server ++ rest) verbatim = true) : server = [63] := by
  rcases server with _ | ⟨s, _ | ⟨s', server⟩⟩
  · exact absurd rfl hserver
  · simp only [startsWith, verbatim, List.cons_append, List.nil_append, List.length_cons,
      List.length_nil, List.take_succ_cons, beq_iff_eq, List.cons.injEq, true_and] at h
    rw [h.1]
  · have hpart := hparts s' (by simp)
    simp only [startsWith, verbatim, List.cons_append, List.length_cons, List.length_nil,
      List.take_succ_cons, beq_iff_eq, List.cons.injEq, true_and] at h
    rw [h.2.1] at hpart
    cases hpart

/-- A drive that is verbatim: of a share that stands for UNC paths, or one that starts like a
drive. -/
theorem verbatim_drive {drive : Str} (h : DriveShape drive)
    (hstripped : stripped (drive ++ [backslash]) = true) :
    (∃ a b c, drive = verbatim ++ [a, b, c] ∧ [a, b, c].map upper = [85, 78, 67]) ∨
      ∃ u more, drive = verbatim ++ u :: 58 :: more ∧ isLetter u = true := by
  cases h with
  | letter hu => simp [stripped, startsWith, verbatim] at hstripped
  | @unc server share hserver hshare hserverParts hshareParts =>
      rw [stripped, Bool.and_eq_true, Bool.or_eq_true, beq_iff_eq, text_unc] at hstripped
      obtain ⟨hstart, hrest⟩ := hstripped
      rw [List.append_assoc] at hstart
      obtain rfl := verbatim_server hserver hserverParts hstart
      have hdrop : (92 :: 92 :: [63] ++ 92 :: share ++ [backslash]).drop 4 = share ++ [backslash] := rfl
      rw [hdrop] at hrest
      rcases hrest with hunc | hdrive
      · left
        rcases share with _ | ⟨a, _ | ⟨b, _ | ⟨c, _ | ⟨e, share⟩⟩⟩⟩
        · exact absurd rfl hshare
        · simp [backslash, upper] at hunc
        · simp [backslash, upper] at hunc
        · exact ⟨a, b, c, rfl, by simpa [backslash, upper] using hunc⟩
        · have hpart := hshareParts e (by simp)
          simp only [List.cons_append, List.take_succ_cons, List.take_zero, List.map_cons,
            List.map_nil, List.cons.injEq] at hunc
          rw [upper_backslash hunc.2.2.2.1] at hpart
          cases hpart
      · right
        rcases share with _ | ⟨u, _ | ⟨v, more⟩⟩
        · cases hdrive
        · rw [List.singleton_append, startsWithDrive, Bool.and_eq_true] at hdrive
          cases hdrive.2
        · rw [List.cons_append, List.cons_append, startsWithDrive, Bool.and_eq_true,
            beq_iff_eq] at hdrive
          obtain ⟨hu, rfl⟩ := hdrive
          exact ⟨u, more, rfl, hu⟩

/-- A UNC drive is read off two parts. -/
theorem uncDrive_parts {server share rest : Str} (hserver : server ≠ []) (hshare : share ≠ [])
    (hserverParts : ∀ u ∈ server, isPart u = true) (hshareParts : ∀ u ∈ share, isPart u = true)
    (hrest : rest = [] ∨ ∃ more, rest = backslash :: more) :
    uncDrive (92 :: 92 :: (server ++ backslash :: (share ++ rest))) =
      some (92 :: 92 :: server ++ 92 :: share, rest) := by
  obtain ⟨htake, hdrop⟩ := takeWhile_part hserverParts (share ++ rest)
  have hshare' : (share ++ rest).takeWhile isPart = share ∧ (share ++ rest).dropWhile isPart = rest := by
    rcases hrest with rfl | ⟨more, rfl⟩
    · rw [List.append_nil]
      exact ⟨List.takeWhile_eq_self_iff.mpr hshareParts, List.dropWhile_eq_nil_iff.mpr hshareParts⟩
    · exact takeWhile_part hshareParts more
  rw [uncDrive, htake, hdrop]
  dsimp only
  rw [hshare'.1, hshare'.2, if_pos ⟨hserver, hshare⟩]
  rfl

theorem Proper.parts {part : Str} (h : Proper true part) : ∀ u ∈ part, isPart u = true := by
  intro u hu
  rw [isPart, bne_iff_ne]
  rintro rfl
  exact h.separator hu

theorem join_two (p q : Str) (parts : List Str) :
    ∃ tail, join backslash (p :: q :: parts) = p ++ backslash :: (q ++ tail) ∧
      (tail = [] ∧ parts = [] ∨ tail = backslash :: join backslash parts) := by
  cases parts with
  | nil => exact ⟨[], by simp [join], .inl ⟨rfl, rfl⟩⟩
  | cons r parts => exact ⟨backslash :: join backslash (r :: parts), by simp [join], .inr rfl⟩

/-- What reading takes for the drive of a stripped UNC path, it takes from the parts. -/
theorem splitDrive_parts {path : Str} {parts : List Str} (hparts : ∀ p ∈ parts, Proper true p)
    (h : withBackslashes (stripVerbatim path) = 92 :: 92 :: join backslash parts) :
    (splitDrive true path).1 = [] ∨
      (parsePath true path).parts.length + 2 = parts.length := by
  rcases parts with _ | ⟨p, _ | ⟨q, parts⟩⟩
  · left
    rw [splitDrive, if_pos rfl, h]
    rfl
  · left
    obtain ⟨hp, -⟩ := List.forall_mem_cons.mp hparts
    have hdrop : p.dropWhile isPart = [] := List.dropWhile_eq_nil_iff.mpr hp.parts
    have hunc : uncDrive (92 :: 92 :: p) = none := by
      rw [uncDrive.eq_def]
      simp only [hdrop]
    rw [splitDrive, if_pos rfl, h, join, List.intercalate_singleton]
    dsimp only
    rw [hunc]
    rfl
  · right
    obtain ⟨hp, hothers⟩ := List.forall_mem_cons.mp hparts
    obtain ⟨hq, hrest⟩ := List.forall_mem_cons.mp hothers
    obtain ⟨tail, hjoin, htail⟩ := join_two p q parts
    have hread : splitDrive true path = (92 :: 92 :: p ++ 92 :: q, tail) := by
      rw [splitDrive, if_pos rfl, h, hjoin]
      dsimp only
      rw [uncDrive_parts hp.nonempty hq.nonempty hp.parts hq.parts
        (htail.imp And.left fun hmore => ⟨_, hmore⟩)]
    have hrooted : startsWith (92 :: 92 :: p ++ 92 :: q) [backslash, backslash] = true := by
      simp [startsWith, backslash]
    have hparsed : (parsePath true path).parts = parts := by
      rw [parsePath, hread]
      dsimp only
      rw [if_pos rfl, hrooted, Bool.true_or]
      rcases htail with ⟨rfl, rfl⟩ | rfl
      · rfl
      · have hempty : addPart true [] [] = [] := rfl
        have hsplit : (backslash :: join backslash parts).splitOn (separator true) =
            [] :: (join backslash parts).splitOn backslash := by
          rw [separator, if_pos rfl, List.splitOn_cons_eq_if_modifyHead,
            if_pos (beq_self_eq_true backslash)]
        rw [hsplit, List.foldl_cons, hempty]
        exact (foldl_join hrest).trans (List.nil_append parts)
    rw [hparsed]
    rfl

/-- A letter is read as a drive. -/
theorem splitDrive_letter {path rest : Str} {u : UInt16} (hu : isLetter u = true)
    (h : stripVerbatim path = u :: 58 :: rest) : (splitDrive true path).1 = [u, 58] := by
  have hne : u ≠ slash ∧ u ≠ 92 := by
    constructor
    · rintro rfl
      cases hu
    · rintro rfl
      cases hu
  have hvalue : withBackslashes (stripVerbatim path) = u :: 58 :: withBackslashes rest := by
    rw [h]
    show (if u = slash then backslash else u) :: 58 :: withBackslashes rest = _
    rw [if_neg hne.1]
  have hunc : uncDrive (u :: 58 :: withBackslashes rest) = none := by
    rw [uncDrive.eq_def]
    split
    · next heq => exact absurd (List.cons.inj heq).1 hne.2
    · rfl
  rw [splitDrive, if_pos rfl, hvalue]
  dsimp only
  rw [hunc]
  dsimp only
  rw [if_pos (by simp [startsWithDrive, hu])]
  rfl

/-- A verbatim drive is not read again as it was. -/
theorem parsePath_verbatim {drive : Str} {parts : List Str} (hdrive : DriveShape drive)
    (hparts : ∀ p ∈ parts, Proper true p) (h : stripped (drive ++ [backslash]) = true) :
    parsePath true (formatPath true ⟨drive, true, parts⟩) ≠ ⟨drive, true, parts⟩ := by
  have hjoin : withBackslashes (join backslash parts) = join backslash parts :=
    @withSeparators_join true _ _ (.inr rfl) hparts
  rw [formatPath_rooted]
  show parsePath true (drive ++ backslash :: join backslash parts) ≠ _
  intro heq
  have hread : (splitDrive true (drive ++ backslash :: join backslash parts)).1 = drive :=
    congrArg ParsedPath.drive heq
  rcases verbatim_drive hdrive h with ⟨a, b, c, rfl, hunc⟩ | ⟨u, more, rfl, hu⟩
  · -- The drive is stripped down to the two backslashes before the parts.
    have hstrip : stripVerbatim (verbatim ++ [a, b, c] ++ backslash :: join backslash parts) =
        92 :: 92 :: join backslash parts := by
      rw [stripVerbatim, if_pos]
      · rfl
      · rw [text_unc]
        simp only [List.map_cons, List.map_nil, List.cons.injEq, and_true] at hunc
        have hbackslash : upper 92 = 92 := by decide
        simp [startsWith, verbatim, backslash, hunc, hbackslash]
    have hvalue : withBackslashes (stripVerbatim (verbatim ++ [a, b, c] ++
        backslash :: join backslash parts)) = 92 :: 92 :: join backslash parts := by
      rw [hstrip]
      show 92 :: 92 :: withBackslashes (join backslash parts) = _
      rw [hjoin]
    rcases splitDrive_parts hparts hvalue with hnil | hlength
    · rw [hnil] at hread
      cases hread
    · rw [heq] at hlength
      dsimp only at hlength
      omega
  · -- The drive is stripped down to its letter.
    have hstrip : stripVerbatim (verbatim ++ u :: 58 :: more ++ backslash :: join backslash parts) =
        u :: 58 :: (more ++ backslash :: join backslash parts) := by
      rw [stripVerbatim, if_neg, if_pos]
      · rfl
      · simp [startsWith, verbatim, startsWithDrive, hu]
      · rw [text_unc]
        simp [startsWith, verbatim, upper]
    rw [splitDrive_letter hu hstrip] at hread
    have hlength := congrArg List.length hread
    simp [verbatim] at hlength

/-! ## What normalizing preserves -/

/-- Whatever reads a path by its parts answers the same for what is read the same. -/
theorem sameMeaning_of_parsed {path : Str}
    (h : parsePath windows (normalizePath windows path) = parsePath windows path) :
    SameMeaning lower windows path where
  parsed := h
  idempotent := by rw [normalizePath, h, normalizePath]
  absolute := by rw [isAbsolute, h, isAbsolute]
  within other := by rw [isWithin, h, isWithin]
  contains other := by rw [isWithin, h, isWithin]
  common before after := by
    rw [commonPath, commonPath, List.map_append, List.map_append, List.map_cons, List.map_cons, h]
  guest root := by rw [guestPath, h, guestPath]
  guestRoot other := by rw [guestPath, h, guestPath]

/-- An absolute path means what its normalized form means, unless it is a Windows path that is
verbatim again once it has been stripped and written with backslashes. -/
theorem normalizePath_meaning_iff (lower : Str → Str) (windows : Bool) (path : Str)
    (h : isAbsolute windows path = true) :
    SameMeaning lower windows path ↔ (windows = true → verbatimAgain path = false) := by
  constructor
  · rintro hsame rfl
    have hrooted : (parsePath true path).rooted = true := (Bool.and_eq_true _ _ ▸ h).1
    have hdrive : (parsePath true path).drive ≠ [] := by
      rw [isAbsolute, Bool.and_eq_true] at h
      exact bne_iff_ne.mp h.2
    by_contra hagain
    rw [Bool.not_eq_false, verbatimAgain_eq h] at hagain
    have hparts := parsePath_proper hrooted
    have hparsed := hsame.parsed
    rw [normalizePath] at hparsed
    have hshape := (splitDrive_shape path).1.resolve_left hdrive
    change DriveShape (parsePath true path).drive at hshape
    generalize parsePath true path = parsed at hrooted hparts hshape hagain hparsed
    obtain ⟨drive, rooted, parts⟩ := parsed
    obtain rfl : rooted = true := hrooted
    exact parsePath_verbatim hshape hparts hagain hparsed
  · exact fun hplain => sameMeaning_of_parsed ((settled_iff h).mpr hplain).parsePath_normalize

/-- A path below the share of a server keeps its meaning. -/
theorem normalizePath_meaning_unc : isAbsolute true (text "\\\\srv/share\\a/../b") = true ∧
    SameMeaning id true (text "\\\\srv/share\\a/../b") :=
  ⟨by decide +kernel, (normalizePath_meaning_iff id true (text "\\\\srv/share\\a/../b")
    (by decide +kernel)).mpr fun _ => by decide +kernel⟩

/-- A verbatim start written with slashes is kept as a share, and stripped from the normalized
form: `//?/C:/x` becomes `\\?\C:\x`, which is below `C:`. -/
theorem normalizePath_slashes : isAbsolute true (text "//?/C:/x") = true ∧
    parsePath true (normalizePath true (text "//?/C:/x")) ≠ parsePath true (text "//?/C:/x") := by
  decide +kernel

/-! ## The common directory of normalized paths -/

theorem settled_of_fixed {path : Str} (h : isAbsolute windows path = true)
    (hfixed : normalizePath windows path = path) : Settled windows path := by
  have hsame : SameMeaning id windows path := sameMeaning_of_parsed (by rw [hfixed])
  exact (settled_iff h).mpr ((normalizePath_meaning_iff id windows path h).mp hsame)

theorem isWithin_refl (path : Str) : isWithin lower windows path path = true :=
  isWithin_iff.mpr ⟨rfl, rfl, List.prefix_rfl⟩

theorem isWithin_trans {path directory root : Str}
    (h : isWithin lower windows path directory = true)
    (h' : isWithin lower windows directory root = true) : isWithin lower windows path root = true := by
  obtain ⟨hdrive, hrooted, hstart⟩ := isWithin_iff.mp h
  obtain ⟨hdrive', hrooted', hstart'⟩ := isWithin_iff.mp h'
  exact isWithin_iff.mpr ⟨hdrive.trans hdrive', hrooted.trans hrooted', hstart'.trans hstart⟩

theorem isWithin_antisymm {path other : Str} (h : isWithin lower windows path other = true)
    (h' : isWithin lower windows other path = true) :
    SamePath lower windows (parsePath windows path) (parsePath windows other) := by
  obtain ⟨hdrive, hrooted, hstart⟩ := isWithin_iff.mp h
  obtain ⟨-, -, hstart'⟩ := isWithin_iff.mp h'
  exact ⟨hdrive, hrooted, hstart'.eq_of_length_le hstart.length_le⟩

/-- The loop stops at a path of another volume, and only there. -/
theorem shareWith_none {first : ParsedPath} {others : List ParsedPath} {start : Nat} :
    others.foldlM (shareWith lower windows first) start = none ↔
      ∃ other ∈ others, samePart lower windows other.drive first.drive = false ∨
        other.rooted ≠ first.rooted := by
  induction others generalizing start with
  | nil => exact iff_of_false nofun nofun
  | cons other others ih =>
      rw [List.foldlM_cons, List.exists_mem_cons_iff]
      by_cases hother : samePart lower windows other.drive first.drive = false ∨
          other.rooted ≠ first.rooted
      · have hshare : shareWith lower windows first start other = none := by
          rw [shareWith, if_pos]
          simpa using hother
        rw [hshare]
        exact iff_of_true rfl (.inl hother)
      · have hshare : shareWith lower windows first start other =
            some (sharedLength lower windows (first.parts.take start) other.parts) := by
          rw [shareWith, if_neg]
          simpa using hother
        rw [hshare, or_iff_right hother]
        exact ih

/-- There is no common directory across volumes, and one on every volume. -/
theorem commonPath_none {paths : List Str} (hne : paths ≠ [])
    (habsolute : ∀ path ∈ paths, isAbsolute windows path = true) :
    commonPath lower windows paths = none ↔ ∃ path ∈ paths, ∃ other ∈ paths,
      samePart lower windows (parsePath windows path).drive (parsePath windows other).drive = false := by
  obtain ⟨first, others, rfl⟩ := List.exists_cons_of_ne_nil hne
  have hrooted : ∀ path ∈ first :: others, (parsePath windows path).rooted = true := by
    intro path hpath
    have hpath := habsolute path hpath
    rw [isAbsolute, Bool.and_eq_true] at hpath
    exact hpath.1
  rw [commonPath_cons, Option.map_eq_none_iff, shareWith_none]
  constructor
  · rintro ⟨other, hother, hdiffers⟩
    obtain ⟨path, hpath, rfl⟩ := List.mem_map.mp hother
    refine ⟨path, hpath, first, List.mem_cons_self, hdiffers.resolve_right fun hne => hne ?_⟩
    rw [hrooted path hpath, hrooted first List.mem_cons_self]
  · rintro ⟨path, hpath, other, hother, hdiffers⟩
    -- One of the two is not on the volume of the first path.
    by_contra hall
    have hfirst : ∀ path ∈ first :: others, key lower windows (parsePath windows path).drive =
        key lower windows (parsePath windows first).drive := by
      intro path hpath
      by_contra hkey
      exact hall ⟨_, List.mem_map_of_mem hpath, .inl (Bool.eq_false_iff.mpr fun hsame =>
        hkey (samePart_iff.mp hsame))⟩
    refine Bool.eq_false_iff.mp hdiffers (samePart_iff.mpr ?_)
    rw [hfirst path hpath, hfirst other hother]

/-- The common directory of settled paths does not depend on their order, up to case. -/
theorem commonPath_perm {paths others : List Str} {root root' : Str}
    (hsettled : ∀ path ∈ paths, Settled windows path) (hperm : others.Perm paths)
    (h : commonPath lower windows paths = some root)
    (h' : commonPath lower windows others = some root') :
    SamePath lower windows (parsePath windows root) (parsePath windows root') := by
  have hdeepest : ∀ {listed : List Str} {found : Str}, (∀ path ∈ listed, Settled windows path) →
      commonPath lower windows listed = some found → Deepest lower windows listed found := by
    intro listed found hall hfound
    cases listed with
    | nil => cases hfound
    | cons path listed => exact (commonPath_spec (hall path List.mem_cons_self) hfound).1
  have hfirst := hdeepest hsettled h
  have hsecond := hdeepest (fun path hpath => hsettled path (hperm.mem_iff.mp hpath)) h'
  exact isWithin_antisymm
    (hfirst.deepest root' fun path hpath => hsecond.within path (hperm.mem_iff.mpr hpath))
    (hsecond.deepest root fun path hpath => hfirst.within path (hperm.mem_iff.mp hpath))

/-- The common directory of absolute paths in normal form is their greatest lower bound. -/
theorem commonPath_greatest (lower : Str → Str) (windows : Bool) (paths : List Str)
    (hne : paths ≠ []) (habsolute : ∀ path ∈ paths, isAbsolute windows path = true)
    (hfixed : ∀ path ∈ paths, normalizePath windows path = path) :
    (commonPath lower windows paths = none ↔ ∃ path ∈ paths, ∃ other ∈ paths,
      samePart lower windows (parsePath windows path).drive
        (parsePath windows other).drive = false) ∧
    (∀ root, commonPath lower windows paths = some root →
      (∀ path ∈ paths, isWithin lower windows path root = true) ∧
      ∀ directory, isAbsolute windows directory = true →
        (∀ path ∈ paths, isWithin lower windows path directory = true) →
        isWithin lower windows root directory = true) ∧
    (∀ others, others.Perm paths →
      (commonPath lower windows others = none ↔ commonPath lower windows paths = none) ∧
      ∀ root root', commonPath lower windows paths = some root →
        commonPath lower windows others = some root' →
        SamePath lower windows (parsePath windows root) (parsePath windows root')) ∧
    (∀ path, isWithin lower windows path path = true) ∧
    (∀ path directory root, isWithin lower windows path directory = true →
      isWithin lower windows directory root = true → isWithin lower windows path root = true) ∧
    (∀ path other, isWithin lower windows path other = true →
      isWithin lower windows other path = true →
      SamePath lower windows (parsePath windows path) (parsePath windows other)) := by
  have hsettled : ∀ path ∈ paths, Settled windows path := fun path hpath =>
    settled_of_fixed (habsolute path hpath) (hfixed path hpath)
  refine ⟨commonPath_none hne habsolute, fun root hroot => ?_, fun others hperm => ⟨?_, ?_⟩,
    isWithin_refl, fun _ _ _ => isWithin_trans, fun _ _ => isWithin_antisymm⟩
  · obtain ⟨path, more, rfl⟩ := List.exists_cons_of_ne_nil hne
    have hdeepest := (commonPath_spec (hsettled path List.mem_cons_self) hroot).1
    exact ⟨hdeepest.within, fun directory _ => hdeepest.deepest directory⟩
  · have hothers : others ≠ [] := fun hnil => hne (hnil ▸ hperm).nil_eq.symm
    rw [commonPath_none hne habsolute, commonPath_none hothers fun path hpath =>
      habsolute path (hperm.mem_iff.mp hpath)]
    simp only [hperm.mem_iff]
  · exact fun root root' hroot hroot' => commonPath_perm hsettled hperm hroot hroot'

/-- Two paths of one drive. -/
theorem commonPath_greatest_drive :
    commonPath id true [text "C:\\a\\b", text "C:\\a\\c"] = some (text "C:\\a") ∧
    ∀ directory, isAbsolute true directory = true →
      (∀ path ∈ [text "C:\\a\\b", text "C:\\a\\c"], isWithin id true path directory = true) →
      isWithin id true (text "C:\\a") directory = true := by
  have habsolute : ∀ path ∈ [text "C:\\a\\b", text "C:\\a\\c"],
      isAbsolute true path = true := by decide +kernel
  have hfixed : ∀ path ∈ [text "C:\\a\\b", text "C:\\a\\c"],
      normalizePath true path = path := by decide +kernel
  have hcommon : commonPath id true [text "C:\\a\\b", text "C:\\a\\c"] = some (text "C:\\a") := by
    decide +kernel
  exact ⟨hcommon, ((commonPath_greatest id true _ (List.cons_ne_nil _ _) habsolute
    hfixed).2.1 _ hcommon).2⟩

end Launcher
