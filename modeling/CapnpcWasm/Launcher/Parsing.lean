import CapnpcWasm.Launcher.Arguments

/-!
# Reading a formatted path

A path that starts at its root is read as its drive and proper parts, and formatting it and
reading it again gives it back, unless its drive is itself a verbatim start that reading
strips again.
-/

namespace Launcher

variable {windows : Bool}

/-! ## Drives -/

/-- Stripping changes the path. -/
def stripped (path : Str) : Bool :=
  startsWith path verbatim &&
    (((path.drop 4).take 4).map upper == text "UNC\\" || startsWithDrive (path.drop 4))

theorem stripVerbatim_of_not (h : stripped path = false) : stripVerbatim path = path := by
  rw [stripped, Bool.and_eq_false_iff] at h
  rw [stripVerbatim]
  rcases h with h | h
  · rw [h]
    rfl
  · rw [Bool.or_eq_false_iff] at h
    rw [h.1, h.2, Bool.and_false]
    rfl

/-- The server and the share of a UNC path, or a letter. -/
inductive DriveShape : Str → Prop where
  | letter {u : UInt16} : isLetter u = true → DriveShape [u, 58]
  | unc {server share : Str} : server ≠ [] → share ≠ [] → (∀ u ∈ server, isPart u = true) →
      (∀ u ∈ share, isPart u = true) → slash ∉ server → slash ∉ share →
      DriveShape (92 :: 92 :: server ++ 92 :: share)

theorem text_unc : text "UNC\\" = [85, 78, 67, 92] := by decide +kernel

/-- Whether more follows a drive plays no part in its being verbatim. -/
theorem stripped_append {drive : Str} (h : DriveShape drive) (rest : Str) :
    stripped (drive ++ backslash :: rest) = stripped (drive ++ [backslash]) := by
  cases h with
  | letter hu => simp [stripped, startsWith, verbatim]
  | @unc server share hserver hshare hserverParts hshareParts =>
      rcases server with _ | ⟨s, _ | ⟨s', server⟩⟩
      · exact absurd rfl hserver
      · -- Only a server of one character can be the question mark.
        rcases share with _ | ⟨a, _ | ⟨b, _ | ⟨c, _ | ⟨e, share⟩⟩⟩⟩
        · exact absurd rfl hshare
        · simp [stripped, startsWith, verbatim, text_unc, startsWithDrive, backslash, upper]
        · simp [stripped, startsWith, verbatim, text_unc, startsWithDrive, backslash, upper]
        · simp [stripped, startsWith, verbatim, text_unc, startsWithDrive, backslash, upper]
        · simp [stripped, startsWith, verbatim, text_unc, startsWithDrive, backslash, upper]
      · have hs' : (s' == 92) = false := by
          have hpart := hserverParts s' (by simp)
          simpa [isPart, backslash] using hpart
        simp [stripped, startsWith, verbatim, hs']

theorem slash_notMem (path : Str) : slash ∉ withBackslashes path := by
  intro hmem
  obtain ⟨u, -, hu⟩ := List.mem_map.mp hmem
  split at hu
  · cases hu
  · next hne => exact hne hu

theorem withBackslashes_eq {path : Str} (h : slash ∉ path) : withBackslashes path = path := by
  rw [withBackslashes]
  conv_rhs => rw [← List.map_id path]
  refine List.map_congr_left fun u hu => ?_
  rw [if_neg (by rintro rfl; exact h hu)]
  rfl

theorem withBackslashes_append (s t : Str) :
    withBackslashes (s ++ t) = withBackslashes s ++ withBackslashes t := List.map_append

/-- What is before the rest of a UNC path is a drive. -/
theorem uncDrive_some {value drive rest : Str} (hslash : slash ∉ value)
    (h : uncDrive value = some (drive, rest)) : DriveShape drive ∧ slash ∉ rest := by
  rw [uncDrive.eq_def] at h
  split at h
  · next value =>
    have hvalue : slash ∉ value := fun hmem => hslash (by simp [hmem])
    split at h
    · cases h
    · next u rest' hrest =>
      have hrest' : ∀ v ∈ rest', v ∈ value := fun v hv =>
        (List.dropWhile_suffix isPart).mem (by rw [hrest]; exact List.mem_cons_of_mem _ hv)
      split at h
      · next hne =>
        cases h
        refine ⟨.unc hne.1 hne.2 (fun v hv => List.all_eq_true.mp List.all_takeWhile v hv)
          (fun v hv => List.all_eq_true.mp List.all_takeWhile v hv)
          (fun hmem => hvalue ((List.takeWhile_prefix isPart).mem hmem))
          (fun hmem => hvalue (hrest' _ ((List.takeWhile_prefix isPart).mem hmem))), ?_⟩
        exact fun hmem => hvalue (hrest' _ ((List.dropWhile_suffix isPart).mem hmem))
      · cases h
  · cases h

/-- A drive is empty, a letter, or a server with a share. -/
theorem splitDrive_shape (path : Str) :
    ((splitDrive true path).1 = [] ∨ DriveShape (splitDrive true path).1) ∧
      slash ∉ (splitDrive true path).2 := by
  have hslash := slash_notMem (stripVerbatim path)
  rw [splitDrive, if_pos rfl]
  dsimp only
  generalize withBackslashes (stripVerbatim path) = value at hslash
  split
  · next drive rest h =>
    obtain ⟨hshape, hrest⟩ := uncDrive_some hslash h
    exact ⟨.inr hshape, hrest⟩
  · split
    · next hdrive =>
      rw [startsWithDrive.eq_def] at hdrive
      split at hdrive
      · next letter colon rest _ =>
        rw [Bool.and_eq_true] at hdrive
        obtain rfl : colon = 58 := by simpa using hdrive.2
        exact ⟨.inr (.letter hdrive.1), fun hmem => hslash (by simp_all)⟩
      · cases hdrive
    · exact ⟨.inl rfl, hslash⟩

theorem takeWhile_part {part : Str} (h : ∀ u ∈ part, isPart u = true) (rest : Str) :
    (part ++ backslash :: rest).takeWhile isPart = part ∧
      (part ++ backslash :: rest).dropWhile isPart = backslash :: rest := by
  rw [List.takeWhile_append_of_pos h, List.dropWhile_append_of_pos h]
  exact ⟨by simp [isPart], by simp [isPart]⟩

/-- A drive that is not verbatim is read off the path it starts. -/
theorem splitDrive_append {drive : Str} (h : DriveShape drive)
    (hkept : stripped (drive ++ [backslash]) = false) (rest : Str) :
    splitDrive true (drive ++ backslash :: rest) = (drive, backslash :: withBackslashes rest) := by
  have hstrip : stripVerbatim (drive ++ backslash :: rest) = drive ++ backslash :: rest :=
    stripVerbatim_of_not (by rw [stripped_append h, hkept])
  have hrest : withBackslashes (backslash :: rest) = backslash :: withBackslashes rest := rfl
  rw [splitDrive, if_pos rfl, hstrip, withBackslashes_append, hrest]
  dsimp only
  cases h with
  | @letter u hu =>
      have hne : u ≠ slash ∧ u ≠ 92 := by
        constructor
        · rintro rfl
          cases hu
        · rintro rfl
          cases hu
      have hdrive : withBackslashes [u, 58] = [u, 58] :=
        withBackslashes_eq (by simp [hne.1.symm, (by decide : slash ≠ 58)])
      have hunc : uncDrive ([u, 58] ++ backslash :: withBackslashes rest) = none := by
        rw [uncDrive.eq_def]
        split
        · next heq => exact absurd (List.cons.inj heq).1 hne.2
        · rfl
      rw [hdrive, hunc]
      dsimp only
      rw [if_pos (by simp [startsWithDrive, hu])]
      rfl
  | @unc server share hserver hshare hserverParts hshareParts hserverSlash hshareSlash =>
      have hdrive : withBackslashes (92 :: 92 :: server ++ 92 :: share) =
          92 :: 92 :: server ++ 92 :: share :=
        withBackslashes_eq (by simp [hserverSlash, hshareSlash, (by decide : slash ≠ 92)])
      have hsplit : 92 :: 92 :: server ++ 92 :: share ++ backslash :: withBackslashes rest =
          92 :: 92 :: (server ++ backslash :: (share ++ backslash :: withBackslashes rest)) := by
        simp [backslash]
      obtain ⟨htake, hdrop⟩ :=
        takeWhile_part hserverParts (share ++ backslash :: withBackslashes rest)
      obtain ⟨htake', hdrop'⟩ := takeWhile_part hshareParts (withBackslashes rest)
      rw [hdrive, hsplit, uncDrive, htake, hdrop]
      dsimp only
      rw [htake', hdrop', if_pos ⟨hserver, hshare⟩]
      rfl

/-! ## Parts -/

/-- A part of a path that starts at its root. -/
structure Proper (windows : Bool) (part : Str) : Prop where
  nonempty : part ≠ []
  ne_dot : part ≠ dot
  ne_dotdot : part ≠ dotdot
  separator : separator windows ∉ part
  slash : slash ∉ part

variable {parts others : List Str} {rooted : Bool}

theorem addPart_proper (hparts : ∀ p ∈ parts, Proper windows p) {part : Str}
    (hseparator : separator windows ∉ part) (hslash : slash ∉ part) :
    ∀ p ∈ addPart true parts part, Proper windows p := by
  rw [addPart]
  split
  · exact hparts
  · next hne =>
    obtain ⟨hnonempty, hdot⟩ := not_or.mp hne
    split
    · split
      · exact fun p hp => hparts p ((List.dropLast_prefix parts).mem hp)
      · split
        · next hroot => cases hroot
        · exact hparts
    · next hdotdot =>
      intro p hp
      rcases List.mem_append.mp hp with hp | hp
      · exact hparts p hp
      · rw [List.mem_singleton.mp hp]
        exact ⟨hnonempty, hdot, hdotdot, hseparator, hslash⟩

theorem foldl_proper {pieces : List Str} (hparts : ∀ p ∈ parts, Proper windows p)
    (hpieces : ∀ p ∈ pieces, separator windows ∉ p ∧ slash ∉ p) :
    ∀ p ∈ pieces.foldl (addPart true) parts, Proper windows p := by
  induction pieces generalizing parts with
  | nil => exact hparts
  | cons piece pieces ih =>
      obtain ⟨hpiece, hrest⟩ := List.forall_mem_cons.mp hpieces
      exact ih (addPart_proper hparts hpiece.1 hpiece.2) hrest

/-- Proper parts are added as they are. -/
theorem foldl_addPart (h : ∀ p ∈ others, Proper windows p) :
    others.foldl (addPart rooted) parts = parts ++ others := by
  induction others generalizing parts with
  | nil => exact (List.append_nil parts).symm
  | cons part others ih =>
      obtain ⟨hpart, hrest⟩ := List.forall_mem_cons.mp h
      have hadd : addPart rooted parts part = parts ++ [part] := by
        rw [addPart, if_neg (not_or.mpr ⟨hpart.nonempty, hpart.ne_dot⟩), if_neg hpart.ne_dotdot]
      rw [List.foldl_cons, hadd, ih hrest, List.append_assoc]
      rfl

theorem foldl_join (h : ∀ p ∈ others, Proper windows p) :
    ((join (separator windows) others).splitOn (separator windows)).foldl (addPart rooted) parts =
      parts ++ others := by
  rcases others with _ | ⟨part, others⟩
  · change addPart rooted parts [] = parts ++ []
    rw [addPart, if_pos (.inl rfl), List.append_nil]
  · rw [join, List.splitOn_intercalate _ (fun p hp => (h p hp).separator) (by simp)]
    exact foldl_addPart h

/-! ## Paths that start at their root -/

/-- A drive that reading gives back. -/
def Kept (windows : Bool) (drive : Str) : Prop :=
  if windows then DriveShape drive ∧ stripped (drive ++ [backslash]) = false else drive = []

/-- A string with the separators of its flavour. -/
def withSeparators (windows : Bool) (s : Str) : Str := if windows then withBackslashes s else s

theorem withSeparators_append (s t : Str) :
    withSeparators windows (s ++ t) = withSeparators windows s ++ withSeparators windows t := by
  cases windows with
  | true => exact withBackslashes_append s t
  | false => rfl

theorem withSeparators_slash (s : Str) :
    withSeparators windows (slash :: s) = separator windows :: withSeparators windows s := by
  cases windows with
  | true => rfl
  | false => rfl

theorem withSeparators_eq {s : Str} (h : slash ∉ s) : withSeparators windows s = s := by
  cases windows with
  | true => exact withBackslashes_eq h
  | false => rfl

theorem withSeparators_separator (s : Str) :
    withSeparators windows (separator windows :: s) =
      separator windows :: withSeparators windows s := by
  cases windows with
  | true => rfl
  | false => rfl

/-- Joined parts, with the separators of the flavour for whichever they were joined by. -/
theorem withSeparators_join {joint : UInt16} (hjoint : joint = slash ∨ joint = separator windows)
    (h : ∀ p ∈ others, Proper windows p) :
    withSeparators windows (join joint others) = join (separator windows) others := by
  induction others with
  | nil =>
      cases windows with
      | true => rfl
      | false => rfl
  | cons part others ih =>
      obtain ⟨hpart, hrest⟩ := List.forall_mem_cons.mp h
      rcases others with _ | ⟨other, others⟩
      · rw [join, join, List.intercalate_singleton, List.intercalate_singleton]
        exact withSeparators_eq hpart.slash
      · have hcons : ∀ u, join u (part :: other :: others) =
            part ++ u :: join u (other :: others) := fun u => by
          rw [join, List.intercalate_cons_cons, List.append_assoc]
          rfl
        have hone : ∀ s, withSeparators windows (joint :: s) =
            separator windows :: withSeparators windows s := by
          intro s
          rcases hjoint with rfl | rfl
          · exact withSeparators_slash s
          · exact withSeparators_separator s
        rw [hcons, hcons, withSeparators_append, withSeparators_eq hpart.slash, hone, ih hrest]

theorem splitDrive_kept {drive : Str} (h : Kept windows drive) (rest : Str) :
    splitDrive windows (drive ++ separator windows :: rest) =
      (drive, separator windows :: withSeparators windows rest) := by
  cases windows with
  | true => exact splitDrive_append h.1 h.2 rest
  | false =>
      obtain rfl : drive = [] := h
      rfl

theorem parsePath_kept {drive : Str} (h : Kept windows drive) (rest : Str) :
    parsePath windows (drive ++ separator windows :: rest) =
      ⟨drive, true, ((withSeparators windows rest).splitOn (separator windows)).foldl
        (addPart true) []⟩ := by
  have hempty : addPart true [] [] = [] := rfl
  have hsplit : (separator windows :: withSeparators windows rest).splitOn (separator windows) =
      [] :: (withSeparators windows rest).splitOn (separator windows) := by
    rw [List.splitOn_cons_eq_if_modifyHead, if_pos (beq_self_eq_true _)]
  have hrooted : (if windows then
      startsWith drive [backslash, backslash] ||
        startsWith (separator windows :: withSeparators windows rest) [backslash]
      else startsWith (separator windows :: withSeparators windows rest) [slash]) = true := by
    cases windows with
    | true => simp [startsWith, separator]
    | false => simp [startsWith, separator]
  rw [parsePath, splitDrive_kept h]
  dsimp only
  rw [hrooted, hsplit, List.foldl_cons, hempty]

theorem formatPath_rooted (drive : Str) (parts : List Str) :
    formatPath windows ⟨drive, true, parts⟩ =
      drive ++ separator windows :: join (separator windows) parts := by
  rw [formatPath]
  dsimp only
  rw [if_pos rfl, if_neg (by simp), List.append_assoc]
  rfl

/-- Reading a formatted path gives it back. -/
theorem parsePath_formatPath {drive : Str} (hdrive : Kept windows drive)
    (hparts : ∀ p ∈ parts, Proper windows p) :
    parsePath windows (formatPath windows ⟨drive, true, parts⟩) = ⟨drive, true, parts⟩ := by
  rw [formatPath_rooted, parsePath_kept hdrive, withSeparators_join (.inr rfl) hparts,
    foldl_join hparts, List.nil_append]

/-- A guest path below a formatted path adds its parts. -/
theorem parsePath_extend {drive : Str} (hdrive : Kept windows drive)
    (hparts : ∀ p ∈ parts, Proper windows p) (hothers : ∀ p ∈ others, Proper windows p) :
    parsePath windows (formatPath windows ⟨drive, true, parts⟩ ++ slash :: join slash others) =
      ⟨drive, true, parts ++ others⟩ := by
  rw [formatPath_rooted, List.append_assoc, List.cons_append, parsePath_kept hdrive,
    withSeparators_append, withSeparators_join (.inr rfl) hparts, withSeparators_slash,
    withSeparators_join (.inl rfl) hothers, List.splitOn_append_cons_self, List.foldl_append,
    foldl_join hparts, foldl_join hothers, List.nil_append]

/-- The parts of a path that starts at its root are proper. -/
theorem parsePath_proper {path : Str} (h : (parsePath windows path).rooted = true) :
    ∀ p ∈ (parsePath windows path).parts, Proper windows p := by
  rw [parsePath] at h ⊢
  dsimp only at h ⊢
  rw [h]
  refine foldl_proper (fun p hp => by cases hp) fun p hp => ?_
  obtain ⟨hseparator, hall⟩ := Text.mem_splitOn hp
  refine ⟨hseparator, fun hslash => ?_⟩
  cases windows with
  | true => exact (splitDrive_shape path).2 (hall _ hslash)
  | false => exact hseparator hslash

end Launcher
