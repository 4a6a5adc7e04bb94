import CapnpcWasm.Lib.Outcome
import Mathlib.Data.List.DropRight

/-!
# Guest paths

A Go string is its bytes.  `guestPath` resolves the path a guest passes inside one
mount, and its results are the root `.` or canonical names: relative, and without
empty, `.` or `..` components, backslashes or NUL bytes.  `dir` and `base` are the
`path` functions of the Go library.
-/

namespace MemoryFs

/-- A path or a name, as its bytes. -/
abbrev Name := List UInt8

def slash : UInt8 := 47
def backslash : UInt8 := 92
def dot : Name := [46]
def dotdot : Name := [46, 46]

/-- `strings.Split(name, "/")`. -/
def split (name : Name) : List Name := name.splitOn slash

/-- `strings.Join(parts, "/")`. -/
def join (parts : List Name) : Name := [slash].intercalate parts

/-- The errors of the mount. -/
inductive Errno where
  | EBADF
  | EEXIST
  | EINVAL
  | EISDIR
  | ENAMETOOLONG
  | ENOENT
  | ENOSYS
  | ENOTDIR
  | EPERM
  | ERANGE
  | EROFS
deriving DecidableEq, Repr

/-! ## Resolution -/

/-- One component of a guest path, on the components resolved so far. -/
def pushPart (parts : List Name) (part : Name) : Except Errno (List Name) :=
  if part = [] ∨ part = dot then .ok parts
  else if part = dotdot then
    if parts = [] then .error .EPERM else .ok parts.dropLast
  else .ok (parts ++ [part])

/-- The bytes no path may hold: `strings.ContainsAny(name, "\\\x00")`. -/
def forbidden (name : Name) : Bool := name.any fun b => b == backslash || b == 0

/-- Resolves dot components and redundant separators inside the mount and rejects
attempts to ascend above its root. -/
def guestPath (name : Name) (maximum : Int) : Except Errno Name :=
  if maximum < name.length then .error .ENAMETOOLONG
  else if forbidden name then .error .EPERM
  else
    match (split name).foldlM pushPart [] with
    | .error e => .error e
    | .ok parts => .ok (if parts = [] then dot else join parts)

/-! ## The `path` package -/

/-- One component of `path.Clean`.  A rooted path has nothing above its root. -/
def cleanPart (rooted : Bool) (parts : List Name) (part : Name) : List Name :=
  if part = [] ∨ part = dot then parts
  else if part = dotdot then
    if parts = [] ∨ parts.getLast? = some dotdot then
      if rooted then parts else parts ++ [dotdot]
    else parts.dropLast
  else parts ++ [part]

/-- `path.Clean`. -/
def clean (name : Name) : Name :=
  let rooted := name.head? = some slash
  let parts := (split name).foldl (cleanPart rooted) []
  if rooted then slash :: join parts
  else if parts = [] then dot
  else join parts

/-- `path.Dir`: what stands up to the last slash, cleaned. -/
def dir (name : Name) : Name := clean (join ((split name).dropLast ++ [[]]))

/-- `path.Base`: the last component, trailing slashes aside. -/
def base (name : Name) : Name :=
  if name = [] then dot
  else
    match (split (name.rdropWhile (· == slash))).getLast? with
    | some [] | none => [slash]
    | some part => part

/-! ## Canonical names -/

/-- A component of a canonical name. -/
def Plain (part : Name) : Prop := part ≠ [] ∧ part ≠ dot ∧ part ≠ dotdot

instance : DecidablePred Plain := fun _ => inferInstanceAs (Decidable (_ ∧ _ ∧ _))

/-- A canonical relative path. -/
structure Canonical (name : Name) : Prop where
  allowed : forbidden name = false
  plain : ∀ part ∈ split name, Plain part

instance : DecidablePred Canonical := fun name =>
  decidable_of_iff (forbidden name = false ∧ ∀ part ∈ split name, Plain part)
    ⟨fun h => ⟨h.1, h.2⟩, fun h => ⟨h.1, h.2⟩⟩

section

variable {name part : Name} {parts : List Name}

/-- Splitting loses nothing. -/
theorem join_split (name : Name) : join (split name) = name := List.intercalate_splitOn slash

/-- Joining loses nothing, where no part has a slash. -/
theorem split_join (hne : parts ≠ []) (h : ∀ part ∈ parts, slash ∉ part) :
    split (join parts) = parts := List.splitOn_intercalate slash h hne

/-- A component holds bytes of the name, and no slash. -/
theorem of_mem_split (h : part ∈ split name) : slash ∉ part ∧ ∀ b ∈ part, b ∈ name := by
  induction name generalizing part with
  | nil =>
      rw [split, List.splitOn_nil, List.mem_singleton] at h
      subst h
      exact ⟨List.not_mem_nil, fun b hb => hb⟩
  | cons c name ih =>
      rw [split, List.splitOn_cons_eq_if_modifyHead] at h
      split at h
      · rcases List.mem_cons.mp h with rfl | h
        · exact ⟨List.not_mem_nil, fun b hb => by cases hb⟩
        · obtain ⟨hs, hb⟩ := ih h
          exact ⟨hs, fun b hm => List.mem_cons_of_mem c (hb b hm)⟩
      · next hc =>
        obtain ⟨first, rest, hsplit⟩ := List.exists_cons_of_ne_nil (List.splitOn_ne_nil slash name)
        rw [hsplit, List.modifyHead_cons] at h
        rcases List.mem_cons.mp h with rfl | h
        · have hfirst : first ∈ split name := by
            rw [split, hsplit]
            exact List.mem_cons_self
          obtain ⟨hs, hb⟩ := ih hfirst
          refine ⟨?_, ?_⟩
          · intro hm
            rcases List.mem_cons.mp hm with rfl | hm
            · exact hc (beq_self_eq_true slash)
            · exact hs hm
          · intro b hm
            rcases List.mem_cons.mp hm with rfl | hm
            · exact List.mem_cons_self
            · exact List.mem_cons_of_mem c (hb b hm)
        · have hrest : part ∈ split name := by
            rw [split, hsplit]
            exact List.mem_cons_of_mem first h
          obtain ⟨hs, hb⟩ := ih hrest
          exact ⟨hs, fun b hm => List.mem_cons_of_mem c (hb b hm)⟩

theorem mem_join {b : UInt8} (h : b ∈ join parts) : b = slash ∨ ∃ part ∈ parts, b ∈ part := by
  induction parts with
  | nil => cases h
  | cons part parts ih =>
      cases parts with
      | nil => exact .inr ⟨part, List.mem_cons_self, by simpa [join] using h⟩
      | cons next parts =>
          rw [join, List.intercalate_cons_cons, List.append_assoc] at h
          rcases List.mem_append.mp h with h | h
          · exact .inr ⟨part, List.mem_cons_self, h⟩
          · rcases List.mem_append.mp h with h | h
            · exact .inl (List.mem_singleton.mp h)
            · rcases ih h with h | ⟨p, hp, hb⟩
              · exact .inl h
              · exact .inr ⟨p, List.mem_cons_of_mem part hp, hb⟩

/-- A name with neither a backslash nor NUL. -/
theorem not_forbidden : forbidden name = false ↔ ∀ b ∈ name, b ≠ backslash ∧ b ≠ 0 := by
  simp [forbidden]

/-- Components that may stand in a canonical name. -/
def Fit (parts : List Name) : Prop :=
  ∀ part ∈ parts, Plain part ∧ slash ∉ part ∧ forbidden part = false

/-- The parts of a canonical name can be joined again. -/
theorem Canonical.fit (h : Canonical name) : Fit (split name) := by
  intro part hp
  obtain ⟨hs, hb⟩ := of_mem_split hp
  refine ⟨h.plain part hp, hs, not_forbidden.mpr fun b hm => ?_⟩
  exact not_forbidden.mp h.allowed b (hb b hm)

/-- What fitting parts join to is canonical. -/
theorem Fit.canonical (h : Fit parts) (hne : parts ≠ []) : Canonical (join parts) where
  allowed := by
    refine not_forbidden.mpr fun b hb => ?_
    rcases mem_join hb with rfl | ⟨part, hp, hm⟩
    · decide
    · exact not_forbidden.mp (h part hp).2.2 b hm
  plain := by
    rw [split_join hne fun part hp => (h part hp).2.1]
    exact fun part hp => (h part hp).1

/-- A parent is one as well. -/
theorem Fit.dropLast (h : Fit parts) : Fit parts.dropLast :=
  fun part hp => h part (List.dropLast_subset parts hp)

/-- A part is pushed, skipped, or takes one back. -/
theorem Fit.push {parts' : List Name} (h : Fit parts) (hs : slash ∉ part)
    (hf : forbidden part = false) (hp : pushPart parts part = .ok parts') : Fit parts' := by
  unfold pushPart at hp
  split at hp
  · cases hp
    exact h
  · next hdot =>
    split at hp
    · split at hp
      · cases hp
      · cases hp
        exact h.dropLast
    · next hdd =>
      cases hp
      intro p hm
      rcases List.mem_append.mp hm with hm | hm
      · exact h p hm
      · rw [List.mem_singleton.mp hm]
        exact ⟨⟨fun he => hdot (.inl he), fun he => hdot (.inr he), hdd⟩, hs, hf⟩

/-- All parts of a path. -/
theorem Fit.foldlM {parts' : List Name} {rest : List Name} (h : Fit parts)
    (hr : ∀ part ∈ rest, slash ∉ part ∧ forbidden part = false)
    (hp : rest.foldlM pushPart parts = .ok parts') : Fit parts' := by
  induction rest generalizing parts with
  | nil =>
      cases hp
      exact h
  | cons part rest ih =>
      rw [List.foldlM_cons] at hp
      cases hq : pushPart parts part with
      | error e =>
          rw [hq] at hp
          cases hp
      | ok next =>
          rw [hq] at hp
          obtain ⟨hs, hf⟩ := hr part List.mem_cons_self
          exact ih (h.push hs hf hq) (fun p hm => hr p (List.mem_cons_of_mem part hm)) hp

/-- A resolved path is the root or canonical. -/
theorem guestPath_ok {maximum : Int} {r : Name} (h : guestPath name maximum = .ok r) :
    r = dot ∨ Canonical r := by
  unfold guestPath at h
  split at h
  · cases h
  · split at h
    · cases h
    · next hf =>
      split at h
      · cases h
      · next parts hp =>
        have hfit : Fit parts := by
          refine Fit.foldlM (fun p hm => by cases hm) (fun part hm => ?_) hp
          obtain ⟨hs, hb⟩ := of_mem_split hm
          refine ⟨hs, not_forbidden.mpr fun b hm => ?_⟩
          exact not_forbidden.mp (Bool.eq_false_iff.mpr hf) b (hb b hm)
        cases h
        split
        · exact .inl rfl
        · next hne => exact .inr (hfit.canonical hne)

/-- A `..` at the root is refused. -/
theorem pushPart_error {e : Errno} (h : pushPart parts part = .error e) : e = .EPERM := by
  unfold pushPart at h
  split at h
  · cases h
  · split at h
    · split at h
      · cases h
        rfl
      · cases h
    · cases h

/-- A path is refused only for a `..` at the root. -/
theorem foldlM_pushPart_error {e : Errno} {rest : List Name}
    (h : rest.foldlM pushPart parts = .error e) : e = .EPERM := by
  induction rest generalizing parts with
  | nil => cases h
  | cons part rest ih =>
      rw [List.foldlM_cons] at h
      cases hq : pushPart parts part with
      | error e' =>
          rw [hq] at h
          cases h
          exact pushPart_error hq
      | ok next =>
          rw [hq] at h
          exact ih h

/-- A path that is not resolved is longer than the maximum or not permitted. -/
theorem guestPath_error {maximum : Int} {e : Errno} (h : guestPath name maximum = .error e) :
    (e = .ENAMETOOLONG ∧ maximum < name.length) ∨ (e = .EPERM ∧ ¬maximum < name.length) := by
  unfold guestPath at h
  split at h
  · next hlen =>
    cases h
    exact .inl ⟨rfl, hlen⟩
  · next hlen =>
    split at h
    · cases h
      exact .inr ⟨rfl, hlen⟩
    · split at h
      · next hp =>
        cases h
        exact .inr ⟨foldlM_pushPart_error hp, hlen⟩
      · cases h

end

end MemoryFs
