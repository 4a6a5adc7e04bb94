import CapnpcWasm.GoSdk.Validate
import CapnpcWasm.Lib.Checks
import CapnpcWasm.MemoryFs.Staged

/-!
# Resolved guest paths

`guestPath` is the lexical canonicalization of `path.Clean` for the paths that stay inside their
mount, and every path a request may name is its own canonical form.
-/

namespace MemoryFs

/-- A component that names something. -/
def ordinary (part : Name) : Bool := decide (Plain part)

/-- Some components, from the left, go up more often than down. -/
def Ascends (parts : List Name) : Prop :=
  ∃ before, before <+: parts ∧ before.countP ordinary < before.count dotdot

/-- `path.Clean` of a path taken relative to the root of the mount. -/
def cleanInside (name : Name) : Name :=
  if (clean (slash :: name)).tail = [] then dot else (clean (slash :: name)).tail

section

variable {name : Name} {parts parts' rest : List Name} {maximum : Int}

/-! ## The component stack -/

theorem pushPart_ok (h : ∀ part ∈ parts, Plain part) {part : Name}
    (hpush : pushPart parts part = .ok parts') :
    (∀ part ∈ parts', Plain part) ∧ cleanPart true parts part = parts' ∧
      parts'.length + [part].count dotdot = parts.length + [part].countP ordinary := by
  rw [pushPart] at hpush
  rw [cleanPart]
  split at hpush
  · next hdot =>
    obtain rfl := Except.ok.inj hpush
    refine ⟨h, if_pos hdot, ?_⟩
    rcases hdot with rfl | rfl
    · rfl
    · rfl
  · next hdot =>
    rw [if_neg hdot]
    obtain ⟨hempty, hone⟩ := not_or.mp hdot
    split at hpush
    · next hdotdot =>
      split at hpush
      · cases hpush
      · next hne =>
        obtain rfl := Except.ok.inj hpush
        have hlast : parts.getLast? ≠ some dotdot := fun hlast =>
          (h _ (List.mem_of_getLast? hlast)).2.2 rfl
        refine ⟨fun p hp => h p (List.dropLast_subset parts hp), ?_, ?_⟩
        · rw [if_pos hdotdot, if_neg (not_or.mpr ⟨hne, hlast⟩)]
        · have hpos := List.length_pos_iff.mpr hne
          have hcount : [part].count dotdot = 1 ∧ [part].countP ordinary = 0 := by
            rw [hdotdot]
            exact ⟨rfl, rfl⟩
          rw [List.length_dropLast, hcount.1, hcount.2]
          omega
    · next hdotdot =>
      obtain rfl := Except.ok.inj hpush
      have hplain : Plain part := ⟨hempty, hone, hdotdot⟩
      refine ⟨fun p hp => ?_, if_neg hdotdot, ?_⟩
      · rcases List.mem_append.mp hp with hp | hp
        · exact h p hp
        · rw [List.mem_singleton.mp hp]
          exact hplain
      · rw [List.count_singleton, List.countP_singleton, ordinary, decide_eq_true hplain,
          if_neg (by simpa using hdotdot), List.length_append]
        rfl

/-- A component is refused when it goes up from the root of the mount. -/
theorem pushPart_refused {part : Name} (hparts : parts = []) (hpart : part = dotdot) :
    pushPart parts part = .error .EPERM := by
  rw [hparts, hpart]
  rfl

theorem pushPart_accepted {part : Name} (h : parts ≠ [] ∨ part ≠ dotdot) :
    ∃ parts', pushPart parts part = .ok parts' := by
  rw [pushPart]
  split
  · exact ⟨_, rfl⟩
  · split
    · next hdotdot =>
      exact ⟨_, if_neg (h.resolve_right fun hne => hne hdotdot)⟩
    · exact ⟨_, rfl⟩

/-- What components take up in a path, each with a slash. -/
def room (parts : List Name) : Nat := (parts.map (·.length + 1)).sum

theorem room_append (parts rest : List Name) : room (parts ++ rest) = room parts + room rest := by
  rw [room, List.map_append, List.sum_append]
  rfl

theorem room_join (hne : parts ≠ []) : (join parts).length + 1 = room parts := by
  induction parts with
  | nil => exact absurd rfl hne
  | cons part parts ih =>
      cases parts with
      | nil => simp [join, room]
      | cons next parts =>
          have hrest := ih (List.cons_ne_nil next parts)
          have hcons : room (part :: next :: parts) = part.length + 1 + room (next :: parts) :=
            List.sum_cons
          rw [join] at hrest
          rw [join, List.intercalate_cons_cons, List.length_append, List.length_append, hcons]
          simp only [List.length_singleton]
          omega

theorem pushPart_room {part : Name} (hpush : pushPart parts part = .ok parts') :
    room parts' ≤ room parts + room [part] := by
  rw [pushPart] at hpush
  split at hpush
  · obtain rfl := Except.ok.inj hpush
    exact Nat.le_add_right _ _
  · split at hpush
    · split at hpush
      · cases hpush
      · next hne =>
        obtain rfl := Except.ok.inj hpush
        have hsplit := congrArg room (List.dropLast_append_getLast hne)
        rw [room_append] at hsplit
        omega
    · obtain rfl := Except.ok.inj hpush
      exact (room_append _ _).le

theorem foldlM_pushPart_room (hok : rest.foldlM pushPart parts = .ok parts') :
    room parts' ≤ room parts + room rest := by
  induction rest generalizing parts with
  | nil =>
      obtain rfl := Except.ok.inj hok
      exact Nat.le_add_right _ _
  | cons part rest ih =>
      obtain ⟨next, hpush, hrest⟩ := Checks.bind_ok hok
      have hone := pushPart_room hpush
      have hmore := ih hrest
      have hcons : room (part :: rest) = room [part] + room rest := room_append [part] rest
      omega

/-- Resolved components stay on the stack, and the stack is that of `path.Clean`. -/
theorem foldlM_pushPart_ok (h : ∀ part ∈ parts, Plain part)
    (hok : rest.foldlM pushPart parts = .ok parts') :
    (∀ part ∈ parts', Plain part) ∧ rest.foldl (cleanPart true) parts = parts' := by
  induction rest generalizing parts with
  | nil =>
      obtain rfl := Except.ok.inj hok
      exact ⟨h, rfl⟩
  | cons part rest ih =>
      obtain ⟨next, hpush, hrest⟩ := Checks.bind_ok hok
      obtain ⟨hnext, hclean, -⟩ := pushPart_ok h hpush
      rw [List.foldl_cons, hclean]
      exact ih hnext hrest

/-- The components resolve exactly when no start of them goes up more often than the stack allows. -/
theorem foldlM_pushPart_iff (h : ∀ part ∈ parts, Plain part) :
    (∃ parts', rest.foldlM pushPart parts = .ok parts') ↔
      ∀ before, before <+: rest → before.count dotdot ≤ parts.length + before.countP ordinary := by
  induction rest generalizing parts with
  | nil =>
      refine iff_of_true ⟨parts, rfl⟩ fun before hbefore => ?_
      rw [List.prefix_nil.mp hbefore]
      exact Nat.zero_le _
  | cons part rest ih =>
      rw [List.foldlM_cons]
      by_cases hroot : parts = [] ∧ part = dotdot
      · rw [pushPart_refused hroot.1 hroot.2]
        refine iff_of_false nofun fun hall => ?_
        have hone := hall [part] (by simp)
        rw [hroot.1, hroot.2] at hone
        exact absurd hone (by decide)
      · obtain ⟨next, hpush⟩ := pushPart_accepted (not_and_or.mp hroot)
        obtain ⟨hnext, -, hlength⟩ := pushPart_ok h hpush
        rw [hpush]
        refine (ih hnext).trans ⟨fun hall before hbefore => ?_, fun hall before hbefore => ?_⟩
        · rcases List.prefix_cons_iff.mp hbefore with rfl | ⟨later, rfl, hlater⟩
          · exact Nat.zero_le _
          · have hle := hall later hlater
            rw [← List.singleton_append, List.count_append, List.countP_append]
            omega
        · have hle := hall (part :: before) (List.cons_prefix_cons.mpr ⟨rfl, hbefore⟩)
          rw [← List.singleton_append, List.count_append, List.countP_append] at hle
          omega

/-! ## Paths -/

theorem forbidden_slash (name other : Name) :
    forbidden (name ++ slash :: other) = (forbidden name || forbidden other) := by
  have hslash : (slash == backslash || slash == 0) = false := by decide
  rw [forbidden, List.any_append, List.any_cons, hslash, Bool.false_or]
  rfl

/-- A path with its components resolved. -/
def named (parts : List Name) : Name := if parts = [] then dot else join parts

theorem guestPath_eq_ok {r : Name} : guestPath name maximum = .ok r ↔
    name.length ≤ maximum ∧ forbidden name = false ∧
      ∃ parts, (split name).foldlM pushPart [] = .ok parts ∧ r = named parts := by
  rw [guestPath]
  split
  · next hlong => exact iff_of_false Checks.error_ne_ok fun hall => absurd hall.1 (Int.not_le.mpr hlong)
  · next hlength =>
    rw [and_iff_right (Int.not_lt.mp hlength)]
    split
    · next hforbidden =>
      exact iff_of_false Checks.error_ne_ok fun hall => absurd (hall.1.symm.trans hforbidden) Bool.false_ne_true
    · next hallowed =>
      rw [and_iff_right (Bool.eq_false_iff.mpr hallowed)]
      cases hparts : (split name).foldlM pushPart [] with
      | error e =>
          refine iff_of_false Checks.error_ne_ok ?_
          rintro ⟨_, hfound, -⟩
          cases hfound
      | ok parts =>
          constructor
          · intro h
            exact ⟨parts, rfl, (Except.ok.inj h).symm⟩
          · rintro ⟨_, hfound, rfl⟩
            rw [Except.ok.inj hfound]
            rfl

theorem fit_of_resolved (hallowed : forbidden name = false)
    (h : (split name).foldlM pushPart [] = .ok parts) : Fit parts := by
  refine Fit.foldlM (fun p hp => absurd hp List.not_mem_nil) (fun part hpart => ?_) h
  obtain ⟨hslash, hbytes⟩ := of_mem_split hpart
  exact ⟨hslash, not_forbidden.mpr fun b hb => not_forbidden.mp hallowed b (hbytes b hb)⟩

theorem Fit.resolves (h : Fit rest) : rest.foldlM pushPart parts = .ok (parts ++ rest) := by
  induction rest generalizing parts with
  | nil =>
      rw [List.append_nil]
      rfl
  | cons part rest ih =>
      obtain ⟨⟨hplain, -⟩, hrest⟩ := List.forall_mem_cons.mp h
      have hpush : pushPart parts part = .ok (parts ++ [part]) := by
        rw [pushPart, if_neg (not_or.mpr ⟨hplain.1, hplain.2.1⟩), if_neg hplain.2.2]
      rw [List.foldlM_cons, hpush, List.append_cons parts part rest]
      exact ih hrest

/-- A resolved path has the components it was resolved to. -/
theorem Fit.resolves_named (h : Fit parts) :
    forbidden (named parts) = false ∧ (split (named parts)).foldlM pushPart [] = .ok parts := by
  by_cases hne : parts = []
  · rw [hne]
    exact ⟨rfl, rfl⟩
  · rw [named, if_neg hne, split_join hne fun part hpart => (h part hpart).2.1]
    exact ⟨(h.canonical hne).allowed, h.resolves⟩

/-- A path is resolved when it is short enough, has no forbidden byte, and never leaves the mount. -/
theorem guestPath_succeeds (name : Name) (maximum : Int) :
    (∃ r, guestPath name maximum = .ok r) ↔
      name.length ≤ maximum ∧ forbidden name = false ∧ ¬Ascends (split name) := by
  have hresolves := @foldlM_pushPart_iff [] (split name)
    fun part hpart => absurd hpart List.not_mem_nil
  simp only [guestPath_eq_ok, exists_and_left]
  refine and_congr_right fun _ => and_congr_right fun _ => ?_
  rw [Ascends]
  push Not
  constructor
  · rintro ⟨r, parts, hparts, -⟩ before hbefore
    have hle := hresolves.mp ⟨parts, hparts⟩ before hbefore
    rwa [List.length_nil, Nat.zero_add] at hle
  · intro hall
    obtain ⟨parts, hparts⟩ := hresolves.mpr fun before hbefore => by
      rw [List.length_nil, Nat.zero_add]
      exact hall before hbefore
    exact ⟨_, parts, hparts, rfl⟩

/-- A resolved path is the cleaned one. -/
theorem guestPath_clean {r : Name} (h : guestPath name maximum = .ok r) : r = cleanInside name := by
  obtain ⟨-, hallowed, parts, hparts, rfl⟩ := guestPath_eq_ok.mp h
  have hfit := fit_of_resolved hallowed hparts
  obtain ⟨-, hclean⟩ := foldlM_pushPart_ok (fun part hpart => absurd hpart List.not_mem_nil) hparts
  have hsplit : split (slash :: name) = [] :: split name := by
    rw [split, List.splitOn_cons_eq_if_modifyHead, if_pos (beq_self_eq_true slash)]
    rfl
  have hrooted : clean (slash :: name) = slash :: join parts := by
    rw [clean, List.head?_cons, decide_eq_true rfl, if_pos rfl, hsplit, List.foldl_cons]
    exact congrArg (fun parts => slash :: join parts) hclean
  rw [cleanInside, hrooted, List.tail_cons, named]
  by_cases hne : parts = []
  · rw [if_pos hne, hne]
    rfl
  · have hjoin : join parts ≠ [] := by
      intro hnil
      have hsplit := split_join hne fun part hpart => (hfit part hpart).2.1
      rw [hnil] at hsplit
      exact (hfit [] (hsplit ▸ List.mem_singleton_self [])).1.1 rfl
    rw [if_neg hne, if_neg hjoin]

/-- A resolved path that the bound admits is resolved to itself. -/
theorem guestPath_fixed {r : Name} (h : guestPath name maximum = .ok r) {bound : Int}
    (hbound : r.length ≤ bound) : guestPath r bound = .ok r := by
  obtain ⟨-, hallowed, parts, hparts, rfl⟩ := guestPath_eq_ok.mp h
  obtain ⟨hallowed', hresolves⟩ := (fit_of_resolved hallowed hparts).resolves_named
  exact guestPath_eq_ok.mpr ⟨hbound, hallowed', parts, hresolves, rfl⟩

/-- A path below a resolved one is resolved alike. -/
theorem guestPath_below {r other : Name} (h : guestPath name maximum = .ok r) {bound : Int}
    (hname : (name ++ slash :: other).length ≤ bound) (hr : (r ++ slash :: other).length ≤ bound) :
    guestPath (name ++ slash :: other) bound = guestPath (r ++ slash :: other) bound := by
  obtain ⟨-, hallowed, parts, hparts, rfl⟩ := guestPath_eq_ok.mp h
  obtain ⟨hallowed', hresolves⟩ := (fit_of_resolved hallowed hparts).resolves_named
  rw [guestPath, guestPath, if_neg (Int.not_lt.mpr hname), if_neg (Int.not_lt.mpr hr),
    forbidden_slash, forbidden_slash, hallowed, hallowed', split_append, split_append,
    List.foldlM_append, List.foldlM_append, hparts, hresolves]

/-- Resolving makes no path longer, but for the empty one. -/
theorem guestPath_length {r : Name} (h : guestPath name maximum = .ok r) :
    r = dot ∨ r.length ≤ name.length := by
  obtain ⟨-, -, parts, hparts, rfl⟩ := guestPath_eq_ok.mp h
  rw [named]
  split
  · exact .inl rfl
  · next hne =>
    right
    have hroom := foldlM_pushPart_room hparts
    have hsplit := room_join (List.splitOn_ne_nil slash name)
    have hjoin := room_join hne
    rw [← split, join_split] at hsplit
    have hnil : room ([] : List Name) = 0 := rfl
    omega

/-- A path that a request may name is its own canonical form. -/
theorem guestPath_valid (hvalid : GoSdk.validPath name = true) (hlength : name.length ≤ maximum) :
    guestPath name maximum = .ok name := by
  rw [GoSdk.validPath, Bool.and_eq_true, Bool.not_eq_true', Bool.or_eq_false_iff,
    List.all_eq_true] at hvalid
  obtain ⟨⟨-, hallowed⟩, hparts⟩ := hvalid
  have hcanonical : Canonical name := by
    refine ⟨hallowed, fun part hpart => ?_⟩
    have hplain := hparts part hpart
    rw [Bool.not_eq_true', Bool.or_eq_false_iff, Bool.or_eq_false_iff] at hplain
    exact ⟨beq_eq_false_iff_ne.mp hplain.1.1, beq_eq_false_iff_ne.mp hplain.1.2,
      beq_eq_false_iff_ne.mp hplain.2⟩
  refine guestPath_eq_ok.mpr ⟨hlength, hallowed, split name, hcanonical.fit.resolves, ?_⟩
  have hne : split name ≠ [] := List.splitOn_ne_nil slash name
  rw [named, if_neg hne, join_split]

/-- Resolving a guest path canonicalizes it, lexically. -/
theorem guestPath_canonicalizes (name : Name) (maximum : Int) :
    ((∃ r, guestPath name maximum = .ok r) ↔
      name.length ≤ maximum ∧ (backslash ∉ name ∧ 0 ∉ name) ∧ ¬Ascends (split name)) ∧
    (∀ r, guestPath name maximum = .ok r →
      r = cleanInside name ∧ (r = dot ∨ Canonical r) ∧ (maximum ≠ 0 → guestPath r maximum = .ok r) ∧
      ∀ (other : Name) (bound : Int), (name ++ slash :: other).length ≤ bound →
        (r ++ slash :: other).length ≤ bound →
        guestPath (name ++ slash :: other) bound = guestPath (r ++ slash :: other) bound) ∧
    (GoSdk.validPath name = true → name.length ≤ maximum → guestPath name maximum = .ok name) := by
  refine ⟨?_, fun r hr => ⟨guestPath_clean hr, guestPath_ok hr, fun hmaximum => ?_, ?_⟩,
    guestPath_valid⟩
  · have hbytes : forbidden name = false ↔ backslash ∉ name ∧ 0 ∉ name := by
      rw [not_forbidden]
      exact ⟨fun h => ⟨fun hmem => (h _ hmem).1 rfl, fun hmem => (h _ hmem).2 rfl⟩,
        fun h b hb => ⟨fun heq => h.1 (heq ▸ hb), fun heq => h.2 (heq ▸ hb)⟩⟩
    rw [guestPath_succeeds, hbytes]
  · refine guestPath_fixed hr ?_
    have hname := (guestPath_eq_ok.mp hr).1
    rcases guestPath_length hr with rfl | hlength
    · rw [dot, List.length_singleton]
      omega
    · omega
  · exact fun other bound => guestPath_below hr

/-- The empty path is the root, whose name no longer fits a maximum of zero. -/
theorem guestPath_root_unfixed : guestPath [] 0 = .ok dot ∧ guestPath dot 0 = .error .ENAMETOOLONG :=
  ⟨rfl, rfl⟩

end

end MemoryFs
