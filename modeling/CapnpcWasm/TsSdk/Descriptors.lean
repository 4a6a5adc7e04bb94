import CapnpcWasm.Lib.Slots
import CapnpcWasm.Lib.Traces
import CapnpcWasm.TsSdk.Staging

/-!
# The cap on descriptors

`boundWasiIO` counts the live descriptors of a command beside the table of the WASI shim, and
refuses to open one more than the cap.  The shim is a parameter: what it does to its table when
it opens, closes and renumbers, whether it returns or throws.
-/

namespace TsSdk

open Sdk Slots

variable {N W D : Type}

/-! ## The shim -/

/-- The arguments of `path_open`. -/
structure PathOpen where
  fd : Int32
  dirflags : UInt32
  path : UInt32
  pathLength : UInt32
  oflags : UInt32
  rightsBase : UInt64
  rightsInheriting : UInt64
  fdflags : UInt32
  openedFd : UInt32

/-- The imports that change the table of descriptors as `boundWasiIO` finds them, over the world
of the shim.  A call returns a number or throws. -/
structure TableShim (N W D : Type) where
  fds : W → Table D
  /-- The length of the guest's memory, once there is one. -/
  memory : W → Except (Thrown N) Nat
  pathOpen : PathOpen → W → W × Except (Thrown N) Errno
  fdClose : Int32 → W → W × Except (Thrown N) Errno
  fdRenumber : Int32 → Int32 → W → W × Except (Thrown N) Errno

/-- `fds[fd]`. -/
def descriptor (fds : Table D) (fd : Int32) : Option D :=
  if 0 ≤ fd.toInt then slot fds fd.toInt.toNat else none

/-- No slot has changed. -/
def Same (fds fds' : Table D) : Prop := ∀ j, slot fds' j = slot fds j

/-- One empty slot has got a descriptor. -/
def Opened (fds fds' : Table D) : Prop :=
  ∃ i, slot fds i = none ∧ (slot fds' i).isSome ∧ ∀ j, j ≠ i → slot fds' j = slot fds j

/-- The named slot is empty. -/
def Closed (fd : Int32) (fds fds' : Table D) : Prop :=
  ∀ j : Nat, slot fds' j = if (j : Int) = fd.toInt then none else slot fds j

/-- A held slot was moved over a held one. -/
structure Moved (fd dest : Int32) (fds fds' : Table D) : Prop where
  source : (descriptor fds fd).isSome
  target : (descriptor fds dest).isSome
  slots : ∀ j : Nat, slot fds' j = if (j : Int) = fd.toInt then none
    else if (j : Int) = dest.toInt then descriptor fds fd else slot fds j

/-- What the shim does to its table.  A throw may leave the table changed. -/
structure TableShim.Documented (shim : TableShim N W D) : Prop where
  opened : ∀ args w w', shim.pathOpen args w = (w', .ok 0) → Opened (shim.fds w) (shim.fds w')
  notOpened : ∀ args w ret w', shim.pathOpen args w = (w', .ok ret) → ret ≠ 0 →
    Same (shim.fds w) (shim.fds w')
  openThrew : ∀ args w thrown w', shim.pathOpen args w = (w', .error thrown) →
    Same (shim.fds w) (shim.fds w') ∨ Opened (shim.fds w) (shim.fds w')
  closed : ∀ fd w ret w', shim.fdClose fd w = (w', .ok ret) →
    Same (shim.fds w) (shim.fds w') ∨ Closed fd (shim.fds w) (shim.fds w')
  closeThrew : ∀ fd w thrown w', shim.fdClose fd w = (w', .error thrown) →
    ∀ j, (slot (shim.fds w') j).isSome → (slot (shim.fds w) j).isSome
  renumbered : ∀ fd dest w ret w', shim.fdRenumber fd dest w = (w', .ok ret) →
    Same (shim.fds w) (shim.fds w') ∨ Moved fd dest (shim.fds w) (shim.fds w')
  renumberThrew : ∀ fd dest w thrown w', shim.fdRenumber fd dest w = (w', .error thrown) →
    ∀ j, (slot (shim.fds w') j).isSome → (slot (shim.fds w) j).isSome

/-! ## The wrappers -/

/-- The world of the shim, and the count kept beside it. -/
structure Guarded (W : Type) where
  world : W
  live : Nat

section

variable (limits : Limits) (shim : TableShim N W D)

def countLive (w : W) : Nat := count (shim.fds w)

/-- `path_open` behind the limit on guest paths. -/
def boundedPathOpen (args : PathOpen) (w : W) : W × Except (Thrown N) Errno :=
  if Host.tooLong limits args.pathLength then (w, .error (limitError .pathBytes))
  else shim.pathOpen args w

def pathOpen (args : PathOpen) (s : Guarded W) : Guarded W × Except (Thrown N) Errno :=
  match shim.memory s.world with
  | .error thrown => (s, .error thrown)
  | .ok size =>
      if size < args.openedFd.toNat + 4 then (s, .ok errnoInval)
      else if maximumDescriptors ≤ s.live then (s, .ok errnoNfile)
      else
        match boundedPathOpen limits shim args s.world with
        | (w, .error thrown) => (⟨w, countLive shim w⟩, .error thrown)
        | (w, .ok ret) => (⟨w, if ret = 0 then s.live + 1 else s.live⟩, .ok ret)

/-- A call that may release the slot `fd`. -/
def releasing (original : W → W × Except (Thrown N) Errno) (fd : Int32) (s : Guarded W) :
    Guarded W × Except (Thrown N) Errno :=
  let wasHeld := (descriptor (shim.fds s.world) fd).isSome
  match original s.world with
  | (w, .error thrown) => (⟨w, countLive shim w⟩, .error thrown)
  | (w, .ok ret) =>
      (⟨w, if wasHeld ∧ descriptor (shim.fds w) fd = none ∧ 0 < s.live then s.live - 1
        else s.live⟩, .ok ret)

def fdClose (fd : Int32) : Guarded W → Guarded W × Except (Thrown N) Errno :=
  releasing shim (shim.fdClose fd) fd

def fdRenumber (fd dest : Int32) : Guarded W → Guarded W × Except (Thrown N) Errno :=
  releasing shim (shim.fdRenumber fd dest) fd

/-- What happens in a command: a call of an import, or anything that leaves the table alone. -/
inductive TableEvent where
  | pathOpen (args : PathOpen)
  | fdClose (fd : Int32)
  | fdRenumber (fd dest : Int32)
  | other

inductive TableStep : Guarded W → TableEvent → Guarded W → Prop where
  | pathOpen (args : PathOpen) (s : Guarded W) :
      TableStep s (.pathOpen args) (pathOpen limits shim args s).1
  | fdClose (fd : Int32) (s : Guarded W) : TableStep s (.fdClose fd) (fdClose shim fd s).1
  | fdRenumber (fd dest : Int32) (s : Guarded W) :
      TableStep s (.fdRenumber fd dest) (fdRenumber shim fd dest s).1
  | other {s : Guarded W} {w : W} : shim.fds w = shim.fds s.world →
      TableStep s .other ⟨w, s.live⟩

end

/-! ## What a call does to the count -/

section

variable {limits : Limits} {shim : TableShim N W D} {fds fds' : Table D} {fd dest : Int32}
  {s t : Guarded W} {event : TableEvent}

theorem Same.count (h : Same fds fds') : count fds' = count fds :=
  count_congr fun j => by rw [h j]

theorem Opened.count (h : Opened fds fds') : count fds' = count fds + 1 := by
  obtain ⟨i, hempty, hheld, hother⟩ := h
  exact count_add hempty hheld hother

theorem descriptor_of_eq {j : Nat} (h : (j : Int) = fd.toInt) : descriptor fds fd = slot fds j := by
  have hj : fd.toInt.toNat = j := by omega
  rw [descriptor, if_pos (by omega), hj]

/-- A held descriptor has a slot. -/
theorem slot_of_held (h : (descriptor fds fd).isSome) :
    ∃ j : Nat, (j : Int) = fd.toInt ∧ (slot fds j).isSome := by
  rw [descriptor] at h
  split at h
  · next hle => exact ⟨fd.toInt.toNat, Int.toNat_of_nonneg hle, h⟩
  · cases h

theorem descriptor_same (h : Same fds fds') : descriptor fds' fd = descriptor fds fd := by
  rw [descriptor, descriptor, h]

/-- Nothing is released where no slot has changed. -/
theorem Same.released (h : Same fds fds') :
    (Slots.count fds' + if (descriptor fds fd).isSome ∧ descriptor fds' fd = none then 1 else 0) =
      Slots.count fds := by
  rw [if_neg, h.count, Nat.add_zero]
  rintro ⟨hheld, hempty⟩
  rw [descriptor_same h] at hempty
  rw [hempty] at hheld
  cases hheld

/-- Clearing a slot counts one less if it was held. -/
theorem Closed.count (h : Closed fd fds fds') :
    descriptor fds' fd = none ∧
      count fds = count fds' + if (descriptor fds fd).isSome then 1 else 0 := by
  have hempty : descriptor fds' fd = none := by
    rw [descriptor]
    split
    · next hle => rw [h, if_pos (Int.toNat_of_nonneg hle)]
    · rfl
  refine ⟨hempty, ?_⟩
  split
  · next hheld =>
    obtain ⟨i, hi, hslot⟩ := slot_of_held hheld
    refine (count_remove hslot ?_ fun j hj => ?_).symm
    · rw [h, if_pos hi]
    · rw [h, if_neg (by omega)]
  · next hheld =>
    refine (count_congr fun j => ?_).symm
    rw [h]
    split
    · next hj =>
      rw [descriptor_of_eq hj] at hheld
      exact iff_of_false nofun hheld
    · exact Iff.rfl

/-- Moving a slot over another counts one less, and so does moving it over itself. -/
theorem Moved.count (h : Moved fd dest fds fds') :
    descriptor fds' fd = none ∧ count fds = count fds' + 1 := by
  obtain ⟨i, hi, hslot⟩ := slot_of_held h.source
  have hempty : slot fds' i = none := by rw [h.slots, if_pos hi]
  refine ⟨by rw [descriptor_of_eq hi, hempty], (count_remove hslot hempty fun j hj => ?_).symm⟩
  rw [h.slots, if_neg (by omega)]
  split
  · next hdest =>
    have htarget := h.target
    rw [descriptor_of_eq hdest] at htarget
    exact iff_of_true h.source htarget
  · exact Iff.rfl

/-- The count is exact and within the cap. -/
structure Counted (shim : TableShim N W D) (s : Guarded W) : Prop where
  exact : s.live = countLive shim s.world
  capped : s.live ≤ maximumDescriptors

/-- An open, behind the limit on guest paths or not, adds one descriptor exactly when it
returns 0, and at most one when it throws. -/
theorem boundedPathOpen_count (hshim : shim.Documented) {args : PathOpen} {w w' : W}
    {result : Except (Thrown N) Errno} (h : boundedPathOpen limits shim args w = (w', result)) :
    (∀ ret, result = .ok ret → count (shim.fds w') = if ret = 0 then count (shim.fds w) + 1
      else count (shim.fds w)) ∧ count (shim.fds w') ≤ count (shim.fds w) + 1 := by
  rw [boundedPathOpen] at h
  split at h
  · cases h
    exact ⟨nofun, Nat.le_succ _⟩
  · rcases result with thrown | ret
    · refine ⟨nofun, ?_⟩
      rcases hshim.openThrew _ _ _ _ h with hsame | hopened
      · exact Nat.le_trans (Nat.le_of_eq hsame.count) (Nat.le_succ _)
      · exact Nat.le_of_eq hopened.count
    · have hcount : count (shim.fds w') = if ret = 0 then count (shim.fds w) + 1
          else count (shim.fds w) := by
        split
        · next hret =>
          rw [hret] at h
          exact (hshim.opened _ _ _ h).count
        · next hret => exact (hshim.notOpened _ _ _ _ h hret).count
      refine ⟨fun ret' heq => ?_, ?_⟩
      · cases heq
        exact hcount
      · rw [hcount]
        split
        · exact Nat.le_refl _
        · exact Nat.le_succ _

theorem Counted.pathOpen (hshim : shim.Documented) (h : Counted shim s) (args : PathOpen) :
    Counted shim (pathOpen limits shim args s).1 := by
  have hlive : s.live = count (shim.fds s.world) := h.exact
  rw [TsSdk.pathOpen]
  split
  · exact h
  · split
    · exact h
    · split
      · exact h
      · next hcap =>
        rcases hopen : boundedPathOpen limits shim args s.world with ⟨w, thrown | ret⟩
        · have hcount := (boundedPathOpen_count hshim hopen).2
          refine ⟨rfl, ?_⟩
          show count (shim.fds w) ≤ maximumDescriptors
          omega
        · have hcount := (boundedPathOpen_count hshim hopen).1 ret rfl
          dsimp only
          split at hcount
          · next hret =>
            rw [if_pos hret]
            refine ⟨?_, Nat.lt_of_not_le hcap⟩
            show s.live + 1 = count (shim.fds w)
            omega
          · next hret =>
            rw [if_neg hret]
            refine ⟨?_, h.capped⟩
            show s.live = count (shim.fds w)
            omega

/-- A call that returns with the slot released, or with all slots as they were, and that
newly holds none where it throws. -/
theorem Counted.releasing {original : W → W × Except (Thrown N) Errno}
    (hok : ∀ w ret, original s.world = (w, .ok ret) →
      count (shim.fds s.world) = count (shim.fds w) +
        if (descriptor (shim.fds s.world) fd).isSome ∧ descriptor (shim.fds w) fd = none then 1 else 0)
    (hthrew : ∀ w thrown, original s.world = (w, .error thrown) →
      ∀ j, (slot (shim.fds w) j).isSome → (slot (shim.fds s.world) j).isSome)
    (h : Counted shim s) : Counted shim (releasing shim original fd s).1 := by
  rw [TsSdk.releasing]
  rcases hcall : original s.world with ⟨w, thrown | ret⟩
  · refine ⟨rfl, (count_le (hthrew _ _ hcall)).trans ?_⟩
    show countLive shim s.world ≤ _
    rw [← h.exact]
    exact h.capped
  · have hcount := hok _ _ hcall
    have hlive : s.live = count (shim.fds s.world) := h.exact
    have hcapped := h.capped
    dsimp only
    split
    · next hreleased =>
      rw [if_pos ⟨hreleased.1, hreleased.2.1⟩] at hcount
      refine ⟨?_, (Nat.sub_le _ _).trans hcapped⟩
      show s.live - 1 = count (shim.fds w)
      omega
    · next hkept =>
      refine ⟨?_, hcapped⟩
      show s.live = count (shim.fds w)
      split at hcount
      · next hreleased =>
        have hzero : ¬0 < s.live := fun hpos => hkept ⟨hreleased.1, hreleased.2, hpos⟩
        omega
      · omega

theorem Counted.fdClose (hshim : shim.Documented) (h : Counted shim s) (fd : Int32) :
    Counted shim (fdClose shim fd s).1 := by
  refine h.releasing (fun w ret hcall => ?_) fun w thrown hcall => hshim.closeThrew _ _ _ _ hcall
  rcases hshim.closed _ _ _ _ hcall with hsame | hclosed
  · exact hsame.released.symm
  · obtain ⟨hempty, hcount⟩ := hclosed.count
    rw [hcount]
    simp only [hempty, and_true]

theorem Counted.fdRenumber (hshim : shim.Documented) (h : Counted shim s) (fd dest : Int32) :
    Counted shim (fdRenumber shim fd dest s).1 := by
  refine h.releasing (fun w ret hcall => ?_) fun w thrown hcall => hshim.renumberThrew _ _ _ _ _ hcall
  rcases hshim.renumbered _ _ _ _ _ hcall with hsame | hmoved
  · exact hsame.released.symm
  · obtain ⟨hempty, hcount⟩ := hmoved.count
    rw [if_pos ⟨hmoved.source, hempty⟩, hcount]

theorem Counted.step (hshim : shim.Documented) (h : Counted shim s)
    (hstep : TableStep limits shim s event t) : Counted shim t := by
  cases hstep with
  | pathOpen args => exact h.pathOpen hshim args
  | fdClose fd => exact h.fdClose hshim fd
  | fdRenumber fd dest => exact h.fdRenumber hshim fd dest
  | other hfds =>
      refine ⟨?_, h.capped⟩
      show s.live = count (shim.fds _)
      rw [hfds]
      exact h.exact

end

/-! ## The cap -/

/-- In every run from a table within the cap, the count is the number of held descriptors and
never exceeds the cap, and an open that the cap refuses changes nothing. -/
theorem descriptors_capped {limits : Limits} {shim : TableShim N W D} (hshim : shim.Documented)
    {w : W} (hstart : countLive shim w ≤ maximumDescriptors) {events : List TableEvent}
    {s : Guarded W} (h : Trace (TableStep limits shim) ⟨w, countLive shim w⟩ events s) :
    s.live = countLive shim s.world ∧ s.live ≤ maximumDescriptors ∧
      ∀ args size, shim.memory s.world = .ok size → args.openedFd.toNat + 4 ≤ size →
        maximumDescriptors ≤ s.live → pathOpen limits shim args s = (s, .ok errnoNfile) := by
  have hcounted : Counted shim s :=
    h.invariant (fun _ _ _ hs hstep => hs.step hshim hstep) ⟨rfl, hstart⟩
  refine ⟨hcounted.exact, hcounted.capped, fun args size hsize hresult hcap => ?_⟩
  rw [pathOpen, hsize]
  dsimp only
  rw [if_neg (Nat.not_lt.mpr hresult), if_pos hcap]

/-- A shim that appends what it opens. -/
private def pushing : TableShim Empty (Table Nat) Nat where
  fds := id
  memory _ := .ok 65536
  pathOpen _ fds := (fds ++ [some fds.length], .ok 0)
  fdClose fd fds :=
    if (descriptor fds fd).isSome then (fds.set fd.toInt.toNat none, .ok 0) else (fds, .ok 8)
  fdRenumber fd dest fds :=
    if (descriptor fds fd).isSome ∧ (descriptor fds dest).isSome then
      ((fds.set dest.toInt.toNat (descriptor fds fd)).set fd.toInt.toNat none, .ok 0)
    else (fds, .ok 8)

private theorem pushing_documented : pushing.Documented := by
  refine ⟨fun _ w w' h => ?_, fun _ w ret w' h hret => ?_, ?_,
    fun fd w ret w' h => ?_, fun fd w thrown w' h => ?_, fun fd dest w ret w' h => ?_,
    fun fd dest w thrown w' h => ?_⟩
  · cases h
    refine ⟨w.length, ?_, ?_, fun j hj => ?_⟩
    · show (w[w.length]?).join = none
      rw [List.getElem?_eq_none (Nat.le_refl _)]
      rfl
    · show (slot (w ++ [_]) w.length).isSome
      rw [slot_append, if_pos rfl]
      rfl
    · exact slot_append.trans (if_neg hj)
  · cases h
    exact absurd rfl hret
  · rintro _ w thrown w' ⟨⟩
  · dsimp only [pushing] at h
    split at h
    · next hheld =>
      obtain ⟨i, hi, hslot⟩ := slot_of_held hheld
      cases h
      refine .inr fun j => ?_
      have hindex : fd.toInt.toNat = i := by omega
      show slot (w.set _ _) j = if _ then _ else slot w j
      rw [hindex, slot_set (lt_length hslot), ← hi]
      simp only [Int.natCast_inj]
    · cases h
      exact .inl fun j => rfl
  · dsimp only [pushing] at h
    split at h
    · cases h
    · cases h
  · dsimp only [pushing] at h
    split at h
    · next hheld =>
      obtain ⟨i, hi, hslot⟩ := slot_of_held hheld.1
      obtain ⟨k, hk, hslot'⟩ := slot_of_held hheld.2
      cases h
      refine .inr ⟨hheld.1, hheld.2, fun j => ?_⟩
      have hindex : fd.toInt.toNat = i := by omega
      have hindex' : dest.toInt.toNat = k := by omega
      show slot ((w.set _ _).set _ _) j = if _ then _ else if _ then descriptor w fd else slot w j
      rw [hindex, hindex', slot_set (by rw [List.length_set]; exact lt_length hslot),
        slot_set (lt_length hslot'), ← hi, ← hk]
      simp only [Int.natCast_inj]
    · cases h
      exact .inl fun j => rfl
  · dsimp only [pushing] at h
    split at h
    · cases h
    · cases h

private def opening : PathOpen := ⟨3, 0, 0, 1, 0, 0, 0, 0, 64⟩

/-- A file is opened beside the four descriptors of a command, and renumbered onto itself. -/
theorem descriptors_capped_pushing : ∃ s : Guarded (Table Nat),
    Trace (TableStep defaultLimits pushing) ⟨[some 0, some 1, some 2, some 3], 4⟩
      [.pathOpen opening, .fdRenumber 4 4] s ∧
    s.world = [some 0, some 1, some 2, some 3, none] ∧ s.live = countLive pushing s.world ∧
    s.live ≤ maximumDescriptors := by
  have hrun : Trace (TableStep defaultLimits pushing) ⟨[some 0, some 1, some 2, some 3], 4⟩
      [.pathOpen opening, .fdRenumber 4 4] _ :=
    .snoc (.snoc .nil (.pathOpen opening _)) (.fdRenumber 4 4 _)
  obtain ⟨hexact, hcapped, -⟩ := descriptors_capped pushing_documented (by decide) hrun
  exact ⟨_, hrun, rfl, hexact, hcapped⟩

end TsSdk
