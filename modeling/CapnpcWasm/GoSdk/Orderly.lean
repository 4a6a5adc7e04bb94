import CapnpcWasm.GoSdk.Lifecycle

/-!
# Slots, jobs and the release of the runtimes

In every reachable state of a compiler the idle channel is closed once the compiler is
closed and no job remains, the runtimes are released only after that, and the occupied
slots are those of the jobs that hold one.
-/

namespace GoSdk

/-! ## Moves of one call -/

namespace Call

variable {c c' : Call} {m : Move}

/-- Not past the `select` for a slot, unless it saw the context end. -/
def early (c : Call) : Bool :=
  match c.phase with
  | .entering | .rejected | .waiting | .refused _ => true
  | _ => false

/-- What no move of one call concerns: its registration and its slot. -/
structure Frame (c c' : Call) : Prop where
  registered : c'.registered = c.registered
  holds : c'.holds = c.holds
  admitted : c'.admitted = c.admitted
  early : c'.early = true → c.early = true

theorem read_frame (h : c.read = some c') : c.Frame c' := by
  obtain ⟨caller, ctx, admitted, phase⟩ := c
  unfold read at h
  cases phase <;> simp only [reduceCtorEq] at h
  all_goals
    split at h
    all_goals
      cases h
      exact ⟨rfl, rfl, rfl, by simp [early]⟩

theorem move_frame (h : c.move m = some c') : c.Frame c' := by
  cases m with
  | callerEnds e =>
      rw [move, Option.ite_none_right_eq_some] at h
      obtain ⟨-, h⟩ := h
      cases h
      exact ⟨rfl, rfl, rfl, fun h => h⟩
  | propagate =>
      rw [move, Option.ite_none_right_eq_some] at h
      obtain ⟨-, h⟩ := h
      obtain ⟨e, -, rfl⟩ := Option.map_eq_some_iff.mp h
      exact ⟨rfl, rfl, rfl, fun h => h⟩
  | refuse =>
      rw [move, Option.ite_none_right_eq_some] at h
      obtain ⟨⟨hphase, -⟩, h⟩ := h
      cases h
      exact ⟨by simp [Call.registered, hphase], by simp [Call.holds, hphase], rfl,
        fun _ => by rw [Call.early, hphase]⟩
  | read => exact read_frame h
  | guestEnds =>
      rw [move, Option.ite_none_right_eq_some] at h
      obtain ⟨hphase, h⟩ := h
      cases h
      exact ⟨by simp [Call.registered, hphase], by simp [Call.holds, hphase], rfl,
        fun h => by cases h⟩
  | finish =>
      rw [move, Option.ite_none_right_eq_some] at h
      obtain ⟨hphase, h⟩ := h
      cases h
      exact ⟨by simp [Call.registered, hphase], by simp [Call.holds, hphase], rfl,
        fun h => by cases h⟩
  | cancel =>
      rw [move] at h
      split at h
      · next r hphase =>
        cases h
        exact ⟨by simp [Call.registered, hphase], by simp [Call.holds, hphase], rfl,
          fun h => by cases h⟩
      · cases h

theorem registered_of_holds (h : c.holds = true) : c.registered = true := by
  obtain ⟨caller, ctx, admitted, phase⟩ := c
  cases phase <;> simp_all [holds, registered]

theorem not_holds (h : c.admitted = false) : c.holds = false := by
  obtain ⟨caller, ctx, admitted, phase⟩ := c
  cases phase <;> simp_all [holds]

@[simp] theorem terminate_registered : c.terminate.registered = c.registered := rfl

@[simp] theorem terminate_holds : c.terminate.holds = c.holds := rfl

end Call

/-! ## The invariant -/

namespace State

variable {maxJobs : Nat} {s t : State} {i j k : Nat} {c : Call}

@[simp] theorem setCall_calls : (s.setCall i c).calls j = if j = i then c else s.calls j :=
  Function.update_apply s.calls i c j

/-- The jobs that hold a slot. -/
def holders (s : State) : Finset Nat := s.jobs.filter fun i => (s.calls i).holds = true

theorem mem_holders : i ∈ s.holders ↔ i ∈ s.jobs ∧ (s.calls i).holds = true := Finset.mem_filter

/-- What every reachable state satisfies. -/
structure Orderly (maxJobs : Nat) (s : State) : Prop where
  jobs : ∀ i, i ∈ s.jobs ↔ (s.calls i).registered = true
  early : ∀ i, (s.calls i).early = true → (s.calls i).admitted = false
  idle : s.idle = if s.closed = true ∧ s.jobs = ∅ then 1 else 0
  releases : s.releases = if s.released then 1 else 0
  released : s.released = true → 0 < s.idle
  releasers : 0 < s.releasers → 0 < s.idle
  releasing : ∀ k, s.closers k = .releasing → 0 < s.idle
  slots : s.slots = s.holders.card
  bounded : s.slots ≤ maxJobs

theorem orderly_init : Orderly maxJobs init where
  jobs i := by simp [init, Call.start, Call.registered]
  early _ _ := rfl
  idle := rfl
  releases := rfl
  released h := by cases h
  releasers h := absurd h (Nat.lt_irrefl 0)
  releasing k h := by cases h
  slots := rfl
  bounded := Nat.zero_le maxJobs

/-- The idle channel is closed once the compiler is closed and no job remains. -/
theorem Orderly.idle_pos (h : s.Orderly maxJobs) : 0 < s.idle ↔ s.closed = true ∧ s.jobs = ∅ := by
  rw [h.idle]
  split
  · next hc => simp [hc]
  · next hc => simp [hc]

/-- A call moves on, but not in its registration or its slot. -/
theorem Orderly.setCall (h : s.Orderly maxJobs) (hc : (s.calls i).Frame c) :
    (s.setCall i c).Orderly maxJobs where
  jobs j := by
    rw [setCall_calls]
    split
    · next hj =>
      rw [hc.registered, ← hj]
      exact h.jobs j
    · exact h.jobs j
  early j := by
    rw [setCall_calls]
    split
    · rw [hc.admitted]
      exact fun he => h.early i (hc.early he)
    · exact h.early j
  idle := h.idle
  releases := h.releases
  released := h.released
  releasers := h.releasers
  releasing := h.releasing
  slots := by
    have hholders : (s.setCall i c).holders = s.holders := by
      refine Finset.filter_congr fun j _ => ?_
      rw [setCall_calls]
      split
      · next hj => rw [hc.holds, ← hj]
      · rfl
    rw [hholders]
    exact h.slots
  bounded := h.bounded

theorem Orderly.setCloser (h : s.Orderly maxJobs) {phase : Closer}
    (hphase : phase = .releasing → 0 < s.idle) : (s.setCloser k phase).Orderly maxJobs where
  jobs := h.jobs
  early := h.early
  idle := h.idle
  releases := h.releases
  released := h.released
  releasers := h.releasers
  releasing l hl := by
    change Function.update s.closers k phase l = _ at hl
    rw [Function.update_apply] at hl
    split at hl
    · exact hphase hl
    · exact h.releasing l hl
  slots := h.slots
  bounded := h.bounded

theorem Orderly.closeRuntimes (h : s.Orderly maxJobs) (hidle : 0 < s.idle) :
    s.closeRuntimes.Orderly maxJobs := by
  rw [State.closeRuntimes]
  split
  · exact h
  · next hreleased =>
    exact { h with
      releases := by
        have := h.releases
        rw [if_neg hreleased] at this
        change s.releases + 1 = 1
        omega
      released := fun _ => hidle }

theorem Orderly.early_update (h : s.Orderly maxJobs) (hc : c.early = true → c.admitted = false)
    (j : Nat) (hj : (Function.update s.calls i c j).early = true) :
    (Function.update s.calls i c j).admitted = false := by
  rw [Function.update_apply] at hj ⊢
  split at hj
  · next hji =>
    rw [if_pos hji]
    exact hc hj
  · next hji =>
    rw [if_neg hji]
    exact h.early j hj

/-- A call that registers, without a slot. -/
theorem Orderly.register (h : s.Orderly maxJobs) (hopen : s.closed = false) (hi : i ∉ s.jobs)
    (hr : c.registered = true) (hh : c.admitted = false) :
    ({ s with jobs := insert i s.jobs }.setCall i c).Orderly maxJobs where
  early := h.early_update fun _ => hh
  jobs j := by
    rw [setCall_calls]
    split
    · next hj => simp [State.setCall, hj, hr]
    · next hj => simp [State.setCall, hj, h.jobs j]
  idle := by
    have := h.idle
    rw [hopen] at this
    simpa [State.setCall, hopen] using this
  releases := h.releases
  released := h.released
  releasers := h.releasers
  releasing := h.releasing
  slots := by
    have hholders : ({ s with jobs := insert i s.jobs }.setCall i c).holders = s.holders := by
      ext j
      rw [mem_holders, mem_holders, setCall_calls]
      have hnone : c.holds = false := Call.not_holds hh
      by_cases hj : j = i
      · subst hj
        simp [hnone, hi]
      · simp [State.setCall, hj]
    rw [hholders]
    exact h.slots
  bounded := h.bounded

/-- A job that takes a free slot. -/
theorem Orderly.takeSlot (h : s.Orderly maxJobs) (hfree : s.slots < maxJobs)
    (hold : (s.calls i).holds = false) (hin : (s.calls i).registered = true)
    (hr : c.registered = true) (hh : c.holds = true) (hc : c.early = false) :
    ({ s with slots := s.slots + 1 }.setCall i c).Orderly maxJobs where
  early := h.early_update fun he => by rw [hc] at he; cases he
  jobs j := by
    rw [setCall_calls]
    split
    · next hj => simp [State.setCall, hj, hr, (h.jobs i).mpr hin]
    · exact h.jobs j
  idle := h.idle
  releases := h.releases
  released := h.released
  releasers := h.releasers
  releasing := h.releasing
  slots := by
    have hmem : i ∈ s.jobs := (h.jobs i).mpr hin
    have hnew : i ∉ s.holders := fun hi => by
      rw [mem_holders, hold] at hi
      cases hi.2
    have hholders : ({ s with slots := s.slots + 1 }.setCall i c).holders = insert i s.holders := by
      ext j
      rw [mem_holders, Finset.mem_insert, mem_holders, setCall_calls]
      by_cases hj : j = i
      · subst hj
        simp [hh, State.setCall, hmem]
      · simp [State.setCall, hj]
    rw [hholders, Finset.card_insert_of_notMem hnew, ← h.slots]
    rfl
  bounded := hfree

/-- A job that gives its slot back. -/
theorem Orderly.giveSlot (h : s.Orderly maxJobs) (hold : (s.calls i).holds = true)
    (hr : c.registered = true) (hh : c.holds = false) (hc : c.early = false) :
    ({ s with slots := s.slots - 1 }.setCall i c).Orderly maxJobs where
  early := h.early_update fun he => by rw [hc] at he; cases he
  jobs j := by
    rw [setCall_calls]
    split
    · next hj =>
      simp [State.setCall, hj, hr, (h.jobs i).mpr (Call.registered_of_holds hold)]
    · exact h.jobs j
  idle := h.idle
  releases := h.releases
  released := h.released
  releasers := h.releasers
  releasing := h.releasing
  slots := by
    have hmem : i ∈ s.jobs := (h.jobs i).mpr (Call.registered_of_holds hold)
    have hholders : ({ s with slots := s.slots - 1 }.setCall i c).holders = s.holders.erase i := by
      ext j
      rw [mem_holders, Finset.mem_erase, mem_holders, setCall_calls]
      by_cases hj : j = i
      · subst hj
        simp [hh]
      · simp [State.setCall, hj]
    rw [hholders, Finset.card_erase_of_mem (mem_holders.mpr ⟨hmem, hold⟩), ← h.slots]
    rfl
  bounded := Nat.le_trans (Nat.sub_le s.slots 1) h.bounded

/-- A job that leaves, without a slot.  The last one to leave a closed compiler closes the
idle channel. -/
theorem Orderly.leave (h : s.Orderly maxJobs) (hin : (s.calls i).registered = true)
    (hold : (s.calls i).holds = false) (hr : c.registered = false) (hh : c.holds = false)
    (hc : c.early = false) (ht : t = { s with jobs := s.jobs.erase i }.setCall i c)
    {n : Nat} (hn : n = if s.closed = true ∧ s.jobs.erase i = ∅ then 1 else 0) :
    { t with idle := t.idle + n, releasers := t.releasers + n }.Orderly maxJobs := by
  subst ht
  have hmem : i ∈ s.jobs := (h.jobs i).mpr hin
  have hzero : s.idle = 0 := by
    rw [h.idle, if_neg]
    rintro ⟨-, hempty⟩
    rw [hempty] at hmem
    cases hmem
  exact {
    early := h.early_update fun he => by rw [hc] at he; cases he
    jobs := by
      intro j
      rw [setCall_calls]
      split
      · next hj => simp [State.setCall, hj, hr]
      · next hj => simp [State.setCall, hj, h.jobs j]
    idle := by
      change s.idle + n = _
      rw [hzero, Nat.zero_add, hn]
      rfl
    releases := h.releases
    released := fun hreleased => Nat.lt_of_lt_of_le (h.released hreleased) (Nat.le_add_right _ n)
    releasers := by
      intro hpos
      change 0 < s.idle + n
      change 0 < s.releasers + n at hpos
      have := h.releasers
      omega
    releasing := fun k hk => Nat.lt_of_lt_of_le (h.releasing k hk) (Nat.le_add_right _ n)
    slots := by
      have hholders : ({ s with jobs := s.jobs.erase i }.setCall i c).holders = s.holders := by
        ext j
        rw [mem_holders, mem_holders, setCall_calls]
        by_cases hj : j = i
        · subst hj
          simp [hh, hold]
        · simp [State.setCall, hj]
      have hslots := h.slots
      rw [← hholders] at hslots
      exact hslots
    bounded := h.bounded }

/-- The first `Close` of an open compiler. -/
theorem Orderly.shut (h : s.Orderly maxJobs) (hopen : s.closed = false) :
    { s with closed := true, idle := if s.jobs = ∅ then s.idle + 1 else s.idle }.Orderly maxJobs :=
  have hzero : s.idle = 0 := by
    rw [h.idle, if_neg]
    rw [hopen]
    exact fun hc => Bool.false_ne_true hc.1
  have hmore : ∀ n, 0 < n → 0 < s.idle → 0 < n := fun _ hn _ => hn
  { h with
    idle := by
      rw [hzero]
      simp
    released := fun hr => absurd (h.released hr) (by omega)
    releasers := fun hr => absurd (h.releasers hr) (by omega)
    releasing := fun k hk => absurd (h.releasing k hk) (by omega) }

theorem Orderly.terminate (h : s.Orderly maxJobs) (hs : s.terminate k = some t) :
    t.Orderly maxJobs := by
  rw [State.terminate, Option.ite_none_right_eq_some] at hs
  obtain ⟨-, hs⟩ := hs
  cases hs
  refine Orderly.setCloser ?_ fun hphase => by cases hphase
  exact { h with
    early := by
      intro i
      dsimp only
      split
      · exact h.early i
      · exact h.early i
    jobs := by
      intro i
      rw [h.jobs i]
      dsimp only
      split
      · rfl
      · rfl
    slots := by
      have hslots := h.slots
      rw [hslots]
      refine congrArg Finset.card (Finset.filter_congr fun i _ => ?_)
      dsimp only
      split
      · rfl
      · rfl }

/-- Every step keeps the invariant. -/
theorem Orderly.step {e : Event} (h : s.Orderly maxJobs) (hs : Steps maxJobs s e t) :
    t.Orderly maxJobs := by
  cases e with
  | call i m =>
      obtain ⟨c, hc, rfl⟩ := Option.map_eq_some_iff.mp hs
      exact h.setCall (Call.move_frame hc)
  | enter i =>
      change State.enter maxJobs s i = some t at hs
      rw [State.enter, Option.ite_none_left_eq_some, not_not] at hs
      obtain ⟨hphase, hs⟩ := hs
      have hout : (s.calls i).registered = false := by rw [Call.registered, hphase]
      have hnone : (s.calls i).admitted = false := h.early i (by rw [Call.early, hphase])
      have hi : i ∉ s.jobs := fun hi => by
        rw [h.jobs i, hout] at hi
        cases hi
      split at hs
      · cases hs
        exact h.setCall ⟨hout.symm, (Call.not_holds hnone).symm, rfl,
          fun _ => by rw [Call.early, hphase]⟩
      · next hopen =>
        cases hs
        rw [Bool.not_eq_true] at hopen
        refine h.register hopen hi ?_ hnone
        rw [Call.registered]
        split_ifs
        · rfl
        · rfl
  | acquire i =>
      change State.acquire maxJobs s i = some t at hs
      rw [State.acquire, Option.ite_none_right_eq_some] at hs
      obtain ⟨⟨hphase, hfree⟩, hs⟩ := hs
      cases hs
      have hnone : (s.calls i).admitted = false := h.early i (by rw [Call.early, hphase])
      exact h.takeSlot hfree (Call.not_holds hnone) (by rw [Call.registered, hphase]) rfl rfl rfl
  | free i =>
      change State.free s i = some t at hs
      rw [State.free] at hs
      split at hs
      · next r hphase =>
        split at hs
        · next hadmitted =>
          rw [Option.ite_none_left_eq_some] at hs
          obtain ⟨-, hs⟩ := hs
          cases hs
          refine h.giveSlot ?_ rfl rfl rfl
          rw [Call.holds, hphase]
          exact hadmitted
        · next hadmitted =>
          cases hs
          rw [Bool.not_eq_true] at hadmitted
          exact h.setCall ⟨by rw [Call.registered, Call.registered, hphase],
            (Call.not_holds hadmitted).symm, rfl, fun he => by cases he⟩
      · cases hs
  | unregister i =>
      change State.unregister s i = some t at hs
      rw [State.unregister] at hs
      split at hs
      · next r hphase =>
        have hin : (s.calls i).registered = true := by rw [Call.registered, hphase]
        have hold : (s.calls i).holds = false := by rw [Call.holds, hphase]
        dsimp only at hs
        split at hs
        · next hlast =>
          cases hs
          exact h.leave hin hold rfl rfl rfl rfl (if_pos hlast).symm
        · next hlast =>
          cases hs
          exact h.leave hin hold rfl rfl rfl rfl (if_neg hlast).symm
      · cases hs
  | close k =>
      change State.close s k = some t at hs
      rw [State.close, Option.ite_none_left_eq_some] at hs
      obtain ⟨-, hs⟩ := hs
      split at hs
      · cases hs
        exact h.setCloser fun hphase => by cases hphase
      · next hopen =>
        cases hs
        refine Orderly.setCloser (h.shut (Bool.not_eq_true _ ▸ hopen)) fun hphase => by cases hphase
  | poll k =>
      change State.poll s k = some t at hs
      rw [State.poll, Option.ite_none_right_eq_some] at hs
      obtain ⟨-, hs⟩ := hs
      cases hs
      refine h.setCloser fun hphase => ?_
      split at hphase
      · next hidle => exact hidle
      · cases hphase
  | wake k =>
      change State.wake s k = some t at hs
      rw [State.wake, Option.ite_none_right_eq_some] at hs
      obtain ⟨⟨-, hidle⟩, hs⟩ := hs
      cases hs
      exact h.setCloser fun _ => hidle
  | expire k =>
      change State.expire s k = some t at hs
      rw [State.expire, Option.ite_none_right_eq_some] at hs
      obtain ⟨-, hs⟩ := hs
      cases hs
      exact h.setCloser fun hphase => by cases hphase
  | terminate k => exact h.terminate hs
  | release k =>
      change State.release s k = some t at hs
      rw [State.release, Option.ite_none_right_eq_some] at hs
      obtain ⟨hphase, hs⟩ := hs
      cases hs
      exact (h.closeRuntimes (h.releasing k hphase)).setCloser fun hphase => by cases hphase
  | releaseLast =>
      change State.releaseLast s = some t at hs
      rw [State.releaseLast, Option.ite_none_left_eq_some] at hs
      obtain ⟨hpos, hs⟩ := hs
      cases hs
      refine Orderly.closeRuntimes ?_ (h.releasers (Nat.pos_of_ne_zero hpos))
      exact { h with releasers := fun hpos' => h.releasers (Nat.lt_of_lt_of_le hpos' (Nat.sub_le _ 1)) }

end State

end GoSdk
