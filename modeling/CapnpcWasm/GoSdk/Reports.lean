import CapnpcWasm.GoSdk.Orderly

/-!
# What a cancelled job reports

A job whose context ended returns `ErrClosed` when `Close` ended it and the error of its
caller's context otherwise, as long as `Close` ends no context between the two reads of
the `jobErr` at the start of a job.  There the first read sees a live context and the
second its error, so the job returns `context.Canceled` for a context that `Close` ended.
`run` calls `jobErr` again before it returns the error, and has no such state.
-/

namespace GoSdk

namespace Call

variable {c c' : Call} {m : Move}

/-- `Close` ended the context of the job. -/
def endedByClose (c : Call) : Bool := c.ctx.any (·.closed)

/-- A context error that the call returns says how its context ended. -/
def Truthful (c : Call) : Prop :=
  ∀ e, c.report = some e → (e = .closed ↔ c.endedByClose = true) ∧
    (e ≠ .closed → ∃ err, c.caller = some err ∧ e = err.toEnd)

/-- Between the two reads at the start of the body, with a live context. -/
def unsure (c : Call) : Bool := c.phase = .checking .err && c.ctx.isNone

/-! ## The invariant of a call -/

/-- The context error is that of a context that ended. -/
def Told (c : Call) (e : ContextEnd) : Prop :=
  ∃ x, c.ctx = some x ∧
    if x.closed then e = .closed else e = x.err.toEnd ∧ c.caller = some x.err

/-- What the reads done so far say about the context. -/
def ReadSoFar (c : Call) : Prop :=
  match c.phase with
  | .refused .cause | .reporting .cause => c.ctx ≠ none
  | .refused .err | .reporting .err => ∃ x, c.ctx = some x ∧ x.closed = false
  | .checking .err => ∀ x, c.ctx = some x → x.closed = false
  | _ => True

/-- Before `cancel(nil)`. -/
def live (c : Call) : Bool :=
  match c.phase with
  | .freeing _ | .unregistering _ | .returned _ => false
  | _ => true

structure Sound (c : Call) : Prop where
  linked : c.live = true → ∀ x, c.ctx = some x → x.closed = false → c.caller = some x.err
  reads : c.ReadSoFar
  told : ∀ e, c.report = some e → c.Told e

theorem toEnd_ne_closed (err : ContextError) : err.toEnd ≠ .closed := by
  cases err <;> decide

theorem Sound.truthful (h : c.Sound) : c.Truthful := by
  intro e he
  obtain ⟨x, hx, hxe⟩ := h.told e he
  rw [endedByClose, hx, Option.any_some]
  split at hxe
  · next hclosed =>
    subst hxe
    exact ⟨by simp [hclosed], fun hne => absurd rfl hne⟩
  · next hclosed =>
    obtain ⟨rfl, hcaller⟩ := hxe
    exact ⟨by simp [hclosed, toEnd_ne_closed], fun _ => ⟨x.err, hcaller, rfl⟩⟩

theorem sound_start : start.Sound where
  linked _ x hx := by cases hx
  reads := trivial
  told e he := by cases he

/-- A call that `begin` registers. -/
theorem sound_registered (c : Call) {phase : Phase}
    (hphase : phase = .waiting ∨ phase = .checking .cause) :
    ({ c with ctx := c.caller.map fun e => ⟨e, false⟩, phase := phase } : Call).Sound where
  linked _ x hx _ := by
    obtain ⟨e, he, rfl⟩ := Option.map_eq_some_iff.mp hx
    exact he
  reads := by
    rcases hphase with rfl | rfl
    · trivial
    · trivial
  told e he := by
    rcases hphase with rfl | rfl
    · cases he
    · cases he

/-- A context that ends, for a call whose reads allow it. -/
theorem Sound.ended (h : c.Sound) {x : Ended}
    (hlinked : c.ctx = none → c.live = true → x.closed = false → c.caller = some x.err)
    (hunsure : c.unsure = true → x.closed = false) :
    { c with ctx := c.ctx.or (some x) }.Sound := by
  cases hctx : c.ctx with
  | some y =>
      rw [Option.some_or, ← hctx]
      exact h
  | none =>
      rw [Option.none_or]
      exact {
        linked := by
          rintro hlive y hy hclosed
          cases hy
          exact hlinked hctx hlive hclosed
        reads := by
          have hreads := h.reads
          rw [ReadSoFar, hctx] at hreads
          rw [ReadSoFar]
          dsimp only
          split
          · exact Option.some_ne_none x
          · exact Option.some_ne_none x
          · next hphase =>
            rw [hphase] at hreads
            obtain ⟨y, hy, -⟩ := hreads
            cases hy
          · next hphase =>
            rw [hphase] at hreads
            obtain ⟨y, hy, -⟩ := hreads
            cases hy
          · next hphase =>
            rintro y hy
            cases hy
            exact hunsure (by simp [unsure, hphase, hctx])
          · trivial
        told := by
          intro e he
          obtain ⟨y, hy, -⟩ := h.told e he
          rw [hctx] at hy
          cases hy }

theorem Sound.terminate (h : c.Sound) (hunsure : c.unsure = false) : c.terminate.Sound :=
  h.ended (fun _ _ hx => by cases hx) fun hu => by
    rw [hunsure] at hu
    cases hu

/-- A step of `jobErr` on the cause. -/
theorem jobErr_cause {ctx : Option Ended} : jobErr ctx .cause = .inr (some .closed) ∧
      (∃ x, ctx = some x ∧ x.closed = true) ∨
    jobErr ctx .cause = .inl .err ∧ ∀ x, ctx = some x → x.closed = false := by
  cases ctx with
  | none => exact .inr ⟨rfl, fun x hx => by cases hx⟩
  | some x =>
      cases hx : x.closed with
      | true => exact .inl ⟨by simp [jobErr, hx], x, rfl, hx⟩
      | false =>
          refine .inr ⟨by simp [jobErr, hx], ?_⟩
          rintro y hy
          cases hy
          exact hx

/-- A call that goes on before its `cancel(nil)`, in the same context. -/
theorem Sound.goTo (h : c.Sound) (hlive : c.live = true) {admitted : Bool} {phase : Phase}
    (hreads : ({ c with phase := phase } : Call).ReadSoFar)
    (htold : ∀ e, ({ c with phase := phase } : Call).report = some e → c.Told e) :
    ({ c with admitted := admitted, phase := phase } : Call).Sound where
  linked _ := h.linked hlive
  reads := hreads
  told := htold

/-- The steps of `done` after its `cancel(nil)`. -/
theorem Sound.leave (h : c.Sound) {phase : Phase}
    (hdead : ({ c with phase := phase } : Call).live = false)
    (hreport : ({ c with phase := phase } : Call).report = c.report) :
    ({ c with phase := phase } : Call).Sound where
  linked hlive := by
    rw [hdead] at hlive
    cases hlive
  reads := by
    unfold live at hdead
    unfold ReadSoFar
    dsimp only at hdead ⊢
    split at hdead
    · trivial
    · trivial
    · trivial
    · cases hdead
  told e he := h.told e (hreport ▸ he)

theorem Sound.toReport (h : c.Sound) (hlive : c.live = true) {x : Ended} (hx : c.ctx = some x)
    {e : ContextEnd} (he : e = if x.closed then .closed else x.err.toEnd) :
    ({ c with phase := .cancelling (some e) } : Call).Sound := by
  refine h.goTo hlive trivial fun e' he' => ⟨x, hx, ?_⟩
  cases he'
  subst he
  cases hclosed : x.closed with
  | true => simp
  | false => simpa using h.linked hlive x hx hclosed

/-- The two reads of a `jobErr` in a context that ended, whose result the call returns. -/
theorem Sound.readEnded (h : c.Sound) (hlive : c.live = true) {f : Reading → Phase}
    {r : Reading} (hcause : r = .cause → c.ctx ≠ none)
    (herr : r = .err → ∃ x, c.ctx = some x ∧ x.closed = false)
    (hreads : ∀ x, c.ctx = some x → x.closed = false →
      ({ c with phase := f .err } : Call).ReadSoFar)
    (hquiet : ({ c with phase := f .err } : Call).report = none)
    (hc : c' = match jobErr c.ctx r with
      | .inl r => { c with phase := f r }
      | .inr report => { c with phase := .cancelling report }) : c'.Sound := by
  cases r with
  | cause =>
      obtain ⟨x, hx⟩ := Option.ne_none_iff_exists'.mp (hcause rfl)
      rcases @jobErr_cause c.ctx with ⟨hread, y, hy, hclosed⟩ | ⟨hread, hopen⟩
      · rw [hread] at hc
        subst hc
        exact h.toReport hlive hy (by rw [hclosed, if_pos rfl])
      · rw [hread] at hc
        subst hc
        refine h.goTo hlive (hreads x hx (hopen x hx)) fun e he => ?_
        rw [hquiet] at he
        cases he
  | err =>
      obtain ⟨x, hx, hclosed⟩ := herr rfl
      have hread : jobErr c.ctx .err = .inr (some x.err.toEnd) := by rw [jobErr, hx, Option.map_some]
      rw [hread] at hc
      subst hc
      exact h.toReport hlive hx (by simp [hclosed])

theorem Sound.read (h : c.Sound) (hc : c.read = some c') : c'.Sound := by
  have hreads := h.reads
  rw [Call.read] at hc
  rw [ReadSoFar] at hreads
  split at hc
  · next r hphase =>
    rw [hphase] at hreads
    refine h.readEnded (f := .refused) (r := r) (by rw [live, hphase]) ?_ ?_ ?_ rfl ?_
    · rintro rfl
      exact hreads
    · rintro rfl
      exact hreads
    · exact fun x hx hclosed => ⟨x, hx, hclosed⟩
    · rcases hread : jobErr c.ctx r with r' | report
      · rw [hread] at hc
        exact (Option.some.inj hc).symm
      · rw [hread] at hc
        exact (Option.some.inj hc).symm
  · next r hphase =>
    have hlive : c.live = true := by rw [live, hphase]
    rw [hphase] at hreads
    cases r with
    | cause =>
        rcases @jobErr_cause c.ctx with ⟨hread, x, hx, hclosed⟩ | ⟨hread, hopen⟩
        · rw [hread] at hc
          cases hc
          exact h.toReport hlive hx (by rw [hclosed, if_pos rfl])
        · rw [hread] at hc
          cases hc
          exact h.goTo hlive hopen fun e he => by cases he
    | err =>
        cases hctx : c.ctx with
        | none =>
            rw [jobErr, hctx] at hc
            cases hc
            rw [← hctx]
            exact h.goTo hlive trivial fun e he => by cases he
        | some x =>
            rw [jobErr, hctx] at hc
            cases hc
            rw [← hctx]
            exact h.toReport hlive hctx (by simp [hreads x hctx])
  · next r hphase =>
    have hlive : c.live = true := by rw [live, hphase]
    split at hc
    · cases hc
      exact h.goTo hlive trivial fun e he => by cases he
    · cases hc
      exact h.goTo hlive trivial fun e he => by cases he
    · next e hread =>
      cases hc
      refine h.goTo hlive ?_ fun e he => by cases he
      -- A context error is read off a context that ended.
      change c.ctx ≠ none
      intro hctx
      cases r with
      | cause =>
          rw [hctx] at hread
          cases hread
      | err =>
          rw [hctx] at hread
          cases hread
  · next r hphase =>
    rw [hphase] at hreads
    refine h.readEnded (f := .reporting) (r := r) (by rw [live, hphase]) ?_ ?_ ?_ rfl ?_
    · rintro rfl
      exact hreads
    · rintro rfl
      exact hreads
    · exact fun x hx hclosed => ⟨x, hx, hclosed⟩
    · rcases hread : jobErr c.ctx r with r' | report
      · rw [hread] at hc
        exact (Option.some.inj hc).symm
      · rw [hread] at hc
        exact (Option.some.inj hc).symm
  · cases hc

/-- No move of the call itself makes it report anything but how its context ended. -/
theorem Sound.move (h : c.Sound) (hc : c.move m = some c') : c'.Sound := by
  cases m with
  | callerEnds e =>
      rw [Call.move, Option.ite_none_right_eq_some] at hc
      obtain ⟨hnone, hc⟩ := hc
      cases hc
      exact {
        linked := by
          intro hlive x hx hclosed
          have := h.linked hlive x hx hclosed
          rw [hnone] at this
          cases this
        reads := h.reads
        told := by
          intro e' he'
          obtain ⟨x, hx, hxe⟩ := h.told e' he'
          refine ⟨x, hx, ?_⟩
          split at hxe
          · next hclosed =>
            rw [if_pos hclosed]
            exact hxe
          · rw [hnone] at hxe
            cases hxe.2 }
  | propagate =>
      rw [Call.move, Option.ite_none_right_eq_some] at hc
      obtain ⟨-, hc⟩ := hc
      obtain ⟨e, he, rfl⟩ := Option.map_eq_some_iff.mp hc
      exact h.ended (fun _ _ _ => he) fun _ => rfl
  | refuse =>
      rw [Call.move, Option.ite_none_right_eq_some] at hc
      obtain ⟨⟨hphase, hctx⟩, hc⟩ := hc
      cases hc
      exact h.goTo (by rw [live, hphase]) hctx fun e he => by cases he
  | read => exact h.read hc
  | guestEnds =>
      rw [Call.move, Option.ite_none_right_eq_some] at hc
      obtain ⟨hphase, hc⟩ := hc
      cases hc
      exact h.goTo (by rw [live, hphase]) trivial fun e he => by cases he
  | finish =>
      rw [Call.move, Option.ite_none_right_eq_some] at hc
      obtain ⟨hphase, hc⟩ := hc
      cases hc
      exact h.goTo (by rw [live, hphase]) trivial fun e he => by cases he
  | cancel =>
      rw [Call.move] at hc
      split at hc
      · next r hphase =>
        cases hc
        refine ⟨fun hlive => (by cases hlive), trivial, fun e he => ?_⟩
        obtain ⟨x, hx, hxe⟩ := h.told e (by rw [report, hphase]; exact he)
        exact ⟨x, by rw [hx, Option.some_or], hxe⟩
      · cases hc

end Call

/-! ## The compiler -/

/-- `Close` ends no context between the two reads at the start of a job. -/
def calm (s : State) : Event → Bool
  | .terminate _ => ∀ i ∈ s.jobs, (s.calls i).unsure = false
  | _ => true

namespace State

variable {maxJobs : Nat} {s t : State} {es : List Event} {e : Event}

/-- Every call's reads and reports are sound. -/
def Sound (s : State) : Prop := ∀ i, (s.calls i).Sound

theorem Sound.setCall {i : Nat} {c : Call} (h : s.Sound) (hc : c.Sound) : (s.setCall i c).Sound := by
  intro j
  rw [setCall_calls]
  split
  · exact hc
  · exact h j

theorem Sound.closeRuntimes (h : s.Sound) : s.closeRuntimes.Sound := by
  rw [State.closeRuntimes]
  split
  · exact h
  · exact h

/-- A calm step keeps every report sound. -/
theorem Sound.step (h : s.Sound) (hs : Steps maxJobs s e t) (hcalm : calm s e = true) : t.Sound := by
  cases e with
  | call i m =>
      obtain ⟨c, hc, rfl⟩ := Option.map_eq_some_iff.mp hs
      exact h.setCall ((h i).move hc)
  | enter i =>
      change State.enter maxJobs s i = some t at hs
      rw [State.enter, Option.ite_none_left_eq_some, not_not] at hs
      obtain ⟨hphase, hs⟩ := hs
      have hlive : (s.calls i).live = true := by rw [Call.live, hphase]
      split at hs
      · cases hs
        exact h.setCall ((h i).goTo hlive trivial fun e he => by cases he)
      · cases hs
        refine setCall (s := { s with jobs := insert i s.jobs }) h (Call.sound_registered _ ?_)
        split
        · exact .inl rfl
        · exact .inr rfl
  | acquire i =>
      change State.acquire maxJobs s i = some t at hs
      rw [State.acquire, Option.ite_none_right_eq_some] at hs
      obtain ⟨⟨hphase, -⟩, hs⟩ := hs
      cases hs
      refine setCall (s := { s with slots := s.slots + 1 }) h ?_
      exact (h i).goTo (by rw [Call.live, hphase]) trivial fun e he => by cases he
  | free i =>
      change State.free s i = some t at hs
      rw [State.free] at hs
      split at hs
      · next r hphase =>
        have hleave : ({ s.calls i with phase := .unregistering r } : Call).Sound :=
          (h i).leave rfl (by rw [Call.report, Call.report, hphase])
        split at hs
        · rw [Option.ite_none_left_eq_some] at hs
          obtain ⟨-, hs⟩ := hs
          cases hs
          exact setCall (s := { s with slots := s.slots - 1 }) h hleave
        · cases hs
          exact h.setCall hleave
      · cases hs
  | unregister i =>
      change State.unregister s i = some t at hs
      rw [State.unregister] at hs
      split at hs
      · next r hphase =>
        have hleave : ({ s.calls i with phase := .returned r } : Call).Sound :=
          (h i).leave rfl (by rw [Call.report, Call.report, hphase])
        have hnext := setCall (i := i) (s := { s with jobs := s.jobs.erase i }) h hleave
        dsimp only at hs
        split at hs
        · cases hs
          exact hnext
        · cases hs
          exact hnext
      · cases hs
  | close k =>
      change State.close s k = some t at hs
      rw [State.close, Option.ite_none_left_eq_some] at hs
      obtain ⟨-, hs⟩ := hs
      split at hs
      · cases hs
        exact h
      · cases hs
        exact h
  | poll k =>
      change State.poll s k = some t at hs
      rw [State.poll, Option.ite_none_right_eq_some] at hs
      obtain ⟨-, hs⟩ := hs
      cases hs
      exact h
  | wake k =>
      change State.wake s k = some t at hs
      rw [State.wake, Option.ite_none_right_eq_some] at hs
      obtain ⟨-, hs⟩ := hs
      cases hs
      exact h
  | expire k =>
      change State.expire s k = some t at hs
      rw [State.expire, Option.ite_none_right_eq_some] at hs
      obtain ⟨-, hs⟩ := hs
      cases hs
      exact h
  | terminate k =>
      change State.terminate s k = some t at hs
      rw [State.terminate, Option.ite_none_right_eq_some] at hs
      obtain ⟨-, hs⟩ := hs
      cases hs
      intro i
      change (if i ∈ s.jobs then (s.calls i).terminate else s.calls i).Sound
      split
      -- a calm run terminates no call between its two reads of the context
      · next hi => exact (h i).terminate (of_decide_eq_true hcalm i hi)
      · exact h i
  | release k =>
      change State.release s k = some t at hs
      rw [State.release, Option.ite_none_right_eq_some] at hs
      obtain ⟨-, hs⟩ := hs
      cases hs
      exact h.closeRuntimes
  | releaseLast =>
      change State.releaseLast s = some t at hs
      rw [State.releaseLast, Option.ite_none_left_eq_some] at hs
      obtain ⟨-, hs⟩ := hs
      cases hs
      exact closeRuntimes (s := { s with releasers := s.releasers - 1 }) h

theorem sound_init : init.Sound := fun _ => Call.sound_start

/-- The idle channel is closed at most once; the runtimes are released at most once, and
only when the compiler is closed and no job is registered; and the occupied slots are
those of the jobs that hold one, and within the bound if there is one. -/
structure Safe (maxJobs : Nat) (s : State) : Prop where
  idle : s.idle ≤ 1
  releases : s.releases ≤ 1
  released : 0 < s.releases → s.closed = true ∧ s.jobs = ∅
  registered : ∀ i, i ∈ s.jobs ↔ (s.calls i).registered = true
  holders : ∀ i, (s.calls i).holds = true → i ∈ s.jobs
  slots : s.slots = (s.jobs.filter fun i => (s.calls i).holds = true).card
  bounded : s.slots ≤ maxJobs

theorem Orderly.safe (h : s.Orderly maxJobs) : s.Safe maxJobs where
  idle := by
    rw [h.idle]
    split
    · exact Nat.le_refl 1
    · exact Nat.zero_le 1
  releases := by
    rw [h.releases]
    split
    · exact Nat.le_refl 1
    · exact Nat.zero_le 1
  released hpos := by
    rw [h.releases] at hpos
    split at hpos
    · next hreleased => exact h.idle_pos.mp (h.released hreleased)
    · cases hpos
  registered := h.jobs
  holders i hi := (h.jobs i).mpr (Call.registered_of_holds hi)
  slots := h.slots
  bounded := h.bounded

end State

/-- A run of a compiler. -/
abbrev CompilerRun (maxJobs : Nat) (es : List Event) (s : State) : Prop :=
  Trace (Steps maxJobs) .init es s

/-- A run in which `Close` ends no context between the two reads at the start of a job. -/
abbrev CalmRun (maxJobs : Nat) (es : List Event) (s : State) : Prop :=
  Trace (fun s e t => Steps maxJobs s e t ∧ calm s e = true) .init es s

section

variable {maxJobs : Nat} {es : List Event} {s t : State}

theorem run_orderly (h : CompilerRun maxJobs es s) : s.Orderly maxJobs :=
  h.invariant (I := fun s => s.Orderly maxJobs) (fun _ _ _ hs he => hs.step he)
    State.orderly_init

theorem calmRun_sound (h : CalmRun maxJobs es s) : s.Sound :=
  h.invariant (I := State.Sound) (fun _ _ _ hs he => hs.step he.1 he.2) State.sound_init

theorem CalmRun.run (h : CalmRun maxJobs es s) : CompilerRun maxJobs es s := by
  induction h with
  | nil => exact .nil
  | snoc _ hs ih => exact ih.snoc hs.1

/-- A `Close` that ends the context of an unsure call makes it report `context.Canceled`. -/
theorem unsure_misreports {i k : Nat} (hi : i ∈ s.jobs) (hunsure : (s.calls i).unsure = true)
    (hs : Steps maxJobs s (.terminate k) t) :
    ∃ u, Steps maxJobs t (.call i .read) u ∧ ¬(u.calls i).Truthful := by
  change State.terminate s k = some t at hs
  rw [State.terminate, Option.ite_none_right_eq_some] at hs
  obtain ⟨-, hs⟩ := hs
  cases hs
  rw [Call.unsure, Bool.and_eq_true, decide_eq_true_eq, Option.isNone_iff_eq_none] at hunsure
  obtain ⟨hphase, hctx⟩ := hunsure
  have hread : (if i ∈ s.jobs then (s.calls i).terminate else s.calls i).move .read =
      some ⟨(s.calls i).caller, some ⟨.canceled, true⟩, (s.calls i).admitted,
        .cancelling (some .canceled)⟩ := by
    rw [if_pos hi, Call.move, Call.read, Call.terminate, hctx, hphase]
    rfl
  refine ⟨_, congrArg (Option.map _) hread, fun htruthful => ?_⟩
  rw [State.setCall_calls, if_pos rfl] at htruthful
  have := (htruthful .canceled rfl).1.mpr rfl
  cases this

end

/-- The compiler's bookkeeping is safe in every run.  A job whose context ended reports
`ErrClosed` if and only if `Close` ended it, and otherwise its caller's error, in every run
in which no `Close` ends a context between the two reads at the start of a job; where one
does, the job misreports. -/
theorem lifecycle_holds_when (maxJobs : Nat) :
    (∀ es s, CompilerRun maxJobs es s → s.Safe maxJobs) ∧
    (∀ es s, CalmRun maxJobs es s → s.Safe maxJobs ∧ ∀ i, (s.calls i).Truthful) ∧
    ∀ es s t k, CompilerRun maxJobs es s → Steps maxJobs s (.terminate k) t →
      calm s (.terminate k) = false →
        ∃ i u, Steps maxJobs t (.call i .read) u ∧ ¬(u.calls i).Truthful := by
  refine ⟨fun es s h => (run_orderly h).safe, fun es s h => ?_, fun es s t k _ hs hwild => ?_⟩
  · exact ⟨(run_orderly h.run).safe, fun i => (calmRun_sound h i).truthful⟩
  · rw [calm, decide_eq_false_iff_not] at hwild
    push Not at hwild
    obtain ⟨i, hi, hunsure⟩ := hwild
    obtain ⟨u, hu⟩ := unsure_misreports hi (Bool.ne_false_iff.mp hunsure) hs
    exact ⟨i, u, hu⟩

/-- `Close` ends the context of a job after the job read its cause, and the job returns
`context.Canceled`. -/
theorem lifecycle_misreports : ∃ es s, CompilerRun 0 es s ∧
    s.calls 0 = ⟨none, some ⟨.canceled, true⟩, false, .returned (some .canceled)⟩ ∧
    ¬(s.calls 0).Truthful := by
  let es : List Event := [.enter 0, .call 0 .read, .close 0, .poll 0, .expire 0, .terminate 0,
    .call 0 .read, .call 0 .cancel, .free 0, .unregister 0]
  have hrun : (es.foldlM (State.step 0) State.init).isSome = true := rfl
  refine ⟨es, _, Trace.of_foldlM (Option.some_get hrun).symm, rfl, fun htruthful => ?_⟩
  have := (htruthful .canceled rfl).1.mpr rfl
  cases this

/-- `Close` ends the context of a running job, and the job returns `ErrClosed`. -/
theorem lifecycle_holds_when_sample : ∃ es s, CalmRun 1 es s ∧
    s.calls 0 = ⟨none, some ⟨.canceled, true⟩, true, .returned (some .closed)⟩ ∧
    s.Safe 1 ∧ (s.calls 0).Truthful := by
  let es : List Event := [.enter 0, .acquire 0, .call 0 .read, .call 0 .read, .close 0, .poll 0,
    .expire 0, .terminate 0, .call 0 .guestEnds, .call 0 .read, .call 0 .read, .call 0 .cancel,
    .free 0, .unregister 0, .releaseLast]
  let next : State → Event → Option State := fun s e => if calm s e then s.step 1 e else none
  have hrun : (es.foldlM next State.init).isSome = true := rfl
  have htrace : CalmRun 1 es ((es.foldlM next State.init).get hrun) := by
    refine (Trace.of_foldlM (Option.some_get hrun).symm).mono fun s e t h => ?_
    rw [Option.ite_none_right_eq_some] at h
    exact ⟨h.2, h.1⟩
  obtain ⟨hsafe, htruthful⟩ := (lifecycle_holds_when 1).2.1 _ _ htrace
  exact ⟨es, _, htrace, rfl, hsafe, htruthful 0⟩

end GoSdk
