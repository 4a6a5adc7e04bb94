import CapnpcWasm.Worker.Runs
import CapnpcWasm.Worker.Timers

/-!
# How a call ends

A call needs no worker to end: the timers it set settle whatever it waits for, and each of its
continuations brings it nearer to its end.

`Phase.rank` counts the continuations that are left.  A continuation lowers it and nothing but a new
call raises it (`Good.rank_step`), which bounds how often a call goes on (`goesOn_le`).  That it does
go on is `Good.goesOn`: what it waits for has settled, or the timer of what is pending is armed and
settles it.  Both together bring every reachable state to one without a call (`call_ends`), and the
grace period ends what may be left open then.
-/

namespace Worker

/-! ## The rank of a phase -/

/-- The continuations that a call has before it at most. -/
def Phase.rank : Phase → Nat
  | .fresh | .failed | .idle => 0
  | .creating _ | .exchanging _ | .refused _ => 1
  | .initialized => 2
  | .initializing _ => 3
  | .waiting _ _ | .settled => 4

section

variable {s s' : State} {e k n : Nat} {ev : Event} {evs : List Event}

/-! ### Continuations lower it -/

/-- Behind the post there is the reply. -/
theorem State.rank_post (s : State) (late aborted posts : Bool) :
    (s.post late aborted posts).phase.rank ≤ 1 := by
  rw [State.post]
  split
  · exact Nat.zero_le 1
  · split <;> exact Nat.le_refl 1

/-- Behind the start there is the start-up, and then the post. -/
theorem State.rank_start (s : State) (late aborted posts : Bool) :
    (s.start late aborted posts).phase.rank ≤ 3 := by
  rw [State.start]
  split
  · exact Nat.zero_le 3
  · split
    · exact (s.rank_post late aborted posts).trans (by decide)
    · rw [State.initialize_]
      dsimp only
      split
      · exact Nat.le_refl 3
      · exact Nat.le_add_left 1 2

/-- Behind the start-up the call goes on, or throws. -/
theorem State.rank_initialized {returns throws : State → State}
    (hs : s.initialized e returns throws = some s')
    (hreturns : ∀ t : State, (returns t).phase.rank ≤ n)
    (hthrows : ∀ t : State, (throws t).phase.rank ≤ n) : s'.phase.rank ≤ n := by
  rw [State.initialized] at hs
  dsimp only at hs
  split at hs
  · cases hs
  · cases hs
    exact hreturns _
  · cases hs
    exact hthrows _

/-- Each continuation lowers the rank. -/
theorem State.rank_resume {late aborted posts : Bool}
    (hs : s.resume late aborted posts = some s') : s'.phase.rank < s.phase.rank := by
  rw [State.resume] at hs
  split at hs
  · next e hphase =>
    rw [hphase]
    exact Nat.lt_succ_of_le (State.rank_initialized hs (fun t => Nat.le_refl 0) fun t => Nat.le_refl 0)
  · next e hphase =>
    cases hs
    rw [hphase]
    exact Nat.lt_succ_of_le (s.rank_start late aborted posts)
  · next e hphase =>
    cases hs
    rw [hphase]
    exact Nat.zero_lt_succ 3
  · next hphase =>
    cases hs
    rw [hphase]
    exact Nat.lt_succ_of_le (s.rank_start late aborted posts)
  · next e hphase =>
    rw [hphase]
    exact Nat.lt_succ_of_le
      (State.rank_initialized hs (fun t => Nat.le_refl 2) fun t => Nat.zero_le 2)
  · next hphase =>
    cases hs
    rw [hphase]
    exact Nat.lt_succ_of_le (s.rank_post late aborted posts)
  · next e hphase =>
    split at hs
    · cases hs
    · cases hs
      rw [hphase]
      exact Nat.zero_lt_one
  · next hphase =>
    cases hs
    rw [hphase]
    exact Nat.zero_lt_one
  · next current hphase =>
    cases hs
    rw [hphase]
    exact Nat.zero_lt_one
  · cases hs

/-! ### Nothing else raises it, but a new call -/

/-- The call goes on. -/
def Event.goesOn : Event → Bool
  | .resume _ _ _ => true
  | _ => false

/-- The factory or a call begins.  A call on a disposed or a busy client rejects. -/
def Event.Begins (s : State) : Event → Prop
  | .create _ => True
  | .call => s.disposed = false ∧ s.busy = false
  | _ => False

/-- An interrupt settles a promise.  What waits for it goes on later. -/
theorem Good.phase_interrupt (h : Good s) (e : Nat) (timedOut : Bool) :
    (s.interrupt e timedOut).phase = s.phase := by
  rw [h.interrupt_eq]
  split
  · rfl
  · split <;> rfl

/-- So does a failure. -/
theorem Good.phase_terminate (h : Good s) (e : Nat) : (s.terminate e).phase = s.phase := by
  by_cases ho : s.Open e
  · rw [h.terminate_eq ho]
    rfl
  · rw [State.terminate_closed ho]

/-- The end of a wait is not a continuation yet. -/
theorem State.rank_finish (s : State) (ok : Bool) : (s.finish ok).phase.rank = s.phase.rank := by
  rw [State.finish]
  split
  · next e hphase =>
    rw [hphase]
    rfl
  · rfl

/-- Disposal ends the wait of a call, and the call goes on to throw. -/
theorem Good.rank_dispose (h : Good s) : s.dispose.phase.rank = s.phase.rank := by
  rcases h.disposes.phase with hphase | ⟨e, hphase, hphase'⟩
  · rw [hphase]
  · rw [hphase, hphase']
    rfl

/-- A step lowers the rank if the call goes on, and does not raise it unless a call begins. -/
theorem Good.rank_step (h : Good s) (hs : s.step ev = some s') (hev : ¬ev.Begins s) :
    s'.phase.rank + [ev].countP Event.goesOn ≤ s.phase.rank := by
  rw [State.step.eq_def] at hs
  cases ev with
  | create posts => exact absurd trivial hev
  -- a call that begins nothing is rejected, and leaves the client waiting where it was
  | call =>
      obtain ⟨-, rfl⟩ : s.usable = true ∧ s.runJob = s' := by simpa using hs
      have hrejects : s.disposed = true ∨ s.busy = true := by
        simpa [Event.Begins, imp_iff_not_or] using hev
      rw [State.runJob, if_pos hrejects]
      exact Nat.le_refl _
  -- every continuation lowers the rank, so the count of them is paid for
  | resume late aborted posts => exact State.rank_resume hs
  | timer e =>
      obtain ⟨-, hs⟩ := Option.ite_none_right_eq_some.mp hs
      cases hs
      exact (congrArg Phase.rank (h.phase_interrupt e true)).le
  | abort e =>
      obtain ⟨-, rfl⟩ : e < s.begun ∧ s.interrupt e false = s' := by simpa using hs
      exact (congrArg Phase.rank (h.phase_interrupt e false)).le
  | grace e =>
      obtain ⟨-, hs⟩ := Option.ite_none_right_eq_some.mp hs
      cases hs
      show (s.grace e).phase.rank ≤ s.phase.rank
      rw [State.grace]
      split
      · exact (congrArg Phase.rank (h.phase_terminate e)).le
      · exact Nat.le_refl _
  | fail e =>
      obtain ⟨-, rfl⟩ : e < s.begun ∧ s.terminate e = s' := by simpa using hs
      exact (congrArg Phase.rank (h.phase_terminate e)).le
  | expire =>
      obtain ⟨-, hs⟩ := Option.ite_none_right_eq_some.mp hs
      cases hs
      exact (s.rank_finish false).le
  | abandon =>
      cases hs
      exact (s.rank_finish false).le
  | wake =>
      dsimp only at hs
      split at hs
      · obtain ⟨-, hs⟩ := Option.ite_none_right_eq_some.mp hs
        cases hs
        exact (s.rank_finish true).le
      · cases hs
  | dispose =>
      obtain ⟨-, rfl⟩ : s.usable = true ∧ s.dispose = s' := by simpa using hs
      exact h.rank_dispose.le
  | take k =>
      obtain ⟨-, new, -, rfl⟩ : k < s.opened ∧ ∃ new, (s.sessions k).take = some new ∧
          s.setSession k new = s' := by simpa using hs
      exact Nat.le_refl _
  | finish k m ok =>
      obtain ⟨-, new, -, rfl⟩ : k < s.opened ∧ ∃ new, (s.sessions k).finish m ok = some new ∧
          s.setSession k new = s' := by simpa using hs
      exact Nat.le_refl _
  | poll k m =>
      obtain ⟨-, new, -, rfl⟩ : k < s.opened ∧ ∃ new, (s.sessions k).poll m = some new ∧
          s.setSession k new = s' := by simpa using hs
      exact Nat.le_refl _
  | deliver k reply =>
      obtain ⟨⟨-, hreply⟩, hs⟩ := Option.ite_none_right_eq_some.mp hs
      cases hs
      rcases h.deliver_eq hreply rfl with ⟨e, -, -, heq⟩ | ⟨-, heq⟩
      · rw [heq]
        exact Nat.le_refl _
      · rw [heq]
        exact Nat.le_refl _

/-- The client or a worker does the event, and no call begins. -/
def StepsOn (s : State) (ev : Event) (t : State) : Prop := Steps s ev t ∧ ¬ev.Begins s

/-- Until the next call begins, whatever else happens, a call goes on four times at most. -/
theorem goesOn_le (h : Reachable s) (hs : Trace StepsOn s evs s') :
    s'.phase.rank + evs.countP Event.goesOn ≤ s.phase.rank := by
  induction hs with
  | nil => exact Nat.le_refl _
  | @snoc evs t u ev hbefore hlast ih =>
      rw [List.countP_append]
      have hgood := (h.trans (hbefore.mono fun _ _ _ hstep => hstep.1)).good
      have hstep := hgood.rank_step hlast.1 hlast.2
      omega

/-- A second call on the busy client rejects, and the first one goes on. -/
theorem goesOn_le_timedOut : ∃ s s', Reachable s ∧
    Trace StepsOn s [.call, .resume false false true, .grace 1] s' ∧
      s'.phase.rank + [Event.call, .resume false false true, .grace 1].countP Event.goesOn ≤
        s.phase.rank := by
  have hs : (timedOut.foldlM State.step (.init true)).isSome := rfl
  have h := Reachable.of_foldlM (Option.some_get hs).symm
  have hrun : Trace StepsOn ((timedOut.foldlM State.step (.init true)).get hs)
    [.call, .resume false false true, .grace 1] _ :=
    .cons ⟨rfl, fun hbegins => Bool.noConfusion (show true = false from hbegins.2)⟩
      (.cons ⟨rfl, id⟩ (.cons ⟨rfl, id⟩ .nil))
  exact ⟨_, _, h, hrun, goesOn_le h hrun⟩

/-! ## The end of a call -/

/-- The timers that the client has set bring what is pending to an end in `n` events: whatever is left
of the time, whatever the caller's signal says, and whether or not messages can be posted, where the
call goes on. -/
inductive State.Ends : State → Nat → Prop where
  | done {s : State} {n : Nat} : s.phase.rank = 0 → (∀ e, ¬s.Open e) → Ends s n
  | resume {s : State} {n : Nat} (next : Bool → Bool → Bool → State) :
      (∀ late aborted posts, s.step (.resume late aborted posts) = some (next late aborted posts)) →
        (∀ late aborted posts, Ends (next late aborted posts) n) → Ends s (n + 1)
  | timer {s t : State} {n : Nat} (e : Nat) : s.deadlines e = .armed →
      s.step (.timer e) = some t → Ends t n → Ends s (n + 1)
  | expire {s t : State} {n : Nat} : s.expiry = .armed →
      s.step .expire = some t → Ends t n → Ends s (n + 1)
  | grace {s t : State} {n : Nat} (e : Nat) : s.graces e = .armed →
      s.step (.grace e) = some t → Ends t n → Ends s (n + 1)

/-- The call can go on. -/
def State.GoesOn (s : State) : Prop := ∀ late aborted posts, (s.resume late aborted posts).isSome

/-- The promise that the call awaits has settled. -/
theorem State.goesOn_of_outcomes (hphase : s.phase = .creating e ∨ s.phase = .initializing e ∨
    s.phase = .exchanging e) (houtcomes : (s.exchanges e).outcomes ≠ []) : s.GoesOn := by
  intro late aborted posts
  rw [State.resume]
  rcases hphase with hphase | hphase | hphase
  · rw [hphase]
    dsimp only
    rw [State.initialized]
    cases ho : (s.exchanges e).outcomes with
    | nil => exact absurd ho houtcomes
    | cons o rest => cases o <;> rfl
  · rw [hphase]
    dsimp only
    rw [State.initialized]
    cases ho : (s.exchanges e).outcomes with
    | nil => exact absurd ho houtcomes
    | cons o rest => cases o <;> rfl
  · rw [hphase]
    dsimp only
    rw [if_neg houtcomes]
    rfl

/-- What is pending has no more than its deadline. -/
theorem Good.deadline (h : Good s) (htimed : s.Timed) (hlt : e < s.begun) (hphase : s.phase =
    .creating e ∨ s.phase = .initializing e ∨ s.phase = .exchanging e) :
    s.GoesOn ∨ s.deadlines e = .armed ∧ ∃ t, s.step (.timer e) = some t ∧ t.GoesOn := by
  by_cases houtcomes : (s.exchanges e).outcomes = []
  · right
    have hrunning : (s.exchanges e).stage = .running := by
      have horderly := h.orderly e hlt
      cases hstage : (s.exchanges e).stage with
      | running => rfl
      | stopping =>
          simp only [Exchange.Orderly, hstage, houtcomes] at horderly
          cases horderly.1
      | closed =>
          simp only [Exchange.Orderly, hstage, houtcomes] at horderly
          obtain ⟨-, o, ho, -⟩ := horderly
          cases ho
    have harmed := htimed.deadline e hrunning
    refine ⟨harmed, _, if_pos ⟨hlt, by simp [harmed]⟩, State.goesOn_of_outcomes (e := e) ?_ ?_⟩
    · exact (h.phase_interrupt e true).symm ▸ hphase
    · show ((s.interrupt e true).exchanges e).outcomes ≠ []
      rw [h.interrupt_eq, if_neg (not_not.mpr hrunning)]
      split
      · rw [show (s.ended e).exchanges e = _ from Function.update_self ..]
        simp [Exchange.ended, hrunning]
      · rw [show (s.stopping e).exchanges e = _ from Function.update_self ..]
        simp
  · exact .inl (State.goesOn_of_outcomes hphase houtcomes)

/-- A call can go on at once, or once the timer ran that it set. -/
theorem Good.goesOn (h : Good s) (htimed : s.Timed) (hrank : s.phase.rank ≠ 0) : s.GoesOn ∨
    (∃ e, s.deadlines e = .armed ∧ ∃ t, s.step (.timer e) = some t ∧ t.GoesOn) ∨
      s.expiry = .armed ∧ ∃ t, s.step .expire = some t ∧ t.GoesOn := by
  have hfits := h.fits
  cases hphase : s.phase with
  | fresh | failed | idle => exact absurd (congrArg Phase.rank hphase) hrank
  | creating e =>
      rw [hphase] at hfits
      exact (h.deadline htimed hfits.1 (.inl hphase)).imp_right fun ht => .inl ⟨e, ht⟩
  | initializing e =>
      rw [hphase] at hfits
      exact (h.deadline htimed hfits.1 (.inr (.inl hphase))).imp_right fun ht => .inl ⟨e, ht⟩
  | exchanging e =>
      rw [hphase] at hfits
      exact (h.deadline htimed hfits.1 (.inr (.inr hphase))).imp_right fun ht => .inl ⟨e, ht⟩
  | waiting e finished =>
      cases finished with
      | none =>
          have harmed := htimed.expiry e hphase
          refine .inr (.inr ⟨harmed, _, if_pos (by simp [harmed]), fun late aborted posts => ?_⟩)
          simp [State.finish, hphase, State.resume]
      | some ok =>
          left
          intro late aborted posts
          cases ok <;> simp [State.resume, hphase]
  | settled | initialized =>
      left
      intro late aborted posts
      simp [State.resume, hphase]
  | refused current =>
      left
      intro late aborted posts
      cases current <;> simp [State.resume, hphase]

/-- More time does no harm. -/
theorem State.Ends.mono {m : Nat} (h : s.Ends m) (hle : m ≤ n) : s.Ends n := by
  induction h generalizing n with
  | done hrank hnone => exact .done hrank hnone
  | resume next hnext _ ih =>
      obtain ⟨n, rfl⟩ := Nat.exists_eq_succ_of_ne_zero (Nat.ne_of_gt (Nat.zero_lt_of_lt hle))
      exact .resume next hnext fun late aborted posts =>
        ih late aborted posts (Nat.le_of_succ_le_succ hle)
  | timer e harmed hs _ ih =>
      obtain ⟨n, rfl⟩ := Nat.exists_eq_succ_of_ne_zero (Nat.ne_of_gt (Nat.zero_lt_of_lt hle))
      exact .timer e harmed hs (ih (Nat.le_of_succ_le_succ hle))
  | expire harmed hs _ ih =>
      obtain ⟨n, rfl⟩ := Nat.exists_eq_succ_of_ne_zero (Nat.ne_of_gt (Nat.zero_lt_of_lt hle))
      exact .expire harmed hs (ih (Nat.le_of_succ_le_succ hle))
  | grace e harmed hs _ ih =>
      obtain ⟨n, rfl⟩ := Nat.exists_eq_succ_of_ne_zero (Nat.ne_of_gt (Nat.zero_lt_of_lt hle))
      exact .grace e harmed hs (ih (Nat.le_of_succ_le_succ hle))

/-- Without a call, what may be open is a job that stops, and its grace period ends. -/
theorem Good.ends_idle (h : Good s) (htimed : s.Timed) (hrank : s.phase.rank = 0) : s.Ends 1 := by
  by_cases hopen : ∃ e, s.Open e
  · obtain ⟨e, ho⟩ := hopen
    have hstage : (s.exchanges e).stage = .stopping := by
      refine (State.stage_of_open ho).resolve_left fun hrunning => ?_
      have hfits := h.fits
      cases hphase : s.phase with
      | fresh =>
          rw [hphase] at hfits
          have hlt := h.lt_begun ho
          rw [hfits.1] at hlt
          exact absurd hlt (Nat.not_lt_zero e)
      | failed =>
          rw [hphase] at hfits
          exact hfits e ho
      | idle =>
          rw [hphase] at hfits
          exact hfits e hrunning
      | creating e' | waiting e' finished | settled | initializing e' | initialized | exchanging e'
      | refused current =>
          rw [hphase] at hrank
          cases hrank
    have harmed := htimed.grace e hstage
    have hgrace : s.step (.grace e) = some ((s.ended e).setGrace e .idle) := by
      rw [State.step.eq_def]
      simp [h.lt_begun ho, h.grace_eq, hstage, harmed]
    refine .grace e harmed hgrace (.done hrank fun e' ho' => ?_)
    change (s.ended e).Open e' at ho'
    -- The job was all that was open.
    have hself := (h.change_ended ho).open_self h.toSound ho ho'
    rw [State.Open, hself, show (s.ended e).exchanges e = _ from Function.update_self ..] at ho'
    exact ho' rfl
  · exact .done hrank (not_exists.mp hopen)

/-- Two events for each continuation, the timer that settles what it waits for and itself, and one
for the grace period that may be left. -/
theorem Good.ends (h : Good s) (htimed : s.Timed) : s.Ends (2 * s.phase.rank + 1) := by
  induction hrank : s.phase.rank using Nat.strong_induction_on generalizing s with
  | _ r ih =>
    by_cases hzero : r = 0
    · obtain rfl := hzero
      exact h.ends_idle htimed hrank
    · have hresume : ∀ {t}, Good t → t.Timed → t.phase.rank ≤ r → t.GoesOn → t.Ends (2 * r) := by
        intro t ht httimed hle hgo
        obtain ⟨n, rfl⟩ := Nat.exists_eq_succ_of_ne_zero hzero
        refine .mono (.resume (fun late aborted posts => (t.resume late aborted posts).get
          (hgo late aborted posts)) (fun late aborted posts => (Option.some_get _).symm)
            fun late aborted posts => ?_) (Nat.le_of_eq (Nat.mul_succ 2 n).symm)
        have hs : t.resume late aborted posts = some _ := (Option.some_get (hgo late aborted posts)).symm
        have hlt := (State.rank_resume hs).trans_le hle
        exact (ih _ hlt (ht.resume hs).1 (httimed.resume hs) rfl).mono (by omega)
      -- It can go on, or it can once its timer ran, which leaves the rank.
      rcases h.goesOn htimed (hrank ▸ hzero) with hgo | ⟨e, harmed, t, hs, hgo⟩ | ⟨harmed, t, hs, hgo⟩
      · exact (hresume h htimed hrank.le hgo).mono (Nat.le_succ _)
      · exact .timer e harmed hs (hresume (h.step hs).1 (htimed.step h.toSound hs)
          ((h.rank_step hs id).trans hrank.le) hgo)
      · exact .expire harmed hs (hresume (h.step hs).1 (htimed.step h.toSound hs)
          ((h.rank_step hs id).trans hrank.le) hgo)

/-- In every state a timer is armed for whatever is pending. -/
theorem Reachable.timed (h : Reachable s) : s.Timed := by
  obtain ⟨shared, evs, htrace⟩ := h
  have hboth : Good s ∧ s.Timed := htrace.invariant (I := fun t => Good t ∧ t.Timed)
    (fun _ _ _ ht hs => ⟨(ht.1.step hs).1, ht.2.step ht.1.toSound hs⟩) ⟨.init shared, .init shared⟩
  exact hboth.2

/-- A call ends, whatever its workers do. -/
theorem call_ends (h : Reachable s) : s.Ends 9 := by
  refine (h.good.ends h.timed).mono ?_
  have hrank : s.phase.rank ≤ 4 := by
    cases s.phase <;> simp [Phase.rank]
  omega

/-- A job that timed out and whose call has not gone on yet. -/
theorem call_ends_timedOut : ∃ s, Reachable s ∧ s.phase = .exchanging 1 ∧ s.Ends 9 := by
  have hs : (timedOut.foldlM State.step (.init true)).isSome := rfl
  have h := Reachable.of_foldlM (Option.some_get hs).symm
  exact ⟨_, h, rfl, call_ends h⟩

end

end Worker
