import CapnpcWasm.Worker.Exchanges

/-!
# What is pending has its timer

An exchange that runs has its deadline, one that stops has its grace period, and a call that waits
for a stopping one has a deadline too.  Each operation that makes one of them pending sets the
timer, and no timer is cleared, or runs, while what it is for stays pending.

`State.Timed` is that invariant.  It needs a lemma for every function of the client, as
`State.Continues` does, but for two of them it is more than the composition of what they call.
`close` clears the timers of an exchange, which is sound because it sets its stage first.
`interrupt` passes through a state in which a job stops and has no grace period yet, so it is taken
as a whole.

A timer that runs is no longer armed.  That nothing is left pending without one is the only place
where more of the invariant is used: once its deadline ran an exchange does not run
(`interrupt_over`), and once its grace period ran it does not stop (`grace_over`).
-/

namespace Worker

section

variable {s s' : State} {e k : Nat} {ev : Event}

/-- A timer is armed for whatever is pending. -/
structure State.Timed (s : State) : Prop where
  deadline : ∀ e, (s.exchanges e).stage = .running → s.deadlines e = .armed
  grace : ∀ e, (s.exchanges e).stage = .stopping → s.graces e = .armed
  expiry : ∀ e, s.phase = .waiting e none → s.expiry = .armed

namespace State.Timed

variable {x : Exchange} {phase : Phase}

/-- At first nothing is pending. -/
theorem init (shared : Bool) : State.Timed (.init shared) where
  deadline e h := by cases h
  grace e h := by cases h
  expiry e h := by cases h

/-! ### What sets no timer and starts nothing -/

/-- What a worker does has no timer. -/
theorem setSession (h : s.Timed) (k : Nat) (x : Session) : (s.setSession k x).Timed :=
  ⟨h.deadline, h.grace, h.expiry⟩

/-- An exchange that stays at its stage, or ends. -/
theorem setExchange (h : s.Timed) (hx : x.stage = (s.exchanges e).stage ∨ x.stage = .closed) :
    (s.setExchange e x).Timed := by
  have hstage : ∀ e' stage, stage ≠ .closed → (Function.update s.exchanges e x e').stage = stage →
      (s.exchanges e').stage = stage := by
    intro e' stage hne hstage
    rw [Function.update_apply] at hstage
    split at hstage
    · next heq =>
      rw [heq, ← hstage]
      exact (hx.resolve_right (hstage ▸ hne)).symm
    · exact hstage
  exact ⟨fun e' hrunning => h.deadline e' (hstage e' .running (by decide) hrunning),
    fun e' hstopping => h.grace e' (hstage e' .stopping (by decide) hstopping), h.expiry⟩

/-- The deadline of an exchange that does not run. -/
theorem setDeadline (h : s.Timed) (hstage : (s.exchanges e).stage ≠ .running) (timer : Timer) :
    (s.setDeadline e timer).Timed := by
  refine ⟨fun e' hrunning => ?_, h.grace, h.expiry⟩
  show Function.update s.deadlines e timer e' = .armed
  have hne : e' ≠ e := fun heq => hstage (heq ▸ hrunning)
  rw [Function.update_of_ne hne]
  exact h.deadline e' hrunning

/-- The grace period of an exchange that does not stop. -/
theorem setGrace (h : s.Timed) (hstage : (s.exchanges e).stage ≠ .stopping) (timer : Timer) :
    (s.setGrace e timer).Timed := by
  refine ⟨h.deadline, fun e' hstopping => ?_, h.expiry⟩
  show Function.update s.graces e timer e' = .armed
  have hne : e' ≠ e := fun heq => hstage (heq ▸ hstopping)
  rw [Function.update_of_ne hne]
  exact h.grace e' hstopping

/-- What a call does beside its exchanges. -/
theorem relabel (h : s.Timed) (hphase : ∀ e, phase ≠ .waiting e none) (disposed busy : Bool)
    (cancel : Option Hook) (session : Option Nat) (expiry : Timer) :
    State.Timed { s with
      disposed := disposed, busy := busy, cancel := cancel, session := session, expiry := expiry
      phase := phase } :=
  ⟨h.deadline, h.grace, fun e he => absurd he (hphase e)⟩

/-! ### The callbacks of an exchange -/

/-- What `release` does: the deadline is cleared, and the hook is given up. -/
theorem release_eq (s : State) (e : Nat) : s.release e =
    { s.setDeadline e (s.deadlines e).clear with
      cancel := if s.cancel = some (.exchange e) then none else s.cancel } := by
  rw [State.release]
  show (if s.cancel = some (.exchange e) then _ else _) = _
  split <;> rfl

/-- The deadline of an exchange that does not run is cleared. -/
theorem release (h : s.Timed) (hstage : (s.exchanges e).stage ≠ .running) : (s.release e).Timed := by
  have hcleared := h.setDeadline hstage (s.deadlines e).clear
  rw [release_eq]
  exact ⟨hcleared.deadline, hcleared.grace, hcleared.expiry⟩

/-- The exchange is closed first, so both of its timers are of no use. -/
theorem close (h : s.Timed) (e : Nat) : (s.close e).Timed := by
  let closed := s.setExchange e { s.exchanges e with stage := .closed }
  have hstage : (closed.exchanges e).stage = .closed := by simp [closed, State.setExchange]
  have hreleased : (closed.release e).Timed :=
    (h.setExchange (.inr rfl)).release (ne_of_eq_of_ne hstage (by decide))
  -- The stage is set before a timer is cleared.
  have hstage' : ((closed.release e).exchanges e).stage ≠ .stopping := by
    rw [release_eq]
    exact ne_of_eq_of_ne hstage (by decide)
  have hquiet := hreleased.setGrace hstage' ((closed.release e).graces e).clear
  rw [State.close]
  generalize (closed.release e).setGrace e ((closed.release e).graces e).clear = t at hquiet ⊢
  split
  · exact (hquiet.setSession _ _).setExchange (.inl rfl)
  · exact hquiet.setExchange (.inl rfl)

/-- A promise settles.  What is pending stays so. -/
theorem settle (h : s.Timed) (e : Nat) (outcome : Outcome) : (s.settle e outcome).Timed :=
  h.setExchange (.inl rfl)

/-- A stopping job is closed. -/
theorem settleThis (h : s.Timed) (e : Nat) : (s.settleThis e).Timed := by
  rw [State.settleThis]
  split
  · exact h.close e
  · exact h

/-- A worker is terminated, and a stopping job closed. -/
theorem stop (h : s.Timed) (k : Nat) : (s.stop k).Timed := by
  have hdropped : ∀ t : State, t.Timed →
      State.Timed (if t.session = some k then { t with session := none } else t) := by
    intro t ht
    split
    · exact ⟨ht.deadline, ht.grace, ht.expiry⟩
    · exact ht
  have hkilled := hdropped _ (h.setSession k { s.sessions k with live := false, ready := false })
  rw [State.stop]
  split
  · exact hkilled
  · exact settleThis hkilled _

/-- The exchange is closed, and its worker terminated. -/
theorem terminate (h : s.Timed) (e : Nat) : (s.terminate e).Timed := by
  rw [State.terminate]
  dsimp only
  split
  · exact h
  · split
    · exact ((h.close e).stop _).settle e _
    · exact (h.close e).stop _

/-- A job that begins to stop loses its deadline and gets its grace period. -/
theorem interrupt (h : s.Timed) (e : Nat) (timedOut : Bool) : (s.interrupt e timedOut).Timed := by
  rw [State.interrupt]
  dsimp only
  split
  · exact h
  · split
    · exact h.terminate e
    · rw [release_eq]
      refine ⟨fun e' hrunning => ?_, fun e' hstopping => ?_, h.expiry⟩
      -- The exchange itself does not run any more.
      · have hne : e' ≠ e := by
          rintro rfl
          simp [State.setGrace, State.setExchange, State.settle, State.setSession,
            State.setDeadline] at hrunning
        simp only [State.setGrace, State.setExchange, State.settle, State.setSession,
          State.setDeadline, Function.update_of_ne hne] at hrunning ⊢
        exact h.deadline e' hrunning
      -- The exchange itself has its grace period now; the others have kept theirs.
      · by_cases heq : e' = e
        · rw [heq]
          exact Function.update_self ..
        · simp only [State.setGrace, State.setExchange, State.settle, State.setSession,
            State.setDeadline, Function.update_of_ne heq] at hstopping ⊢
          exact h.grace e' hstopping

/-- A job that still stops is ended. -/
theorem grace_ (h : s.Timed) (e : Nat) : (s.grace e).Timed := by
  rw [State.grace]
  split
  · exact h.terminate e
  · exact h

/-- An exchange ends with a reply, or with the report of its job. -/
theorem receive (h : s.Timed) (e : Nat) (reply : Reply) : (s.receive e reply).Timed := by
  rw [State.receive]
  dsimp only
  split
  · exact h
  · split
    · exact (h.setSession _ _).close e
    · exact h
    · exact (h.close e).settle e _

/-- A reply is received by one exchange after the other. -/
theorem deliver (h : s.Timed) (k : Nat) (reply : Reply) : (s.deliver k reply).Timed := by
  rw [State.deliver]
  generalize List.range s.begun = es
  -- The induction is on the listeners that are left.
  induction es generalizing s with
  | nil => exact h
  | cons e es ih =>
      rw [List.foldl_cons]
      split
      · exact ih (h.receive e reply)
      · exact ih h

/-! ### The calls -/

/-- A wait that ends clears its deadline. -/
theorem finish (h : s.Timed) (ok : Bool) : (s.finish ok).Timed := by
  rw [State.finish]
  split
  · exact h.relabel (by simp) s.disposed s.busy _ s.session _
  · exact h

/-- The wait for a stopping exchange is over. -/
theorem finish_over (s : State) (ok : Bool) (e : Nat) : (s.finish ok).phase ≠ .waiting e none := by
  rw [State.finish]
  split
  · simp
  · next hphase => exact hphase e

/-- A new session has nothing pending. -/
theorem open_ (h : s.Timed) : s.open_.2.Timed := by
  rw [State.open_]
  split
  · exact h
  · exact ⟨h.deadline, h.grace, h.expiry⟩

/-- An exchange begins with its deadline. -/
theorem begin_ (h : s.Timed) (id : Nat) (x : Exchange) (hx : x.stage = .running) :
    ((State.setExchange { s with
      sequence := id, begun := s.begun + 1, cancel := some (.exchange s.begun) } s.begun
        x).setDeadline s.begun .armed).Timed := by
  refine ⟨fun e hrunning => ?_, fun e hstopping => ?_, h.expiry⟩
  · show Function.update s.deadlines s.begun .armed e = .armed
    by_cases heq : e = s.begun
    · rw [heq, Function.update_self]
    · rw [Function.update_of_ne heq]
      simp only [State.setDeadline, State.setExchange, Function.update_of_ne heq] at hrunning
      exact h.deadline e hrunning
  · have hne : e ≠ s.begun := by
      rintro rfl
      simp [State.setDeadline, State.setExchange, hx] at hstopping
    simp only [State.setDeadline, State.setExchange, Function.update_of_ne hne] at hstopping
    exact h.grace e hstopping

/-- Where it cannot be posted, it ends and its deadline is cleared. -/
theorem exchange (h : s.Timed) (kind : Kind) (aborted posts : Bool) :
    (s.exchange kind aborted posts).2.Timed := by
  rw [State.exchange]
  dsimp only
  split
  · exact h
  · split
    · exact (h.open_.begin_ _ _ rfl).setSession _ _
    · exact (h.open_.begin_ _ _ rfl).terminate _

/-- The start-up begins, or is refused. -/
theorem initialize_ (h : s.Timed) (aborted posts : Bool) {awaiting : Nat → Phase}
    (hawaiting : ∀ e e', awaiting e ≠ .waiting e' none) :
    (s.initialize_ aborted posts awaiting).Timed := by
  have hexchange := h.open_.exchange .init aborted posts
  rw [State.initialize_]
  dsimp only
  split
  · next e t ht =>
    rw [ht] at hexchange
    exact hexchange.relabel (hawaiting e) t.disposed t.busy t.cancel t.session t.expiry
  · next t ht =>
    rw [ht] at hexchange
    exact hexchange.relabel (by simp) t.disposed t.busy t.cancel t.session t.expiry

/-- A call that is over waits for nothing. -/
theorem leave (h : s.Timed) : s.leave.Timed :=
  h.relabel (by simp) s.disposed false s.cancel s.session s.expiry

/-- The job's exchange begins, or is refused. -/
theorem post (h : s.Timed) (late aborted posts : Bool) : (s.post late aborted posts).Timed := by
  have hexchange := h.exchange .job aborted posts
  rw [State.post]
  split
  · exact h.leave
  · split
    · next e t ht =>
      rw [ht] at hexchange
      exact hexchange.relabel (by simp) t.disposed t.busy t.cancel t.session t.expiry
    · next t ht =>
      rw [ht] at hexchange
      exact hexchange.relabel (by simp) t.disposed t.busy t.cancel t.session t.expiry

/-- The one or the other. -/
theorem start (h : s.Timed) (late aborted posts : Bool) : (s.start late aborted posts).Timed := by
  rw [State.start]
  split
  · exact h.leave
  · split
    · exact h.post late aborted posts
    · exact h.initialize_ aborted posts (by simp)

/-- The start-up is over. -/
theorem initialized (h : s.Timed) {returns throws : State → State}
    (hreturns : ∀ t : State, t.Timed → (returns t).Timed)
    (hthrows : ∀ t : State, t.Timed → (throws t).Timed)
    (hs : s.initialized e returns throws = some s') : s'.Timed := by
  rw [State.initialized] at hs
  dsimp only at hs
  split at hs
  · cases hs
  · cases hs
    exact hreturns _ (h.setSession _ _)
  · cases hs
    exact hthrows _ (h.stop _)

/-- A call that waits for a stopping exchange has a deadline. -/
theorem runJob (h : s.Timed) : s.runJob.Timed := by
  rw [State.runJob]
  split
  · exact h
  · dsimp only
    split
    · exact h.relabel (by simp) s.disposed true s.cancel s.session s.expiry
    · exact ⟨h.deadline, h.grace, fun _ _ => rfl⟩

/-- The call goes on. -/
theorem resume (h : s.Timed) {late aborted posts : Bool}
    (hs : s.resume late aborted posts = some s') : s'.Timed := by
  have hphase : ∀ t : State, t.Timed → ∀ phase : Phase, (∀ e, phase ≠ .waiting e none) →
      State.Timed { t with phase := phase } :=
    fun t ht phase hphase => ht.relabel hphase t.disposed t.busy t.cancel t.session t.expiry
  rw [State.resume] at hs
  split at hs
  · exact h.initialized (fun t ht => hphase t ht _ (by simp)) (fun t ht => hphase t ht _ (by simp)) hs
  · cases hs
    exact h.start late aborted posts
  · cases hs
    exact h.leave
  · cases hs
    exact h.start late aborted posts
  · exact h.initialized (fun t ht => hphase t ht _ (by simp)) (fun t ht => ht.leave) hs
  · cases hs
    exact h.post late aborted posts
  · split at hs
    · cases hs
    · cases hs
      exact h.leave
  · cases hs
    exact h.leave
  · cases hs
    exact (h.stop _).leave
  · cases hs

/-- What was pending is cancelled, and the worker terminated. -/
theorem dispose (h : s.Timed) : s.dispose.Timed := by
  have hpending : State.Timed (State.cancelPending { s with disposed := true }) := by
    have hdisposed : State.Timed { s with disposed := true } := ⟨h.deadline, h.grace, h.expiry⟩
    rw [State.cancelPending]
    split
    · exact hdisposed
    · exact hdisposed.interrupt _ false
    · exact hdisposed.finish false
  rw [State.dispose]
  split
  · exact hpending
  · exact hpending.stop _

/-! ### Steps -/

/-- Once the deadline of an exchange ran, it does not run. -/
theorem interrupt_over (h : Sound s) (e : Nat) :
    ((s.interrupt e true).exchanges e).stage ≠ .running := by
  rw [h.interrupt_eq]
  split
  · assumption
  · split
    · rw [show (s.ended e).exchanges e = _ from Function.update_self ..]
      simp [Exchange.ended]
    · rw [show (s.stopping e).exchanges e = _ from Function.update_self ..]
      simp

/-- Once its grace period ran, it does not stop. -/
theorem grace_over (h : Sound s) (e : Nat) : ((s.grace e).exchanges e).stage ≠ .stopping := by
  rw [h.grace_eq]
  split
  · rw [show (s.ended e).exchanges e = _ from Function.update_self ..]
    simp [Exchange.ended]
  · assumption

/-- Every event keeps the invariant. -/
theorem step (h : s.Timed) (hsound : Sound s) (hs : s.step ev = some s') : s'.Timed := by
  rw [State.step.eq_def] at hs
  cases ev with
  | create posts =>
      obtain ⟨-, rfl⟩ : s.phase = .fresh ∧ s.initialize_ false posts .creating = s' := by
        simpa using hs
      exact h.initialize_ false posts (by simp)
  | call =>
      obtain ⟨-, rfl⟩ : s.usable = true ∧ s.runJob = s' := by simpa using hs
      exact h.runJob
  | resume late aborted posts => exact h.resume hs
  | timer e =>
      obtain ⟨-, hs⟩ := Option.ite_none_right_eq_some.mp hs
      cases hs
      exact (h.interrupt e true).setDeadline (interrupt_over hsound e) .idle
  | abort e =>
      obtain ⟨-, rfl⟩ : e < s.begun ∧ s.interrupt e false = s' := by simpa using hs
      exact h.interrupt e false
  | grace e =>
      obtain ⟨-, hs⟩ := Option.ite_none_right_eq_some.mp hs
      cases hs
      exact (h.grace_ e).setGrace (grace_over hsound e) .idle
  | fail e =>
      obtain ⟨-, rfl⟩ : e < s.begun ∧ s.terminate e = s' := by simpa using hs
      exact h.terminate e
  | expire =>
      obtain ⟨-, hs⟩ := Option.ite_none_right_eq_some.mp hs
      cases hs
      have hfinish := h.finish false
      exact ⟨hfinish.deadline, hfinish.grace, fun e he => absurd he (finish_over s false e)⟩
  | abandon =>
      cases hs
      exact h.finish false
  | wake =>
      dsimp only at hs
      split at hs
      · obtain ⟨-, hs⟩ := Option.ite_none_right_eq_some.mp hs
        cases hs
        exact h.finish true
      · cases hs
  | dispose =>
      obtain ⟨-, rfl⟩ : s.usable = true ∧ s.dispose = s' := by simpa using hs
      exact h.dispose
  | take k =>
      obtain ⟨-, new, -, rfl⟩ : k < s.opened ∧ ∃ new, (s.sessions k).take = some new ∧
          s.setSession k new = s' := by simpa using hs
      exact h.setSession k new
  | finish k m ok =>
      obtain ⟨-, new, -, rfl⟩ : k < s.opened ∧ ∃ new, (s.sessions k).finish m ok = some new ∧
          s.setSession k new = s' := by simpa using hs
      exact h.setSession k new
  | poll k m =>
      obtain ⟨-, new, -, rfl⟩ : k < s.opened ∧ ∃ new, (s.sessions k).poll m = some new ∧
          s.setSession k new = s' := by simpa using hs
      exact h.setSession k new
  | deliver k reply =>
      obtain ⟨-, hs⟩ := Option.ite_none_right_eq_some.mp hs
      cases hs
      exact (h.setSession k _).deliver k reply

end State.Timed

end

end Worker
