import CapnpcWasm.Worker.Sessions

/-!
# What a call can do

Where the active call is says what may be open, and so what the call may do next: a message is posted
only where nothing is.

`Good` is the invariant of a client and its workers between two steps.  To `Inv`, which speaks of
exchanges and sessions, it adds the call: `busy` is set exactly while a `runJob` is active, `cancel`
is the hook of a wait exactly while a call waits, a disposed client has neither a session nor a hook,
and what is open fits the phase (`State.Fits`).  `State.Posts` is the other half of what is shown of
each step: it posts nothing, or one message to a worker on which nothing is in flight.

Every function of the client has its lemma here, in the order of the source: the callbacks of an
exchange, the replies, `runJob` and `settled`, and then `exchange`, `initialize` and the
continuations behind their awaits.
-/

namespace Worker

/-! ## The phases -/

namespace Phase

/-- A `runJob` is active. -/
def active : Phase → Bool
  | .fresh | .creating _ | .failed | .idle => false
  | _ => true

end Phase

namespace State

/-- What may be open in a phase. -/
def Fits (s : State) : Phase → Prop
  | .fresh => s.begun = 0 ∧ s.disposed = false
  | .creating e => e < s.begun ∧ s.disposed = false ∧ ∀ e', s.Open e' → e' = e
  | .failed | .settled | .refused _ => ∀ e, ¬s.Open e
  | .idle => ∀ e, (s.exchanges e).stage ≠ .running
  | .waiting e finished => e < s.begun ∧ (s.exchanges e).settled ≠ none ∧
      (∀ e', s.Open e' → e' = e ∧ (s.exchanges e').stage = .stopping) ∧
        (finished = some true → ∀ e', ¬s.Open e')
  | .initializing e => e < s.begun ∧ (∀ e', s.Open e' → e' = e) ∧
      ∀ i, (s.exchanges e).outcomes = [.resolved i] → s.disposed = false →
        s.session = some (s.exchanges e).session
  | .initialized => (∀ e, ¬s.Open e) ∧
      (s.disposed = false → ∃ k, s.session = some k ∧ (s.sessions k).ready = true)
  | .exchanging e => e < s.begun ∧ ∀ e', s.Open e' → e' = e

/-- A post on a session on which nothing is in flight, if there is one. -/
def Posts (s s' : State) : Prop :=
  ∀ k, (s'.sessions k).posted = (s.sessions k).posted ∨
    ∃ m, (s'.sessions k).posted = (s.sessions k).posted ++ [m.id] ∧ (s'.sessions k).inbox = [m] ∧
      s.disposed = false ∧ (s.session = some k ∨ (s.session = none ∧ k = s.opened)) ∧
        (s.sessions k).inFlight = [] ∧ (m.kind = .job → (s.sessions k).loaded = true)

/-- A step that posts nothing. -/
theorem Posts.of_same {s s' : State} (h : ∀ k, (s'.sessions k).posted = (s.sessions k).posted) :
    s.Posts s' := fun k => .inl (h k)

end State

/-- What holds of a client and its workers between two steps. -/
structure Good (s : State) : Prop extends Inv s where
  /-- A disposed client has no worker and nothing to cancel. -/
  disposed : s.disposed = true → s.session = none ∧ s.cancel = none
  /-- The flag of the source says whether a call is active. -/
  busy : s.busy = s.phase.active
  /-- A call that waits can be cancelled, and only then is the hook that of a wait. -/
  wait : s.cancel = some .wait ↔ ∃ e, s.phase = .waiting e none
  /-- What is open is what the call waits for. -/
  fits : s.Fits s.phase

section

variable {s s' : State} {e k : Nat} {reply : Reply}

/-! ## Callbacks -/

/-- A change of the open exchange that leaves it not running. -/
theorem State.Fits.change (hc : Change s s' e) (h : Good s) (ho : s.Open e)
    (hstage : (s'.exchanges e).stage ≠ .running)
    (hsettled : (s.exchanges e).settled ≠ none → (s'.exchanges e).settled ≠ none)
    (hresolved : ∀ i, (s'.exchanges e).outcomes = [.resolved i] → s'.session = s.session) :
    s'.Fits s.phase := by
  have hfits := h.fits
  have hself : ∀ e', s'.Open e' → e' = e := fun e' ho' => hc.open_self h.toSound ho ho'
  have hlt := h.lt_begun ho
  -- The phase says what may be open. Where nothing may, there is nothing to change.
  cases hphase : s.phase with
  | fresh =>
      rw [hphase] at hfits
      rw [hfits.1] at hlt
      exact absurd hlt (Nat.not_lt_zero _)
  | creating e₀ =>
      rw [hphase] at hfits
      obtain ⟨hbegun, hdisposed, honly⟩ := hfits
      refine ⟨hc.begun ▸ hbegun, hc.disposed ▸ hdisposed, fun e' ho' => ?_⟩
      rw [hself e' ho', honly e ho]
  | failed =>
      rw [hphase] at hfits
      exact absurd ho (hfits e)
  | idle =>
      rw [hphase] at hfits
      intro e' hrunning
      obtain rfl := hself e' (by simp [State.Open, hrunning])
      exact hstage hrunning
  | waiting e₀ finished =>
      rw [hphase] at hfits
      obtain ⟨hbegun, hpromise, honly, hdone⟩ := hfits
      obtain ⟨rfl, -⟩ := honly e ho
      refine ⟨hc.begun ▸ hbegun, hsettled hpromise, fun e' ho' => ?_, fun hfinished => ?_⟩
      · obtain rfl := hself e' ho'
        exact ⟨rfl, (State.stage_of_open ho').resolve_left hstage⟩
      · exact absurd ho (hdone hfinished e)
  | settled =>
      rw [hphase] at hfits
      exact absurd ho (hfits e)
  | initializing e₀ =>
      rw [hphase] at hfits
      obtain ⟨hbegun, honly, -⟩ := hfits
      obtain rfl := honly e ho
      refine ⟨hc.begun ▸ hbegun, hself, fun i houtcomes _ => ?_⟩
      rw [hresolved i houtcomes, hc.session]
      exact h.alone e ho
  | initialized =>
      rw [hphase] at hfits
      exact absurd ho (hfits.1 e)
  | exchanging e₀ =>
      rw [hphase] at hfits
      obtain ⟨hbegun, honly⟩ := hfits
      obtain rfl := honly e ho
      exact ⟨hc.begun ▸ hbegun, hself⟩
  | refused current =>
      rw [hphase] at hfits
      exact absurd ho (hfits e)

/-- An exchange ends with its session, whatever the call does. -/
theorem Good.ended (h : Good s) (ho : s.Open e) : Good (s.ended e) where
  toInv := h.toSound.ended ho
  disposed hdisposed := by
    refine ⟨rfl, ?_⟩
    show (if s.cancel = some (.exchange e) then none else s.cancel) = none
    rw [(h.disposed hdisposed).2, ite_self]
  busy := h.busy
  wait := by
    refine Iff.trans ?_ h.wait
    show (if s.cancel = some (.exchange e) then none else s.cancel) = some .wait ↔ _
    split
    · next heq =>
      rw [heq]
      simp
    · rfl
  fits := by
    have hexchange : (s.ended e).exchanges e = (s.exchanges e).ended .rejected :=
      Function.update_self ..
    show (s.ended e).Fits s.phase
    refine State.Fits.change (h.change_ended ho) h ho ?_ ?_ ?_
    · rw [hexchange]
      simp [Exchange.ended]
    · rw [hexchange]
      simp [Exchange.ended]
    · intro i hresolved
      have houtcomes := ((h.orderly e (h.lt_begun ho)).ended ho
        (show (s.exchanges e).Settles .rejected from trivial)).2
      rw [hexchange, houtcomes, ite_self] at hresolved
      cases hresolved

/-- A job begins to stop, and the call that waits for it goes on to reject. -/
theorem Good.stopping (h : Good s) (hrunning : (s.exchanges e).stage = .running) :
    Good (s.stopping e) where
  toInv := h.toInv.stopping hrunning
  disposed hdisposed := ⟨(h.disposed hdisposed).1, rfl⟩
  busy := h.busy
  wait := by
    refine Iff.trans ?_ h.wait
    rw [(h.cancel e).mpr hrunning]
    exact iff_of_false (fun heq => by cases heq) (by simp)
  fits := by
    have hexchange : ((s.stopping e).exchanges e).stage = .stopping ∧
        ((s.stopping e).exchanges e).settled = some false := by
      rw [State.stopping]
      simp
    have ho : s.Open e := by simp [State.Open, hrunning]
    show (s.stopping e).Fits s.phase
    refine State.Fits.change (Sound.change_stopping h.toInv hrunning) h ho ?_ ?_ fun i _ => rfl
    · rw [hexchange.1]
      simp
    · rw [hexchange.2]
      simp

/-- An exchange ends with its reply. -/
theorem Good.answered (h : Good s) (ho : s.Open e)
    (hreply : reply ∈ (s.sessions (s.exchanges e).session).outbox) : Good (s.answered e reply) where
  toInv := h.toInv.answered ho hreply
  disposed hdisposed := by
    refine ⟨(h.disposed hdisposed).1, ?_⟩
    show (if s.cancel = some (.exchange e) then none else s.cancel) = none
    rw [(h.disposed hdisposed).2, ite_self]
  busy := h.busy
  wait := by
    refine Iff.trans ?_ h.wait
    show (if s.cancel = some (.exchange e) then none else s.cancel) = some .wait ↔ _
    split
    · next heq =>
      rw [heq]
      simp
    · rfl
  fits := by
    have hexchange : (s.answered e reply).exchanges e = (s.exchanges e).ended
        (if reply.ok then .resolved reply.id else .failed reply.id) := Function.update_self ..
    show (s.answered e reply).Fits s.phase
    refine State.Fits.change (Sound.change_answered h.toInv ho hreply) h ho ?_ ?_ fun i _ => rfl
    · rw [hexchange]
      simp [Exchange.ended]
    · rw [hexchange]
      simp [Exchange.ended]

/-- The deadline, a caller's signal, or `dispose`. -/
theorem Good.interrupt (h : Good s) (e : Nat) (timedOut : Bool) :
    Good (s.interrupt e timedOut) ∧ s.Posts (s.interrupt e timedOut) := by
  rw [h.interrupt_eq]
  split
  · exact ⟨h, .of_same fun k => rfl⟩
  · next hrunning =>
    have hrunning := not_not.mp hrunning
    have ho : s.Open e := by simp [State.Open, hrunning]
    split
    · exact ⟨h.ended ho, .of_same (h.change_ended ho).session_posted⟩
    · exact ⟨h.stopping hrunning,
        .of_same (Sound.change_stopping h.toInv hrunning).session_posted⟩

/-- An event of a worker's failure. -/
theorem Good.terminate (h : Good s) (e : Nat) :
    Good (s.terminate e) ∧ s.Posts (s.terminate e) := by
  by_cases ho : s.Open e
  · rw [h.terminate_eq ho]
    exact ⟨h.ended ho, .of_same (h.change_ended ho).session_posted⟩
  · rw [State.terminate_closed ho]
    exact ⟨h, .of_same fun k => rfl⟩

/-- The grace period is over. -/
theorem Good.grace (h : Good s) (e : Nat) : Good (s.grace e) ∧ s.Posts (s.grace e) := by
  rw [State.grace]
  split
  · exact h.terminate e
  · exact ⟨h, .of_same fun k => rfl⟩

/-- A step of a worker changes nothing that a call looks at. -/
theorem Good.moves {new : Session} (h : Good s) (hk : k < s.opened)
    (hm : (s.sessions k).Moves new)
    (hstopped : ∀ i ∈ new.stopped, i ∈ (s.sessions k).stopped ∨ ∃ e, e < s.begun ∧
      (s.exchanges e).session = k ∧ (s.exchanges e).id = i ∧
        (s.exchanges e).outcomes = [.rejected]) :
    Good (s.setSession k new) ∧ s.Posts (s.setSession k new) := by
  have hsession : ∀ j, (s.setSession k new).sessions j = if j = k then new else s.sessions j := by
    intro j
    show Function.update _ _ _ _ = _
    rw [Function.update_apply]
  refine ⟨⟨h.toInv.moves hk hm hstopped, h.disposed, h.busy, h.wait, ?_⟩, .of_same fun j => ?_⟩
  · have hfits := h.fits
    show (s.setSession k new).Fits s.phase
    cases hphase : s.phase with
    | initialized =>
        rw [hphase] at hfits
        refine ⟨hfits.1, fun hdisposed => ?_⟩
        obtain ⟨j, hj, hready⟩ := hfits.2 hdisposed
        refine ⟨j, hj, ?_⟩
        rw [hsession]
        split
        · next heq => rw [hm.ready, ← heq, hready]
        · exact hready
    | fresh | creating e | failed | idle | waiting e finished | settled | initializing e
    | exchanging e | refused current =>
        rw [hphase] at hfits
        exact hfits
  · rw [hsession]
    split
    · next heq => rw [heq, hm.posted]
    · rfl

/-- A reply ends the exchange that is open, or reaches a client that no longer listens. -/
theorem Good.deliver_eq (h : Good s) (hreply : reply ∈ (s.sessions k).outbox) {x : Session}
    (hx : x = { s.sessions k with
      outbox := (s.sessions k).outbox.erase reply
      answered := (s.sessions k).answered ++ [reply.id] }) :
    (∃ e, s.Open e ∧ (s.exchanges e).session = k ∧
      (s.setSession k x).deliver k reply = s.answered e reply) ∨
    ((s.sessions k).live = false ∧ (s.setSession k x).deliver k reply = s.setSession k x) := by
  subst hx
  by_cases hlive : (s.sessions k).live = true
  · left
    have hsession := (h.current k).mp hlive
    obtain ⟨e, ho⟩ : ∃ e, s.Open e := by
      by_contra hnone
      have hquiet := h.quiet k hsession (not_exists.mp hnone)
      simp only [Session.inFlight, List.append_eq_nil_iff, List.map_eq_nil_iff] at hquiet
      rw [hquiet.1] at hreply
      exact List.not_mem_nil hreply
    obtain rfl : (s.exchanges e).session = k := Option.some.inj ((h.alone e ho).symm.trans hsession)
    exact ⟨e, ho, rfl, h.toInv.deliver_eq ho hreply⟩
  · right
    refine ⟨Bool.eq_false_iff.mpr hlive, State.rounds_closed fun e _ heq ho => ?_⟩
    exact hlive ((h.current k).mpr (heq ▸ h.alone e ho))

/-- A reply reaches the client.  If nothing is open with its worker, all listeners ignore it. -/
theorem Good.deliver (h : Good s) (hk : k < s.opened) (hreply : reply ∈ (s.sessions k).outbox)
    {x : Session} (hx : x = { s.sessions k with
      outbox := (s.sessions k).outbox.erase reply
      answered := (s.sessions k).answered ++ [reply.id] }) :
    Good ((s.setSession k x).deliver k reply) ∧ s.Posts ((s.setSession k x).deliver k reply) := by
  rcases h.deliver_eq hreply hx with ⟨e, ho, rfl, heq⟩ | ⟨hlive, heq⟩
  · rw [heq]
    exact ⟨h.answered ho hreply,
      .of_same (Sound.change_answered h.toInv ho hreply).session_posted⟩
  · rw [heq, hx]
    exact h.moves hk (Session.moves_late hlive reply) fun i hi => .inl hi

end

/-! ## Continuations -/

section

variable {s s' : State} {e k : Nat}

/-- What the invariant does not look at. -/
theorem Inv.relabel (h : Inv s) {cancel : Option Hook}
    (hcancel : ∀ e, cancel = some (.exchange e) ↔ s.cancel = some (.exchange e))
    (disposed busy : Bool) (phase : Phase) (deadlines graces : Nat → Timer) (expiry : Timer) :
    Inv { s with
      cancel := cancel, disposed := disposed, busy := busy, phase := phase
      deadlines := deadlines, graces := graces, expiry := expiry } where
  unused := h.unused
  unopened := h.unopened
  current := h.current
  bound := h.bound
  alone := h.alone
  only := h.only
  orderly := h.orderly
  placed := h.placed
  token := h.token
  bounded := h.bounded
  increasing := h.increasing
  hooked := h.hooked
  cancel e := (hcancel e).trans (h.cancel e)
  cell := h.cell
  stored := h.stored
  history := h.history
  owned := h.owned
  stopped := h.stopped
  answers := h.answers
  ready := h.ready
  resolved := h.resolved
  pending := h.pending
  quiet := h.quiet

/-- A call that goes on, while no wait is pending. -/
theorem Good.proceed (h : Inv s)
    (hdisposed : s.disposed = true → s.session = none ∧ s.cancel = none)
    (hwait : s.cancel ≠ some .wait) (busy : Bool) {phase : Phase} (hbusy : busy = phase.active)
    (hphase : ∀ e, phase ≠ .waiting e none) (hfits : s.Fits phase) :
    Good { s with busy := busy, phase := phase } where
  toInv := h.relabel (fun e => Iff.rfl) s.disposed busy phase s.deadlines s.graces s.expiry
  disposed := hdisposed
  busy := hbusy
  wait := iff_of_false hwait fun ⟨e, he⟩ => hphase e he
  fits := by
    cases phase <;> exact hfits

/-- No callback looks at the timers. -/
theorem Good.retime (h : Good s) (deadlines graces : Nat → Timer) (expiry : Timer) :
    Good { s with deadlines := deadlines, graces := graces, expiry := expiry } where
  toInv := h.relabel (fun e => Iff.rfl) s.disposed s.busy s.phase deadlines graces expiry
  disposed := h.disposed
  busy := h.busy
  wait := h.wait
  fits := by
    have hfits := h.fits
    show State.Fits { s with deadlines := deadlines, graces := graces, expiry := expiry } s.phase
    cases hphase : s.phase <;> rw [hphase] at hfits <;> exact hfits

/-- The hook of a wait is set only while a call waits. -/
theorem Good.not_waiting (h : Good s) (hphase : ∀ e, s.phase ≠ .waiting e none) :
    s.cancel ≠ some .wait := by
  rw [ne_eq, h.wait, not_exists]
  exact hphase

/-- A call that throws or returns. -/
theorem Good.leave (h : Good s) (hphase : ∀ e, s.phase ≠ .waiting e none)
    (hrunning : ∀ e, (s.exchanges e).stage ≠ .running) : Good s.leave ∧ s.Posts s.leave :=
  ⟨.proceed h.toInv h.disposed (h.not_waiting hphase) false rfl (fun e he => by cases he) hrunning,
    .of_same fun k => rfl⟩

/-- With nothing open, nothing runs. -/
theorem State.closed_not_running (hnone : ∀ e, ¬s.Open e) (e : Nat) :
    (s.exchanges e).stage ≠ .running := by
  rw [not_not.mp (hnone e)]
  simp

/-- The end of a wait, if one is pending. -/
theorem Good.finish (h : Good s) (ok : Bool)
    (hok : ok = true → ∀ e, s.phase = .waiting e none → (s.exchanges e).settled = some true) :
    Good (s.finish ok) ∧ s.Posts (s.finish ok) := by
  rw [State.finish]
  split
  · next e hphase =>
    have hwait := h.wait.mpr ⟨e, hphase⟩
    have hfits := h.fits
    rw [hphase] at hfits
    obtain ⟨hbegun, hpromise, honly, -⟩ := hfits
    rw [if_pos hwait]
    refine ⟨⟨h.toInv.relabel (fun e' => ?_) s.disposed s.busy _ s.deadlines s.graces _,
      fun hdisposed => ⟨(h.disposed hdisposed).1, rfl⟩, ?_, ?_, ?_⟩, .of_same fun k => rfl⟩
    · rw [hwait]
      simp
    · rw [h.busy, hphase]
      rfl
    · simp
    · refine ⟨hbegun, hpromise, honly, fun hdone e' ho' => ?_⟩
      obtain ⟨rfl, hstage⟩ := honly e' ho'
      have horderly := h.orderly e' hbegun
      simp only [Exchange.Orderly, hstage] at horderly
      have hsettled := hok (Option.some.inj hdone) e' hphase
      rw [horderly.2] at hsettled
      cases hsettled
  · exact ⟨h, .of_same fun k => rfl⟩

/-- `runJob` up to its first `await`. -/
theorem Good.runJob (h : Good s) (husable : s.usable = true) :
    Good s.runJob ∧ s.Posts s.runJob := by
  rw [State.runJob]
  split
  · exact ⟨h, .of_same fun k => rfl⟩
  · next hfree =>
    rw [not_or, Bool.not_eq_true, Bool.not_eq_true] at hfree
    obtain ⟨hdisposed, hbusy⟩ := hfree
    rw [h.busy] at hbusy
    have hfits := h.fits
    -- A usable client that is not busy is idle.
    have hphase : s.phase = .idle := by
      cases hphase : s.phase <;> rw [hphase] at hbusy <;> try first | rfl | cases hbusy
      all_goals
        rw [State.usable, hphase] at husable
        cases husable
    rw [hphase] at hfits
    have hidle : ∀ e, (s.exchanges e).stage ≠ .running := hfits
    have hstopping : ∀ e, s.Open e → (s.exchanges e).stage = .stopping :=
      fun e ho => (State.stage_of_open ho).resolve_left (hidle e)
    have hwait := h.not_waiting fun e he => by
      rw [hphase] at he
      cases he
    dsimp only
    split
    · next hsettling =>
      refine ⟨.proceed h.toInv h.disposed hwait true rfl (fun e he => by cases he) fun e ho => ?_,
        .of_same fun k => rfl⟩
      -- Nothing to wait for: a job that stops would be the hook of the session.
      have hhook := (h.hooked (s.exchanges e).session e).mpr ⟨hstopping e ho, rfl⟩
      rw [h.alone e ho] at hsettling
      exact absurd (hsettling.symm.trans hhook) (by simp)
    · next e hsettling =>
      obtain ⟨k, -, hhook⟩ := Option.bind_eq_some_iff.mp hsettling
      obtain ⟨hstage, -⟩ := (h.hooked k e).mp hhook
      have ho : s.Open e := by simp [State.Open, hstage]
      have hcancel : ∀ e', s.cancel ≠ some (.exchange e') := by
        intro e' heq
        exact hidle e' ((h.cancel e').mp heq)
      -- The call waits, and its hook takes the place of the one that the exchange has given up.
      refine ⟨⟨h.toInv.relabel (fun e' => iff_of_false (by simp) (hcancel e')) s.disposed true _
          s.deadlines s.graces _,
        fun hyes => absurd (hdisposed.symm.trans hyes) Bool.false_ne_true, rfl, by simp, ?_⟩,
        .of_same fun k => rfl⟩
      refine ⟨h.lt_begun ho, ?_, fun e' ho' => ?_, fun hdone => by cases hdone⟩
      · have horderly := h.orderly e (h.lt_begun ho)
        simp only [Exchange.Orderly, hstage] at horderly
        show (s.exchanges e).settled ≠ none
        rw [horderly.2]
        simp
      · exact ⟨h.only e' e ho' ho, hstopping e' ho'⟩

/-! ### Posting -/

/-- To open a session changes no exchange, and nothing of the call. -/
theorem State.open_kept (s : State) : s.open_.2.begun = s.begun ∧ s.open_.2.sequence = s.sequence ∧
    s.open_.2.exchanges = s.exchanges ∧ s.open_.2.disposed = s.disposed ∧
      s.open_.2.cancel = s.cancel ∧ s.open_.2.phase = s.phase ∧ s.open_.2.busy = s.busy := by
  rw [State.open_]
  split <;> exact ⟨rfl, rfl, rfl, rfl, rfl, rfl, rfl⟩

/-- The session that is open is the one in use. -/
theorem State.open_again (h : s.session = some k) : s.open_ = (k, s) := by
  rw [State.open_, h]

/-- An exchange that may begin. -/
theorem State.exchange_eq (hdisposed : s.disposed = false) (kind : Kind) (posts : Bool) :
    s.exchange kind false posts = (some s.begun,
      if posts then s.open_.2.began kind s.open_.1 true
      else (s.open_.2.began kind s.open_.1 false).terminate s.begun) := by
  obtain ⟨hbegun, hsequence, -⟩ := s.open_kept
  rw [State.exchange, if_neg (by simp [hdisposed])]
  cases posts <;>
    simp [State.began, State.setExchange, State.setDeadline, State.setSession, hbegun, hsequence]

/-- A new session has no message yet. -/
theorem Inv.open_posted (h : Inv s) (k : Nat) :
    (s.open_.2.sessions k).posted = (s.sessions k).posted := by
  rw [State.open_]
  split
  · rfl
  · show (Function.update s.sessions s.opened _ k).posted = _
    rw [Function.update_apply]
    split
    · next heq => rw [heq, h.unopened _ (Nat.le_refl _)]
    · rfl

/-- What an exchange is where it begins, whether or not its message can be posted. -/
structure State.Begins (s s' : State) : Prop where
  inv : Inv s'
  begun : s.begun < s'.begun
  disposed : s'.disposed = false
  busy : s'.busy = s.busy
  cancel : s'.cancel ≠ some .wait
  /-- The new exchange is all that is open, if it is. -/
  only : ∀ e, s'.Open e → e = s.begun
  /-- It has not resolved: its message was just posted, or could not be. -/
  unresolved : ∀ i, (s'.exchanges s.begun).outcomes ≠ [.resolved i]
  posts : s.Posts s'

/-- An exchange begins, where nothing is open: its message is posted to the session in use or to a
new one, or it ends at once, since `postMessage` throws. -/
theorem Inv.exchange (h : Inv s) (hdisposed : s.disposed = false) (hnone : ∀ e, ¬s.Open e)
    (kind : Kind) (posts : Bool)
    (hloaded : kind = .job → ∃ k, s.session = some k ∧ (s.sessions k).loaded = true) :
    ∃ s', s.exchange kind false posts = (some s.begun, s') ∧ s.Begins s' := by
  obtain ⟨hopened, hsession⟩ := h.open_
  obtain ⟨hbegun, hsequence, hexchanges, hdisposed', -, -, hbusy⟩ := s.open_kept
  have hnone' : ∀ e, ¬s.open_.2.Open e := by
    intro e
    rw [State.Open, hexchanges]
    exact hnone e
  have hposted := h.open_posted
  rw [State.exchange_eq hdisposed]
  -- Sound with its message posted or not. If not, it ends at once and what is in flight is none.
  have hsound : Sound (s.open_.2.began kind s.open_.1 posts) := hopened.began hsession hnone' posts
  have ho : (s.open_.2.began kind s.open_.1 posts).Open s.begun := by
    rw [← hbegun, State.Open, State.began_self]
    simp
  have hself : ∀ e, (s.open_.2.began kind s.open_.1 posts).Open e → e = s.begun := by
    intro e ho'
    rw [State.began_open hnone' ho', hbegun]
  have hlt : s.begun < (s.open_.2.began kind s.open_.1 posts).begun := by
    show s.begun < s.open_.2.begun + 1
    rw [hbegun]
    exact Nat.lt_succ_self _
  cases posts with
  | true =>
      refine ⟨_, rfl, hopened.began_posted hsession hnone', hlt, hdisposed'.trans hdisposed, hbusy,
        by simp [State.began], hself, ?_, fun k => ?_⟩
      · intro i
        rw [← hbegun, if_pos rfl, State.began_self]
        simp
      · rw [if_pos rfl]
        by_cases hk : k = s.open_.1
        · right
          subst hk
          have hquiet := hopened.quiet _ hsession hnone'
          simp only [Session.inFlight, List.append_eq_nil_iff, List.map_eq_nil_iff] at hquiet
          rw [State.began_session, if_pos rfl]
          refine ⟨⟨kind, nextId s.open_.2.sequence⟩, by rw [Session.post, hposted], ?_, hdisposed, ?_,
            ?_, fun hjob => ?_⟩
          · rw [Session.post, hquiet.2.2]
            rfl
          · rw [State.open_]
            cases hs : s.session with
            | some k => exact .inl rfl
            | none => exact .inr ⟨rfl, rfl⟩
          · cases hs : s.session with
            | some k =>
                rw [State.open_again hs]
                exact h.quiet k hs hnone
            | none =>
                rw [State.open_, hs, h.unopened _ (Nat.le_refl _)]
                rfl
          · obtain ⟨k, hs, hl⟩ := hloaded hjob
            rw [State.open_again hs]
            exact hl
        · left
          rw [State.began_elsewhere hk, hposted]
  | false =>
      simp only [Bool.false_eq_true, if_false]
      rw [hsound.terminate_eq ho]
      have hc := hsound.change_ended ho
      refine ⟨_, rfl, hsound.ended ho, ?_, ?_, hbusy, ?_, ?_, ?_, fun k => .inl ?_⟩
      · rw [hc.begun]
        exact hlt
      · rw [hc.disposed]
        exact hdisposed'.trans hdisposed
      · simp [State.ended, State.began, hbegun]
      · exact fun e ho' => hc.open_self hsound ho ho'
      · intro i
        rw [show ((s.open_.2.began kind s.open_.1 false).ended s.begun).exchanges s.begun = _ from
          Function.update_self ..]
        rw [((hsound.orderly _ (hsound.lt_begun ho)).ended ho
          (show Exchange.Settles _ .rejected from trivial)).2, ite_self]
        simp
      · rw [hc.session_posted, (hposted k).symm]
        by_cases hk : k = s.open_.1
        · rw [hk, State.began_session]
          rfl
        · rw [State.began_elsewhere hk]

/-- A call that waits for the exchange. -/
theorem State.Begins.proceed (hb : s.Begins s') {phase : Phase} (hbusy : s'.busy = phase.active)
    (hphase : ∀ e, phase ≠ .waiting e none) (hfits : s'.Fits phase) :
    Good { s' with phase := phase } :=
  Good.proceed hb.inv (fun hyes => absurd (hb.disposed.symm.trans hyes) Bool.false_ne_true) hb.cancel
    s'.busy hbusy hphase hfits

/-- `runJob` at the job's exchange. -/
theorem Good.post (h : Good s) (hnone : ∀ e, ¬s.Open e) (hactive : s.phase.active = true)
    (hphase : ∀ e, s.phase ≠ .waiting e none)
    (hready : s.disposed = false → ∃ k, s.session = some k ∧ (s.sessions k).ready = true)
    (late aborted posts : Bool) :
    Good (s.post late aborted posts) ∧ s.Posts (s.post late aborted posts) := by
  have hbusy := h.busy.trans hactive
  rw [State.post]
  split
  · exact h.leave hphase (State.closed_not_running hnone)
  · by_cases hreject : s.disposed = true ∨ aborted = true
    · rw [State.exchange, if_pos hreject]
      exact ⟨.proceed h.toInv h.disposed (h.not_waiting hphase) s.busy hbusy
        (fun e he => by cases he) hnone, .of_same fun k => rfl⟩
    · rw [not_or, Bool.not_eq_true, Bool.not_eq_true] at hreject
      obtain ⟨hdisposed, rfl⟩ := hreject
      obtain ⟨k, hsession, hk⟩ := hready hdisposed
      obtain ⟨s', hs', hbegins⟩ :=
        h.toInv.exchange hdisposed hnone .job posts fun _ => ⟨k, hsession, h.ready k hk⟩
      rw [hs']
      exact ⟨hbegins.proceed (hbegins.busy.trans hbusy) (fun e he => by cases he)
        ⟨hbegins.begun, hbegins.only⟩, hbegins.posts⟩

/-- `initialize` opens the session itself, and `exchange` finds it open. -/
theorem State.exchange_open (hdisposed : s.disposed = false) (kind : Kind) (posts : Bool) :
    s.open_.2.exchange kind false posts = s.exchange kind false posts := by
  obtain ⟨hbegun, -, -, hdisposed', -⟩ := s.open_kept
  have hagain : s.open_.2.open_ = s.open_ := by
    cases hs : s.session with
    | some k =>
        rw [State.open_again hs]
        exact State.open_again hs
    | none =>
        have hnew : s.open_ = (s.opened, { s with session := some s.opened, opened := s.opened + 1
            }.setSession s.opened (.start s.shared)) := by rw [State.open_, hs]
        rw [hnew]
        rfl
  rw [State.exchange_eq (hdisposed'.trans hdisposed), State.exchange_eq hdisposed, hagain, hbegun]

/-- `initialize` up to its `await`. -/
theorem Good.initialize_ (h : Good s) (hnone : ∀ e, ¬s.Open e) (hdisposed : s.disposed = false)
    (awaiting : Nat → Phase) (hbusy : s.busy = (awaiting s.begun).active)
    (hphase : ∀ e, awaiting s.begun ≠ .waiting e none)
    (hfits : ∀ s', s.Begins s' → s'.Fits (awaiting s.begun)) {aborted : Bool}
    (haborted : aborted = true → s.busy = true) (hwait : s.cancel ≠ some .wait) (posts : Bool) :
    Good (s.initialize_ aborted posts awaiting) ∧
      s.Posts (s.initialize_ aborted posts awaiting) := by
  obtain ⟨-, -, hexchanges, hdisposed', hcancel, -, hbusy'⟩ := s.open_kept
  rw [State.initialize_]
  dsimp only
  cases aborted with
  | true =>
      rw [State.exchange, if_pos (.inr rfl)]
      refine ⟨.proceed h.toInv.open_.1 (fun hyes => ?_) (hcancel ▸ hwait) s.open_.2.busy
        (hbusy'.trans (haborted rfl)) (fun e he => by cases he) fun e ho => ?_, fun k => .inl ?_⟩
      · rw [hdisposed', hdisposed] at hyes
        cases hyes
      · rw [State.Open, hexchanges] at ho
        exact hnone e ho
      · exact h.toInv.open_posted k
  | false =>
      rw [State.exchange_open hdisposed]
      obtain ⟨s', hs', hbegins⟩ :=
        h.toInv.exchange hdisposed hnone .init posts fun hjob => by cases hjob
      rw [hs']
      exact ⟨hbegins.proceed (hbegins.busy.trans hbusy) hphase (hfits s' hbegins), hbegins.posts⟩

/-- `runJob` behind `settled`. -/
theorem Good.start (h : Good s) (hnone : ∀ e, ¬s.Open e) (hactive : s.phase.active = true)
    (hphase : ∀ e, s.phase ≠ .waiting e none) (late aborted posts : Bool) :
    Good (s.start late aborted posts) ∧ s.Posts (s.start late aborted posts) := by
  rw [State.start]
  split
  · exact h.leave hphase (State.closed_not_running hnone)
  · next hdisposed =>
    split
    · next hready =>
      refine h.post hnone hactive hphase (fun _ => ?_) late aborted posts
      exact Option.map_eq_some_iff.mp hready
    · refine h.initialize_ hnone (Bool.eq_false_iff.mpr hdisposed) .initializing
        (h.busy.trans hactive) (fun e he => by cases he) (fun s' hb => ?_) (fun _ => h.busy.trans hactive)
        (h.not_waiting hphase) posts
      exact ⟨hb.begun, hb.only, fun i hresolved => absurd hresolved (hb.unresolved i)⟩

/-! ### Stopping -/

/-- What a state is behind the end of a session. -/
structure State.Stops (s s' : State) (k : Nat) : Prop where
  inv : Inv s'
  closed : ∀ e, ¬s'.Open e
  begun : s'.begun = s.begun
  disposed : s'.disposed = s.disposed
  busy : s'.busy = s.busy
  phase : s'.phase = s.phase
  cancel : s'.cancel = s.cancel
  session : s'.session = if s.session = some k then none else s.session
  settled : ∀ e, (s.exchanges e).settled ≠ none → (s'.exchanges e).settled ≠ none
  posted : ∀ j, (s'.sessions j).posted = (s.sessions j).posted

/-- To stop the session of a job that stops is to end that job with it, through its hook. -/
theorem Sound.stop_stopping (h : Sound s) (hstage : (s.exchanges e).stage = .stopping) :
    s.stop (s.exchanges e).session = s.ended e := by
  have ho : s.Open e := by simp [State.Open, hstage]
  have hsession := h.alone e ho
  have hsettling := h.settling ho
  have hne : s.cancel ≠ some (.exchange e) := by
    rw [ne_eq, h.cancel, hstage]
    simp
  simp only [hstage, if_true] at hsettling
  simp [State.stop, State.settleThis, State.close, State.release, State.setDeadline, State.setGrace,
    State.setExchange, State.setSession, State.ended, hstage, hne, hsession, hsettling,
    Exchange.ended, Session.killed]

/-- A session is stopped while nothing runs on it. -/
theorem Inv.stop (h : Inv s) (hidle : ∀ e, (s.exchanges e).stage ≠ .running)
    (hk : ∀ e, s.Open e → (s.exchanges e).session = k) : s.Stops (s.stop k) k := by
  by_cases hopen : ∃ e, s.Open e
  · obtain ⟨e, ho⟩ := hopen
    obtain rfl := hk e ho
    have hstage := (State.stage_of_open ho).resolve_left (hidle e)
    have hne : s.cancel ≠ some (.exchange e) := by
      rw [ne_eq, h.cancel, hstage]
      simp
    have hc := h.change_ended ho
    rw [h.stop_stopping hstage]
    refine ⟨h.toSound.ended ho, fun e' ho' => ?_, rfl, rfl, rfl, rfl, ?_, ?_, fun e' hsettled => ?_,
      hc.session_posted⟩
    · obtain rfl := hc.open_self h.toSound ho ho'
      rw [State.Open, show (s.ended e').exchanges e' = _ from Function.update_self ..] at ho'
      exact ho' rfl
    · show (if s.cancel = some (.exchange e) then none else s.cancel) = s.cancel
      rw [if_neg hne]
    · rw [if_pos (h.alone e ho)]
      rfl
    · by_cases heq : e' = e
      · rw [heq, show (s.ended e).exchanges e = _ from Function.update_self ..]
        rw [heq] at hsettled
        simpa [Exchange.ended] using hsettled
      · rw [hc.others e' heq]
        exact hsettled
  · have hnone := not_exists.mp hopen
    rw [h.stop_eq hnone]
    refine ⟨h.dropped hnone k, hnone, rfl, rfl, rfl, rfl, rfl, rfl, fun e' hsettled => hsettled,
      fun j => ?_⟩
    show (Function.update s.sessions k (s.sessions k).killed j).posted = _
    rw [Function.update_apply]
    split
    · next heq =>
      rw [heq]
      rfl
    · rfl

/-- Nothing is disposed of behind a stop that was not before. -/
theorem State.Stops.disposed_none (hs : s.Stops s' k)
    (h : s.disposed = true → s.session = none ∧ s.cancel = none) (hdisposed : s'.disposed = true) :
    s'.session = none ∧ s'.cancel = none := by
  obtain ⟨hsession, hcancel⟩ := h (hs.disposed ▸ hdisposed)
  refine ⟨?_, hs.cancel.trans hcancel⟩
  rw [hs.session, hsession]
  exact ite_self _

/-- `initialize` behind its `await`. -/
theorem Good.initialized (h : Good s) (hphase : ∀ e', s.phase ≠ .waiting e' none)
    (hlt : e < s.begun) (honly : ∀ e', s.Open e' → e' = e)
    (returned thrown : Phase) (hreturned : s.busy = returned.active)
    {throws : State → State}
    (hthrows : ∀ s' : State, s'.busy = s.busy → throws s' = { s' with busy := false, phase := thrown })
    (hthrown : thrown.active = false)
    (hreturns : ∀ i, (s.exchanges e).outcomes = [.resolved i] → (∀ e', ¬s.Open e') →
      State.Fits (s.setSession (s.exchanges e).session
        { s.sessions (s.exchanges e).session with ready := true }) returned)
    (hfits : ∀ s' : State, (∀ e', ¬s'.Open e') → s'.Fits thrown)
    (hreturnedPhase : ∀ e', returned ≠ .waiting e' none)
    (hthrownPhase : ∀ e', thrown ≠ .waiting e' none)
    (hs : s.initialized e ({ · with phase := returned }) throws = some s') :
    Good s' ∧ s.Posts s' := by
  have horderly := h.orderly e hlt
  -- Once the start-up has settled, nothing runs.
  have hidle : (s.exchanges e).outcomes ≠ [] → ∀ e', (s.exchanges e').stage ≠ .running := by
    intro hne e' hrunning
    obtain rfl := honly e' (by simp [State.Open, hrunning])
    simp only [Exchange.Orderly, hrunning] at horderly
    exact hne horderly.1
  rw [State.initialized] at hs
  dsimp only at hs
  split at hs
  · cases hs
  · next i rest houtcomes =>
    cases hs
    -- A start-up that resolved is closed, so the session is ready and nothing is open.
    have hclosed : (s.exchanges e).stage = .closed ∧ (s.exchanges e).outcomes = [.resolved i] := by
      cases hstage : (s.exchanges e).stage with
      | running => exact absurd hstage (hidle (by rw [houtcomes]; simp) e)
      | stopping =>
          simp only [Exchange.Orderly, hstage, houtcomes] at horderly
          cases horderly.1
      | closed =>
          simp only [Exchange.Orderly, hstage, houtcomes] at horderly
          obtain ⟨-, o, ho, -⟩ := horderly
          cases ho
          exact ⟨rfl, houtcomes⟩
    have hnone : ∀ e', ¬s.Open e' := by
      intro e' ho
      obtain rfl := honly e' ho
      exact ho hclosed.1
    refine ⟨.proceed (h.toInv.readied (h.resolved e i hclosed.2) (h.placed e hlt)) h.disposed
      (h.not_waiting hphase) s.busy hreturned hreturnedPhase (hreturns i hclosed.2 hnone),
      fun k => .inl ?_⟩
    show (Function.update s.sessions (s.exchanges e).session
      { s.sessions (s.exchanges e).session with ready := true } k).posted = _
    rw [Function.update_apply]
    split
    · next heq => rw [heq]
    · rfl
  · next o rest hresolved houtcomes =>
    cases hs
    have hstops := h.toInv.stop (k := (s.exchanges e).session) (hidle (by rw [houtcomes]; simp))
      fun e' ho => by rw [honly e' ho]
    rw [hthrows _ hstops.busy]
    refine ⟨.proceed hstops.inv (hstops.disposed_none h.disposed) ?_ false hthrown.symm hthrownPhase
      (hfits _ hstops.closed), .of_same hstops.posted⟩
    rw [ne_eq, hstops.cancel]
    exact h.not_waiting hphase

/-! ## Steps -/

/-- The continuation of a call. -/
theorem Good.resume (h : Good s) {late aborted posts : Bool}
    (hs : s.resume late aborted posts = some s') : Good s' ∧ s.Posts s' := by
  have hfits := h.fits
  have hbusy := h.busy
  rw [State.resume] at hs
  split at hs
  · next e hphase =>
    rw [hphase] at hfits hbusy
    obtain ⟨hlt, -, honly⟩ := hfits
    refine h.initialized (by simp [hphase]) hlt honly .idle .failed hbusy
      (fun s' heq => ?_) rfl (fun i _ hnone => State.closed_not_running hnone)
      (fun s' hnone => hnone) (by simp) (by simp) hs
    rw [heq.trans hbusy]
    rfl
  · next e hphase =>
    cases hs
    rw [hphase] at hfits
    exact h.start (hfits.2.2.2 rfl) (by rw [hphase]; rfl) (by simp [hphase]) late aborted posts
  · next e hphase =>
    cases hs
    rw [hphase] at hfits
    refine h.leave (by simp [hphase]) fun e' hrunning => ?_
    obtain ⟨-, hstopping⟩ := hfits.2.2.1 e' (by simp [State.Open, hrunning])
    rw [hrunning] at hstopping
    cases hstopping
  · next hphase =>
    cases hs
    rw [hphase] at hfits
    exact h.start hfits (by rw [hphase]; rfl) (by simp [hphase]) late aborted posts
  · next e hphase =>
    rw [hphase] at hfits hbusy
    obtain ⟨hlt, honly, hcurrent⟩ := hfits
    refine h.initialized (by simp [hphase]) hlt honly .initialized .idle hbusy
      (fun s' _ => rfl) rfl (fun i hresolved hnone => ⟨hnone, fun hdisposed => ?_⟩)
      (fun s' hnone => State.closed_not_running hnone) (by simp) (by simp) hs
    refine ⟨_, hcurrent i hresolved hdisposed, ?_⟩
    show (Function.update s.sessions (s.exchanges e).session
      { s.sessions (s.exchanges e).session with ready := true } (s.exchanges e).session).ready = true
    rw [Function.update_self]
  · next hphase =>
    cases hs
    rw [hphase] at hfits
    exact h.post hfits.1 (by rw [hphase]; rfl) (by simp [hphase]) hfits.2 late aborted posts
  · next e hphase =>
    rw [hphase] at hfits
    split at hs
    · cases hs
    · next houtcomes =>
      cases hs
      refine h.leave (by simp [hphase]) fun e' hrunning => houtcomes ?_
      obtain rfl := hfits.2 e' (by simp [State.Open, hrunning])
      have horderly := h.orderly e' hfits.1
      simp only [Exchange.Orderly, hrunning] at horderly
      exact horderly.1
  · next hphase =>
    cases hs
    rw [hphase] at hfits
    exact h.leave (by simp [hphase]) (State.closed_not_running hfits)
  · next current hphase =>
    cases hs
    rw [hphase] at hfits
    have hstops := h.toInv.stop (k := current) (State.closed_not_running hfits)
      fun e ho => absurd ho (hfits e)
    refine ⟨.proceed hstops.inv (hstops.disposed_none h.disposed) ?_ false rfl (by simp)
      (State.closed_not_running hstops.closed), .of_same hstops.posted⟩
    rw [ne_eq, hstops.cancel]
    exact h.not_waiting (by simp [hphase])
  · cases hs

/-- The factory up to its `await`. -/
theorem Good.create (h : Good s) (hphase : s.phase = .fresh) (posts : Bool) :
    Good (s.initialize_ false posts .creating) ∧ s.Posts (s.initialize_ false posts .creating) := by
  have hfits := h.fits
  have hbusy := h.busy
  rw [hphase] at hfits hbusy
  obtain ⟨hbegun, hdisposed⟩ := hfits
  refine h.initialize_ (fun e ho => ?_) hdisposed .creating hbusy (by simp)
    (fun s' hb => ⟨hb.begun, hb.disposed, hb.only⟩) (fun haborted => by cases haborted)
    (h.not_waiting (by simp [hphase])) posts
  have hlt := h.lt_begun ho
  rw [hbegun] at hlt
  exact absurd hlt (Nat.not_lt_zero e)

end

end Worker
