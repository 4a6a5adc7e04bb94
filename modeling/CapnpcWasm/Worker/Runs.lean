import CapnpcWasm.Worker.Calls
import CapnpcWasm.Worker.Later

/-!
# Runs of a client and its workers

Every step keeps the invariant, and posts at most one message, to a worker on which nothing is in
flight.  So both hold of whole runs, in whatever order the timers, the signals, the workers and the
caller act.

`Good.step` is the step lemma, by cases on the event, and `Reachable.good` the induction.  The rest
reads the invariant off: a post is alone (`posted_alone`), a token belongs to a job that stops
(`token_of_stopping`), a job that saw its token was cancelled (`stopped_cancelled`), a promise settles
once and stays settled (`settled_once`), a disposed client is at rest (`disposed_quiet`).  The last
part goes through the events once more, for what may cost the client its worker (`kept_unless`).

Disposal comes first, since it is the one step that calls two others: it cancels what is pending, as
its signal would, and stops the session.
-/

namespace Worker

section

variable {s s' : State} {e k : Nat} {ev : Event}

/-! ## Disposal -/

/-- What a phase allows once nothing is open for good. -/
theorem State.Fits.disposed {phase : Phase} (hfits : s.Fits phase) (hbegun : s'.begun = s.begun)
    (hdisposed : s'.disposed = true) (hnone : ∀ e, ¬s'.Open e)
    (hsettled : ∀ e, (s.exchanges e).settled ≠ none → (s'.exchanges e).settled ≠ none)
    (husable : phase.active = true ∨ phase = .idle) : s'.Fits phase := by
  cases phase with
  | fresh | creating e =>
      simp [Phase.active] at husable
  | failed | settled => exact hnone
  | refused current => exact hnone
  | idle => exact State.closed_not_running hnone
  | waiting e finished =>
      exact ⟨hbegun ▸ hfits.1, hsettled e hfits.2.1, fun e' ho => absurd ho (hnone e'), fun _ => hnone⟩
  | initializing e =>
      refine ⟨hbegun ▸ hfits.1, fun e' ho => absurd ho (hnone e'), fun i _ hnot => ?_⟩
      exact absurd hnot (by simp [hdisposed])
  | initialized =>
      exact ⟨hnone, fun hnot => absurd hnot (by simp [hdisposed])⟩
  | exchanging e => exact ⟨hbegun ▸ hfits.1, fun e' ho => absurd ho (hnone e')⟩

/-- A client that can be called is idle or busy with a call. -/
theorem State.active_of_usable (h : s.usable = true) :
    s.phase.active = true ∨ s.phase = .idle := by
  rw [State.usable] at h
  cases hphase : s.phase <;> simp [hphase, Phase.active] at h ⊢

/-- What a disposal leaves once it has cancelled what was pending. -/
structure State.Cancels (s s' : State) : Prop where
  inv : Inv s'
  idle : ∀ e, (s'.exchanges e).stage ≠ .running
  begun : s'.begun = s.begun
  disposed : s'.disposed = s.disposed
  cancel : s'.cancel = none
  busy : s'.busy = s.busy
  phase : s'.phase = s.phase ∨ ∃ e, s.phase = .waiting e none ∧ s'.phase = .waiting e (some false)
  awake : ∀ e, s'.phase ≠ .waiting e none
  settled : ∀ e, (s.exchanges e).settled ≠ none → (s'.exchanges e).settled ≠ none
  posted : ∀ k, (s'.sessions k).posted = (s.sessions k).posted

/-- The interruption of the exchange that runs. -/
theorem Inv.interrupted (h : Inv s) (hcancel : s.cancel = some (.exchange e))
    (hphase : ∀ e, s.phase ≠ .waiting e none) : s.Cancels (s.interrupt e false) := by
  have hrunning := (h.cancel e).mp hcancel
  have ho : s.Open e := by simp [State.Open, hrunning]
  rw [h.interrupt_eq, if_neg (not_not.mpr hrunning)]
  split
  · have hc := h.change_ended ho
    have hexchange : (s.ended e).exchanges e = (s.exchanges e).ended .rejected :=
      Function.update_self ..
    refine ⟨h.toSound.ended ho, fun e' hrunning' => ?_, rfl, rfl, ?_, rfl, .inl rfl,
      hphase, fun e' hsome => ?_, hc.session_posted⟩
    · obtain rfl := hc.open_self h.toSound ho (show (s.ended e).Open e' by simp [State.Open, hrunning'])
      rw [hexchange] at hrunning'
      cases hrunning'
    · show (if s.cancel = some (.exchange e) then none else s.cancel) = none
      rw [if_pos hcancel]
    · by_cases heq : e' = e
      · rw [heq, hexchange]
        rw [heq] at hsome
        simpa [Exchange.ended] using hsome
      · rw [hc.others e' heq]
        exact hsome
  · have hc := Sound.change_stopping h hrunning
    have hexchange : ((s.stopping e).exchanges e).stage = .stopping ∧
        ((s.stopping e).exchanges e).settled = some false := by
      rw [State.stopping]
      simp
    refine ⟨h.stopping hrunning, fun e' hrunning' => ?_, rfl, rfl, rfl, rfl, .inl rfl,
      hphase, fun e' hsome => ?_, hc.session_posted⟩
    · obtain rfl := hc.open_self h.toSound ho
        (show (s.stopping e).Open e' by simp [State.Open, hrunning'])
      rw [hexchange.1] at hrunning'
      cases hrunning'
    · by_cases heq : e' = e
      · rw [heq, hexchange.2]
        simp
      · rw [hc.others e' heq]
        exact hsome

/-- `cancel` interrupts the exchange that runs, or the wait. -/
theorem Inv.cancelPending (h : Inv s) (hwait : s.cancel = some .wait ↔ ∃ e, s.phase = .waiting e none) :
    s.Cancels s.cancelPending := by
  have hawake : s.cancel ≠ some .wait → ∀ e, s.phase ≠ .waiting e none :=
    fun hne e hphase => hne (hwait.mpr ⟨e, hphase⟩)
  have hidle : (∀ e, s.cancel ≠ some (.exchange e)) → ∀ e, (s.exchanges e).stage ≠ .running := by
    intro hne e hrunning
    exact hne e ((h.cancel e).mpr hrunning)
  rw [State.cancelPending]
  split
  · next hcancel =>
    exact ⟨h, hidle (by simp [hcancel]), rfl, rfl, hcancel, rfl, .inl rfl, hawake (by simp [hcancel]),
      fun e hsome => hsome, fun k => rfl⟩
  · next e hcancel => exact h.interrupted hcancel (hawake (by simp [hcancel]))
  · next hcancel =>
    obtain ⟨e, hphase⟩ := hwait.mp hcancel
    -- The hook of a wait ends it with the reason of the disposal.
    have hfinish : s.finish false =
        { s with cancel := none, expiry := s.expiry.clear, phase := .waiting e (some false) } := by
      rw [State.finish]
      simp [hphase, hcancel]
    rw [hfinish]
    exact ⟨h.relabel (fun e' => by simp [hcancel]) s.disposed s.busy _ s.deadlines s.graces _,
      hidle (by simp [hcancel]),
      rfl, rfl, rfl, rfl, .inr ⟨e, hphase, rfl⟩, by simp, fun e' hsome => hsome, fun k => rfl⟩

/-- What a disposal leaves: no session, and nothing that is pending. -/
structure State.Disposes (s s' : State) : Prop where
  inv : Inv s'
  closed : ∀ e, ¬s'.Open e
  begun : s'.begun = s.begun
  disposed : s'.disposed = true
  session : s'.session = none
  cancel : s'.cancel = none
  busy : s'.busy = s.busy
  phase : s'.phase = s.phase ∨ ∃ e, s.phase = .waiting e none ∧ s'.phase = .waiting e (some false)
  awake : ∀ e, s'.phase ≠ .waiting e none
  settled : ∀ e, (s.exchanges e).settled ≠ none → (s'.exchanges e).settled ≠ none
  posted : ∀ k, (s'.sessions k).posted = (s.sessions k).posted

/-- `dispose` cancels what is pending and then stops the session. -/
theorem Good.disposes (h : Good s) : s.Disposes s.dispose := by
  have hc : State.Cancels { s with disposed := true } _ :=
    (h.toInv.relabel (fun e => Iff.rfl) true s.busy s.phase s.deadlines s.graces
      s.expiry).cancelPending h.wait
  rw [State.dispose]
  split
  · next hsession =>
    refine ⟨hc.inv, fun e ho => ?_, hc.begun, hc.disposed, hsession, hc.cancel, hc.busy, hc.phase,
      hc.awake, hc.settled, hc.posted⟩
    have hsome := hc.inv.alone e ho
    rw [hsession] at hsome
    cases hsome
  · next k hsession =>
    have hs := hc.inv.stop (k := k) hc.idle fun e ho =>
      Option.some.inj ((hc.inv.alone e ho).symm.trans hsession)
    refine ⟨hs.inv, hs.closed, hs.begun.trans hc.begun, hs.disposed.trans hc.disposed, ?_,
      hs.cancel.trans hc.cancel, hs.busy.trans hc.busy, ?_, ?_,
      fun e hsome => hs.settled e (hc.settled e hsome), fun j => (hs.posted j).trans (hc.posted j)⟩
    · rw [hs.session, if_pos hsession]
    · rw [hs.phase]
      exact hc.phase
    · rw [hs.phase]
      exact hc.awake

/-- `dispose`. -/
theorem Good.dispose (h : Good s) (husable : s.usable = true) :
    Good s.dispose ∧ s.Posts s.dispose := by
  have hd := h.disposes
  have hactive := State.active_of_usable husable
  have hfits := h.fits
  have hbusy := h.busy
  refine ⟨⟨hd.inv, fun _ => ⟨hd.session, hd.cancel⟩, ?_, ?_, ?_⟩, .of_same hd.posted⟩
  · rw [hd.busy, hbusy]
    rcases hd.phase with hphase | ⟨e, hphase, hphase'⟩
    · rw [hphase]
    · rw [hphase, hphase']
      rfl
  · rw [hd.cancel]
    exact iff_of_false (by simp) (not_exists.mpr hd.awake)
  · rcases hd.phase with hphase | ⟨e, hphase, hphase'⟩
    · rw [hphase]
      exact hfits.disposed hd.begun hd.disposed hd.closed hd.settled hactive
    · rw [hphase']
      rw [hphase] at hfits
      exact ⟨hd.begun ▸ hfits.1, hd.settled e hfits.2.1, fun e' ho => absurd ho (hd.closed e'),
        fun hdone => by cases hdone⟩

/-! ## Steps -/

/-- Before the factory nothing is there: each clause holds of nothing. -/
theorem Good.init (shared : Bool) : Good (.init shared) where
  unused e _ := rfl
  unopened k _ := rfl
  current k := by simp [State.init]
  bound k h := by simp [State.init] at h
  alone e ho := absurd rfl ho
  only e e' ho := absurd rfl ho
  orderly e he := absurd he (Nat.not_lt_zero e)
  placed e he := absurd he (Nat.not_lt_zero e)
  token e he := absurd he (Nat.not_lt_zero e)
  bounded e he := absurd he (Nat.not_lt_zero e)
  increasing e e' _ he' := absurd he' (Nat.not_lt_zero e')
  hooked k e := by simp [State.init, Session.start, Exchange.unused]
  cancel e := by simp [State.init, Exchange.unused]
  cell k v hv hne := by
    cases shared <;> simp [State.init, Session.start] at hv
    exact absurd hv.symm hne
  stored e h := by simp [State.init, Exchange.unused] at h
  history k i hi := by simp [State.init, Session.start] at hi
  owned k i hi := by simp [State.init, Session.start, Session.inFlight] at hi
  stopped k i hi := by simp [State.init, Session.start] at hi
  answers k r hr := by simp [State.init, Session.start] at hr
  ready k h := by simp [State.init, Session.start] at h
  resolved e i h := by simp [State.init, Exchange.unused] at h
  pending e ho := absurd rfl ho
  quiet k h := by simp [State.init] at h
  disposed h := by simp [State.init] at h
  busy := rfl
  wait := by simp [State.init]
  fits := ⟨rfl, rfl⟩

/-- A step keeps the invariant, and posts only to a worker on which nothing is in flight. -/
theorem Good.step (h : Good s) (hs : s.step ev = some s') : Good s' ∧ s.Posts s' := by
  -- Each event is one function of the client, whose lemma says both.
  rw [State.step.eq_def] at hs
  cases ev with
  | create posts =>
      obtain ⟨hphase, rfl⟩ : s.phase = .fresh ∧ s.initialize_ false posts .creating = s' := by
        simpa using hs
      exact h.create hphase posts
  | call =>
      obtain ⟨husable, rfl⟩ : s.usable = true ∧ s.runJob = s' := by simpa using hs
      exact h.runJob husable
  | resume late aborted posts => exact h.resume hs
  | timer e =>
      obtain ⟨-, hs⟩ := Option.ite_none_right_eq_some.mp hs
      cases hs
      obtain ⟨hgood, hposts⟩ := h.interrupt e true
      exact ⟨hgood.retime _ _ _, hposts⟩
  | abort e =>
      obtain ⟨-, rfl⟩ : e < s.begun ∧ s.interrupt e false = s' := by simpa using hs
      exact h.interrupt e false
  | grace e =>
      obtain ⟨-, hs⟩ := Option.ite_none_right_eq_some.mp hs
      cases hs
      obtain ⟨hgood, hposts⟩ := h.grace e
      exact ⟨hgood.retime _ _ _, hposts⟩
  | fail e =>
      obtain ⟨-, rfl⟩ : e < s.begun ∧ s.terminate e = s' := by simpa using hs
      exact h.terminate e
  | expire =>
      obtain ⟨-, hs⟩ := Option.ite_none_right_eq_some.mp hs
      cases hs
      obtain ⟨hgood, hposts⟩ := h.finish false fun hok => by cases hok
      exact ⟨hgood.retime _ _ _, hposts⟩
  | abandon =>
      obtain rfl := Option.some.inj hs
      exact h.finish false fun hok => by cases hok
  | wake =>
      dsimp only at hs
      split at hs
      · next e hphase =>
        obtain ⟨hsettled, rfl⟩ : (s.exchanges e).settled = some true ∧ s.finish true = s' := by
          simpa using hs
        refine h.finish true fun _ e' he' => ?_
        obtain rfl : e = e' := by simpa using hphase.symm.trans he'
        exact hsettled
      · cases hs
  | dispose =>
      obtain ⟨husable, rfl⟩ : s.usable = true ∧ s.dispose = s' := by simpa using hs
      exact h.dispose husable
  | take k =>
      obtain ⟨hk, new, hnew, rfl⟩ : k < s.opened ∧ ∃ new, (s.sessions k).take = some new ∧
          s.setSession k new = s' := by simpa using hs
      obtain ⟨hmoves, hstopped⟩ := Session.moves_take hnew
      exact h.moves hk hmoves fun i hi => .inl (hstopped ▸ hi)
  | finish k m ok =>
      obtain ⟨hk, new, hnew, rfl⟩ : k < s.opened ∧ ∃ new, (s.sessions k).finish m ok = some new ∧
          s.setSession k new = s' := by simpa using hs
      obtain ⟨hmoves, hstopped⟩ := Session.moves_finish hnew
      exact h.moves hk hmoves fun i hi => .inl (hstopped ▸ hi)
  | poll k m =>
      obtain ⟨hk, new, hnew, rfl⟩ : k < s.opened ∧ ∃ new, (s.sessions k).poll m = some new ∧
          s.setSession k new = s' := by simpa using hs
      obtain ⟨hmoves, hmem, hcell, hstopped⟩ := Session.moves_poll hnew
      refine h.moves hk hmoves fun i hi => ?_
      rw [hstopped, List.mem_append, List.mem_singleton] at hi
      refine hi.imp_right fun heq => ?_
      rw [heq]
      exact h.toInv.poll hmem hcell
  | deliver k reply =>
      obtain ⟨⟨hk, hreply⟩, rfl⟩ : (k < s.opened ∧ reply ∈ (s.sessions k).outbox) ∧
          (s.setSession k { s.sessions k with
            outbox := (s.sessions k).outbox.erase reply
            answered := (s.sessions k).answered ++ [reply.id] }).deliver k reply = s' := by
        simpa using hs
      exact h.deliver hk hreply rfl

end

/-! ## Runs -/

section

variable {s s' : State} {e k i : Nat} {ev : Event} {evs : List Event}

/-- The invariant holds in every state. -/
theorem Reachable.good (h : Reachable s) : Good s := by
  obtain ⟨shared, evs, htrace⟩ := h
  exact htrace.invariant (fun _ _ _ ht hs => (ht.step hs).1) (.init shared)

/-- A run can be continued. -/
theorem Reachable.trans (h : Reachable s) (hs : Trace Steps s evs s') : Reachable s' := by
  obtain ⟨shared, before, htrace⟩ := h
  exact ⟨shared, before ++ evs, htrace.append hs⟩

/-- No run takes anything back. -/
theorem State.Continues.of_trace (h : Trace Steps s evs s') : s.Continues s' :=
  h.invariant (fun _ _ _ ht hs => ht.trans (.step hs)) (.refl s)

/-- A client starts, and its first job times out while its guest runs. -/
def timedOut : List Event :=
  [.create true, .take 0, .finish 0 ⟨.init, 1⟩ true, .deliver 0 ⟨1, true⟩, .resume false false true,
    .call, .resume false false true, .take 0, .timer 1]

/-- The state a list of events leads to. -/
theorem Reachable.of_foldlM {shared : Bool} (h : evs.foldlM State.step (.init shared) = some s) :
    Reachable s := ⟨shared, evs, Trace.of_foldlM h⟩

/-- A message is posted only to the worker in use, or to a new one, and only once every message that
was posted to it is answered.  A job is posted only to a worker that has its engine. -/
theorem posted_alone (h : Reachable s) (hs : Steps s ev s') (k : Nat) :
    (s'.sessions k).posted = (s.sessions k).posted ∨
      ∃ m, (s'.sessions k).posted = (s.sessions k).posted ++ [m.id] ∧ (s'.sessions k).inbox = [m] ∧
        s.disposed = false ∧ ((s.sessions k).live = true ∨ k = s.opened) ∧
          (s.sessions k).inFlight = [] ∧ (∀ i ∈ (s.sessions k).posted, i ∈ (s.sessions k).answered) ∧
            (m.kind = .job → (s.sessions k).loaded = true) := by
  have hgood := h.good
  refine ((hgood.step hs).2 k).imp_right fun ⟨m, hposted, hinbox, hdisposed, hk, hflight, hloaded⟩ => ?_
  refine ⟨m, hposted, hinbox, hdisposed, ?_, hflight, fun i hi => ?_, hloaded⟩
  · exact hk.imp (hgood.current k).mpr fun hnew => hnew.2
  · refine (hgood.history k i hi).resolve_right ?_
    rw [hflight]
    exact List.not_mem_nil

/-- The first job is posted once the start-up is answered. -/
theorem posted_alone_job : ∃ s s', Reachable s ∧ Steps s (.resume false false true) s' ∧
    (s.sessions 0).posted = [1] ∧ (s'.sessions 0).posted = [1, 2] ∧
      ((s'.sessions 0).posted = (s.sessions 0).posted ∨
        ∃ m, (s'.sessions 0).posted = (s.sessions 0).posted ++ [m.id] ∧
          (s'.sessions 0).inbox = [m] ∧ s.disposed = false ∧
            ((s.sessions 0).live = true ∨ 0 = s.opened) ∧ (s.sessions 0).inFlight = [] ∧
              (∀ i ∈ (s.sessions 0).posted, i ∈ (s.sessions 0).answered) ∧
                (m.kind = .job → (s.sessions 0).loaded = true)) := by
  have hs : ((timedOut.take 6).foldlM State.step (.init true)).isSome := rfl
  have h := Reachable.of_foldlM (Option.some_get hs).symm
  have hstep : Steps (((timedOut.take 6).foldlM State.step (.init true)).get hs)
    (.resume false false true) _ := rfl
  exact ⟨_, _, h, hstep, rfl, rfl, posted_alone h hstep 0⟩

/-- The cell of a worker in use holds a token only while the job of that token is stopping, and that
job's message is then all that is in flight. -/
theorem token_of_stopping (h : Reachable s) (hlive : (s.sessions k).live = true) {v : BitVec 32}
    (hcell : (s.sessions k).cell = some v) (hv : v ≠ 0) : ∃ e, (s.exchanges e).stage = .stopping ∧
      (s.exchanges e).session = k ∧ v = toInt32 (s.exchanges e).id ∧
        (s.sessions k).inFlight = [(s.exchanges e).id] := by
  have hgood := h.good
  obtain ⟨e, -, rfl, hv, -, -, hstopping⟩ := hgood.cell k v hcell hv
  have hstage := hstopping hlive
  exact ⟨e, hstage, rfl, hv, hgood.pending e (by simp [State.Open, hstage])⟩

/-- The job that timed out has its token in the cell. -/
theorem token_of_stopping_timedOut : ∃ s, Reachable s ∧ (s.sessions 0).cell = some 2 ∧
    ∃ e, (s.exchanges e).stage = .stopping ∧ (s.exchanges e).session = 0 ∧
      2 = toInt32 (s.exchanges e).id ∧ (s.sessions 0).inFlight = [(s.exchanges e).id] := by
  have hs : (timedOut.foldlM State.step (.init true)).isSome := rfl
  have h := Reachable.of_foldlM (Option.some_get hs).symm
  exact ⟨_, h, rfl, token_of_stopping h rfl rfl (by decide)⟩

/-- A job that saw its token was cancelled itself. -/
theorem stopped_cancelled (h : Reachable s) (hi : i ∈ (s.sessions k).stopped) :
    ∃ e, e < s.begun ∧ (s.exchanges e).session = k ∧ (s.exchanges e).id = i ∧
      (s.exchanges e).outcomes = [.rejected] := h.good.stopped k i hi

/-- Its guest polls and finds it there. -/
theorem stopped_cancelled_timedOut : ∃ s, Reachable s ∧ (s.sessions 0).stopped = [2] ∧
    ∃ e, e < s.begun ∧ (s.exchanges e).session = 0 ∧ (s.exchanges e).id = 2 ∧
      (s.exchanges e).outcomes = [.rejected] := by
  have hs : ((timedOut ++ [Event.poll 0 ⟨.job, 2⟩]).foldlM State.step (.init true)).isSome := rfl
  have h := Reachable.of_foldlM (Option.some_get hs).symm
  exact ⟨_, h, rfl, stopped_cancelled h (List.mem_singleton_self 2)⟩

/-- A promise settles at most once. -/
theorem Exchange.Orderly.length_le {x : Exchange} (h : x.Orderly) : x.outcomes.length ≤ 1 := by
  cases hstage : x.stage with
  | running =>
      simp only [Orderly, hstage] at h
      simp [h.1]
  | stopping =>
      simp only [Orderly, hstage] at h
      simp [h.1]
  | closed =>
      simp only [Orderly, hstage] at h
      obtain ⟨-, o, ho, -⟩ := h
      simp [ho]

/-- A settled promise does not settle again. -/
theorem Reachable.settled_stays (h : Reachable s) (he : e < s.begun) {o : Outcome}
    (ho : (s.exchanges e).outcomes = [o]) (hs : Trace Steps s evs s') :
    (s'.exchanges e).outcomes = [o] := by
  have hlater := State.Continues.of_trace hs
  have hled := (hlater.exchanges e he).2.2.2
  rw [ho] at hled
  exact (hled.eq_of_length_le
    ((h.trans hs).good.orderly e (he.trans_le hlater.begun)).length_le).symm

/-- A promise settles once the exchange stops running, with a reply only if it is its own, and then
never again. -/
theorem settled_once (h : Reachable s) (he : e < s.begun) :
    ((s.exchanges e).stage = .running ∧ (s.exchanges e).outcomes = []) ∨
      ((s.exchanges e).stage ≠ .running ∧ ∃ o, (s.exchanges e).outcomes = [o] ∧
        (s.exchanges e).Settles o ∧
          ∀ evs t, Trace Steps s evs t → (t.exchanges e).outcomes = [o]) := by
  have horderly := h.good.orderly e he
  cases hstage : (s.exchanges e).stage with
  | running =>
      simp only [Exchange.Orderly, hstage] at horderly
      exact .inl ⟨rfl, horderly.1⟩
  | stopping =>
      simp only [Exchange.Orderly, hstage] at horderly
      exact .inr ⟨by simp, _, horderly.1, trivial, fun evs t ht => h.settled_stays he horderly.1 ht⟩
  | closed =>
      simp only [Exchange.Orderly, hstage] at horderly
      obtain ⟨-, o, ho, hsettles⟩ := horderly
      exact .inr ⟨by simp, o, ho, hsettles, fun evs t ht => h.settled_stays he ho ht⟩

/-- The promise of the job that timed out. -/
theorem settled_once_timedOut : ∃ s, Reachable s ∧
    (((s.exchanges 1).stage = .running ∧ (s.exchanges 1).outcomes = []) ∨
      ((s.exchanges 1).stage ≠ .running ∧ ∃ o, (s.exchanges 1).outcomes = [o] ∧
        (s.exchanges 1).Settles o ∧
          ∀ evs t, Trace Steps s evs t → (t.exchanges 1).outcomes = [o])) := by
  have hs : (timedOut.foldlM State.step (.init true)).isSome := rfl
  have h := Reachable.of_foldlM (Option.some_get hs).symm
  exact ⟨_, h, settled_once h (Nat.lt_succ_self 1)⟩

/-- A disposed client posts nothing. -/
theorem Reachable.disposed_posts (h : Reachable s) (hdisposed : s.disposed = true)
    (hs : Trace Steps s evs s') (k : Nat) : (s'.sessions k).posted = (s.sessions k).posted := by
  induction hs with
  | nil => rfl
  | snoc hbefore hlast ih =>
      rw [← ih]
      refine (((h.trans hbefore).good.step hlast).2 k).resolve_right ?_
      rintro ⟨m, -, -, hnot, -⟩
      exact absurd ((State.Continues.of_trace hbefore).disposed hdisposed) (by simp [hnot])

/-- A disposed client has no worker and nothing pending, and stays so. -/
theorem disposed_quiet (h : Reachable s) (hdisposed : s.disposed = true)
    (hs : Trace Steps s evs s') : s'.disposed = true ∧ (∀ k, (s'.sessions k).live = false) ∧
      (∀ e, e < s'.begun → (s'.exchanges e).stage = .closed ∧ ∃ o, (s'.exchanges e).outcomes = [o]) ∧
        (∀ e, s'.phase ≠ .waiting e none) ∧
          ∀ k, (s'.sessions k).posted = (s.sessions k).posted := by
  have hgood := (h.trans hs).good
  have hstays := (State.Continues.of_trace hs).disposed hdisposed
  obtain ⟨hsession, hcancel⟩ := hgood.disposed hstays
  refine ⟨hstays, fun k => Bool.eq_false_iff.mpr fun hlive => ?_, fun e he => ?_, fun e hwaiting => ?_,
    h.disposed_posts hdisposed hs⟩
  · have hsome := (hgood.current k).mp hlive
    rw [hsession] at hsome
    cases hsome
  · have hclosed : (s'.exchanges e).stage = .closed := by
      by_contra ho
      have hsome := hgood.alone e ho
      rw [hsession] at hsome
      cases hsome
    have horderly := hgood.orderly e he
    simp only [Exchange.Orderly, hclosed] at horderly
    obtain ⟨-, o, ho, -⟩ := horderly
    exact ⟨hclosed, o, ho⟩
  · have hsome := hgood.wait.mpr ⟨e, hwaiting⟩
    rw [hcancel] at hsome
    cases hsome

/-- Disposal clears the timer of the grace period, which runs nevertheless. -/
theorem disposed_quiet_timedOut : ∃ s s', Reachable s ∧ Trace Steps s [.grace 1] s' ∧
    s'.disposed = true ∧ (∀ k, (s'.sessions k).live = false) ∧
      (∀ e, e < s'.begun → (s'.exchanges e).stage = .closed ∧ ∃ o, (s'.exchanges e).outcomes = [o]) ∧
        (∀ e, s'.phase ≠ .waiting e none) ∧
          ∀ k, (s'.sessions k).posted = (s.sessions k).posted := by
  have hs : ((timedOut ++ [Event.dispose]).foldlM State.step (.init true)).isSome := rfl
  have h := Reachable.of_foldlM (Option.some_get hs).symm
  have hgrace : Trace Steps (((timedOut ++ [Event.dispose]).foldlM State.step (.init true)).get hs)
    [.grace 1] _ := Trace.cons rfl .nil
  exact ⟨_, _, h, hgrace, disposed_quiet h rfl hgrace⟩

/-! ### Workers that stay -/

/-- What may cost the client its worker. -/
def Event.Replaces (s : State) : Event → Prop
  /- A cancelled job did not report. -/
  | .grace e => (s.exchanges e).stage = .stopping
  /- The worker failed. -/
  | .fail e => s.Open e
  /- The start-up was cancelled. -/
  | .timer e => (s.exchanges e).stage = .running ∧ (s.exchanges e).kind = .init
  /- An abort cannot reach the guest either. -/
  | .abort e => (s.exchanges e).stage = .running ∧
      ((s.exchanges e).kind = .init ∨ (s.sessions (s.exchanges e).session).cell = none)
  | .dispose => True
  /- `postMessage` threw, or the start-up failed. -/
  | .create posts => posts = false
  | .resume _ _ posts => posts = false ∨ (∃ current, s.phase = .refused (some current)) ∨
      ∃ e, (s.phase = .creating e ∨ s.phase = .initializing e) ∧
        ∀ i, (s.exchanges e).outcomes ≠ [.resolved i]
  | _ => False

/-- An exchange whose message is posted uses the session there is. -/
theorem State.exchange_kept (hk : s.session = some k) (kind : Kind) (aborted : Bool) :
    (s.exchange kind aborted true).2.session = some k := by
  by_cases hreject : s.disposed = true ∨ aborted = true
  · rw [State.exchange, if_pos hreject]
    exact hk
  · rw [not_or, Bool.not_eq_true, Bool.not_eq_true] at hreject
    obtain ⟨hdisposed, rfl⟩ := hreject
    rw [State.exchange_eq hdisposed, State.open_again hk]
    exact hk

/-- So does a start-up. -/
theorem State.initialize_kept (hk : s.session = some k) (aborted : Bool) (awaiting : Nat → Phase) :
    (s.initialize_ aborted true awaiting).session = some k := by
  have hexchange := State.exchange_kept hk .init aborted
  rw [State.initialize_, State.open_again hk]
  dsimp only
  split
  · next e t ht =>
    rw [ht] at hexchange
    exact hexchange
  · next t ht =>
    rw [ht] at hexchange
    exact hexchange

/-- So does a job. -/
theorem State.post_kept (hk : s.session = some k) (late aborted : Bool) :
    (s.post late aborted true).session = some k := by
  have hexchange := State.exchange_kept hk .job aborted
  rw [State.post]
  split
  · exact hk
  · split
    · next e t ht =>
      rw [ht] at hexchange
      exact hexchange
    · next t ht =>
      rw [ht] at hexchange
      exact hexchange

/-- Starting a call keeps the worker, where its message can be posted. -/
theorem State.start_kept (hk : s.session = some k) (late aborted : Bool) :
    (s.start late aborted true).session = some k := by
  rw [State.start]
  split
  · exact hk
  · split
    · exact State.post_kept hk late aborted
    · exact State.initialize_kept hk aborted _

/-- A wait ends without the worker. -/
theorem State.finish_kept (hk : s.session = some k) (ok : Bool) : (s.finish ok).session = some k := by
  rw [State.finish]
  split <;> exact hk

/-- A start-up that resolved keeps its worker. -/
theorem State.initialized_kept (hk : s.session = some k) {returns throws : State → State}
    (hs : s.initialized e returns throws = some s')
    (hstarted : ∃ i, (s.exchanges e).outcomes = [.resolved i])
    (hreturns : ∀ t : State, (returns t).session = t.session) : s'.session = some k := by
  obtain ⟨i, hi⟩ := hstarted
  rw [State.initialized, hi] at hs
  cases hs
  rw [hreturns]
  exact hk

/-- A job is interrupted through the cell, or by its own deadline. -/
theorem Good.interrupt_kept (h : Good s) (hk : s.session = some k) {timedOut : Bool}
    (hev : ¬((s.exchanges e).stage = .running ∧ ((s.exchanges e).kind = .init ∨
      ((s.sessions (s.exchanges e).session).cell = none ∧ timedOut = false)))) :
    (s.interrupt e timedOut).session = some k := by
  rw [h.interrupt_eq]
  split
  · exact hk
  · next hrunning =>
    split
    · next hstop => exact absurd ⟨not_not.mp hrunning, hstop⟩ hev
    · exact hk

/-- A call that goes on keeps the worker, if it is not refused and its start-up did not fail. -/
theorem State.resume_kept (hk : s.session = some k) {late aborted : Bool}
    (hs : s.resume late aborted true = some s') (hrefused : ∀ current, s.phase ≠ .refused (some current))
    (hstarted : ∀ e, s.phase = .creating e ∨ s.phase = .initializing e →
      ∃ i, (s.exchanges e).outcomes = [.resolved i]) : s'.session = some k := by
  rw [State.resume] at hs
  split at hs
  · next e hphase => exact State.initialized_kept hk hs (hstarted e (.inl hphase)) fun t => rfl
  · cases hs
    exact State.start_kept hk late aborted
  · cases hs
    exact hk
  · cases hs
    exact State.start_kept hk late aborted
  · next e hphase => exact State.initialized_kept hk hs (hstarted e (.inr hphase)) fun t => rfl
  · cases hs
    exact State.post_kept hk late aborted
  · split at hs
    · cases hs
    · cases hs
      exact hk
  · cases hs
    exact hk
  · next current hphase => exact absurd hphase (hrefused current)
  · cases hs

/-- Whatever else happens, the worker stays. -/
theorem kept_unless (h : Reachable s) (hk : s.session = some k) (hs : Steps s ev s')
    (hev : ¬ev.Replaces s) : s'.session = some k := by
  have hgood := h.good
  rw [Steps, State.step.eq_def] at hs
  cases ev with
  -- The factory and the continuations use the session that there is.
  | create posts =>
      obtain ⟨-, rfl⟩ : s.phase = .fresh ∧ s.initialize_ false posts .creating = s' := by
        simpa using hs
      rw [Event.Replaces, Bool.not_eq_false] at hev
      rw [hev]
      exact State.initialize_kept hk false _
  | call =>
      obtain ⟨-, rfl⟩ : s.usable = true ∧ s.runJob = s' := by simpa using hs
      rw [State.runJob]
      split
      · exact hk
      · dsimp only
        split <;> exact hk
  | resume late aborted posts =>
      simp only [Event.Replaces, not_or, not_exists, not_and, not_forall, not_not,
        Bool.not_eq_false] at hev
      obtain ⟨rfl, hrefused, hstarted⟩ := hev
      exact State.resume_kept hk hs hrefused hstarted
  | timer e =>
      obtain ⟨-, hs⟩ := Option.ite_none_right_eq_some.mp hs
      cases hs
      exact hgood.interrupt_kept hk (by simpa [Event.Replaces] using hev)
  | abort e =>
      obtain ⟨-, rfl⟩ : e < s.begun ∧ s.interrupt e false = s' := by simpa using hs
      exact hgood.interrupt_kept hk (by simpa [Event.Replaces] using hev)
  | grace e =>
      obtain ⟨-, hs⟩ := Option.ite_none_right_eq_some.mp hs
      cases hs
      rw [Event.Replaces] at hev
      rw [State.grace, if_neg hev]
      exact hk
  | fail e =>
      obtain ⟨-, rfl⟩ : e < s.begun ∧ s.terminate e = s' := by simpa using hs
      rw [State.terminate_closed hev]
      exact hk
  | expire =>
      obtain ⟨-, hs⟩ := Option.ite_none_right_eq_some.mp hs
      cases hs
      exact State.finish_kept hk false
  | abandon =>
      obtain rfl := Option.some.inj hs
      exact State.finish_kept hk false
  | wake =>
      dsimp only at hs
      split at hs
      · obtain ⟨-, hs⟩ := Option.ite_none_right_eq_some.mp hs
        cases hs
        exact State.finish_kept hk true
      · cases hs
  | dispose => exact absurd trivial hev
  | take j =>
      obtain ⟨-, new, -, rfl⟩ : j < s.opened ∧ ∃ new, (s.sessions j).take = some new ∧
          s.setSession j new = s' := by simpa using hs
      exact hk
  | finish j m ok =>
      obtain ⟨-, new, -, rfl⟩ : j < s.opened ∧ ∃ new, (s.sessions j).finish m ok = some new ∧
          s.setSession j new = s' := by simpa using hs
      exact hk
  | poll j m =>
      obtain ⟨-, new, -, rfl⟩ : j < s.opened ∧ ∃ new, (s.sessions j).poll m = some new ∧
          s.setSession j new = s' := by simpa using hs
      exact hk
  | deliver j reply =>
      obtain ⟨⟨-, hreply⟩, hs⟩ := Option.ite_none_right_eq_some.mp hs
      cases hs
      rcases hgood.deliver_eq hreply rfl with ⟨e, -, -, heq⟩ | ⟨-, heq⟩
      · rw [heq]
        exact hk
      · rw [heq]
        exact hk

/-- The job that timed out reports, and its worker stays. -/
theorem kept_unless_timedOut : ∃ s s', Reachable s ∧ Steps s (.deliver 0 ⟨2, false⟩) s' ∧
    s'.session = some 0 := by
  have hs : ((timedOut ++ [Event.finish 0 ⟨.job, 2⟩ false]).foldlM State.step (.init true)).isSome := rfl
  have h := Reachable.of_foldlM (Option.some_get hs).symm
  have hstep : Steps (((timedOut ++ [Event.finish 0 ⟨.job, 2⟩ false]).foldlM State.step
    (.init true)).get hs) (.deliver 0 ⟨2, false⟩) _ := rfl
  exact ⟨_, _, h, hstep, kept_unless h rfl hstep fun hev => hev⟩

end

end Worker
