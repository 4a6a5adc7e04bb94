import CapnpcWasm.Worker.Exchanges

/-!
# What the changes keep

Each change of the open exchange keeps the invariant.  What a change says about the exchange and its
session is stated once; everything else is as it was.

`Change s s' e` is that statement, one field for each clause of `Sound`, said of the exchange `e` and
its session alone.  `Change.sound` adds the frame: since nothing but `e` was open, what `Sound` says
of another exchange or another session is what it said before.  So the three changes of
`Worker.Exchanges` need to be looked at only where they happen, in `Sound.change_ended`,
`Sound.change_stopping` and `Sound.change_answered`.

What is left of `Inv` is about the worker in use.  `Inv.stopping` keeps the message in flight, since
the job still has to report; `Inv.answered` leaves nothing in flight, since the reply was all there
was.
-/

namespace Worker

/-- A change of the exchange `e` and its session. -/
structure Change (s s' : State) (e : Nat) : Prop where
  begun : s'.begun = s.begun
  opened : s'.opened = s.opened
  sequence : s'.sequence = s.sequence
  shared : s'.shared = s.shared
  disposed : s'.disposed = s.disposed
  /-- The frame: no other exchange and no other session changes. -/
  others : ∀ e', e' ≠ e → s'.exchanges e' = s.exchanges e'
  elsewhere : ∀ k, k ≠ (s.exchanges e).session → s'.sessions k = s.sessions k
  id : (s'.exchanges e).id = (s.exchanges e).id
  session : (s'.exchanges e).session = (s.exchanges e).session
  /-- The exchange ends in one of the stages, its promise settled as the stage says. -/
  orderly : (s'.exchanges e).Orderly
  /-- The client can cancel it if it still runs. -/
  cancel : ∀ e', s'.cancel = some (.exchange e') ↔ e' = e ∧ (s'.exchanges e).stage = .running
  /-- Its worker stays in use, or is terminated, and then the exchange is over. -/
  live : ((s'.sessions (s.exchanges e).session).live = true ∧ s'.session = s.session) ∨
    ((s'.sessions (s.exchanges e).session).live = false ∧ s'.session = none ∧ ¬s'.Open e)
  /-- The session waits for it if it stops. -/
  settling : (s'.sessions (s.exchanges e).session).settling =
    if (s'.exchanges e).stage = .stopping then some e else none
  /-- Nothing new is in flight. -/
  flight : ∀ i ∈ (s'.sessions (s.exchanges e).session).inFlight,
    i ∈ (s.sessions (s.exchanges e).session).inFlight
  /-- What is in the cell is the exchange's own token. -/
  cell : ∀ v, (s'.sessions (s.exchanges e).session).cell = some v → v ≠ 0 →
    s'.Cancelled (s.exchanges e).session v e
  stored : (s'.exchanges e).stage = .stopping →
    ∀ v, (s'.sessions (s.exchanges e).session).cell = some v → v = toInt32 (s.exchanges e).id
  /-- No message is forgotten. -/
  history : ∀ i ∈ (s'.sessions (s.exchanges e).session).posted,
    i ∈ (s'.sessions (s.exchanges e).session).answered ∨
      i ∈ (s'.sessions (s.exchanges e).session).inFlight
  posted : (s'.sessions (s.exchanges e).session).posted =
    (s.sessions (s.exchanges e).session).posted
  stopped : (s'.sessions (s.exchanges e).session).stopped =
    (s.sessions (s.exchanges e).session).stopped
  /-- A rejected promise stays so. -/
  rejected : (s.exchanges e).outcomes = [.rejected] → (s'.exchanges e).outcomes = [.rejected]
  outbox : ∀ r ∈ (s'.sessions (s.exchanges e).session).outbox,
    r ∈ (s.sessions (s.exchanges e).session).outbox
  loaded : (s'.sessions (s.exchanges e).session).loaded =
    (s.sessions (s.exchanges e).session).loaded
  ready : (s'.sessions (s.exchanges e).session).ready = true →
    (s.sessions (s.exchanges e).session).ready = true
  /-- Only the reply of a worker with an engine resolves. -/
  resolved : ∀ i, (s'.exchanges e).outcomes = [.resolved i] →
    (s.sessions (s.exchanges e).session).loaded = true

namespace Change

variable {s s' : State} {e : Nat}

section

variable (hc : Change s s' e)

include hc

/-- No exchange changes its id. -/
theorem exchange_id (e' : Nat) : (s'.exchanges e').id = (s.exchanges e').id := by
  by_cases heq : e' = e
  · rw [heq, hc.id]
  · rw [hc.others e' heq]

/-- None moves to another session. -/
theorem exchange_session (e' : Nat) : (s'.exchanges e').session = (s.exchanges e').session := by
  by_cases heq : e' = e
  · rw [heq, hc.session]
  · rw [hc.others e' heq]

/-- None that was rejected settles otherwise. -/
theorem exchange_rejected (e' : Nat) (h : (s.exchanges e').outcomes = [.rejected]) :
    (s'.exchanges e').outcomes = [.rejected] := by
  by_cases heq : e' = e
  · rw [heq] at h ⊢
    exact hc.rejected h
  · rw [hc.others e' heq, h]

/-- No worker gains or loses its engine. -/
theorem session_loaded (k : Nat) : (s'.sessions k).loaded = (s.sessions k).loaded := by
  by_cases hk : k = (s.exchanges e).session
  · rw [hk, hc.loaded]
  · rw [hc.elsewhere k hk]

/-- Nothing is posted. -/
theorem session_posted (k : Nat) : (s'.sessions k).posted = (s.sessions k).posted := by
  by_cases hk : k = (s.exchanges e).session
  · rw [hk, hc.posted]
  · rw [hc.elsewhere k hk]

/-- Nothing comes into flight. -/
theorem session_flight (k : Nat) {i : Nat} (h : i ∈ (s'.sessions k).inFlight) :
    i ∈ (s.sessions k).inFlight := by
  by_cases hk : k = (s.exchanges e).session
  · rw [hk] at h ⊢
    exact hc.flight i h
  · rwa [hc.elsewhere k hk] at h

/-- Only the exchange that changes may be open. -/
theorem open_self (h : Sound s) (ho : s.Open e) {e' : Nat} (ho' : s'.Open e') : e' = e := by
  by_contra heq
  rw [State.Open, hc.others e' heq] at ho'
  exact heq (h.only e' e ho' ho)

end

/-- A change of the open exchange keeps what holds. -/
theorem sound (hc : Change s s' e) (h : Sound s) (ho : s.Open e) : Sound s' where
  -- An exchange that was not begun, or a session that was not opened, is none of those that
  -- change.
  unused e' hle := by
    rw [hc.begun] at hle
    have hlt := h.lt_begun ho
    rw [hc.others e' (by omega), h.unused e' hle]
  unopened k hk := by
    rw [hc.opened] at hk
    have hbound := h.bound _ (h.alone e ho)
    rw [hc.elsewhere k (by omega), h.unopened k hk, hc.shared]
  current k := by
    by_cases hk : k = (s.exchanges e).session
    -- The session of the open exchange is the current one: it stays so, or none is.
    · rcases hc.live with ⟨hlive, hsession⟩ | ⟨hlive, hsession, -⟩
      · rw [hk, hlive, hsession, h.alone e ho]
        simp
      · rw [hk, hlive, hsession]
        simp
    · rw [hc.elsewhere k hk, h.current, h.alone e ho]
      rcases hc.live with ⟨-, hsession⟩ | ⟨-, hsession, -⟩
      · rw [hsession, h.alone e ho]
      · rw [hsession]
        simp [Ne.symm hk]
  bound k hk := by
    rw [hc.opened]
    rcases hc.live with ⟨-, hsession⟩ | ⟨-, hsession, -⟩
    · exact h.bound k (hsession ▸ hk)
    · rw [hsession] at hk
      cases hk
  alone e' ho' := by
    obtain rfl := hc.open_self h ho ho'
    rcases hc.live with ⟨-, hsession⟩ | ⟨-, -, hclosed⟩
    · rw [hsession, hc.session, h.alone _ ho]
    · exact absurd ho' hclosed
  only e₁ e₂ ho₁ ho₂ := (hc.open_self h ho ho₁).trans (hc.open_self h ho ho₂).symm
  orderly e' hlt := by
    by_cases heq : e' = e
    · rw [heq]
      exact hc.orderly
    · rw [hc.others e' heq]
      exact h.orderly e' (hc.begun ▸ hlt)
  placed e' hlt := by
    rw [hc.exchange_session, hc.opened]
    exact h.placed e' (hc.begun ▸ hlt)
  token e' hlt := by
    rw [hc.exchange_id]
    exact h.token e' (hc.begun ▸ hlt)
  bounded e' hlt := by
    rw [hc.exchange_id, hc.sequence]
    exact h.bounded e' (hc.begun ▸ hlt)
  increasing e₁ e₂ hlt hlt₂ := by
    rw [hc.exchange_id, hc.exchange_id]
    exact h.increasing e₁ e₂ hlt (hc.begun ▸ hlt₂)
  hooked k e' := by
    by_cases hk : k = (s.exchanges e).session
    · rw [hk, hc.settling]
      constructor
      · intro heq
        split at heq
        · next hstage =>
          obtain rfl := Option.some.inj heq
          exact ⟨hstage, hc.session⟩
        · cases heq
      · rintro ⟨hstage, -⟩
        obtain rfl := hc.open_self h ho (show s'.Open e' by simp [State.Open, hstage])
        rw [if_pos hstage]
    · rw [hc.elsewhere k hk, h.hooked]
      constructor
      · rintro ⟨hstage, rfl⟩
        obtain rfl := h.only e' e (by simp [State.Open, hstage]) ho
        exact absurd rfl hk
      · rintro ⟨hstage, rfl⟩
        obtain rfl := hc.open_self h ho (show s'.Open e' by simp [State.Open, hstage])
        exact absurd hc.session hk
  cancel e' := by
    rw [hc.cancel]
    constructor
    · rintro ⟨rfl, hstage⟩
      exact hstage
    · intro hstage
      obtain rfl := hc.open_self h ho (show s'.Open e' by simp [State.Open, hstage])
      exact ⟨rfl, hstage⟩
  cell k v hcell hv := by
    by_cases hk : k = (s.exchanges e).session
    · rw [hk] at hcell ⊢
      exact ⟨e, hc.cell v hcell hv⟩
    · rw [hc.elsewhere k hk] at hcell
      obtain ⟨e', hlt, hsession, htoken, hrejected, hflight, hstopping⟩ := h.cell k v hcell hv
      have heq : e' ≠ e := by
        rintro rfl
        exact hk hsession.symm
      refine ⟨e', ?_⟩
      rw [State.Cancelled, hc.others e' heq, hc.elsewhere k hk, hc.begun]
      exact ⟨hlt, hsession, htoken, hrejected, hflight, hstopping⟩
  stored e' hstage v hcell := by
    obtain rfl := hc.open_self h ho (show s'.Open e' by simp [State.Open, hstage])
    rw [hc.session] at hcell
    rw [hc.id]
    exact hc.stored hstage v hcell
  history k i hi := by
    by_cases hk : k = (s.exchanges e).session
    · rw [hk] at hi ⊢
      exact hc.history i hi
    · rw [hc.elsewhere k hk] at hi ⊢
      exact h.history k i hi
  owned k i hi := by
    obtain ⟨e', hlt, hsession, hid⟩ := h.owned k i (hc.session_flight k hi)
    exact ⟨e', hc.begun ▸ hlt, by rw [hc.exchange_session, hsession], by rw [hc.exchange_id, hid]⟩
  stopped k i hi := by
    have hold : i ∈ (s.sessions k).stopped := by
      by_cases hk : k = (s.exchanges e).session
      · rw [hk] at hi ⊢
        rwa [hc.stopped] at hi
      · rwa [hc.elsewhere k hk] at hi
    obtain ⟨e', hlt, hsession, hid, hrejected⟩ := h.stopped k i hold
    exact ⟨e', hc.begun ▸ hlt, by rw [hc.exchange_session, hsession], by rw [hc.exchange_id, hid],
      hc.exchange_rejected e' hrejected⟩
  answers k r hr hok := by
    rw [hc.session_loaded]
    by_cases hk : k = (s.exchanges e).session
    · rw [hk] at hr ⊢
      exact h.answers _ r (hc.outbox r hr) hok
    · rw [hc.elsewhere k hk] at hr
      exact h.answers k r hr hok
  ready k hready := by
    rw [hc.session_loaded]
    by_cases hk : k = (s.exchanges e).session
    · rw [hk] at hready ⊢
      exact h.ready _ (hc.ready hready)
    · rw [hc.elsewhere k hk] at hready
      exact h.ready k hready
  resolved e' i hresolved := by
    rw [hc.session_loaded, hc.exchange_session]
    by_cases heq : e' = e
    · rw [heq] at hresolved ⊢
      exact hc.resolved i hresolved
    · rw [hc.others e' heq] at hresolved
      exact h.resolved e' i hresolved

end Change

/-! ## The three changes -/

section

variable {s : State} {e : Nat} {reply : Reply}

/-- An exchange that ends has settled once: by what ended it if it ran, and before that if it was
stopping. -/
theorem Exchange.Orderly.ended {x : Exchange} {outcome : Outcome} (h : x.Orderly)
    (ho : x.stage ≠ .closed) (hsettles : x.Settles outcome) : (x.ended outcome).Orderly ∧
      (x.ended outcome).outcomes = [if x.stage = .running then outcome else .rejected] := by
  cases hstage : x.stage with
  | running =>
      simp only [Orderly, hstage] at h
      refine ⟨⟨by simp [Exchange.ended, h], outcome, ?_, ?_⟩, ?_⟩
      · simp [Exchange.ended, hstage, h]
      · cases outcome <;> exact hsettles
      · simp [Exchange.ended, hstage, h]
  | stopping =>
      simp only [Orderly, hstage] at h
      refine ⟨⟨by simp [Exchange.ended, h], .rejected, ?_, trivial⟩, ?_⟩
      · simp [Exchange.ended, hstage, h]
      · simp [Exchange.ended, hstage, h]
  | closed => exact absurd hstage ho

/-- What the change of an exchange and its session is in a state. -/
theorem Sound.cancel_iff (h : Sound s) (ho : s.Open e) (e' : Nat) :
    (if s.cancel = some (.exchange e) then none else s.cancel) ≠ some (.exchange e') := by
  split
  · simp
  · next hne =>
    intro heq
    have hrunning := (h.cancel e').mp heq
    obtain rfl := h.only e' e (by simp [State.Open, hrunning]) ho
    exact hne heq

/-- What is in the cell of the session of the open exchange is its own. -/
theorem Sound.cell_of_open (h : Sound s) (ho : s.Open e) {v : BitVec 32}
    (hcell : (s.sessions (s.exchanges e).session).cell = some v) (hv : v ≠ 0) :
    s.Cancelled (s.exchanges e).session v e ∧ (s.exchanges e).stage = .stopping := by
  obtain ⟨e', hcancelled⟩ := h.cell _ v hcell hv
  have hstage := hcancelled.2.2.2.2.2 ((h.current _).mpr (h.alone e ho))
  obtain rfl := h.only e' e (by simp [State.Open, hstage]) ho
  exact ⟨hcancelled, hstage⟩

/-- The end with the session: the worker is terminated, so what is in its cell and in flight stays
there and reaches nobody. -/
theorem Sound.change_ended (h : Sound s) (ho : s.Open e) : Change s (s.ended e) e := by
  have hexchange : (s.ended e).exchanges e = (s.exchanges e).ended .rejected :=
    Function.update_self ..
  have hsession : (s.ended e).sessions (s.exchanges e).session =
      (s.sessions (s.exchanges e).session).killed := Function.update_self ..
  obtain ⟨horderly, houtcomes⟩ := (h.orderly e (h.lt_begun ho)).ended ho
    (show (s.exchanges e).Settles .rejected from trivial)
  rw [ite_self] at houtcomes
  constructor
  case begun | opened | sequence | shared | disposed => rfl
  case others => exact fun e' he => Function.update_of_ne he _ _
  case elsewhere => exact fun k hk => Function.update_of_ne hk _ _
  case id | session => rw [hexchange]; rfl
  case orderly => rwa [hexchange]
  case cancel =>
    intro e'
    rw [hexchange]
    exact iff_of_false (h.cancel_iff ho e') (by simp [Exchange.ended])
  case live =>
    rw [hsession, State.Open, hexchange]
    exact .inr ⟨rfl, rfl, by simp [Exchange.ended]⟩
  case settling =>
    rw [hexchange, hsession]
    rfl
  case cell =>
    intro v hcell hv
    rw [hsession] at hcell
    obtain ⟨⟨hlt, -, htoken, -, hflight, -⟩, -⟩ := h.cell_of_open ho hcell hv
    rw [State.Cancelled, hexchange, hsession, houtcomes]
    exact ⟨hlt, rfl, htoken, rfl, hflight, fun hlive => by cases hlive⟩
  case stored =>
    rw [hexchange]
    exact fun hstage => by cases hstage
  case rejected =>
    rw [hexchange]
    exact fun _ => houtcomes
  case resolved =>
    intro i hresolved
    rw [hexchange, houtcomes] at hresolved
    cases hresolved
  all_goals rw [hsession]
  case flight => exact fun i hi => hi
  case history => exact h.history _
  case posted | stopped | loaded => rfl
  case outbox => exact fun r hr => hr
  case ready => exact fun hready => by cases hready

/-- The end of an exchange with its session. -/
theorem Sound.ended (h : Sound s) (ho : s.Open e) : Inv (s.ended e) where
  toSound := (h.change_ended ho).sound h ho
  pending e' ho' := by
    obtain rfl := (h.change_ended ho).open_self h ho ho'
    rw [State.Open, show (s.ended e').exchanges e' = _ from Function.update_self ..] at ho'
    exact absurd rfl ho'
  quiet k hk := by cases hk

/-- A job begins to stop: its token goes to the cell, and the session waits for its report. -/
theorem Sound.change_stopping (h : Inv s) (hrunning : (s.exchanges e).stage = .running) :
    Change s (s.stopping e) e := by
  have ho : s.Open e := by simp [State.Open, hrunning]
  have horderly := h.orderly e (h.lt_begun ho)
  simp only [Exchange.Orderly, hrunning] at horderly
  have hexchange : (s.stopping e).exchanges e = { s.exchanges e with
      stage := .stopping, outcomes := [.rejected], settled := some false } := by
    rw [State.stopping, horderly.1]
    exact Function.update_self ..
  have hsession : (s.stopping e).sessions (s.exchanges e).session =
      { s.sessions (s.exchanges e).session with
        cell := (s.sessions (s.exchanges e).session).cell.map fun _ => toInt32 (s.exchanges e).id
        settling := some e } := Function.update_self ..
  have hflight := h.pending e ho
  constructor
  case begun | opened | sequence | shared | disposed => rfl
  case others => exact fun e' he => Function.update_of_ne he _ _
  case elsewhere => exact fun k hk => Function.update_of_ne hk _ _
  case id | session => rw [hexchange]
  case orderly =>
    rw [hexchange]
    exact ⟨rfl, rfl⟩
  case cancel =>
    intro e'
    rw [hexchange]
    exact iff_of_false (fun heq => by cases heq) (by simp)
  case live =>
    rw [hsession]
    exact .inl ⟨(h.current _).mpr (h.alone e ho), rfl⟩
  case settling =>
    rw [hexchange, hsession]
    rfl
  case cell =>
    intro v hcell hv
    rw [hsession] at hcell
    obtain ⟨_, -, htoken⟩ := Option.map_eq_some_iff.mp hcell
    rw [State.Cancelled, hexchange, hsession]
    refine ⟨h.lt_begun ho, rfl, htoken.symm, rfl, fun i hi => ?_, fun _ => rfl⟩
    have hi : i ∈ (s.sessions (s.exchanges e).session).inFlight := hi
    rw [hflight] at hi
    exact List.mem_singleton.mp hi
  case stored =>
    intro _ v hcell
    rw [hsession] at hcell
    obtain ⟨_, -, htoken⟩ := Option.map_eq_some_iff.mp hcell
    exact htoken.symm
  case rejected =>
    rw [hexchange]
    exact fun _ => rfl
  case resolved =>
    intro i hresolved
    rw [hexchange] at hresolved
    cases hresolved
  all_goals rw [hsession]
  case flight => exact fun i hi => hi
  case history => exact h.history _
  case outbox => exact fun r hr => hr
  case ready => exact fun hready => hready

/-- A job that begins to stop. -/
theorem Inv.stopping (h : Inv s) (hrunning : (s.exchanges e).stage = .running) :
    Inv (s.stopping e) where
  toSound := (Sound.change_stopping h hrunning).sound h.toSound (by simp [State.Open, hrunning])
  pending e' ho' := by
    have ho : s.Open e := by simp [State.Open, hrunning]
    have hc := Sound.change_stopping h hrunning
    obtain rfl := hc.open_self h.toSound ho ho'
    rw [hc.session, hc.id, show (s.stopping e').sessions (s.exchanges e').session = _ from
      Function.update_self ..]
    exact h.pending e' ho
  quiet k hk hnone := by
    refine absurd ?_ (hnone e)
    rw [State.Open, show (s.stopping e).exchanges e = _ from Function.update_self ..]
    simp

/-- A reply in the outbox of a session that is all that is in flight. -/
theorem Session.inFlight_erase {k : Session} {id : Nat} (hflight : k.inFlight = [id])
    (hreply : reply ∈ k.outbox) : reply.id = id ∧
      (k.outbox.erase reply).map (·.id) ++ (k.working.map (·.id) ++ k.inbox.map (·.id)) = [] := by
  -- One id is in flight, so the reply is all that is, and nothing is left in the queues.
  obtain ⟨before, after, hsplit⟩ := List.append_of_mem hreply
  have hlength := congrArg List.length hflight
  simp only [Session.inFlight, hsplit, List.length_append, List.length_map, List.length_cons,
    List.length_nil] at hlength
  obtain rfl : before = [] := List.eq_nil_of_length_eq_zero (by omega)
  obtain rfl : after = [] := List.eq_nil_of_length_eq_zero (by omega)
  have hworking : k.working = [] := List.eq_nil_of_length_eq_zero (by omega)
  have hinbox : k.inbox = [] := List.eq_nil_of_length_eq_zero (by omega)
  simp only [Session.inFlight, hsplit, hworking, hinbox, List.nil_append, List.map_cons, List.map_nil,
    List.append_nil, List.cons.injEq, and_true] at hflight
  refine ⟨hflight, ?_⟩
  simp [hsplit, hworking, hinbox]

/-- The end with a reply, which was all that was in flight.  The cell is cleared if the reply is
the report of a stopped job. -/
theorem Sound.change_answered (h : Inv s) (ho : s.Open e)
    (hreply : reply ∈ (s.sessions (s.exchanges e).session).outbox) :
    Change s (s.answered e reply) e := by
  obtain ⟨hid, hempty⟩ := Session.inFlight_erase (h.pending e ho) hreply
  have hexchange : (s.answered e reply).exchanges e = (s.exchanges e).ended
      (if reply.ok then .resolved reply.id else .failed reply.id) := Function.update_self ..
  have hsession : (s.answered e reply).sessions (s.exchanges e).session =
      (s.sessions (s.exchanges e).session).replied reply ((s.exchanges e).stage = .stopping) :=
    Function.update_self ..
  obtain ⟨horderly, houtcomes⟩ := (h.orderly e (h.lt_begun ho)).ended ho
    (show (s.exchanges e).Settles (if reply.ok then .resolved reply.id else .failed reply.id) by
      split <;> exact hid)
  have hflight : ((s.sessions (s.exchanges e).session).replied reply
      ((s.exchanges e).stage = .stopping)).inFlight = [] := hempty
  constructor
  case begun | opened | sequence | shared | disposed => rfl
  case others => exact fun e' he => Function.update_of_ne he _ _
  case elsewhere => exact fun k hk => Function.update_of_ne hk _ _
  case id | session => rw [hexchange]; rfl
  case orderly => rwa [hexchange]
  case cancel =>
    intro e'
    rw [hexchange]
    exact iff_of_false (h.cancel_iff ho e') (by simp [Exchange.ended])
  case live =>
    rw [hsession]
    exact .inl ⟨(h.current _).mpr (h.alone e ho), rfl⟩
  case settling =>
    rw [hexchange, hsession]
    rfl
  case cell =>
    intro v hcell hv
    rw [hsession] at hcell
    -- The report of a stopped job clears the cell; another reply finds it clear already.
    by_cases hstage : (s.exchanges e).stage = .stopping
    · simp only [Session.replied, hstage, decide_true, if_true] at hcell
      obtain ⟨_, -, hzero⟩ := Option.map_eq_some_iff.mp hcell
      exact absurd hzero.symm hv
    · simp only [Session.replied, hstage, decide_false, Bool.false_eq_true, if_false] at hcell
      exact absurd (h.cell_of_open ho hcell hv).2 hstage
  case stored =>
    rw [hexchange]
    exact fun hstage => by cases hstage
  case rejected =>
    rw [hexchange, houtcomes]
    intro hrejected
    rw [if_neg]
    intro hrunning
    have hold := h.orderly e (h.lt_begun ho)
    simp only [Exchange.Orderly, hrunning, hrejected, reduceCtorEq, false_and] at hold
  case resolved =>
    intro i hresolved
    rw [hexchange, houtcomes] at hresolved
    refine h.answers _ reply hreply ?_
    by_contra hok
    simp only [hok, if_false] at hresolved
    split at hresolved <;> cases hresolved
  case history =>
    intro i hi
    rw [hsession] at hi ⊢
    refine .inl ?_
    -- The message that was in flight is answered now.
    rcases h.history _ i hi with hanswered | hpending
    · exact List.mem_append_left _ hanswered
    · rw [h.pending e ho, List.mem_singleton] at hpending
      rw [hpending, ← hid]
      exact List.mem_append_right _ (List.mem_singleton_self _)
  all_goals rw [hsession]
  case flight =>
    rw [hflight]
    exact fun i hi => absurd hi List.not_mem_nil
  case posted | stopped | loaded => rfl
  case outbox => exact fun r hr => List.mem_of_mem_erase hr
  case ready => exact fun hready => hready

/-- The end of an exchange with its reply. -/
theorem Inv.answered (h : Inv s) (ho : s.Open e)
    (hreply : reply ∈ (s.sessions (s.exchanges e).session).outbox) : Inv (s.answered e reply) where
  toSound := (Sound.change_answered h ho hreply).sound h.toSound ho
  pending e' ho' := by
    obtain rfl := (Sound.change_answered h ho hreply).open_self h.toSound ho ho'
    rw [State.Open, show (s.answered e' reply).exchanges e' = _ from Function.update_self ..] at ho'
    exact absurd rfl ho'
  quiet k hk _ := by
    obtain rfl : (s.exchanges e).session = k := Option.some.inj ((h.alone e ho).symm.trans hk)
    rw [show (s.answered e reply).sessions (s.exchanges e).session = _ from Function.update_self ..]
    exact (Session.inFlight_erase (h.pending e ho) hreply).2

end

end Worker
