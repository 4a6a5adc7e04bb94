import CapnpcWasm.Worker.Client

/-!
# What an exchange can do

At most one exchange is open, and it is one with the current session.  So every callback that finds
it open does one of three things: it ends the exchange with its session, it ends it with a reply, or
it begins to stop a job.

`Sound` is what holds of the exchanges and the sessions while a call is in the middle of its work;
`Inv` adds what is in flight on the worker in use, and holds between two steps.  The callbacks of the
source assign one variable after the other.  `State.ended`, `State.answered` and `State.stopping` are
what they amount to from a sound state, as one update each, and `Sound.terminate_eq`,
`Sound.interrupt_eq` and `Sound.grace_eq` say so.  The later modules reason about these three.
-/

namespace Worker

/-! ## The invariant -/

namespace Exchange

/-- A reply settles the promise only as its own. -/
def Settles (x : Exchange) : Outcome → Prop
  | .resolved id | .failed id => id = x.id
  | .rejected => True

/-- Whether the promise is settled in each stage, and what is known of a cancelled job's end. -/
def Orderly (x : Exchange) : Prop :=
  match x.stage with
  | .running => x.outcomes = [] ∧ x.settled = none
  | .stopping => x.outcomes = [.rejected] ∧ x.settled = some false
  | .closed => x.settled ≠ some false ∧ ∃ o, x.outcomes = [o] ∧ x.Settles o

end Exchange

namespace State

/-- Something of the exchange is pending. -/
def Open (s : State) (e : Nat) : Prop := (s.exchanges e).stage ≠ .closed

/-- An exchange that was cancelled, and with it everything that is in flight to or from the worker. -/
def Cancelled (s : State) (k : Nat) (token : BitVec 32) (e : Nat) : Prop :=
  e < s.begun ∧ (s.exchanges e).session = k ∧ token = toInt32 (s.exchanges e).id ∧
    (s.exchanges e).outcomes = [.rejected] ∧
    (∀ i ∈ (s.sessions k).inFlight, i = (s.exchanges e).id) ∧
    ((s.sessions k).live = true → (s.exchanges e).stage = .stopping)

end State

/-- What holds of the exchanges and the sessions, whatever is in flight on the session in use. -/
structure Sound (s : State) : Prop where
  /-- What was never begun is as it was at first. -/
  unused : ∀ e, s.begun ≤ e → s.exchanges e = .unused
  unopened : ∀ k, s.opened ≤ k → s.sessions k = { Session.start s.shared with live := false }
  /-- A worker is alive exactly while its session is the current one. -/
  current : ∀ k, (s.sessions k).live = true ↔ s.session = some k
  bound : ∀ k, s.session = some k → k < s.opened
  /-- Something is pending only with the worker in use. -/
  alone : ∀ e, s.Open e → s.session = some (s.exchanges e).session
  /-- And only for one exchange. -/
  only : ∀ e e', s.Open e → s.Open e' → e = e'
  orderly : ∀ e, e < s.begun → (s.exchanges e).Orderly
  /-- An exchange was begun with a session that was opened. -/
  placed : ∀ e, e < s.begun → (s.exchanges e).session < s.opened
  /-- Its id is a token: not the zero that stands in an idle cell. -/
  token : ∀ e, e < s.begun → toInt32 (s.exchanges e).id ≠ 0
  /-- Ids are taken from the sequence, in order. -/
  bounded : ∀ e, e < s.begun → (s.exchanges e).id ≤ s.sequence
  increasing : ∀ e e', e < e' → e' < s.begun → (s.exchanges e).id < (s.exchanges e').id
  /-- The hook of a session to settle is that of the job that stops. -/
  hooked : ∀ k e, (s.sessions k).settling = some e ↔
    (s.exchanges e).stage = .stopping ∧ (s.exchanges e).session = k
  /-- The client's `cancel` is the interruption of the exchange that runs. -/
  cancel : ∀ e, s.cancel = some (.exchange e) ↔ (s.exchanges e).stage = .running
  /-- A token in a cell is that of a cancelled exchange. -/
  cell : ∀ k v, (s.sessions k).cell = some v → v ≠ 0 → ∃ e, s.Cancelled k v e
  /-- While a job stops, its token is in the cell. -/
  stored : ∀ e, (s.exchanges e).stage = .stopping →
    ∀ v, (s.sessions (s.exchanges e).session).cell = some v → v = toInt32 (s.exchanges e).id
  /-- What was posted is answered or in flight. -/
  history : ∀ k, ∀ i ∈ (s.sessions k).posted,
    i ∈ (s.sessions k).answered ∨ i ∈ (s.sessions k).inFlight
  /-- What is in flight is the message of an exchange. -/
  owned : ∀ k, ∀ i ∈ (s.sessions k).inFlight,
    ∃ e, e < s.begun ∧ (s.exchanges e).session = k ∧ (s.exchanges e).id = i
  /-- A job that saw its token was cancelled. -/
  stopped : ∀ k, ∀ i ∈ (s.sessions k).stopped, ∃ e, e < s.begun ∧ (s.exchanges e).session = k ∧
    (s.exchanges e).id = i ∧ (s.exchanges e).outcomes = [.rejected]
  /-- A worker that answers well has its engine. -/
  answers : ∀ k, ∀ r ∈ (s.sessions k).outbox, r.ok = true → (s.sessions k).loaded = true
  /-- A session is ready once its worker has its engine. -/
  ready : ∀ k, (s.sessions k).ready = true → (s.sessions k).loaded = true
  /-- A start-up that resolved was answered well. -/
  resolved : ∀ e i, (s.exchanges e).outcomes = [.resolved i] →
    (s.sessions (s.exchanges e).session).loaded = true

/-- Between two steps, the message of an open exchange is all that is in flight. -/
structure Inv (s : State) : Prop extends Sound s where
  /-- An open exchange waits for its own message alone. -/
  pending : ∀ e, s.Open e →
    (s.sessions (s.exchanges e).session).inFlight = [(s.exchanges e).id]
  /-- With nothing open, nothing is in flight. -/
  quiet : ∀ k, s.session = some k → (∀ e, ¬s.Open e) → (s.sessions k).inFlight = []

/-! ## The changes -/

/-- The end of an exchange, with what it calls if its promise has not settled. -/
def Exchange.ended (x : Exchange) (outcome : Outcome) : Exchange :=
  { x with
    stage := .closed
    outcomes := if x.stage = .running then x.outcomes ++ [outcome] else x.outcomes
    settled := x.settled.map fun _ => true }

/-- A session whose worker was terminated. -/
def Session.killed (k : Session) : Session := { k with live := false, ready := false, settling := none }

/-- A session whose exchange ends with a reply. -/
def Session.replied (k : Session) (reply : Reply) (stopped : Bool) : Session :=
  { k with
    settling := none
    cell := if stopped then k.cell.map fun _ => 0 else k.cell
    outbox := k.outbox.erase reply
    answered := k.answered ++ [reply.id] }

namespace State

/-- An exchange ends with its session. -/
def ended (s : State) (e : Nat) : State :=
  let k := (s.exchanges e).session
  { s with
    exchanges := Function.update s.exchanges e ((s.exchanges e).ended .rejected)
    sessions := Function.update s.sessions k (s.sessions k).killed
    session := none
    deadlines := Function.update s.deadlines e (s.deadlines e).clear
    graces := Function.update s.graces e (s.graces e).clear
    cancel := if s.cancel = some (.exchange e) then none else s.cancel }

/-- A job begins to stop. -/
def stopping (s : State) (e : Nat) : State :=
  let x := s.exchanges e
  let k := s.sessions x.session
  { s with
    exchanges := Function.update s.exchanges e
      { x with stage := .stopping, outcomes := x.outcomes ++ [.rejected], settled := some false }
    sessions := Function.update s.sessions x.session
      { k with cell := k.cell.map fun _ => toInt32 x.id, settling := some e }
    deadlines := Function.update s.deadlines e (s.deadlines e).clear
    graces := Function.update s.graces e .armed
    cancel := none }

/-- An exchange ends with its reply. -/
def answered (s : State) (e : Nat) (reply : Reply) : State :=
  let x := s.exchanges e
  { s with
    exchanges := Function.update s.exchanges e
      (x.ended (if reply.ok then .resolved reply.id else .failed reply.id))
    sessions := Function.update s.sessions x.session
      ((s.sessions x.session).replied reply (x.stage = .stopping))
    deadlines := Function.update s.deadlines e (s.deadlines e).clear
    graces := Function.update s.graces e (s.graces e).clear
    cancel := if s.cancel = some (.exchange e) then none else s.cancel }

/-! ### They are what the callbacks do -/

section

variable {s : State} {e : Nat}

/-- An open exchange runs or stops. -/
theorem stage_of_open (h : s.Open e) :
    (s.exchanges e).stage = .running ∨ (s.exchanges e).stage = .stopping := by
  cases hstage : (s.exchanges e).stage with
  | running => exact .inl rfl
  | stopping => exact .inr rfl
  | closed => exact absurd hstage h

end

end State

section

variable {s : State} {e k : Nat}

/-- An open exchange was begun. -/
theorem Sound.lt_begun (h : Sound s) (ho : s.Open e) : e < s.begun := by
  refine Nat.lt_of_not_le fun hle => ho ?_
  rw [h.unused e hle]
  rfl

/-- The session of the open exchange waits for it exactly if it stops. -/
theorem Sound.settling (h : Sound s) (ho : s.Open e) :
    (s.sessions (s.exchanges e).session).settling =
      if (s.exchanges e).stage = .stopping then some e else none := by
  split
  · next hstage => exact (h.hooked _ _).mpr ⟨hstage, rfl⟩
  · next hstage =>
    cases hsettling : (s.sessions (s.exchanges e).session).settling with
    | none => rfl
    | some e' =>
        obtain ⟨hstopping, -⟩ := (h.hooked _ _).mp hsettling
        obtain rfl := h.only e e' ho (by simp [State.Open, hstopping])
        exact absurd hstopping hstage

/-- To terminate the open exchange is to end it with its session.  Where it stops, its hook is
called back and finds it closed. -/
theorem Sound.terminate_eq (h : Sound s) (ho : s.Open e) : s.terminate e = s.ended e := by
  have hcancel := h.cancel e
  have hsession := h.alone e ho
  have hsettling := h.settling ho
  -- A running exchange is rejected as well; a stopping one already was.
  rcases State.stage_of_open ho with hstage | hstage
  · simp only [hstage, reduceCtorEq, if_false] at hsettling
    simp [State.terminate, hstage, State.close, State.release, State.setDeadline, State.setGrace,
      State.setExchange, State.setSession, State.stop, State.settle, State.ended,
      hcancel.mpr hstage, hsession, hsettling, Exchange.ended, Session.killed]
  · have hne : s.cancel ≠ some (.exchange e) := by
      rw [ne_eq, hcancel, hstage]
      simp
    simp only [hstage, if_true] at hsettling
    simp [State.terminate, hstage, State.close, State.release, State.setDeadline, State.setGrace,
      State.setExchange, State.setSession, State.stop, State.ended, hne, hsession, hsettling, Exchange.ended, Session.killed]

/-- A failure after the end does nothing. -/
theorem State.terminate_closed (h : ¬s.Open e) : s.terminate e = s := by
  rw [State.terminate, if_pos (not_not.mp h)]

/-- An interrupt does nothing, ends the exchange with its session, or begins to stop a job. -/
theorem Sound.interrupt_eq (h : Sound s) (timedOut : Bool) :
    s.interrupt e timedOut =
      if (s.exchanges e).stage ≠ .running then s
      else if (s.exchanges e).kind = .init ∨
          ((s.sessions (s.exchanges e).session).cell = none ∧ timedOut = false) then s.ended e
      else s.stopping e := by
  rw [State.interrupt]
  by_cases hstage : (s.exchanges e).stage = .running
  · have ho : s.Open e := by simp [State.Open, hstage]
    have hcancel := (h.cancel e).mpr hstage
    simp only [hstage, ne_eq, not_true_eq_false, if_false, h.terminate_eq ho]
    refine if_congr Iff.rfl rfl ?_
    simp [State.release, State.setDeadline, State.setGrace, State.setExchange, State.setSession,
      State.settle, State.stopping, hcancel]
  · simp only [ne_eq, hstage, not_false_eq_true, if_true]

/-- The grace period ends a job that still stops. -/
theorem Sound.grace_eq (h : Sound s) :
    s.grace e = if (s.exchanges e).stage = .stopping then s.ended e else s := by
  rw [State.grace]
  split
  · next hstage => exact h.terminate_eq (by simp [State.Open, hstage])
  · rfl

end

end Worker
