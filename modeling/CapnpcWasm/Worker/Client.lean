import CapnpcWasm.Lib.Traces

/-!
# A worker client and its workers

`createWorkerCompiler` of `sdk/typescript/worker-client.ts` and the workers it starts
(`worker.ts`), as one transition system.  A step is one callback of the client, one
continuation of its job call, or one action of a worker.

A timer runs once, and only if it was set.  One that was cleared may still run, as in Deno,
where an event of the same turn clears it too late.  Aborts and error events may come at any
time, also after their listener was removed.  The callbacks check what they may still do.

What callers pass is plain data.  `runJob` reads the options and the request between its
check of `busy` and the assignment, and an accessor of theirs that called the client would
run in between.  No such accessor is modelled: the two are one step.
-/

namespace Worker

/-! ## Messages -/

inductive Kind where
  | init
  | job
deriving DecidableEq, Repr

/-- What the client posts. -/
structure Message where
  kind : Kind
  id : Nat
deriving DecidableEq, Repr

/-- What a worker answers: a result or a structured error. -/
structure Reply where
  id : Nat
  ok : Bool
deriving DecidableEq, Repr

/-- `id | 0`. -/
def toInt32 (id : Nat) : BitVec 32 := BitVec.ofNat 32 id

/-- Exchange ids double as cancellation tokens, so never 0 as an Int32.  Of two successive numbers
one is not. -/
def nextId (sequence : Nat) : Nat :=
  if toInt32 (sequence + 1) = 0 then sequence + 2 else sequence + 1

/-! ## Timers -/

inductive Timer where
  /-- Not set, or it has run. -/
  | idle
  | armed
  | cleared
deriving DecidableEq, Repr

/-- `clearTimeout`. -/
def Timer.clear : Timer → Timer
  | .armed => .cleared
  | t => t

/-! ## Sessions -/

/-- A worker as far as the client knows it, and the worker itself.  `settling` is the exchange whose
cancelled job still unwinds.  `loaded` says that the worker has its engine and its cell; `stopped`
has the jobs that saw their token.  `posted` and `answered` keep the ids the client posted and those
whose reply reached it. -/
structure Session where
  live : Bool
  ready : Bool
  cell : Option (BitVec 32)
  settling : Option Nat
  inbox : List Message
  working : List Message
  outbox : List Reply
  loaded : Bool
  stopped : List Nat
  posted : List Nat
  answered : List Nat
deriving DecidableEq, Repr

def Session.start (shared : Bool) : Session where
  live := true
  ready := false
  cell := if shared then some 0 else none
  settling := none
  inbox := []
  working := []
  outbox := []
  loaded := false
  stopped := []
  posted := []
  answered := []

namespace Session

/-- The ids that were posted and whose reply did not reach the client. -/
def inFlight (k : Session) : List Nat :=
  k.outbox.map (·.id) ++ (k.working.map (·.id) ++ k.inbox.map (·.id))

def post (k : Session) (m : Message) : Session :=
  { k with inbox := k.inbox ++ [m], posted := k.posted ++ [m.id] }

/-- The worker receives a message. -/
def take (k : Session) : Option Session :=
  match k.inbox with
  | [] => none
  | m :: inbox => some { k with inbox := inbox, working := k.working ++ [m] }

/-- The worker answers a message: without an engine, a job fails. -/
def finish (k : Session) (m : Message) (ok : Bool) : Option Session :=
  if m ∈ k.working ∧ (m.kind = .job → ok = true → k.loaded = true) then
    some { k with
      working := k.working.erase m
      outbox := k.outbox ++ [⟨m.id, ok⟩]
      loaded := k.loaded || (m.kind == .init && ok) }
  else none

/-- A poll of a job finds its own token in the cell. -/
def poll (k : Session) (m : Message) : Option Session :=
  if m ∈ k.working ∧ m.kind = .job ∧ k.loaded = true ∧ k.cell = some (toInt32 m.id) then
    some { k with stopped := k.stopped ++ [m.id] }
  else none

end Session

/-! ## Exchanges -/

/-- "running" until the caller's promise settles; "stopping" while a cancelled job unwinds in the
worker; "closed" once nothing is pending. -/
inductive Stage where
  | running
  | stopping
  | closed
deriving DecidableEq, Repr

/-- A call of `resolve` or `reject`: with a reply, or with a reason of the client's own. -/
inductive Outcome where
  | resolved (id : Nat)
  | failed (id : Nat)
  | rejected
deriving DecidableEq, Repr

/-- `settled` is the promise of a cancelled job's end, once there is one: whether it resolved. -/
structure Exchange where
  session : Nat
  id : Nat
  kind : Kind
  stage : Stage
  outcomes : List Outcome
  settled : Option Bool
deriving DecidableEq, Repr

def Exchange.unused : Exchange := ⟨0, 0, .init, .closed, [], none⟩

/-! ## The client -/

/-- What `cancel` calls. -/
inductive Hook where
  /-- `interruptCaller` of an exchange. -/
  | exchange (e : Nat)
  /-- `finish` of the pending `settled`. -/
  | wait
deriving DecidableEq, Repr

/-- Where the one call is that may be active: the factory, or a `runJob`. -/
inductive Phase where
  /-- Before the factory. -/
  | fresh
  /-- The factory waits for its `initialize`. -/
  | creating (e : Nat)
  /-- The factory threw: there is no client. -/
  | failed
  | idle
  /-- In `settled`, behind an exchange, and how its promise settled. -/
  | waiting (e : Nat) (finished : Option Bool)
  /-- `settled` returned. -/
  | settled
  /-- In `initialize`. -/
  | initializing (e : Nat)
  /-- `initialize` returned. -/
  | initialized
  /-- In the job's exchange. -/
  | exchanging (e : Nat)
  /-- The exchange rejected at once: in `initialize`, with a session to stop, or as the job's. -/
  | refused (current : Option Nat)
deriving DecidableEq, Repr

/-- `sessions` and `exchanges` are numbered as they are made, `opened` and `begun` of them.
`deadlines` and `graces` are the timers of the exchanges, `expiry` is that of `settled`. -/
structure State where
  shared : Bool
  disposed : Bool
  busy : Bool
  cancel : Option Hook
  sequence : Nat
  session : Option Nat
  sessions : Nat → Session
  opened : Nat
  exchanges : Nat → Exchange
  begun : Nat
  deadlines : Nat → Timer
  graces : Nat → Timer
  expiry : Timer
  phase : Phase

def State.init (shared : Bool) : State where
  shared := shared
  disposed := false
  busy := false
  cancel := none
  sequence := 0
  session := none
  sessions := fun _ => { Session.start shared with live := false }
  opened := 0
  exchanges := fun _ => .unused
  begun := 0
  deadlines := fun _ => .idle
  graces := fun _ => .idle
  expiry := .idle
  phase := .fresh

namespace State

def setExchange (s : State) (e : Nat) (x : Exchange) : State :=
  { s with exchanges := Function.update s.exchanges e x }

def setSession (s : State) (k : Nat) (x : Session) : State :=
  { s with sessions := Function.update s.sessions k x }

def setDeadline (s : State) (e : Nat) (timer : Timer) : State :=
  { s with deadlines := Function.update s.deadlines e timer }

def setGrace (s : State) (e : Nat) (timer : Timer) : State :=
  { s with graces := Function.update s.graces e timer }

/-- The session, and the state with it. -/
def open_ (s : State) : Nat × State :=
  match s.session with
  | some k => (k, s)
  | none =>
      (s.opened, { s with session := some s.opened, opened := s.opened + 1 }.setSession s.opened
        (.start s.shared))

/-! ### The callbacks of an exchange -/

/-- Stop listening to the caller. -/
def release (s : State) (e : Nat) : State :=
  let s := s.setDeadline e (s.deadlines e).clear
  if s.cancel = some (.exchange e) then { s with cancel := none } else s

/-- Stop listening to the worker too, and end a cancelled job's wait. -/
def close (s : State) (e : Nat) : State :=
  let s := (s.setExchange e { s.exchanges e with stage := .closed }).release e
  let s := s.setGrace e (s.graces e).clear
  let x := s.exchanges e
  let k := s.sessions x.session
  let s := if k.settling = some e then s.setSession x.session { k with settling := none } else s
  s.setExchange e { x with settled := x.settled.map fun _ => true }

def settleThis (s : State) (e : Nat) : State :=
  if (s.exchanges e).stage = .stopping then s.close e else s

/-- Terminate a session's worker; the next job starts a fresh one. -/
def stop (s : State) (current : Nat) : State :=
  let k := s.sessions current
  let s := s.setSession current { k with live := false, ready := false }
  let s := if s.session = some current then { s with session := none } else s
  match k.settling with
  | none => s
  | some e => s.settleThis e

/-- A call of the promise's `resolve` or `reject`. -/
def settle (s : State) (e : Nat) (outcome : Outcome) : State :=
  s.setExchange e { s.exchanges e with outcomes := (s.exchanges e).outcomes ++ [outcome] }

/-- The worker failed, or nothing else can stop it: terminate and reject. -/
def terminate (s : State) (e : Nat) : State :=
  let stage := (s.exchanges e).stage
  if stage = .closed then s
  else
    let s := (s.close e).stop (s.exchanges e).session
    if stage = .running then s.settle e .rejected else s

def interrupt (s : State) (e : Nat) (timedOut : Bool) : State :=
  let x := s.exchanges e
  if x.stage ≠ .running then s
  else
    let cell := (s.sessions x.session).cell
    -- Without a cell only the job's own deadline reaches a guest that blocks its worker.
    if x.kind = .init ∨ (cell = none ∧ timedOut = false) then s.terminate e
    else
      let s := (s.setExchange e { x with stage := .stopping }).release e
      let s := s.settle e .rejected
      let k := s.sessions x.session
      let s := s.setSession x.session
        { k with cell := cell.map fun _ => toInt32 x.id, settling := some e }
      (s.setExchange e { s.exchanges e with settled := some false }).setGrace e .armed

/-- The timer of the grace period. -/
def grace (s : State) (e : Nat) : State :=
  if (s.exchanges e).stage = .stopping then s.terminate e else s

/-- A reply reaches the listener of an exchange. -/
def receive (s : State) (e : Nat) (reply : Reply) : State :=
  let x := s.exchanges e
  if reply.id ≠ x.id then s
  else
    match x.stage with
    | .stopping =>
        let k := s.sessions x.session
        (s.setSession x.session { k with cell := k.cell.map fun _ => 0 }).close e
    | .closed => s
    | .running =>
        (s.close e).settle e (if reply.ok then .resolved reply.id else .failed reply.id)

/-! ### The calls -/

/-- `exchange`: what it returns is the new exchange, or nothing where it rejects at once.  `aborted`
says that the caller's signal is aborted, `posts` that `postMessage` does not throw. -/
def exchange (s : State) (kind : Kind) (aborted posts : Bool) : Option Nat × State :=
  if s.disposed ∨ aborted then (none, s)
  else
    let (current, s) := s.open_
    let id := nextId s.sequence
    let e := s.begun
    let s := ({ s with sequence := id, begun := e + 1, cancel := some (.exchange e) }.setExchange e
      ⟨current, id, kind, .running, [], none⟩).setDeadline e .armed
    if posts then (some e, s.setSession current ((s.sessions current).post ⟨kind, id⟩))
    else (some e, s.terminate e)

/-- `finish` of `settled`. -/
def finish (s : State) (ok : Bool) : State :=
  match s.phase with
  | .waiting e none =>
      { s with
        cancel := if s.cancel = some .wait then none else s.cancel
        expiry := s.expiry.clear
        phase := .waiting e (some ok) }
  | _ => s

/-- What a `runJob` leaves when it throws or returns. -/
def leave (s : State) : State := { s with busy := false, phase := .idle }

/-- `initialize` up to its `await`. -/
def initialize_ (s : State) (aborted posts : Bool) (awaiting : Nat → Phase) : State :=
  let (current, s) := s.open_
  match s.exchange .init aborted posts with
  | (some e, s) => { s with phase := awaiting e }
  | (none, s) => { s with phase := .refused (some current) }

/-- `initialize` behind its `await`: a worker whose modules failed to load is terminated. -/
def initialized (s : State) (e : Nat) (returns throws : State → State) : Option State :=
  let current := (s.exchanges e).session
  match (s.exchanges e).outcomes with
  | [] => none
  | .resolved _ :: _ => some (returns (s.setSession current { s.sessions current with ready := true }))
  | _ :: _ => some (throws (s.stop current))

/-- `runJob` up to its first `await`, with a request that is accepted.  A call on a disposed
or a busy client rejects. -/
def runJob (s : State) : State :=
  if s.disposed ∨ s.busy then s
  else
    let s := { s with busy := true }
    match s.session.bind fun k => (s.sessions k).settling with
    | none => { s with phase := .settled }
    | some e => { s with cancel := some .wait, expiry := .armed, phase := .waiting e none }

/-- `runJob` at the job's exchange. -/
def post (s : State) (late aborted posts : Bool) : State :=
  if late then s.leave
  else
    match s.exchange .job aborted posts with
    | (some e, s) => { s with phase := .exchanging e }
    | (none, s) => { s with phase := .refused none }

/-- `runJob` behind `settled`. -/
def start (s : State) (late aborted posts : Bool) : State :=
  if s.disposed then s.leave
  else if (s.session.map fun k => (s.sessions k).ready) = some true then s.post late aborted posts
  else s.initialize_ aborted posts .initializing

/-- The continuation of the call. -/
def resume (s : State) (late aborted posts : Bool) : Option State :=
  match s.phase with
  | .creating e => s.initialized e ({ · with phase := .idle }) ({ · with phase := .failed })
  | .waiting _ (some true) => some (s.start late aborted posts)
  | .waiting _ (some false) => some s.leave
  | .settled => some (s.start late aborted posts)
  | .initializing e => s.initialized e ({ · with phase := .initialized }) leave
  | .initialized => some (s.post late aborted posts)
  | .exchanging e => if (s.exchanges e).outcomes = [] then none else some s.leave
  | .refused none => some s.leave
  | .refused (some current) => some (s.stop current).leave
  | _ => none

/-- `cancel?.(disposedError())`. -/
def cancelPending (s : State) : State :=
  match s.cancel with
  | none => s
  | some (.exchange e) => s.interrupt e false
  | some .wait => s.finish false

/-- `dispose`. -/
def dispose (s : State) : State :=
  let s := { s with disposed := true }.cancelPending
  match s.session with
  | none => s
  | some k => s.stop k

/-- There is a client to call. -/
def usable (s : State) : Bool :=
  match s.phase with
  | .fresh | .creating _ | .failed => false
  | _ => true

end State

/-! ## Events -/

inductive Event where
  /-- The factory, whose signal is not aborted. -/
  | create (posts : Bool)
  /-- `compile` or `generate` with a request that is accepted, plain data like the options. -/
  | call
  | resume (late aborted posts : Bool)
  /-- The deadline of an exchange. -/
  | timer (e : Nat)
  /-- The caller's signal. -/
  | abort (e : Nat)
  | grace (e : Nat)
  /-- An `error` or `messageerror` event. -/
  | fail (e : Nat)
  /-- The deadline of the call that waits in `settled`. -/
  | expire
  /-- Its signal. -/
  | abandon
  /-- The promise of a cancelled job's end, which a call waits for, resolved. -/
  | wake
  | dispose
  /-- A message reaches the worker. -/
  | take (k : Nat)
  | finish (k : Nat) (m : Message) (ok : Bool)
  | poll (k : Nat) (m : Message)
  /-- A reply reaches the listeners of the worker. -/
  | deliver (k : Nat) (reply : Reply)
deriving DecidableEq, Repr

namespace State

/-- A reply reaches all exchanges with a session, in the order they began. -/
def deliver (s : State) (k : Nat) (reply : Reply) : State :=
  (List.range s.begun).foldl
    (fun s e => if (s.exchanges e).session = k then s.receive e reply else s) s

def step (s : State) : Event → Option State
  | .create posts =>
      if s.phase = .fresh then some (s.initialize_ false posts .creating) else none
  | .call => if s.usable then some s.runJob else none
  | .resume late aborted posts => s.resume late aborted posts
  | .timer e =>
      if e < s.begun ∧ s.deadlines e ≠ .idle then
        some ((s.interrupt e true).setDeadline e .idle)
      else none
  | .abort e => if e < s.begun then some (s.interrupt e false) else none
  | .grace e =>
      if e < s.begun ∧ s.graces e ≠ .idle then some ((s.grace e).setGrace e .idle) else none
  | .fail e => if e < s.begun then some (s.terminate e) else none
  | .expire => if s.expiry ≠ .idle then some { s.finish false with expiry := .idle } else none
  | .abandon => some (s.finish false)
  | .wake =>
      match s.phase with
      | .waiting e none => if (s.exchanges e).settled = some true then some (s.finish true) else none
      | _ => none
  | .dispose => if s.usable then some s.dispose else none
  | .take k => if k < s.opened then (s.sessions k).take.map (s.setSession k) else none
  | .finish k m ok => if k < s.opened then ((s.sessions k).finish m ok).map (s.setSession k) else none
  | .poll k m => if k < s.opened then ((s.sessions k).poll m).map (s.setSession k) else none
  | .deliver k reply =>
      if k < s.opened ∧ reply ∈ (s.sessions k).outbox then
        let x := s.sessions k
        some ((s.setSession k { x with
          outbox := x.outbox.erase reply, answered := x.answered ++ [reply.id] }).deliver k reply)
      else none

end State

/-- The client or a worker does the event. -/
def Steps (s : State) (ev : Event) (t : State) : Prop := s.step ev = some t

/-- The states of a client and its workers. -/
def Reachable (s : State) : Prop := ∃ shared evs, Trace Steps (.init shared) evs s

end Worker
