import CapnpcWasm.GoSdk.Command
import CapnpcWasm.Lib.Traces
import Mathlib.Data.Finset.Card

/-!
# The jobs of a compiler

`begin`, its `done`, the body of a job, `Close` and `closeRuntimes` of the Go SDK, as the
steps of any number of goroutines.  A step is one critical section, one channel operation
or one read of a context.  `jobErr` reads a context twice, its cause and then its error,
and the context may end between the two.
-/

namespace GoSdk

/-! ## Contexts -/

/-- `ctx.Err()` of a context that ended. -/
inductive ContextError where
  | canceled
  | deadlineExceeded
deriving DecidableEq, Repr

def ContextError.toEnd : ContextError → ContextEnd
  | .canceled => .canceled
  | .deadlineExceeded => .deadlineExceeded

/-- How a job's context ended: its error, and whether its cause is `ErrClosed`.  The first
end counts. -/
structure Ended where
  err : ContextError
  closed : Bool
deriving DecidableEq, Repr

/-- The read `jobErr` is about to do. -/
inductive Reading where
  | cause
  | err
deriving DecidableEq, Repr

/-- One read of `jobErr`: the next read, or what it returns. -/
def jobErr (ctx : Option Ended) : Reading → Sum Reading (Option ContextEnd)
  | .cause => if ctx.any (·.closed) then .inr (some .closed) else .inl .err
  | .err => .inr (ctx.map (·.err.toEnd))

/-! ## Calls -/

/-- Where a `Compile` or `Generate` call is. -/
inductive Phase where
  /-- Before the critical section of `begin`. -/
  | entering
  /-- Returned, because the compiler was closed. -/
  | rejected
  /-- At the `select` for a slot. -/
  | waiting
  /-- In `jobErr`, after the `select` saw the context end. -/
  | refused (r : Reading)
  /-- In the `jobErr` at the start of the body. -/
  | checking (r : Reading)
  /-- Validating, running a guest, or between two guests. -/
  | running
  /-- In the `jobErr` that decides whether a guest's end is a cancellation. -/
  | classifying (r : Reading)
  /-- In the `jobErr` whose result the job returns. -/
  | reporting (r : Reading)
  /-- At the first, second and third step of `done`, with the context error the call will
  return, if it is one. -/
  | cancelling (report : Option ContextEnd)
  | freeing (report : Option ContextEnd)
  | unregistering (report : Option ContextEnd)
  | returned (report : Option ContextEnd)
deriving DecidableEq, Repr

/-- A call: its caller's context, the context `begin` derives from it, and whether it took
a slot. -/
structure Call where
  caller : Option ContextError
  ctx : Option Ended
  admitted : Bool
  phase : Phase
deriving DecidableEq, Repr

namespace Call

def start : Call := ⟨none, none, false, .entering⟩

/-- Between its registration and its `delete`. -/
def registered (c : Call) : Bool :=
  match c.phase with
  | .entering | .rejected | .returned _ => false
  | _ => true

/-- Between its send to the slots and its receive from them. -/
def holds (c : Call) : Bool :=
  match c.phase with
  | .entering | .rejected | .unregistering _ | .returned _ => false
  | _ => c.admitted

/-- What a context error makes the call return. -/
def report (c : Call) : Option ContextEnd :=
  match c.phase with
  | .cancelling r | .freeing r | .unregistering r | .returned r => r
  | _ => none

/-- The next read of the `jobErr` the call is in. -/
def read (c : Call) : Option Call :=
  match c.phase with
  | .refused r =>
      match jobErr c.ctx r with
      | .inl r => some { c with phase := .refused r }
      | .inr report => some { c with phase := .cancelling report }
  | .checking r =>
      match jobErr c.ctx r with
      | .inl r => some { c with phase := .checking r }
      | .inr none => some { c with phase := .running }
      | .inr (some e) => some { c with phase := .cancelling (some e) }
  | .classifying r =>
      match jobErr c.ctx r with
      | .inl r => some { c with phase := .classifying r }
      | .inr none => some { c with phase := .running }
      | .inr (some _) => some { c with phase := .reporting .cause }
  | .reporting r =>
      match jobErr c.ctx r with
      | .inl r => some { c with phase := .reporting r }
      | .inr report => some { c with phase := .cancelling report }
  | _ => none

/-- `Close` ends the context of a job with `ErrClosed`. -/
def terminate (c : Call) : Call := { c with ctx := c.ctx.or (some ⟨.canceled, true⟩) }

end Call

/-- A step of a call that concerns no other goroutine. -/
inductive Move where
  /-- The caller's context ends. -/
  | callerEnds (e : ContextError)
  /-- The end of the caller's context reaches the job's. -/
  | propagate
  /-- The `select` for a slot sees the job's context end. -/
  | refuse
  | read
  | guestEnds
  /-- The job succeeds, or fails for another reason than its context. -/
  | finish
  /-- `cancel(nil)` of `done`. -/
  | cancel
deriving DecidableEq, Repr

def Call.move (c : Call) : Move → Option Call
  | .callerEnds e => if c.caller = none then some { c with caller := some e } else none
  | .propagate =>
      if c.registered then
        c.caller.map fun e => { c with ctx := c.ctx.or (some ⟨e, false⟩) }
      else none
  | .refuse =>
      if c.phase = .waiting ∧ c.ctx ≠ none then some { c with phase := .refused .cause } else none
  | .read => c.read
  | .guestEnds => if c.phase = .running then some { c with phase := .classifying .cause } else none
  | .finish => if c.phase = .running then some { c with phase := .cancelling none } else none
  | .cancel =>
      match c.phase with
      | .cancelling r =>
          some { c with ctx := c.ctx.or (some ⟨.canceled, false⟩), phase := .freeing r }
      | _ => none

/-! ## The compiler -/

/-- Where a `Close` call is. -/
inductive Closer where
  | entering
  /-- At the `select` with a default. -/
  | polling
  /-- At the `select` that waits. -/
  | waiting
  /-- Its context ended first. -/
  | terminating
  /-- At `closeRuntimes`. -/
  | releasing
  | returned
deriving DecidableEq, Repr

/-- A compiler with all the goroutines that use it. -/
structure State where
  closed : Bool
  /-- How often the idle channel was closed. -/
  idle : Nat
  /-- Whether the `release` of `closeRuntimes` is done, and how often its body ran. -/
  released : Bool
  releases : Nat
  /-- Goroutines of `done` that will call `closeRuntimes`. -/
  releasers : Nat
  slots : Nat
  jobs : Finset Nat
  calls : Nat → Call
  closers : Nat → Closer

/-- An open compiler, and calls that all come later. -/
def State.init : State where
  closed := false
  idle := 0
  released := false
  releases := 0
  releasers := 0
  slots := 0
  jobs := ∅
  calls := fun _ => .start
  closers := fun _ => .entering

inductive Event where
  | call (i : Nat) (move : Move)
  /-- The critical section of `begin`. -/
  | enter (i : Nat)
  /-- The send to the slots. -/
  | acquire (i : Nat)
  /-- The receive from the slots. -/
  | free (i : Nat)
  /-- The critical section of `done`. -/
  | unregister (i : Nat)
  /-- The first critical section of `Close`. -/
  | close (k : Nat)
  | poll (k : Nat)
  | wake (k : Nat)
  | expire (k : Nat)
  /-- The second critical section of `Close`. -/
  | terminate (k : Nat)
  | release (k : Nat)
  /-- `closeRuntimes` in the goroutine of a `done`. -/
  | releaseLast
deriving DecidableEq, Repr

namespace State

variable (maxJobs : Nat) (s : State)

def setCall (i : Nat) (c : Call) : State := { s with calls := Function.update s.calls i c }

def setCloser (k : Nat) (c : Closer) : State := { s with closers := Function.update s.closers k c }

/-- `release.Do`. -/
def closeRuntimes : State :=
  if s.released then s else { s with released := true, releases := s.releases + 1 }

def enter (i : Nat) : Option State :=
  let c := s.calls i
  if c.phase ≠ .entering then none
  else if s.closed then some (s.setCall i { c with phase := .rejected })
  else
    some ({ s with jobs := insert i s.jobs }.setCall i
      { c with
        ctx := c.caller.map fun e => ⟨e, false⟩
        phase := if 0 < maxJobs then .waiting else .checking .cause })

def acquire (i : Nat) : Option State :=
  let c := s.calls i
  if c.phase = .waiting ∧ s.slots < maxJobs then
    some ({ s with slots := s.slots + 1 }.setCall i
      { c with admitted := true, phase := .checking .cause })
  else none

def free (i : Nat) : Option State :=
  let c := s.calls i
  match c.phase with
  | .freeing r =>
      if c.admitted then
        if s.slots = 0 then none
        else some ({ s with slots := s.slots - 1 }.setCall i { c with phase := .unregistering r })
      else some (s.setCall i { c with phase := .unregistering r })
  | _ => none

def unregister (i : Nat) : Option State :=
  let c := s.calls i
  match c.phase with
  | .unregistering r =>
      let s := { s with jobs := s.jobs.erase i }.setCall i { c with phase := .returned r }
      if s.closed ∧ s.jobs = ∅ then
        some { s with idle := s.idle + 1, releasers := s.releasers + 1 }
      else some s
  | _ => none

def close (k : Nat) : Option State :=
  if s.closers k ≠ .entering then none
  else if s.closed then some (s.setCloser k .polling)
  else
    let idle := if s.jobs = ∅ then s.idle + 1 else s.idle
    some ({ s with closed := true, idle := idle }.setCloser k .polling)

def poll (k : Nat) : Option State :=
  if s.closers k = .polling then
    some (s.setCloser k (if 0 < s.idle then .releasing else .waiting))
  else none

def wake (k : Nat) : Option State :=
  if s.closers k = .waiting ∧ 0 < s.idle then some (s.setCloser k .releasing) else none

def expire (k : Nat) : Option State :=
  if s.closers k = .waiting then some (s.setCloser k .terminating) else none

def terminate (k : Nat) : Option State :=
  if s.closers k = .terminating then
    let calls := fun i => if i ∈ s.jobs then (s.calls i).terminate else s.calls i
    some ({ s with calls := calls }.setCloser k .returned)
  else none

def release (k : Nat) : Option State :=
  if s.closers k = .releasing then some (s.closeRuntimes.setCloser k .returned) else none

def releaseLast : Option State :=
  if s.releasers = 0 then none
  else some { s with releasers := s.releasers - 1 }.closeRuntimes

def step : Event → Option State
  | .call i move => ((s.calls i).move move).map (s.setCall i)
  | .enter i => s.enter maxJobs i
  | .acquire i => s.acquire maxJobs i
  | .free i => s.free i
  | .unregister i => s.unregister i
  | .close k => s.close k
  | .poll k => s.poll k
  | .wake k => s.wake k
  | .expire k => s.expire k
  | .terminate k => s.terminate k
  | .release k => s.release k
  | .releaseLast => s.releaseLast

end State

/-- The compiler does the event. -/
def Steps (maxJobs : Nat) (s : State) (e : Event) (t : State) : Prop := s.step maxJobs e = some t

end GoSdk
