import CapnpcWasm.TsSdk.Control
import CapnpcWasm.TsSdk.Files

/-!
# Running a command

`runCommand` of the TypeScript SDK.  A guest is what it does: calls of its imports and
polls of the injected import, in any order, while it is instantiated and while it runs,
and how each of the two ends.  The imports of the shim are a parameter: what one of them
does to the files, streams and descriptors, and whether it throws.  The wrappers around
them, the poll of the clock and the exit are those of the source.
-/

namespace TsSdk

open Sdk

variable {N H C : Type}

abbrev Errno := Nat

def errnoIntr : Errno := 27
def errnoInval : Errno := 28
def errnoNotsup : Errno := 58

/-- The imports of the shim, over a type of host states. -/
structure Shim (N H C : Type) where
  call : C → H → H × Except (Thrown N) Errno
  /-- The filesystem of the guest, and its root directory. -/
  files : H → Filesystem
  root : H → InodeId
  stdout : H → Bytes
  stderr : H → Bytes

/-! ## Stops -/

/-- Why the host stopped a guest from inside an import. -/
inductive Stop (N : Type) where
  | exit (code : Int)
  | failure (error : Thrown N)
  | cancel

structure Runner (N H : Type) where
  host : H
  control : Control N
  stop : Option (Stop N)
  /-- The countdown of the guest, once it is instantiated. -/
  countdown : Option Nat

namespace Runner

/-- The first stop counts. -/
def halt (r : Runner N H) (reason : Stop N) : Runner N H :=
  { r with stop := r.stop.or (some reason), countdown := r.countdown.map fun _ => 0 }

/-- Polls the job. -/
def cancel (r : Runner N H) (seen : Seen N) : Runner N H × Except (Thrown N) Bool :=
  match r.control.cancelled seen with
  | (c, .ok true) => ({ r with control := c }.halt .cancel, .ok true)
  | (c, x) => ({ r with control := c }, x)

/-- The outermost wrapper of an import: no error of the host reaches the guest. -/
def wrapped (r : Runner N H) (seen : Seen N)
    (original : Runner N H → Runner N H × Except (Thrown N) Errno) : Runner N H × Errno :=
  if r.stop.isSome then (r, errnoIntr)
  else
    match r.cancel seen with
    | (r, .ok true) => (r, errnoIntr)
    | (r, .error e) => (r.halt (.failure e), errnoIntr)
    | (r, .ok false) =>
        match original r with
        | (r, .ok errno) => (r, errno)
        | (r, .error e) => (r.halt (.failure e), errnoIntr)

/-- The injected import: whether the guest must stop. -/
def interrupt (r : Runner N H) (seen : Seen N) : Runner N H × Nat :=
  if r.stop.isSome then (r, 1)
  else
    match r.cancel seen with
    | (r, .ok true) => (r, 1)
    | (r, .ok false) => (r, 0)
    | (r, .error e) => (r.halt (.failure e), 1)

end Runner

/-! ## Imports -/

/-- A call of `poll_oneoff`: its arguments as the wrappers check them, what the job sees
while it sleeps, and what it sees afterwards. -/
structure PollCall (N : Type) where
  /-- The error of a read of memory the guest does not have yet. -/
  missing : Option (Thrown N)
  subscriptions : UInt32
  /-- The subscription and the event lie in memory, and the number of events does. -/
  inMemory : Bool
  resultInMemory : Bool
  isClock : Bool
  knownClock : Bool
  sleeps : List (Seen N)
  after : Seen N

/-- Sleeps for the subscription, and answers EINTR if the job was cancelled. -/
def pollOneoff (call : PollCall N) (r : Runner N H) : Runner N H × Except (Thrown N) Errno :=
  if call.subscriptions = 0 then (r, .ok errnoInval)
  else if call.subscriptions ≠ 1 then (r, .ok errnoNotsup)
  else
    match call.missing with
    | some e => (r, .error e)
    | none =>
        if !call.inMemory || !call.resultInMemory then (r, .ok errnoInval)
        else if !call.isClock then (r, .ok errnoNotsup)
        else if !call.knownClock then (r, .ok errnoInval)
        else
          match r.control.sleep call.sleeps with
          | (c, .error e) => ({ r with control := c }, .error e)
          | (c, .ok ()) =>
              match c.cancelled call.after with
              | (c, .error e) => ({ r with control := c }, .error e)
              | (c, .ok true) => ({ r with control := c }.halt .cancel, .ok errnoIntr)
              | (c, .ok false) => ({ r with control := c }, .ok 0)

/-- What a guest can do to its host, with what the job sees when it does. -/
inductive Act (N C : Type) where
  | call (c : C) (seen : Seen N)
  | poll (call : PollCall N) (seen : Seen N)
  | exit (code : Int) (seen : Seen N)
  | interrupt (seen : Seen N)

section

variable (shim : Shim N H C)

def Runner.act (r : Runner N H) : Act N C → Runner N H
  | .call c seen =>
      (r.wrapped seen fun r =>
        let (host, answer) := shim.call c r.host
        ({ r with host := host }, answer)).1
  | .poll call seen => (r.wrapped seen (pollOneoff call)).1
  | .exit code seen => (r.wrapped seen fun r => (r.halt (.exit code), .ok 0)).1
  | .interrupt seen => (r.interrupt seen).1

def Runner.acts (r : Runner N H) (acts : List (Act N C)) : Runner N H := acts.foldl (·.act shim) r

end

/-! ## The run -/

/-- A guest: what it does while it is instantiated, and how that ends; whether it exports
a command and the countdown; what it does when it runs, and how that ends. -/
structure Guest (N C : Type) where
  startup : List (Act N C)
  instantiated : Except (Thrown N) Unit
  isCommand : Bool
  countdown : Option Nat
  main : List (Act N C)
  ending : Except (Thrown N) Unit

/-- What `runCommand` gives the engine. -/
inductive Outcome (N : Type) where
  /-- `Cancelled`, with the job's reason. -/
  | cancelled (reason : Option (Thrown N)) (stderr : JsString)
  /-- `CommandError`. -/
  | failed (message stderr : JsString) (cause : Thrown N)
  | done (code : Int) (stdout : Bytes) (stderr : JsString) (files : List (JsString × Bytes))

section

variable (limits : Limits) (readonly : Bool) (shim : Shim N H C)

def commandError (stderr : JsString) (error : Thrown N) : Outcome N :=
  .failed (text "WASI command failed: " ++ error.message ++
    (if stderr = [] then [] else text "\n" ++ stderr)) stderr error

/-- Instantiates and runs the guest, to a failure that is no stop. -/
def runGuest (g : Guest N C) (r : Runner N H) : Runner N H × Option (Thrown N) :=
  let unstopped (r : Runner N H) (e : Thrown N) := if r.stop.isSome then none else some e
  let r := r.acts shim g.startup
  match g.instantiated with
  | .error e => (r, unstopped r e)
  | .ok () =>
      if !g.isCommand then
        (r, unstopped r (newError (text "WASI command must export memory and _start")))
      else
        match g.countdown with
        | none => (r, unstopped r (newError (text "WASI command was not instrumented for interruption")))
        | some n =>
            let r := { r with countdown := some n }
            if r.stop.isSome then (r, none)
            else
              let r := r.acts shim g.main
              match g.ending with
              | .error e => (r, unstopped r e)
              | .ok () => (r, none)

/-- Classifies a run by its stop, if there is one. -/
def classify (r : Runner N H) (failure : Option (Thrown N)) : Outcome N :=
  let stderr := decodeText (shim.stderr r.host)
  let finish (code : Int) : Outcome N :=
    if code = 0 ∧ !readonly then
      match collectFiles limits (shim.files r.host) (shim.root r.host) with
      | .error e => commandError stderr e
      | .ok files => .done code (shim.stdout r.host) stderr files
    else .done code (shim.stdout r.host) stderr []
  match r.stop with
  | some .cancel => .cancelled r.control.reason stderr
  | some (.failure e) => commandError stderr e
  | some (.exit code) =>
      match failure with
      | some e => commandError stderr e
      | none => finish code
  | none =>
      match failure with
      | some e => commandError stderr e
      | none => finish 0

def runCommand (g : Guest N C) (host : H) (control : Control N) : Outcome N :=
  let (r, failure) := runGuest shim g ⟨host, control, none, none⟩
  classify limits readonly shim r failure

end

end TsSdk
