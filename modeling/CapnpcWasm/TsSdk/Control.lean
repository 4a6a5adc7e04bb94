import CapnpcWasm.TsSdk.Protocol

/-!
# The deadline and the cancellation of a job

`JobControl` looks at a shared cell, a signal and a clock whenever the job polls.  What it
sees changes under it, so every look is given by what is there to see.  The first reason
to stop sticks.
-/

namespace TsSdk

variable {N : Type}

/-- What is there to see at one poll: whether the cell holds the job's token, the signal's
reason if it is aborted, and whether the deadline passed.  Looking at a signal may throw. -/
structure Seen (N : Type) where
  cell : Bool
  signal : Except (Thrown N) (Option (Thrown N))
  late : Bool

/-- The reason a job stopped for, once it is stopped. -/
structure Control (N : Type) where
  reason : Option (Thrown N)

namespace Control

def cancelledError : Thrown N :=
  .error ⟨.dom (text "AbortError"), text "compilation cancelled", none⟩

def timeoutError : Thrown N :=
  .error ⟨.dom (text "TimeoutError"), text "compilation timed out", none⟩

/-- Whether the job must stop.  The first reason is recorded. -/
def cancelled (c : Control N) (seen : Seen N) : Control N × Except (Thrown N) Bool :=
  if c.reason.isSome then (c, .ok true)
  else if seen.cell then (⟨some cancelledError⟩, .ok true)
  else
    match seen.signal with
    | .error e => (c, .error e)
    | .ok (some reason) => (⟨some reason⟩, .ok true)
    | .ok none => if seen.late then (⟨some timeoutError⟩, .ok true) else (c, .ok false)

/-- Sleeps on behalf of the guest, with a poll each time it wakes up.  It returns when the
job is cancelled or the time is over. -/
def sleep (c : Control N) : List (Seen N) → Control N × Except (Thrown N) Unit
  | [] => (c, .ok ())
  | seen :: later =>
      match c.cancelled seen with
      | (c, .error e) => (c, .error e)
      | (c, .ok true) => (c, .ok ())
      | (c, .ok false) => sleep c later

variable {c c' : Control N} {seen : Seen N}

/-- A job that must stop has a reason to. -/
theorem reason_of_cancelled (h : c.cancelled seen = (c', .ok true)) : c'.reason ≠ none := by
  rw [cancelled] at h
  split at h
  · next hstopped =>
    cases h
    exact Option.isSome_iff_ne_none.mp hstopped
  · split at h
    · cases h
      exact Option.some_ne_none _
    · split at h
      · cases h
      · cases h
        exact Option.some_ne_none _
      · split at h
        · cases h
          exact Option.some_ne_none _
        · cases h

end Control

end TsSdk
