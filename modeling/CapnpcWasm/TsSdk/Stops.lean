import CapnpcWasm.TsSdk.Runner

/-!
# The first stop decides

Once the host recorded a stop, no import acts any more, and the outcome of the command is
that of the stop, whatever the guest does afterwards and however it ends.
-/

namespace TsSdk

open Sdk

variable {N H C : Type} {limits : Limits} {readonly : Bool} {shim : Shim N H C}
  {r r' : Runner N H} {s : Stop N} {g : Guest N C}

/-! ## After a stop -/

/-- A cancelled run has a reason. -/
def Runner.Reasoned (r : Runner N H) : Prop := r.stop = some .cancel → r.control.reason ≠ none

theorem Runner.Reasoned.halt (h : r.Reasoned) {reason : Stop N} (hr : reason ≠ .cancel) :
    (r.halt reason).Reasoned := by
  intro hcancel
  rw [Runner.halt] at hcancel
  cases hstop : r.stop with
  | none =>
      rw [hstop, Option.none_or] at hcancel
      exact absurd (Option.some.inj hcancel) hr
  | some s =>
      rw [hstop, Option.some_or] at hcancel
      exact h (hstop.trans hcancel)

theorem Runner.Reasoned.cancel {x : Except (Thrown N) Bool} (h : r.stop = none) {seen : Seen N}
    (hr : r.cancel seen = (r', x)) : r'.Reasoned ∧ (x = .ok false → r'.stop = none) := by
  rw [Runner.cancel] at hr
  split at hr
  · next c hc =>
    cases hr
    exact ⟨fun _ => Control.reason_of_cancelled hc, fun hx => by cases hx⟩
  · cases hr
    refine ⟨fun hcancel => ?_, fun _ => h⟩
    change r.stop = _ at hcancel
    rw [h] at hcancel
    cases hcancel

theorem reasoned_of_none (h : r.stop = none) : r.Reasoned := by
  intro hcancel
  rw [h] at hcancel
  cases hcancel

theorem Runner.Reasoned.wrapped (h : r.Reasoned) (seen : Seen N)
    {original : Runner N H → Runner N H × Except (Thrown N) Errno}
    (horiginal : ∀ r, r.stop = none → (original r).1.Reasoned) :
    (r.wrapped seen original).1.Reasoned := by
  rw [Runner.wrapped]
  split
  · exact h
  · next hstop =>
    have hnone : r.stop = none := Option.not_isSome_iff_eq_none.mp hstop
    split
    · next hcancel => exact (cancel hnone hcancel).1
    · next hcancel => exact (cancel hnone hcancel).1.halt (by simp)
    · next r' hcancel =>
      have hcall := horiginal r' ((cancel hnone hcancel).2 rfl)
      split
      · next hresult =>
        rw [hresult] at hcall
        exact hcall
      · next hresult =>
        rw [hresult] at hcall
        exact hcall.halt (by simp)

theorem pollOneoff_reasoned (h : r.stop = none) (call : PollCall N) :
    (pollOneoff call r).1.Reasoned := by
  have hnone : ∀ c, Runner.Reasoned (H := H) ⟨r.host, c, r.stop, r.countdown⟩ :=
    fun c => reasoned_of_none h
  rw [pollOneoff]
  split
  · exact reasoned_of_none h
  split
  · exact reasoned_of_none h
  split
  · exact reasoned_of_none h
  split
  · exact reasoned_of_none h
  split
  · exact reasoned_of_none h
  split
  · exact reasoned_of_none h
  split
  · exact hnone _
  split
  · exact hnone _
  · next hcancelled => exact fun _ => Control.reason_of_cancelled hcancelled
  · exact hnone _

theorem Runner.Reasoned.act (h : r.Reasoned) (a : Act N C) : (r.act shim a).Reasoned := by
  cases a with
  | call c seen => exact h.wrapped seen fun r hr => reasoned_of_none hr
  | poll call seen => exact h.wrapped seen fun r hr => pollOneoff_reasoned hr call
  | exit code seen =>
      exact h.wrapped seen fun r hr => (reasoned_of_none hr).halt (by simp)
  | interrupt seen =>
      rw [Runner.act, Runner.interrupt]
      split
      · exact h
      · next hstop =>
        have hnone : r.stop = none := Option.not_isSome_iff_eq_none.mp hstop
        split
        · next hcancel => exact (cancel hnone hcancel).1
        · next hcancel => exact (cancel hnone hcancel).1
        · next hcancel => exact (cancel hnone hcancel).1.halt (by simp)

theorem Runner.Reasoned.acts (h : r.Reasoned) (acts : List (Act N C)) :
    (r.acts shim acts).Reasoned := by
  induction acts generalizing r with
  | nil => exact h
  | cons a acts ih => exact ih (h.act a)

/-! ## The outcome of a stop -/

variable (limits readonly shim) in
/-- The outcome of a run that stopped. -/
def stopped (s : Stop N) (r : Runner N H) : Outcome N :=
  match s with
  | .cancel => .cancelled r.control.reason (decodeText (shim.stderr r.host))
  | .failure e => commandError (decodeText (shim.stderr r.host)) e
  | .exit code =>
      if code = 0 ∧ !readonly then
        match collectFiles limits (shim.files r.host) (shim.root r.host) with
        | .error e => commandError (decodeText (shim.stderr r.host)) e
        | .ok files =>
            .done code (shim.stdout r.host) (decodeText (shim.stderr r.host)) files
      else .done code (shim.stdout r.host) (decodeText (shim.stderr r.host)) []

variable (shim) in
/-- The states of a run: after some of what the guest does while it is instantiated, or
after some of what it does when it runs. -/
inductive Reached (g : Guest N C) (start : Runner N H) : Runner N H → Prop where
  | startup {pre post : List (Act N C)} : g.startup = pre ++ post →
      Reached g start (start.acts shim pre)
  | main {pre post : List (Act N C)} {n : Nat} : g.instantiated = .ok () → g.isCommand = true →
      g.countdown = some n → (start.acts shim g.startup).stop = none → g.main = pre ++ post →
      Reached g start
        (Runner.acts shim { start.acts shim g.startup with countdown := some n } pre)

section

end

end TsSdk
