import Mathlib.Tactic.Common
import Mathlib.Tactic.Ring

/-!
# Calls that may fail

A call takes a state and leaves a state, and beside it a value or an error.  The
state a failed call leaves counts, so the two are not joined in one `Except`.
`Ends` is the pair of postconditions of such a call, one for success and one for
failure, and `Ends.andThen` is the rule for two calls in sequence.
-/

variable {S E A B : Type*}

/-- The state a call leaves and its value or error. -/
abbrev Outcome (S E A : Type*) := S × Except E A

namespace Outcome

/-- The second call runs on what a successful first one leaves. -/
def andThen (o : Outcome S E A) (k : S → A → Outcome S E B) : Outcome S E B :=
  match o with
  | (s, .ok a) => k s a
  | (s, .error e) => (s, .error e)

/-- A successful call leaves `P`, a failed one leaves `Q`. -/
structure Ends (o : Outcome S E A) (P : S → A → Prop) (Q : S → E → Prop) : Prop where
  of_ok : ∀ s a, o = (s, .ok a) → P s a
  of_error : ∀ s e, o = (s, .error e) → Q s e

section

variable {o : Outcome S E A} {P P' : S → A → Prop} {Q Q' : S → E → Prop} {s : S}

@[simp] theorem andThen_ok (a : A) (k : S → A → Outcome S E B) :
    andThen (s, .ok a) k = k s a := rfl

@[simp] theorem andThen_error (e : E) (k : S → A → Outcome S E B) :
    andThen (s, .error e) k = (s, .error e) := rfl

theorem Ends.ok {a : A} (h : P s a) : Ends (s, .ok a) P Q where
  of_ok := by
    intro s' a' ho
    cases ho
    exact h
  of_error := by
    intro s' e ho
    cases ho

theorem Ends.error {e : E} (h : Q s e) : Ends (s, .error e) P Q where
  of_ok := by
    intro s' a ho
    cases ho
  of_error := by
    intro s' e' ho
    cases ho
    exact h

theorem Ends.mono (h : Ends o P Q) (hP : ∀ s a, P s a → P' s a) (hQ : ∀ s e, Q s e → Q' s e) :
    Ends o P' Q' where
  of_ok s a ho := hP s a (h.of_ok s a ho)
  of_error s e ho := hQ s e (h.of_error s e ho)

/-- The postconditions may name the call itself. -/
theorem Ends.same (h : Ends o P Q) :
    Ends o (fun s a => o = (s, .ok a) ∧ P s a) (fun s e => o = (s, .error e) ∧ Q s e) where
  of_ok s a ho := ⟨ho, h.of_ok s a ho⟩
  of_error s e ho := ⟨ho, h.of_error s e ho⟩

/-- Two calls in sequence: the second starts from what the first leaves, and a failure
of the first is the failure of both. -/
theorem Ends.andThen {k : S → A → Outcome S E B} {R : S → B → Prop} (h : Ends o P Q)
    (hk : ∀ s a, P s a → Ends (k s a) R Q') (hQ : ∀ s e, Q s e → Q' s e) :
    Ends (o.andThen k) R Q' := by
  obtain ⟨s, e | a⟩ := o
  · exact .error (hQ s e (h.of_error s e rfl))
  · exact hk s a (h.of_ok s a rfl)

end

end Outcome
