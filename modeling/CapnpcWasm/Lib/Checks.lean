import Mathlib.Data.Finset.Card
import Mathlib.Tactic.Common
import Mathlib.Tactic.Ring

/-!
# Checks in order

A validator makes checks in an order and stops at the first that fails.  What it should
do is a list of checks, each a failure or none, and `Makes` says that a computation makes
the checks of a list: it ends with the report of the first failure, and otherwise in a
result with a given property.  The rules follow the constructs such a computation is
written with, so that two validators are compared through one list of checks.

* `Makes.pure`, `Makes.check`, `Makes.bind` and `Makes.then` are for sequences.
* `Makes.forM` and `Makes.foldlM` are for loops, where a fold may carry what it has counted.
* `Makes.ok_iff` reads the result: accepted if and only if no check fails.
-/

namespace Checks

universe u

variable {F E L : Type*} {A B S : Type u}

/-- The first failure, if a check fails. -/
def first (cs : List (Option F)) : Option F := cs.findSome? id

/-- The check that fails when the condition holds. -/
def failIf (p : Prop) [Decidable p] (f : F) : Option F := if p then some f else none

/-- Checks on each element of a list, which may look at the elements before it. -/
def stepwise (cs : List L → L → List (Option F)) : List L → List L → List (Option F)
  | _, [] => []
  | before, a :: l => cs before a ++ stepwise cs (before ++ [a]) l

section

variable {cs ds : List (Option F)} {f : F}

/-- A check that passes. -/
@[simp] theorem failIf_eq_none {p : Prop} [Decidable p] : failIf p f = none ↔ ¬p := by
  rw [failIf]
  split
  · next h => simp [h]
  · next h => simp [h]

/-- No check of the list fails. -/
theorem first_eq_none : first cs = none ↔ ∀ c ∈ cs, c = none := List.findSome?_eq_none_iff

/-- The first failure of two lists. -/
theorem first_append : first (cs ++ ds) = (first cs).or (first ds) := List.findSome?_append

@[simp] theorem first_append_eq_none :
    first (cs ++ ds) = none ↔ first cs = none ∧ first ds = none := by
  rw [first_append, Option.or_eq_none_iff]

@[simp] theorem first_singleton (c : Option F) : first [c] = c := by
  cases c with
  | none => rfl
  | some f => rfl

@[simp] theorem first_cons_eq_none {c : Option F} :
    first (c :: cs) = none ↔ c = none ∧ first cs = none := by
  rw [← List.singleton_append, first_append_eq_none, first_singleton]

@[simp] theorem first_flatMap_eq_none {l : List L} {cs : L → List (Option F)} :
    first (l.flatMap cs) = none ↔ ∀ a ∈ l, first (cs a) = none := by
  simp only [first_eq_none, List.mem_flatMap, forall_exists_index, and_imp]
  exact ⟨fun h a ha c hc => h c a ha hc, fun h c a ha hc => h a ha c hc⟩

@[simp] theorem first_map_eq_none {l : List L} {c : L → Option F} :
    first (l.map c) = none ↔ ∀ a ∈ l, c a = none := by
  rw [first_eq_none, List.forall_mem_map]

/-- Every check on every element passes, each with the elements before it. -/
theorem first_stepwise_eq_none {cs : List L → L → List (Option F)} {l before : List L} :
    first (stepwise cs before l) = none ↔
      ∀ l₁ a l₂, l = l₁ ++ a :: l₂ → first (cs (before ++ l₁) a) = none := by
  induction l generalizing before with
  | nil =>
      refine ⟨fun _ l₁ a l₂ h => ?_, fun _ => rfl⟩
      simp at h
  | cons b l ih =>
      rw [stepwise, first_append_eq_none, ih]
      constructor
      · rintro ⟨hb, hl⟩ l₁ a l₂ h
        cases l₁ with
        | nil =>
            rw [List.nil_append, List.cons.injEq] at h
            rw [List.append_nil, ← h.1]
            exact hb
        | cons c l₁ =>
            rw [List.cons_append, List.cons.injEq] at h
            rw [← h.1, ← List.singleton_append, ← List.append_assoc]
            exact hl l₁ a l₂ h.2
      · intro h
        refine ⟨by simpa using h [] b l rfl, fun l₁ a l₂ hl => ?_⟩
        rw [List.append_assoc, List.singleton_append]
        exact h (b :: l₁) a l₂ (by rw [hl, List.cons_append])

end

/-- The computation makes the checks in order: it ends with the report of the first
failure, and in a result with `P` if there is none. -/
def Makes (report : F → E) (cs : List (Option F)) (P : A → Prop) (x : Except E A) : Prop :=
  match first cs with
  | none => ∃ a, x = .ok a ∧ P a
  | some f => x = .error (report f)

section

variable {report : F → E} {cs ds : List (Option F)} {P : A → Prop} {Q : B → Prop}
  {x : Except E A} {k : A → Except E B} {f : F}

/-- Where no check fails, there is a result. -/
theorem Makes.of_none (h : Makes report cs P x) (hcs : first cs = none) : ∃ a, x = .ok a ∧ P a := by
  rw [Makes, hcs] at h
  exact h

/-- Where one fails, the first of them is reported. -/
theorem Makes.of_some (h : Makes report cs P x) (hcs : first cs = some f) :
    x = .error (report f) := by
  rw [Makes, hcs] at h
  exact h

/-- The two cases, to build one from. -/
theorem makes_of_none {a : A} (hcs : first cs = none) (hx : x = .ok a) (ha : P a) :
    Makes report cs P x := by
  rw [Makes, hcs]
  exact ⟨a, hx, ha⟩

theorem makes_of_some (hcs : first cs = some f) (hx : x = .error (report f)) :
    Makes report cs P x := by
  rw [Makes, hcs]
  exact hx

/-- The computation succeeds exactly when every check passes. -/
theorem Makes.ok_iff (h : Makes report cs P x) : (∃ a, x = .ok a) ↔ first cs = none := by
  cases hcs : first cs with
  | none =>
      obtain ⟨a, ha, -⟩ := h.of_none hcs
      exact ⟨fun _ => rfl, fun _ => ⟨a, ha⟩⟩
  | some f =>
      have hf := h.of_some hcs
      rw [hf]
      simp

/-- A result without checks. -/
theorem Makes.pure {a : A} (h : P a) : Makes report [] P (.ok a) := ⟨a, rfl, h⟩

/-- Less may be said of the result. -/
theorem Makes.mono {P' : A → Prop} (h : Makes report cs P x) (hP : ∀ a, P a → P' a) :
    Makes report cs P' x := by
  cases hcs : first cs with
  | none =>
      obtain ⟨a, ha, hPa⟩ := h.of_none hcs
      exact makes_of_none hcs ha (hP a hPa)
  | some f => exact makes_of_some hcs (h.of_some hcs)

/-- Lists of checks with the same first failure are the same to a computation. -/
theorem Makes.congr (h : Makes report cs P x) (hcs : first cs = first ds) :
    Makes report ds P x := by
  rw [Makes, ← hcs]
  exact h

/-- A check, and the rest where it passes. -/
theorem Makes.check {p c : Prop} [Decidable p] [Decidable c] {e : E} (hc : c ↔ p)
    (he : e = report f) (h : ¬p → Makes report cs P x) :
    Makes report (failIf p f :: cs) P (if c then .error e else x) := by
  by_cases hp : p
  · rw [if_pos (hc.mpr hp)]
    exact makes_of_some (f := f) (by simp [failIf, hp, first]) (by rw [he])
  · rw [if_neg (hc.not.mpr hp)]
    exact (h hp).congr (by simp [failIf, hp, first])

/-- The checks of what follows come after. -/
theorem Makes.bind (h : Makes report cs P x) (hk : ∀ a, P a → Makes report ds Q (k a)) :
    Makes report (cs ++ ds) Q (x >>= k) := by
  cases hcs : first cs with
  | none =>
      obtain ⟨a, rfl, ha⟩ := h.of_none hcs
      exact (hk a ha).congr (by rw [first_append, hcs, Option.none_or])
  | some f =>
      rw [h.of_some hcs]
      exact makes_of_some (by rw [first_append, hcs, Option.some_or]) rfl

/-- One check and what follows it. -/
theorem Makes.then {c : Option F} (h : Makes report [c] P x)
    (hk : ∀ a, P a → Makes report ds Q (k a)) : Makes report (c :: ds) Q (x >>= k) := h.bind hk

/-- The checks on the elements of a list, which the computation has in its own form. -/
theorem Makes.forM {M : Type*} {l : List L} {m : L → M} {cs : L → List (Option F)}
    {k : M → Except E PUnit} (hk : ∀ a ∈ l, Makes report (cs a) (fun _ => True) (k (m a))) :
    Makes report (l.flatMap cs) (fun _ => True) ((l.map m).forM k) := by
  induction l with
  | nil => exact .pure trivial
  | cons a l ih =>
      rw [List.flatMap_cons]
      exact (hk a List.mem_cons_self).bind fun _ _ =>
        ih fun b hb => hk b (List.mem_cons_of_mem a hb)

/-- One check on each element of a list. -/
theorem Makes.forM_one {M : Type*} {l : List L} {m : L → M} {c : L → Option F}
    {k : M → Except E PUnit} (hk : ∀ a ∈ l, Makes report [c a] (fun _ => True) (k (m a))) :
    Makes report (l.map c) (fun _ => True) ((l.map m).forM k) := by
  rw [List.map_eq_flatMap]
  exact .forM hk

/-- The checks on the elements of a list, with an invariant of the elements so far. -/
theorem Makes.foldlM {step : S → L → Except E S} {I : List L → S → Prop}
    {cs : List L → L → List (Option F)} (l before : List L) (s : S)
    (hstep : ∀ before, ∀ a ∈ l, ∀ s, I before s →
      Makes report (cs before a) (I (before ++ [a])) (step s a)) (hs : I before s) :
    Makes report (stepwise cs before l) (I (before ++ l)) (l.foldlM step s) := by
  induction l generalizing before s with
  | nil =>
      rw [List.append_nil]
      exact .pure hs
  | cons a l ih =>
      rw [stepwise, show before ++ a :: l = (before ++ [a]) ++ l from List.append_cons before a l]
      refine (hstep before a List.mem_cons_self s hs).bind fun s' hs' => ?_
      exact ih (before ++ [a]) s' (fun b c hc => hstep b c (List.mem_cons_of_mem a hc)) hs'

/-- Adding elements to a set one at a time, with a check of a budget at each new one, is
one check of what the set is at the end. -/
theorem Makes.inserts {U : Type*} [DecidableEq U] {add : S → U → Except E S}
    {I : Finset U → S → Prop} {base budget : Nat}
    (hadd : ∀ N u s, I N s → base + N.card ≤ budget →
      Makes report [failIf (budget < base + (insert u N).card) f] (I (insert u N)) (add s u))
    (us : List U) (N : Finset U) (s : S) (hs : I N s) (hN : base + N.card ≤ budget) :
    Makes report [failIf (budget < base + (N ∪ us.toFinset).card) f]
      (fun s => I (N ∪ us.toFinset) s ∧ base + (N ∪ us.toFinset).card ≤ budget)
      (us.foldlM add s) := by
  induction us generalizing N s with
  | nil =>
      rw [List.toFinset_nil, Finset.union_empty]
      exact makes_of_none (by simp [hN]) rfl ⟨hs, hN⟩
  | cons u us ih =>
      have hunion : N ∪ (u :: us).toFinset = insert u N ∪ us.toFinset := by
        rw [List.toFinset_cons, Finset.union_insert, Finset.insert_union]
      have hle : (insert u N).card ≤ (insert u N ∪ us.toFinset).card :=
        Finset.card_le_card Finset.subset_union_left
      rw [hunion]
      have hu := hadd N u s hs hN
      by_cases hfull : budget < base + (insert u N).card
      · -- The budget fails at this element, and the set only grows.
        have herr : add s u = .error (report f) := hu.of_some (by simp [failIf, hfull])
        rw [List.foldlM_cons, herr]
        have hmore : budget < base + (insert u N ∪ us.toFinset).card := by omega
        exact makes_of_some (by rw [first_singleton, failIf, if_pos hmore]) rfl
      · obtain ⟨s', hs', hI⟩ := hu.of_none (by simp [hfull])
        rw [List.foldlM_cons, hs']
        exact ih (insert u N) s' hI (by omega)

end

/-! ## What passed -/

section

variable {R X Y : Type}

theorem error_ne_ok {e : R} {x : X} : (.error e : Except R X) ≠ .ok x := nofun

theorem ok_of_isSome {x : Except F A} (h : x.toOption.isSome = true) : ∃ a, x = .ok a := by
  cases x with
  | error f => cases h
  | ok a => exact ⟨a, rfl⟩

/-- A sequence succeeded, so both parts did. -/
theorem bind_ok {x : Except R X} {f : X → Except R Y} {y : Y} (h : x >>= f = .ok y) :
    ∃ a, x = .ok a ∧ f a = .ok y := by
  cases x with
  | error e => cases h
  | ok a => exact ⟨a, rfl, h⟩

@[simp] theorem ok_bind (x : X) (f : X → Except R Y) : ((.ok x : Except R X) >>= f) = f x := rfl

/-- A loop succeeded, so every round did. -/
theorem forM_ok {f : X → Except R Unit} {l : List X} (h : l.forM f = .ok ()) :
    ∀ a ∈ l, f a = .ok () := by
  induction l with
  | nil => exact fun a ha => absurd ha List.not_mem_nil
  | cons a l ih =>
      obtain ⟨⟨⟩, ha, hl⟩ := bind_ok h
      exact List.forall_mem_cons.mpr ⟨ha, ih hl⟩

/-- Every round succeeds, so the loop does. -/
theorem forM_of_ok {f : X → Except R Unit} {l : List X} (h : ∀ a ∈ l, f a = .ok ()) :
    l.forM f = .ok () := by
  induction l with
  | nil => rfl
  | cons a l ih =>
      obtain ⟨ha, hl⟩ := List.forall_mem_cons.mp h
      show (f a >>= fun _ => l.forM f) = .ok ()
      rw [ha]
      exact ih hl

end

end Checks
