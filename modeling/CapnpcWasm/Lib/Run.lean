import Mathlib.Tactic.Common
import Mathlib.Tactic.Ring

/-!
# Runs of a deterministic machine

A machine is a function from a configuration to the next one or to a result.
The file fixes what a run is, proves that its result is unique, and gives the two
rules later proofs use: an invariant of every step is an invariant of every run,
and a step-by-step simulation relates the results of whole runs in both
directions.
-/

namespace Run

/-- What one step does: go on, or end with a result. -/
inductive Next (C R : Type*) where
  | more (c : C)
  | halt (r : R)

variable {C R C' R' : Type*}

/-! ## Runs -/

/-- `Steps step n c d`: the machine goes from `c` to `d` in `n` steps. -/
inductive Steps (step : C → Next C R) : Nat → C → C → Prop where
  | refl (c : C) : Steps step 0 c c
  | head {n : Nat} {c d e : C} : step c = .more d → Steps step n d e → Steps step (n + 1) c e

/-- The machine started in `c` ends with `r`. -/
def Halts (step : C → Next C R) (c : C) (r : R) : Prop :=
  ∃ n d, Steps step n c d ∧ step d = .halt r

namespace Steps

variable {step : C → Next C R}

theorem one {c d : C} (h : step c = .more d) : Steps step 1 c d := .head h (.refl d)

theorem trans {n m : Nat} {c d e : C} (h₁ : Steps step n c d) (h₂ : Steps step m d e) :
    Steps step (n + m) c e := by
  induction h₁ with
  | refl => rw [Nat.zero_add]; exact h₂
  | head hs _ ih => rw [Nat.add_right_comm]; exact .head hs (ih h₂)

theorem tail {n : Nat} {c d e : C} (h : Steps step n c d) (hs : step d = .more e) :
    Steps step (n + 1) c e := h.trans (one hs)

/-- A run is determined by its start and its length. -/
theorem unique {n : Nat} {c d e : C} (h₁ : Steps step n c d) (h₂ : Steps step n c e) :
    d = e := by
  induction h₁ with
  | refl => cases h₂; rfl
  | head hs _ ih =>
      cases h₂ with
      | head hs' h₂ =>
          rw [hs] at hs'
          cases hs'
          exact ih h₂

/-- A run from a configuration that goes on is empty or starts with its step. -/
theorem of_more {n : Nat} {c d e : C} (hs : step c = .more d) (h : Steps step n c e) :
    e = c ∨ ∃ k, Steps step k d e := by
  cases h with
  | refl => exact .inl rfl
  | head hs' h =>
      rw [hs] at hs'
      cases hs'
      exact .inr ⟨_, h⟩

theorem of_halt {n : Nat} {c e : C} {r : R} (hs : step c = .halt r) (h : Steps step n c e) :
    e = c := by
  cases h with
  | refl => rfl
  | head hs' _ => rw [hs] at hs'; cases hs'

/-- A shorter run is the beginning of a longer one. -/
theorem split {n m : Nat} {c d e : C} (h₁ : Steps step n c d) (h₂ : Steps step m c e)
    (hle : n ≤ m) : Steps step (m - n) d e := by
  induction h₁ generalizing m with
  | refl => exact h₂
  | head hs _ ih =>
      cases h₂ with
      | refl => omega
      | @head m _ _ _ hs' h₂ =>
          rw [hs] at hs'
          cases hs'
          have := ih h₂ (by omega)
          rwa [show m + 1 - (_ + 1) = m - _ from Nat.add_sub_add_right ..]

/-- An invariant of every step holds along every run. -/
theorem invariant {Inv : C → Prop} (hstep : ∀ c d, Inv c → step c = .more d → Inv d)
    {n : Nat} {c d : C} (h : Steps step n c d) (hc : Inv c) : Inv d := by
  induction h with
  | refl => exact hc
  | head hs _ ih => exact ih (hstep _ _ hc hs)

end Steps

namespace Halts

variable {step : C → Next C R}

theorem now {c : C} {r : R} (h : step c = .halt r) : Halts step c r := ⟨0, c, .refl c, h⟩

theorem of_steps {n : Nat} {c d : C} {r : R} (h : Steps step n c d) (hd : Halts step d r) :
    Halts step c r := by
  obtain ⟨m, e, he, hr⟩ := hd
  exact ⟨n + m, e, h.trans he, hr⟩

/-- No run goes past a halting configuration. -/
theorem length_le {n m : Nat} {c d e : C} {r : R} (h₁ : Steps step n c d)
    (h₂ : Steps step m c e) (he : step e = .halt r) : n ≤ m := by
  by_contra hlt
  have h := h₂.split h₁ (by omega)
  obtain ⟨k, hk⟩ : ∃ k, n - m = k + 1 := ⟨n - m - 1, by omega⟩
  rw [hk] at h
  cases h with
  | head hs _ => rw [he] at hs; cases hs

/-- A run halts in one configuration. -/
theorem last_unique {n m : Nat} {c d e : C} {r s : R} (h₁ : Steps step n c d)
    (hd : step d = .halt r) (h₂ : Steps step m c e) (he : step e = .halt s) : d = e := by
  have hnm : n = m := Nat.le_antisymm (length_le h₁ h₂ he) (length_le h₂ h₁ hd)
  subst hnm
  exact h₁.unique h₂

/-- What a run goes through before it halts is still ahead of the halt. -/
theorem after {n : Nat} {c d : C} {r : R} (h : Steps step n c d) (hc : Halts step c r) :
    Halts step d r := by
  obtain ⟨m, e, he, hr⟩ := hc
  exact ⟨m - n, e, h.split he (length_le h he hr), hr⟩

/-- A run has at most one result. -/
theorem unique {c : C} {r s : R} (h₁ : Halts step c r) (h₂ : Halts step c s) : r = s := by
  obtain ⟨n, d, hd, hr⟩ := h₁
  obtain ⟨m, e, he, hs⟩ := h₂
  have hde := last_unique hd hr he hs
  subst hde
  rw [hr] at hs
  exact Next.halt.inj hs

end Halts

/-! ## Running -/

/-- The configurations of a run, at most `n` after the first. -/
def trace (step : C → Next C R) : Nat → C → List C
  | 0, c => [c]
  | n + 1, c =>
      c :: match step c with
        | .more d => trace step n d
        | .halt _ => []

/-- The result of the machine, if it ends within `n` steps. -/
def resultIn (step : C → Next C R) : Nat → C → Option R
  | 0, _ => none
  | n + 1, c =>
      match step c with
      | .more d => resultIn step n d
      | .halt r => some r

/-- A run that halts goes through nothing but its trace. -/
theorem mem_trace {step : C → Next C R} {n k : Nat} {c d : C} {r : R}
    (hn : resultIn step n c = some r) (h : Steps step k c d) : d ∈ trace step n c := by
  induction n generalizing c k with
  | zero => cases hn
  | succ n ih =>
      cases h with
      | refl => exact List.mem_cons_self
      | head hs h =>
          rw [resultIn, hs] at hn
          rw [trace, hs]
          exact List.mem_cons_of_mem _ (ih hn h)

theorem Halts.of_resultIn {step : C → Next C R} {n : Nat} {c : C} {r : R}
    (h : resultIn step n c = some r) : Halts step c r := by
  induction n generalizing c with
  | zero => cases h
  | succ n ih =>
      rw [resultIn] at h
      cases hs : step c with
      | halt r' =>
          rw [hs] at h
          exact .now (Option.some.inj h ▸ hs)
      | more d =>
          rw [hs] at h
          exact (ih h).of_steps (.one hs)

/-! ## Runs cut short -/

section

open Classical

/-- The machine that ends, with `result c`, at every configuration `c` that `stops`. -/
noncomputable def cut (step : C → Next C R) (stops : C → Prop) (result : C → R) (c : C) :
    Next C R :=
  if stops c then .halt (result c) else step c

variable {step : C → Next C R} {stops : C → Prop} {result : C → R}

theorem cut_of_stops {c : C} (h : stops c) : cut step stops result c = .halt (result c) :=
  if_pos h

theorem cut_of_not {c : C} (h : ¬ stops c) : cut step stops result c = step c := if_neg h

/-- Where the cut machine goes on, so does the whole one. -/
theorem step_of_cut {c d : C} (h : cut step stops result c = .more d) :
    ¬ stops c ∧ step c = .more d := by
  by_cases hc : stops c
  · rw [cut_of_stops hc] at h
    cases h
  · exact ⟨hc, (cut_of_not hc).symm.trans h⟩

theorem Steps.of_cut {n : Nat} {c d : C} (h : Steps (cut step stops result) n c d) :
    Steps step n c d := by
  induction h with
  | refl => exact .refl _
  | head hs _ ih => exact .head (step_of_cut hs).2 ih

/-- A run is one of the cut machine, up to the first configuration that stops. -/
theorem Steps.cut {n : Nat} {c d : C} (h : Steps step n c d) :
    Steps (cut step stops result) n c d ∨
      ∃ k e, k < n ∧ Steps (Run.cut step stops result) k c e ∧ stops e := by
  induction h with
  | refl c => exact .inl (.refl c)
  | @head n c d e hs _ ih =>
      by_cases hc : stops c
      · exact .inr ⟨0, c, Nat.succ_pos n, .refl c, hc⟩
      · have hd : Run.cut step stops result c = .more d := (cut_of_not hc).trans hs
        rcases ih with hrun | ⟨k, f, hk, hrun, hf⟩
        · exact .inl (.head hd hrun)
        · exact .inr ⟨k + 1, f, Nat.succ_lt_succ hk, .head hd hrun, hf⟩

/-- The first configuration of a run that stops ends the cut machine. -/
theorem Halts.of_stops {n : Nat} {c d : C} (h : Steps step n c d) (hd : stops d) :
    ∃ k e, k ≤ n ∧ Steps step k c e ∧ stops e ∧ Halts (cut step stops result) c (result e) := by
  rcases @Steps.cut _ _ step stops result _ _ _ h with hrun | ⟨k, e, hk, hrun, he⟩
  · exact ⟨n, d, Nat.le_refl n, h, hd, n, d, hrun, cut_of_stops hd⟩
  · exact ⟨k, e, Nat.le_of_lt hk, hrun.of_cut, he, k, e, hrun, cut_of_stops he⟩

/-- Where nothing stops, the two machines end alike. -/
theorem Halts.cut_iff {c : C} (hno : ∀ n d, Steps step n c d → ¬ stops d) {r : R} :
    Halts (cut step stops result) c r ↔ Halts step c r := by
  constructor
  · rintro ⟨n, d, hrun, hr⟩
    exact ⟨n, d, hrun.of_cut, (cut_of_not (hno n d hrun.of_cut)).symm.trans hr⟩
  · rintro ⟨n, d, hrun, hr⟩
    rcases @Steps.cut _ _ step stops result _ _ _ hrun with hcut | ⟨k, e, -, he, hstop⟩
    · exact ⟨n, d, hcut, (cut_of_not (hno n d hrun)).trans hr⟩
    · exact absurd hstop (hno k e he.of_cut)

end

/-! ## Simulation -/

/-- `c'` follows the step `next` of a machine it is related to: it makes at least
one step of its own when the other goes on, and ends with a related result when
the other ends. -/
def Follows (step' : C' → Next C' R') (Rel : C → C' → Prop) (RelR : R → R' → Prop)
    (c' : C') : Next C R → Prop
  | .more d => ∃ n d', Steps step' (n + 1) c' d' ∧ Rel d d'
  | .halt r => ∃ r', Halts step' c' r' ∧ RelR r r'

/-- The step `next'` of the second machine leads to what `next` is, at once or
later. -/
inductive Matches (step' : C' → Next C' R') (Rel : C → C' → Prop) (RelR : R → R' → Prop) :
    Next C R → Next C' R' → Prop where
  | more {n : Nat} {d : C} {d' e' : C'} : Steps step' n d' e' → Rel d e' →
      Matches step' Rel RelR (.more d) (.more d')
  | halt {r : R} {r' : R'} : RelR r r' → Matches step' Rel RelR (.halt r) (.halt r')
  | late {r : R} {r' : R'} {d' : C'} : Halts step' d' r' → RelR r r' →
      Matches step' Rel RelR (.halt r) (.more d')

theorem Matches.follows {step' : C' → Next C' R'} {Rel : C → C' → Prop} {RelR : R → R' → Prop}
    {next : Next C R} {c' : C'} (h : Matches step' Rel RelR next (step' c')) :
    Follows step' Rel RelR c' next := by
  generalize hs : step' c' = next' at h
  cases h with
  | @more n d d' e' hn hr => exact ⟨n, e', .head hs hn, hr⟩
  | @halt r r' hr => exact ⟨r', .now hs, hr⟩
  | @late r r' d' hd hr => exact ⟨r', hd.of_steps (.one hs), hr⟩

/-- A step after some others. -/
theorem Matches.before {step' : C' → Next C' R'} {Rel : C → C' → Prop} {RelR : R → R' → Prop}
    {next : Next C R} {n : Nat} {c' d' : C'} (hn : Steps step' n c' d')
    (h : Matches step' Rel RelR next (step' d')) : Matches step' Rel RelR next (.more c') := by
  generalize hs : step' d' = next' at h
  cases h with
  | more hm hr => exact .more (hn.trans (.head hs hm)) hr
  | halt hr => exact .late (.of_steps hn (.now hs)) hr
  | late hd hr => exact .late (.of_steps hn (hd.of_steps (.one hs))) hr

theorem Matches.later {step' : C' → Next C' R'} {Rel : C → C' → Prop} {RelR : R → R' → Prop}
    {next : Next C R} {n : Nat} {c' d' : C'} (hn : Steps step' n c' d')
    (h : Matches step' Rel RelR next (.more d')) : Matches step' Rel RelR next (.more c') := by
  cases h with
  | more hm hr => exact .more (hn.trans hm) hr
  | late hd hr => exact .late (hd.of_steps hn) hr

theorem Follows.before {step' : C' → Next C' R'} {Rel : C → C' → Prop} {RelR : R → R' → Prop}
    {next : Next C R} {n : Nat} {c' d' : C'} (hn : Steps step' n c' d')
    (h : Follows step' Rel RelR d' next) : Follows step' Rel RelR c' next := by
  cases next with
  | more d =>
      obtain ⟨k, e', hk, hr⟩ := h
      exact ⟨n + k, e', hn.trans hk, hr⟩
  | halt r =>
      obtain ⟨r', hr', hr⟩ := h
      exact ⟨r', hr'.of_steps hn, hr⟩

/-- `Rel` is a simulation on the configurations the predicate `Good` allows as
successors. -/
def Simulates (step : C → Next C R) (step' : C' → Next C' R') (Good : C → Prop)
    (Rel : C → C' → Prop) (RelR : R → R' → Prop) : Prop :=
  ∀ c c', Rel c c' → (∀ d, step c = .more d → Good d) → Follows step' Rel RelR c' (step c)

namespace Simulates

variable {step : C → Next C R} {step' : C' → Next C' R'} {Good : C → Prop}
  {Rel : C → C' → Prop} {RelR : R → R' → Prop}

/-- A run of the first machine is matched by a run of the second that is at
least as long. -/
theorem steps (hsim : Simulates step step' Good Rel RelR) {n : Nat} {c d : C}
    (h : Steps step n c d) :
    ∀ c', Rel c c' → (∀ m e, Steps step m c e → 0 < m → Good e) →
      ∃ m d', n ≤ m ∧ Steps step' m c' d' ∧ Rel d d' := by
  induction h with
  | refl => intro c' hr _; exact ⟨0, c', Nat.le_refl _, .refl c', hr⟩
  | head hs _ ih =>
      intro c' hr hg
      have hf := hsim _ c' hr fun e he => hg 1 e (.one he) Nat.one_pos
      rw [hs] at hf
      obtain ⟨k, e', hk, hre⟩ := hf
      obtain ⟨m, d', hm, hd', hrd⟩ := ih e' hre fun j e he _ => hg (j + 1) e (.head hs he) (by omega)
      exact ⟨k + 1 + m, d', by omega, hk.trans hd', hrd⟩

/-- The second machine ends whenever the first does, with a related result. -/
theorem halts (hsim : Simulates step step' Good Rel RelR) {c : C} {c' : C'} {r : R}
    (hr : Rel c c') (hg : ∀ m e, Steps step m c e → 0 < m → Good e) (h : Halts step c r) :
    ∃ r', Halts step' c' r' ∧ RelR r r' := by
  obtain ⟨n, d, hd, hres⟩ := h
  obtain ⟨m, d', _, hd', hrd⟩ := hsim.steps hd c' hr hg
  have hf := hsim d d' hrd fun e he => hg (n + 1) e (hd.tail he) (by omega)
  rw [hres] at hf
  obtain ⟨r', hr', hrel⟩ := hf
  exact ⟨r', hr'.of_steps hd', hrel⟩

/-- The first machine ends whenever the second does: it cannot go on for longer
than the second's run. -/
theorem halts_back (hsim : Simulates step step' Good Rel RelR) {c : C} {c' : C'} {r' : R'}
    (hr : Rel c c') (hg : ∀ m e, Steps step m c e → 0 < m → Good e) (h : Halts step' c' r') :
    ∃ r, Halts step c r ∧ RelR r r' := by
  obtain ⟨n, e', he', hres⟩ := h
  have key : ∀ k c, Rel c c' → (∀ m e, Steps step m c e → 0 < m → Good e) →
      (∃ r, Halts step c r) ∨ ∃ d, Steps step k c d := by
    intro k c hr hg
    induction k with
    | zero => exact .inr ⟨c, .refl c⟩
    | succ k ih =>
        rcases ih with hh | ⟨d, hd⟩
        · exact .inl hh
        · cases hs : step d with
          | more e => exact .inr ⟨e, hd.tail hs⟩
          | halt r => exact .inl ⟨r, k, d, hd, hs⟩
  rcases key (n + 1) c hr hg with ⟨r, hh⟩ | ⟨d, hd⟩
  · obtain ⟨s', hs', hrel⟩ := hsim.halts hr hg hh
    have : s' = r' := hs'.unique ⟨n, e', he', hres⟩
    exact ⟨r, hh, this ▸ hrel⟩
  · obtain ⟨m, d', hm, hd', _⟩ := hsim.steps hd c' hr hg
    have := Halts.length_le hd' he' hres
    omega

end Simulates

end Run
