import Mathlib.Tactic.Common
import Mathlib.Tactic.Ring

/-!
# Runs of a labelled transition system

A step leads from a state to another under a label: an operation and its answer, or an
event of a protocol.  A trace keeps the labels in the order they happened.  The rules
are the ones later proofs use: composition, and the invariant of a step as the
invariant of a run.
-/

variable {S L : Type*}

/-- `Trace step s ls t`: the steps under `ls` lead from `s` to `t`. -/
inductive Trace (step : S → L → S → Prop) (s : S) : List L → S → Prop where
  | nil : Trace step s [] s
  | snoc {ls : List L} {t u : S} {l : L} : Trace step s ls t → step t l u →
      Trace step s (ls ++ [l]) u

namespace Trace

variable {step : S → L → S → Prop} {s t u : S} {l : L} {ls ls' : List L}

theorem append (h : Trace step s ls t) (h' : Trace step t ls' u) :
    Trace step s (ls ++ ls') u := by
  induction h' with
  | nil =>
      rw [List.append_nil]
      exact h
  | snoc _ hs ih =>
      rw [← List.append_assoc]
      exact ih.snoc hs

theorem cons (hs : step s l t) (h : Trace step t ls u) : Trace step s (l :: ls) u :=
  append (.snoc .nil hs) h

theorem eq_of_nil (h : Trace step s [] t) : s = t := by
  generalize hls : [] = ls at h
  cases h with
  | nil => rfl
  | snoc _ _ => exact absurd hls (List.append_ne_nil_of_right_ne_nil _ (List.cons_ne_nil _ _)).symm

/-- The first step of a run. -/
theorem of_cons (h : Trace step s (l :: ls) u) : ∃ t, step s l t ∧ Trace step t ls u := by
  generalize hls : l :: ls = ls' at h
  induction h generalizing ls with
  | nil => cases hls
  | @snoc before t u last hbefore hlast ih =>
      rcases before with _ | ⟨first, before⟩
      · cases hls
        obtain rfl := eq_of_nil hbefore
        exact ⟨_, hlast, .nil⟩
      · obtain ⟨rfl, rfl⟩ := List.cons.inj hls
        obtain ⟨v, hfirst, hrest⟩ := ih rfl
        exact ⟨v, hfirst, hrest.snoc hlast⟩

/-- A run in two parts. -/
theorem of_append (h : Trace step s (ls ++ ls') u) :
    ∃ t, Trace step s ls t ∧ Trace step t ls' u := by
  induction ls generalizing s with
  | nil => exact ⟨s, .nil, h⟩
  | cons l ls ih =>
      obtain ⟨v, hfirst, hrest⟩ := of_cons h
      obtain ⟨t, hls, hls'⟩ := ih hrest
      exact ⟨t, cons hfirst hls, hls'⟩

/-- The labels determine where a run leads if each does. -/
theorem unique (hstep : ∀ s l t u, step s l t → step s l u → t = u) (h : Trace step s ls t)
    (h' : Trace step s ls u) : t = u := by
  induction ls generalizing s with
  | nil => exact (eq_of_nil h).symm.trans (eq_of_nil h')
  | cons l ls ih =>
      obtain ⟨v, hfirst, hrest⟩ := of_cons h
      obtain ⟨v', hfirst', hrest'⟩ := of_cons h'
      obtain rfl := hstep s l v v' hfirst hfirst'
      exact ih hrest hrest'

/-- What every step preserves holds at the end of a run. -/
theorem invariant {I : S → Prop} (hstep : ∀ t l u, I t → step t l u → I u)
    (h : Trace step s ls t) (hs : I s) : I t := by
  induction h with
  | nil => exact hs
  | snoc _ hs' ih => exact hstep _ _ _ ih hs'

theorem mono {step' : S → L → S → Prop} (h : Trace step s ls t)
    (hstep : ∀ s l t, step s l t → step' s l t) : Trace step' s ls t := by
  induction h with
  | nil => exact .nil
  | snoc _ hs ih => exact ih.snoc (hstep _ _ _ hs)

/-- The run of a step that computes. -/
theorem of_foldlM {next : S → L → Option S} (h : ls.foldlM next s = some t) :
    Trace (fun s l t => next s l = some t) s ls t := by
  induction ls generalizing s with
  | nil =>
      cases h
      exact .nil
  | cons l ls ih =>
      rw [List.foldlM_cons] at h
      obtain ⟨u, hu, hrest⟩ := Option.bind_eq_some_iff.mp h
      exact cons hu (ih hrest)

end Trace
