import Mathlib.Data.List.AList
import Mathlib.Tactic.Ring

/-!
# Stages that run in order

A job runs stages one after another.  Each stage leaves notes and gives an output or an
error, and the first error ends the job.  The outputs are collected under the keys of their
stages.  Where a stage depends on nothing but its key, its output is the same in every job
it succeeds in, and the notes of a job are those of its stages.
-/

universe u

variable {K : Type u} {D E O : Type u}

/-- What a stage leaves behind. -/
structure Report (D E O : Type u) where
  notes : List D
  result : Except E O

/-- The output of a stage, if it succeeded. -/
def Report.output (r : Report D E O) : Option O := r.result.toOption

/-- The outputs of a job, by stage. -/
abbrev StageOutputs (K O : Type u) := AList fun _ : K => O

theorem output_of_ok {r : Report D E O} {o : O} (h : r.result = .ok o) : r.output = some o := by
  rw [Report.output, h]
  rfl

section

variable [DecidableEq K] (stage : K → Report D E O)

/-- Runs stages in order.  An error comes with the notes up to the stage that failed. -/
def runStages : List K → StageOutputs K O → List D →
    Except (E × List D) (StageOutputs K O × List D)
  | [], outputs, notes => .ok (outputs, notes)
  | k :: ks, outputs, notes =>
      match (stage k).result with
      | .error e => .error (e, notes ++ (stage k).notes)
      | .ok o => runStages ks (outputs.insert k o) (notes ++ (stage k).notes)

/-- The notes of some stages. -/
def stageNotes (ks : List K) : List D := ks.flatMap fun k => (stage k).notes

variable {stage} {ks : List K} {k : K} {outputs outputs' : StageOutputs K O}
  {notes notes' : List D} {o : O} {e : E}

theorem runStages_cons_ok (h : (stage k).result = .ok o) :
    runStages stage (k :: ks) outputs notes =
      runStages stage ks (outputs.insert k o) (notes ++ (stage k).notes) := by
  rw [runStages, h]

theorem runStages_cons_error (h : (stage k).result = .error e) :
    runStages stage (k :: ks) outputs notes = .error (e, notes ++ (stage k).notes) := by
  rw [runStages, h]

/-- A job that succeeds has the notes and the outputs of all its stages. -/
theorem runStages_ok (h : runStages stage ks outputs notes = .ok (outputs', notes')) :
    notes' = notes ++ stageNotes stage ks ∧
      (∀ k ∈ ks, (stage k).output.isSome = true ∧ outputs'.lookup k = (stage k).output) ∧
      ∀ k ∉ ks, outputs'.lookup k = outputs.lookup k := by
  induction ks generalizing outputs notes with
  | nil =>
      cases h
      refine ⟨?_, by simp, fun k _ => rfl⟩
      rw [stageNotes, List.flatMap_nil, List.append_nil]
  | cons k ks ih =>
      cases hresult : (stage k).result with
      | error e =>
          rw [runStages_cons_error hresult] at h
          cases h
      | ok o =>
          rw [runStages_cons_ok hresult] at h
          obtain ⟨hnotes, hin, hout⟩ := ih h
          have hoverwritten : ∀ j ∉ ks, outputs'.lookup j = (outputs.insert k o).lookup j := hout
          refine ⟨?_, fun j hj => ?_, fun j hj => ?_⟩
          · rw [hnotes, List.append_assoc]
            rfl
          · by_cases hlater : j ∈ ks
            · exact hin j hlater
            · -- The last stage under a key decides, and all of them give the same.
              obtain rfl : j = k := (List.mem_cons.mp hj).resolve_right hlater
              rw [hoverwritten j hlater, AList.lookup_insert, output_of_ok hresult]
              exact ⟨rfl, rfl⟩
          · obtain ⟨hne, hlater⟩ := (not_or.mp fun hmem => hj (List.mem_cons.mpr hmem) : j ≠ k ∧ j ∉ ks)
            rw [hoverwritten j hlater, AList.lookup_insert_ne hne]

/-- Where every stage succeeds, the job does, whatever the notes before it. -/
theorem runStages_of_ok (h : ∀ k ∈ ks, (stage k).output.isSome = true) :
    ∃ outputs', ∀ notes : List D,
      runStages stage ks outputs notes = .ok (outputs', notes ++ stageNotes stage ks) := by
  induction ks generalizing outputs with
  | nil =>
      refine ⟨outputs, fun notes => ?_⟩
      rw [stageNotes, List.flatMap_nil, List.append_nil]
      rfl
  | cons k ks ih =>
      obtain ⟨hk, hks⟩ := List.forall_mem_cons.mp h
      cases hresult : (stage k).result with
      | error e =>
          rw [Report.output, hresult] at hk
          cases hk
      | ok o =>
          obtain ⟨outputs', hrun⟩ := @ih (outputs.insert k o) hks
          refine ⟨outputs', fun notes => ?_⟩
          rw [runStages_cons_ok hresult, hrun, List.append_assoc]
          rfl

/-- The notes before a job that succeeds play no part in its outputs. -/
theorem runStages_notes (h : runStages stage ks outputs notes = .ok (outputs', notes'))
    (before : List D) :
    runStages stage ks outputs before = .ok (outputs', before ++ stageNotes stage ks) := by
  obtain ⟨-, hin, -⟩ := runStages_ok h
  obtain ⟨outputs'', hrun⟩ : ∃ outputs', ∀ notes, runStages stage ks outputs notes =
      .ok (outputs', notes ++ stageNotes stage ks) := runStages_of_ok fun k hk => (hin k hk).1
  rw [hrun notes] at h
  cases h
  exact hrun before

/-- A job that fails does so at a stage whose predecessors all succeeded, with the notes up
to that stage. -/
theorem runStages_error (h : runStages stage ks outputs notes = .error (e, notes')) :
    ∃ pre k post, ks = pre ++ k :: post ∧ (∀ j ∈ pre, (stage j).output.isSome = true) ∧
      (stage k).result = .error e ∧ notes' = notes ++ stageNotes stage (pre ++ [k]) := by
  induction ks generalizing outputs notes with
  | nil => cases h
  | cons k ks ih =>
      cases hresult : (stage k).result with
      | error e' =>
          rw [runStages_cons_error hresult] at h
          cases h
          refine ⟨[], k, ks, rfl, by simp, hresult, ?_⟩
          rw [stageNotes, List.nil_append, List.flatMap_singleton]
      | ok o =>
          rw [runStages_cons_ok hresult] at h
          obtain ⟨pre, j, post, hks, hpre, hj, hnotes⟩ := ih h
          refine ⟨k :: pre, j, post, by rw [hks]; rfl, ?_, hj, ?_⟩
          · refine List.forall_mem_cons.mpr ⟨?_, hpre⟩
            rw [output_of_ok hresult]
            rfl
          · rw [hnotes, List.append_assoc]
            rfl

/-- A stage that is in two jobs gives both the same output. -/
theorem runStages_lookup {ks' : List K} {outputs₁ outputs₂ : StageOutputs K O}
    {before before' : List D}
    (h : runStages stage ks ∅ before = .ok (outputs₁, notes))
    (h' : runStages stage ks' ∅ before' = .ok (outputs₂, notes')) (hk : k ∈ ks) (hk' : k ∈ ks') :
    outputs₁.lookup k = outputs₂.lookup k := by
  obtain ⟨-, hin, -⟩ := runStages_ok h
  obtain ⟨-, hin', -⟩ := runStages_ok h'
  rw [(hin k hk).2, (hin' k hk').2]

/-! ## A first stage that feeds the others -/

variable {Q : Type u} (first : Report D E Q) (rest : Q → K → Report D E O)

/-- Runs a stage, and the others on its output. -/
def runPipeline (ks : List K) : Except (E × List D) (Q × StageOutputs K O × List D) :=
  match first.result with
  | .error e => .error (e, first.notes)
  | .ok q => (runStages (rest q) ks ∅ first.notes).map fun r => (q, r)

variable {first rest} {q : Q}

theorem runPipeline_of_ok (h : first.result = .ok q) (ks : List K) :
    runPipeline first rest ks = (runStages (rest q) ks ∅ first.notes).map fun r => (q, r) := by
  rw [runPipeline, h]

/-- A pipeline that succeeds ran its first stage, and the others on what it gave. -/
theorem runPipeline_ok (h : runPipeline first rest ks = .ok (q, outputs, notes)) :
    first.result = .ok q ∧ runStages (rest q) ks ∅ first.notes = .ok (outputs, notes) := by
  cases hresult : first.result with
  | error e =>
      rw [runPipeline, hresult] at h
      cases h
  | ok q' =>
      rw [runPipeline_of_ok hresult] at h
      cases hrun : runStages (rest q') ks ∅ first.notes with
      | error e =>
          rw [hrun] at h
          cases h
      | ok r =>
          rw [hrun] at h
          cases h
          exact ⟨rfl, hrun⟩

/-- A pipeline that fails did so in its first stage or in one of the others. -/
theorem runPipeline_error (h : runPipeline first rest ks = .error (e, notes)) :
    (first.result = .error e ∧ notes = first.notes) ∨
      ∃ q, first.result = .ok q ∧ runStages (rest q) ks ∅ first.notes = .error (e, notes) := by
  cases hresult : first.result with
  | error e =>
      rw [runPipeline, hresult] at h
      cases h
      exact .inl ⟨rfl, rfl⟩
  | ok q =>
      rw [runPipeline_of_ok hresult] at h
      refine .inr ⟨q, rfl, ?_⟩
      cases hrun : runStages (rest q) ks ∅ first.notes with
      | error e =>
          rw [hrun] at h
          cases h
          rfl
      | ok r =>
          rw [hrun] at h
          cases h

/-- Running the first stage alone and then the others gives what the pipeline gives. -/
theorem runPipeline_resumed :
    (∃ notes, runPipeline first rest ks = .ok (q, outputs, notes)) ↔
      ∃ notes notes', runPipeline first rest [] = .ok (q, ∅, notes) ∧
        runStages (rest q) ks ∅ [] = .ok (outputs, notes') := by
  constructor
  · rintro ⟨notes, h⟩
    obtain ⟨hfirst, hrun⟩ := runPipeline_ok h
    refine ⟨first.notes, _, ?_, runStages_notes hrun []⟩
    rw [runPipeline_of_ok hfirst]
    rfl
  · rintro ⟨notes, notes', h, hrun⟩
    obtain ⟨hfirst, -⟩ := runPipeline_ok h
    refine ⟨first.notes ++ stageNotes (rest q) ks, ?_⟩
    rw [runPipeline_of_ok hfirst, runStages_notes hrun first.notes]
    rfl

end
