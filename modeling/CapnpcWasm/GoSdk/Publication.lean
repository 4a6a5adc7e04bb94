import CapnpcWasm.MemoryFs.Invariant
import CapnpcWasm.GoSdk.Command

/-!
# What a generator publishes

A command succeeds only if nothing went wrong, and otherwise its error is the first cause
of a fixed order: the job's cancellation, the first budget its output mount refused,
stdout, stderr, and its ending.  What the guest did after a refusal plays no part.  The
files of a generator are published only if every generator of the job succeeded with
nothing on its stdout.
-/

namespace GoSdk

open Sdk

/-! ## What a guest asked for -/

/-- The operations on the output mount, with the answers they got. -/
def fsEvents (w : MemoryFs.World) : List Action → List MemoryFs.Event
  | [] => []
  | .fs op :: actions =>
      match w.step op with
      | none => fsEvents w actions
      | some (w', a) => (op, a) :: fsEvents w' actions
  | .stdout _ :: actions => fsEvents w actions
  | .stderr _ :: actions => fsEvents w actions

/-- The budgets the mount refused, in order. -/
def refusals (limits : Limits) (output : Option MemoryFs.World) (actions : List Action) :
    List Limit :=
  match output with
  | none => []
  | some w => (fsEvents w actions).filterMap (MemoryFs.refusal limits)

/-- The bytes the guest offered to its stdout. -/
def stdoutOffered : List Action → Nat
  | [] => 0
  | .stdout data :: actions => data.length + stdoutOffered actions
  | .fs _ :: actions => stdoutOffered actions
  | .stderr _ :: actions => stdoutOffered actions

/-- The bytes the guest offered to its stderr. -/
def stderrOffered : List Action → Nat
  | [] => 0
  | .stderr data :: actions => data.length + stderrOffered actions
  | .fs _ :: actions => stderrOffered actions
  | .stdout _ :: actions => stderrOffered actions

/-- Everything that went wrong in an execution, in the order of precedence. -/
def causes (limits : Limits) (output : Option MemoryFs.World) (e : Execution) (stdoutBytes : Nat)
    (stdoutLimit : Limit) : List Cause :=
  e.context.toList.map .context ++ (refusals limits output e.actions).map .exceeded ++
    (if stdoutBytes < stdoutOffered e.actions then [.exceeded stdoutLimit] else []) ++
    (if limits.stderrBytes < stderrOffered e.actions then [.exceeded .stderrBytes] else []) ++
    e.ending.cause.toList

/-! ## Streams -/

/-- The stream was offered `total` bytes. -/
structure LimitedBuffer.Took (b : LimitedBuffer) (limit total : Nat) : Prop where
  bound : b.limit = limit
  data : b.data.length = min limit total
  exceeded : b.exceeded = true ↔ limit < total

theorem LimitedBuffer.Took.write {b : LimitedBuffer} {limit total : Nat} (h : b.Took limit total)
    (data : Bytes) : (b.write data).Took limit (total + data.length) := by
  have hd := h.data
  have hl := h.bound
  unfold LimitedBuffer.write
  split
  · next hover =>
    refine ⟨hl, ?_, ?_⟩
    · rw [List.length_append, List.length_take]
      omega
    · refine ⟨fun _ => ?_, fun _ => rfl⟩
      omega
  · next hfits =>
    refine ⟨hl, ?_, ?_⟩
    · rw [List.length_append]
      omega
    · rw [h.exceeded]
      omega

/-! ## One execution -/

/-- The guest as the host sees it after some actions. -/
structure Instance.After (g : Instance) (stdoutBytes stderrBytes out err : Nat) : Prop where
  stdout : g.stdout.Took stdoutBytes out
  stderr : g.stderr.Took stderrBytes err

theorem foldl_streams {g : Instance} {stdoutBytes stderrBytes out err : Nat}
    (h : g.After stdoutBytes stderrBytes out err) (actions : List Action) :
    (actions.foldl Instance.act g).After stdoutBytes stderrBytes (out + stdoutOffered actions)
      (err + stderrOffered actions) := by
  induction actions generalizing g out err with
  | nil => exact h
  | cons action actions ih =>
      rw [List.foldl_cons]
      cases action with
      | fs op => exact ih ⟨h.stdout, h.stderr⟩
      | stdout data =>
          have := ih (g := g.act (.stdout data)) ⟨h.stdout.write data, h.stderr⟩
          rwa [Nat.add_assoc] at this
      | stderr data =>
          have := ih (g := g.act (.stderr data)) ⟨h.stdout, h.stderr.write data⟩
          rwa [Nat.add_assoc] at this

theorem foldl_fs_none {g : Instance} (h : g.fs = none) (actions : List Action) :
    (actions.foldl Instance.act g).fs = none := by
  induction actions generalizing g with
  | nil => exact h
  | cons action actions ih =>
      rw [List.foldl_cons]
      apply ih
      cases action with
      | fs op => rw [Instance.act, h, Option.map_none]
      | stdout data => exact h
      | stderr data => exact h

theorem foldl_fs_some {g : Instance} {w : MemoryFs.World} (h : g.fs = some w)
    (actions : List Action) : ∃ w', (actions.foldl Instance.act g).fs = some w' ∧
      MemoryFs.Runs w (fsEvents w actions) w' := by
  induction actions generalizing g w with
  | nil => exact ⟨w, h, .nil⟩
  | cons action actions ih =>
      rw [List.foldl_cons]
      cases action with
      | fs op =>
          have hfs : (g.act (.fs op)).fs = some (((w.step op).map (·.1)).getD w) := by
            rw [Instance.act, h, Option.map_some]
          obtain ⟨w', hw', hruns⟩ := ih hfs
          refine ⟨w', hw', ?_⟩
          rw [fsEvents]
          cases hs : w.step op with
          | none =>
              rw [hs] at hruns
              exact hruns
          | some r =>
              rw [hs] at hruns
              exact Trace.cons hs hruns
      | stdout data => exact ih h
      | stderr data => exact ih h

/-- The mount a command may write to: one of its own, or none. -/
def outputMount (limits : Limits) (output : Bool) : Option MemoryFs.World :=
  if output then some (MemoryFs.fresh 0 limits) else none

section

variable (limits : Limits) (output : Bool) (e : Execution) (stdoutBytes : Nat)
  (stdoutLimit : Limit)

/-- The recorded limit of the output mount is the first refusal. -/
theorem recorded_limit (g : Instance) (hg : g.fs = outputMount limits output) :
    (e.actions.foldl Instance.act g).fs.bind (·.fs.limit) =
      (refusals limits (outputMount limits output) e.actions).head? := by
  cases output with
  | false =>
      rw [foldl_fs_none hg]
      rfl
  | true =>
      obtain ⟨w', hw', hruns⟩ := foldl_fs_some hg e.actions
      rw [hw', Option.bind_some]
      exact (MemoryFs.kept_of_runs hruns).2.2

/-- A command ends with the first of its causes, and its stdout is empty where it was
offered nothing. -/
theorem run_err : (run limits (outputMount limits output) e stdoutBytes stdoutLimit).err =
      (causes limits (outputMount limits output) e stdoutBytes stdoutLimit).head? ∧
    (run limits (outputMount limits output) e stdoutBytes stdoutLimit).stdout.length =
      min stdoutBytes (stdoutOffered e.actions) := by
  generalize hm : outputMount limits output = mount
  have hstart : (⟨mount, ⟨stdoutBytes, [], false⟩, ⟨limits.stderrBytes, [], false⟩⟩ :
      Instance).After stdoutBytes limits.stderrBytes 0 0 :=
    ⟨⟨rfl, by simp, by simp⟩, ⟨rfl, by simp, by simp⟩⟩
  have hstreams := foldl_streams hstart e.actions
  rw [Nat.zero_add, Nat.zero_add] at hstreams
  have hlimit := recorded_limit limits output e
    ⟨mount, ⟨stdoutBytes, [], false⟩, ⟨limits.stderrBytes, [], false⟩⟩ hm.symm
  rw [hm] at hlimit
  refine ⟨?_, hstreams.stdout.data⟩
  unfold run causes
  dsimp only
  rw [hlimit]
  cases e.context with
  | some c => rfl
  | none =>
      cases refusals limits mount e.actions with
      | cons limit rest => rfl
      | nil =>
          simp only [hstreams.stdout.exceeded, hstreams.stderr.exceeded, List.head?_nil,
            Option.toList_none, List.map_nil, List.nil_append]
          split
          · rfl
          · split
            · rfl
            · cases e.ending.cause with
              | none => rfl
              | some err => rfl

/-- A command succeeds where nothing went wrong. -/
theorem run_ok_iff :
    (run limits (outputMount limits output) e stdoutBytes stdoutLimit).err = none ↔
      e.context = none ∧ refusals limits (outputMount limits output) e.actions = [] ∧
        stdoutOffered e.actions ≤ stdoutBytes ∧ stderrOffered e.actions ≤ limits.stderrBytes ∧
        (e.ending = .returned ∨ e.ending = .exit 0) := by
  have hending : e.ending.cause = none ↔ e.ending = .returned ∨ e.ending = .exit 0 := by
    cases e.ending with
    | returned => simp [Ending.cause]
    | exit code => simp [Ending.cause]
    | trap message => simp [Ending.cause]
  rw [(run_err limits output e stdoutBytes stdoutLimit).1, List.head?_eq_none_iff]
  simp only [causes, List.append_eq_nil_iff, List.map_eq_nil_iff, Option.toList_eq_nil_iff,
    ite_eq_right_iff, List.cons_ne_nil, imp_false, Nat.not_lt, hending, and_assoc]

end

/-! ## Generators -/

/-- The causes of a generator's failure: those of its run, and then the bytes on its
stdout. -/
def generatorCauses (limits : Limits) (e : Execution) : List Cause :=
  causes limits (outputMount limits true) e limits.stdoutBytes .stdoutBytes ++
    (if 0 < stdoutOffered e.actions then [.unexpectedStdout] else [])

theorem generatorErr_eq (limits : Limits) (guest : Guest) (language : Language) (binary : Bytes) :
    (runGenerator limits guest language binary).generatorErr =
      (generatorCauses limits (guest [argv0 language] binary)).head? := by
  generalize he : guest [argv0 language] binary = e
  obtain ⟨herr, hlen⟩ := run_err limits true e limits.stdoutBytes .stdoutBytes
  have hok := run_ok_iff limits true e limits.stdoutBytes .stdoutBytes
  have hrun : runGenerator limits guest language binary =
      run limits (outputMount limits true) e limits.stdoutBytes .stdoutBytes := by
    rw [runGenerator, he]
    rfl
  rw [hrun, Outcome.generatorErr, generatorCauses]
  generalize run limits (outputMount limits true) e limits.stdoutBytes .stdoutBytes = o at *
  cases hc : o.err with
  | some c =>
      rw [hc] at herr
      rw [List.head?_append, ← herr]
      rfl
  | none =>
      have hfits := (hok.mp hc).2.2.1
      rw [hc] at herr
      rw [List.head?_append, ← herr, Option.none_or]
      have hiff : o.stdout ≠ [] ↔ 0 < stdoutOffered e.actions := by
        rw [← List.length_pos_iff, hlen, Nat.min_eq_right hfits]
      simp only [hiff]
      split
      · rfl
      · rfl

/-- Nothing went wrong in a generator's execution. -/
structure Succeeded (limits : Limits) (e : Execution) : Prop where
  context : e.context = none
  refusals : refusals limits (outputMount limits true) e.actions = []
  stdout : stdoutOffered e.actions = 0
  stderr : stderrOffered e.actions ≤ limits.stderrBytes
  ending : e.ending = .returned ∨ e.ending = .exit 0

theorem succeeded_iff (limits : Limits) (e : Execution) :
    generatorCauses limits e = [] ↔ Succeeded limits e := by
  have hok := run_ok_iff limits true e limits.stdoutBytes .stdoutBytes
  rw [(run_err limits true e limits.stdoutBytes .stdoutBytes).1, List.head?_eq_none_iff] at hok
  rw [generatorCauses, List.append_eq_nil_iff, hok]
  simp only [ite_eq_right_iff, List.cons_ne_nil, imp_false, Nat.not_lt, Nat.le_zero]
  constructor
  · rintro ⟨⟨hc, hr, _, he, hend⟩, ho⟩
    exact ⟨hc, hr, ho, he, hend⟩
  · rintro ⟨hc, hr, ho, he, hend⟩
    exact ⟨⟨hc, hr, ho ▸ Nat.zero_le _, he, hend⟩, ho⟩

section

variable (limits : Limits) (guests : Language → Guest) (binary : Bytes)

/-- The execution of a generator in a job. -/
def execution (language : Language) : Execution := guests language [argv0 language] binary

/-- What `runGenerators` returns says of the generators it was to run. -/
def Publishes (languages : List Language) : Except Error GenerationResult → Prop
  | .ok result => ∀ language ∈ languages,
      Succeeded limits (execution guests binary language) ∧
        result.outputs.lookup language =
          some (runGenerator limits (guests language) language binary).snapshot
  | .error err => ∃ before language after, languages = before ++ language :: after ∧
      (∀ l ∈ before, Succeeded limits (execution guests binary l)) ∧
      err.stage = .generator language ∧
      (generatorCauses limits (execution guests binary language)).head? = some err.err

theorem runGenerators_publishes {done languages : List Language} {outputs : Outputs}
    {diagnostics : List Diagnostic}
    (hdone : Publishes limits guests binary done (.ok ⟨outputs, diagnostics⟩)) :
    Publishes limits guests binary (done ++ languages)
      (runGenerators limits guests binary languages outputs diagnostics) := by
  induction languages generalizing done outputs diagnostics with
  | nil =>
      rw [List.append_nil]
      exact hdone
  | cons language languages ih =>
      rw [runGenerators, generatorErr_eq]
      cases hc : (generatorCauses limits (execution guests binary language)).head? with
      | some c =>
          rw [execution] at hc
          simp only [hc]
          exact ⟨done, language, languages, rfl, fun l hl => (hdone l hl).1, rfl, hc⟩
      | none =>
          have hs := (succeeded_iff limits _).mp (List.head?_eq_none_iff.mp hc)
          rw [execution] at hc
          simp only [hc]
          have hlist : done ++ language :: languages = (done ++ [language]) ++ languages := by
            rw [List.append_assoc]
            rfl
          rw [hlist]
          apply ih
          intro l hl
          by_cases heq : l = language
          · subst heq
            exact ⟨hs, AList.lookup_insert _⟩
          · rcases List.mem_append.mp hl with hl | hl
            · refine ⟨(hdone l hl).1, ?_⟩
              rw [← (hdone l hl).2]
              exact AList.lookup_insert_ne heq
            · exact absurd (List.mem_singleton.mp hl) heq

end

/-- A command reports success only where nothing went wrong, and otherwise the first
cause; generators publish files only where all of them succeeded, and otherwise the first
that failed names its first cause. -/
theorem no_output_after_exceeded_budget (limits : Limits) :
    (∀ (output : Bool) (e : Execution) (stdoutBytes : Nat) (stdoutLimit : Limit),
      let o := run limits (outputMount limits output) e stdoutBytes stdoutLimit
      o.err = (causes limits (outputMount limits output) e stdoutBytes stdoutLimit).head? ∧
        (o.err = none ↔ e.context = none ∧
          refusals limits (outputMount limits output) e.actions = [] ∧
          stdoutOffered e.actions ≤ stdoutBytes ∧
          stderrOffered e.actions ≤ limits.stderrBytes ∧
          (e.ending = .returned ∨ e.ending = .exit 0))) ∧
    ∀ (guests : Language → Guest) (binary : Bytes) (languages : List Language)
      (diagnostics : List Diagnostic),
      Publishes limits guests binary languages
        (runGenerators limits guests binary languages ∅ diagnostics) := by
  refine ⟨?_, ?_⟩
  · intro output e stdoutBytes stdoutLimit
    exact ⟨(run_err limits output e stdoutBytes stdoutLimit).1,
      run_ok_iff limits output e stdoutBytes stdoutLimit⟩
  · intro guests binary languages diagnostics
    have hnone : Publishes limits guests binary [] (.ok ⟨∅, diagnostics⟩) := by
      intro l hl
      cases hl
    exact runGenerators_publishes limits guests binary hnone

/-- A generator that goes over its output budget, hides it and exits 0. -/
def hider : Guest := fun _ _ =>
  { actions := [.fs (.openFile [97] { O_CREAT := true, O_RDWR := true } 0o644),
      .fs (.file 0 (.write [1, 2, 3, 4, 5])), .fs (.unlink [97]), .stderr [33]]
    ending := .exit 0
    context := none }

example : (runGenerators MemoryFs.tightLimits (fun _ => hider) [0] [.cpp, .go] ∅ []).map
    (·.diagnostics) = .error (failure (.generator .cpp) [33] [⟨.generator .cpp, [33]⟩]
      (.exceeded .outputBytes)) := by decide +kernel

end GoSdk
