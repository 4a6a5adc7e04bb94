import CapnpcWasm.TsSdk.Protocol

/-!
# Errors survive the worker protocol

What the client rebuilds from a thrown value has its class, its message and the fields of
a `CompileError`, and the first four of its causes by name and message.  Encoding it again
gives the same reply.  Nothing is assumed of the graph of causes, which may be cyclic.

`causes` reads a chain to a given length, which is how a cyclic one is compared at all.
`summarize` stops after four causes and `restore` rebuilds those, so `causes_restore` is an
induction on the depth that is left.  `encode_decode` is the second reading: a rebuilt error
has no more causes than were posted.
-/

namespace TsSdk

open Sdk

/-! ## What survives -/

/-- The classes of errors a caller can tell apart. -/
inductive ErrorKind where
  | compile (failure : CompileFailure)
  | timeout
  | abort
  | type
  | range
  | other (name : JsString)
deriving DecidableEq, Repr

/-- The kind of an error goes by its class, and by its name for a `DOMException`. -/
def ErrorClass.kind : ErrorClass → ErrorKind
  | .compile failure => .compile failure
  | .dom name =>
      if name = text "TimeoutError" then .timeout
      else if name = text "AbortError" then .abort
      else .other name
  | .type _ => .type
  | .range _ => .range
  | cls => .other cls.name

/-- A value that is no error counts as the plain error that stands for it. -/
def Thrown.kind {N : Type} : Thrown N → ErrorKind
  | .error e => e.cls.kind
  | .value _ => .other (text "Error")

/-- Values that are no errors have no cause. -/
def Thrown.cause {N : Type} : Thrown N → Option N
  | .error e => e.cause
  | .value _ => none

/-- A value that is no error goes by the name `Error`. -/
def Thrown.name {N : Type} : Thrown N → JsString
  | .error e => e.cls.name
  | .value _ => text "Error"

/-- The reasons of a cancellation, whose causes are not posted. -/
def ErrorKind.isCancel : ErrorKind → Bool
  | .timeout | .abort => true
  | _ => false

section

variable {N : Type} (graph : N → Thrown N)

/-- The names and messages of the first causes. -/
def causes : Nat → Option N → List (JsString × JsString)
  | 0, _ => []
  | _ + 1, none => []
  | n + 1, some c => ((graph c).name, (graph c).message) :: causes n (graph c).cause

/-! ## Causes -/

variable {graph} {c : Option N} {depth m n : Nat}

/-- A cause is rebuilt with its name. -/
theorem named_string (message : JsString) (cause : Option Rebuilt) (name : JsString) :
    named (plainError message cause) (.string name) = ⟨.other name, message, cause⟩ := by
  rw [named]
  split
  · rfl
  · next h =>
    have hname : name = text "Error" := by
      by_contra hne
      exact h ⟨hne, hne⟩
    rw [plainError, hname]

/-- One cause, as its summary. -/
theorem summarize_some (c : N) : summarize graph (depth + 1) (some c) =
    some (.mk (.string (graph c).name) (.string (graph c).message)
      (summarize graph depth (graph c).cause)) := by
  rw [summarize]
  cases hc : graph c with
  | error e => rfl
  | value s =>
      rw [Thrown.cause]
      cases depth with
      | zero => rfl
      | succ depth => rfl

/-- One cause, and those below it. -/
theorem restore_summarize_some (c : N) (hm : depth + 1 ≤ m) :
    restore m (summarize graph (depth + 1) (some c)) =
      some (.mk (.other (graph c).name) (graph c).message
        (restore (m - 1) (summarize graph depth (graph c).cause))) := by
  obtain ⟨m, rfl⟩ := Nat.exists_eq_add_one.mpr (Nat.lt_of_lt_of_le (Nat.succ_pos depth) hm)
  rw [summarize_some, restore, Scalar.text, named_string, Nat.add_sub_cancel]
  rfl

/-- The rebuilt causes are the summarized ones. -/
theorem causes_restore (hm : depth ≤ m) (hn : depth ≤ n) :
    causes Rebuilt.expose n (restore m (summarize graph depth c)) = causes graph depth c := by
  induction depth generalizing c m n with
  | zero =>
      rw [summarize, causes]
      cases m with
      | zero => cases n <;> rfl
      | succ m => cases n <;> rfl
  | succ depth ih =>
      cases c with
      | none =>
          rw [summarize, causes]
          cases m with
          | zero => cases n <;> rfl
          | succ m => cases n <;> rfl
      | some c =>
          obtain ⟨n, rfl⟩ := Nat.exists_eq_add_one.mpr (Nat.lt_of_lt_of_le (Nat.succ_pos depth) hn)
          rw [restore_summarize_some c hm, causes, causes]
          exact congrArg (((graph c).name, (graph c).message) :: ·)
            (ih (m := m - 1) (by omega) (by omega))

/-- The rebuilt causes summarize to the same. -/
theorem summarize_restore (hm : depth ≤ m) :
    summarize Rebuilt.expose depth (restore m (summarize graph depth c)) =
      summarize graph depth c := by
  induction depth generalizing c m with
  | zero => rw [summarize, summarize]
  | succ depth ih =>
      cases c with
      | none =>
          rw [summarize]
          cases m with
          | zero => rfl
          | succ m => rfl
      | some c =>
          rw [restore_summarize_some c hm, summarize_some, summarize_some]
          exact congrArg (fun cause => some (ErrorSummary.mk _ _ cause)) (ih (by omega))

/-! ## Fields -/

@[simp] theorem failureKind_name (k : FailureKind) :
    (Scalar.string (text k.name)).failureKind = some k := by
  cases k <;> decide +kernel

@[simp] theorem limit_ofLimit (l : Option Limit) : (Scalar.ofLimit l).limit = l := by
  cases l with
  | none => decide +kernel
  | some l => cases l <;> decide +kernel

@[simp] theorem exitCode_ofExitCode (n : Option Int) : (Scalar.ofExitCode n).exitCode = n := by
  cases n with
  | none => rfl
  | some n => rfl

/-! ## The reply -/

/-- The error the client rebuilds, by the class of the thrown value. -/
theorem decode_encode (thrown : N) : decodeError (encodeError graph thrown) =
    match graph thrown with
    | .value s => .mk (.other (text "Error")) s none
    | .error e =>
        let cause := restore decodeDepth (summarize graph causeDepth e.cause)
        match e.cls.kind with
        | .compile f => .mk (.compile f) e.message cause
        | .timeout => .mk (.dom (text "TimeoutError")) e.message none
        | .abort => .mk (.dom (text "AbortError")) e.message none
        | .type => .mk (.type (text "TypeError")) e.message cause
        | .range => .mk (.range (text "RangeError")) e.message cause
        | .other name => .mk (.other name) e.message cause := by
  rw [encodeError]
  cases hthrown : graph thrown with
  | value s =>
      change Rebuilt.ofObject (named (plainError s (restore decodeDepth none)) _) = _
      rw [named_string]
      rfl
  | error e =>
      obtain ⟨cls, message, cause⟩ := e
      cases cls with
      | compile f =>
          change Rebuilt.ofObject (newCompileError _ _ _ (Scalar.ofExitCode f.exitCode).exitCode
            (Scalar.string (text f.kind.name)).failureKind (Scalar.ofLimit f.limit).limit _) = _
          rw [exitCode_ofExitCode, failureKind_name, limit_ofLimit]
          rfl
      | dom name =>
          have hne : text "TimeoutError" ≠ text "AbortError" := by decide +kernel
          by_cases htimeout : name = text "TimeoutError"
          · subst htimeout
            have hcancel : ¬Scalar.string (text "TimeoutError") = .string (text "AbortError") :=
              fun h => hne (Scalar.string.inj h)
            simp only [true_or, if_true, ErrorClass.kind, decodeError, if_neg hcancel]
            rfl
          · by_cases habort : name = text "AbortError"
            · subst habort
              simp only [or_true, if_true, ErrorClass.kind, decodeError, if_neg htimeout]
              rfl
            · simp only [htimeout, habort, or_self, if_false, ErrorClass.kind, decodeError,
                Scalar.text, named_string]
              rfl
      | type name => rfl
      | range name => rfl
      | command stderr =>
          change Rebuilt.ofObject (named _ _) = _
          rw [named_string]
          rfl
      | limit limit =>
          change Rebuilt.ofObject (named _ _) = _
          rw [named_string]
          rfl
      | other name =>
          change Rebuilt.ofObject (named _ _) = _
          rw [named_string]
          rfl

/-- The kind, with the fields of a `CompileError`. -/
theorem kind_decode (thrown : N) :
    (decodeError (encodeError graph thrown)).expose.kind = (graph thrown).kind := by
  have hne : text "AbortError" ≠ text "TimeoutError" := by decide +kernel
  rw [decode_encode]
  cases hthrown : graph thrown with
  | value s => rfl
  | error e =>
      change Thrown.kind (Rebuilt.expose _) = e.cls.kind
      dsimp only
      cases hkind : e.cls.kind with
      | compile f => rfl
      | timeout => rfl
      | abort =>
          change ErrorClass.kind (.dom (text "AbortError")) = .abort
          rw [ErrorClass.kind, if_neg hne, if_pos rfl]
      | type => rfl
      | range => rfl
      | other name => rfl

/-- The message. -/
theorem message_decode (thrown : N) :
    (decodeError (encodeError graph thrown)).expose.message = (graph thrown).message := by
  rw [decode_encode]
  cases hthrown : graph thrown with
  | value s => rfl
  | error e =>
      dsimp only
      cases e.cls.kind <;> rfl

/-- The rebuilt causes are the first four, whatever the chain was. -/
theorem causes_decode (thrown : N) (hcancel : (graph thrown).kind.isCancel = false) (hn : causeDepth ≤ n) :
    causes Rebuilt.expose n (decodeError (encodeError graph thrown)).cause =
      causes graph causeDepth (graph thrown).cause := by
  have hrestored : ∀ c, causes Rebuilt.expose n (restore decodeDepth (summarize graph causeDepth c)) =
      causes graph causeDepth c := fun c => causes_restore (by decide) hn
  rw [decode_encode]
  cases hthrown : graph thrown with
  | value s => cases n <;> rfl
  | error e =>
      rw [hthrown, Thrown.kind] at hcancel
      dsimp only
      cases hkind : e.cls.kind with
      | compile f => exact hrestored e.cause
      | timeout =>
          rw [hkind] at hcancel
          cases hcancel
      | abort =>
          rw [hkind] at hcancel
          cases hcancel
      | type => exact hrestored e.cause
      | range => exact hrestored e.cause
      | other name => exact hrestored e.cause

/-- Encoding what the client rebuilt gives the reply it came from. -/
theorem encode_decode (thrown : N) :
    encodeError Rebuilt.expose (decodeError (encodeError graph thrown)) =
      encodeError graph thrown := by
  have hcause : ∀ c, summarize Rebuilt.expose causeDepth (restore decodeDepth
      (summarize graph causeDepth c)) = summarize graph causeDepth c :=
    fun c => summarize_restore (by decide)
  rw [decode_encode, encodeError, encodeError]
  cases hthrown : graph thrown with
  | value s => rfl
  | error e =>
      obtain ⟨cls, message, cause⟩ := e
      cases cls with
      | compile f => exact congrArg (WireError.compile _ _ _ _ _ _) (hcause cause)
      | command stderr => exact congrArg (WireError.error _ _) (hcause cause)
      | limit limit => exact congrArg (WireError.error _ _) (hcause cause)
      | type name => exact congrArg (WireError.type _) (hcause cause)
      | range name => exact congrArg (WireError.range _) (hcause cause)
      | other name => exact congrArg (WireError.error _ _) (hcause cause)
      | dom name =>
          by_cases htimeout : name = text "TimeoutError"
          · subst htimeout
            simp only [ErrorClass.kind, if_true, Rebuilt.expose, true_or]
          · by_cases habort : name = text "AbortError"
            · subst habort
              simp only [ErrorClass.kind, if_neg htimeout, if_true, Rebuilt.expose, or_true]
            · simp only [ErrorClass.kind, Rebuilt.expose, htimeout, habort, or_self, if_false]
              exact congrArg (WireError.error _ _) (hcause cause)

/-! ## The errors of the engine -/

/-- A limit comes with the kind `limit`, and an exit code with the kind `exit`. -/
def CompileFailure.Consistent (f : CompileFailure) : Prop :=
  (f.limit ≠ none ↔ f.kind = .limit) ∧ (f.exitCode ≠ none ↔ f.kind = .exit)

/-- Only a `CompileError` has fields that could disagree. -/
def ErrorKind.Consistent : ErrorKind → Prop
  | .compile f => f.Consistent
  | _ => True

/-- The errors the engine makes have the fields of their kind. -/
theorem engineError_consistent (stage : GuestStage) (diagnostics : List Diagnostic)
    (failed : Failed N) :
    ∃ f, (engineError graph stage diagnostics failed).cls = .compile f ∧ f.Consistent := by
  cases failed with
  | trapped cause =>
      refine ⟨_, rfl, ?_, ?_⟩
      · cases limitOf graph cause <;> simp
      · cases limitOf graph cause <;> simp
  | exited code => exact ⟨_, rfl, by simp, by simp⟩
  | noRequest => exact ⟨_, rfl, by simp, by simp⟩
  | unexpectedStdout => exact ⟨_, rfl, by simp, by simp⟩

end

theorem errors_survive {N : Type} (graph : N → Thrown N) (thrown : N) :
    let rebuilt := decodeError (encodeError graph thrown)
    rebuilt.expose.kind = (graph thrown).kind ∧
    rebuilt.expose.message = (graph thrown).message ∧
    ((graph thrown).kind.isCancel = false → ∀ n, causeDepth ≤ n →
      causes Rebuilt.expose n rebuilt.cause = causes graph causeDepth (graph thrown).cause) ∧
    encodeError Rebuilt.expose rebuilt = encodeError graph thrown ∧
    ∀ stage diagnostics failed,
      graph thrown = .error (engineError graph stage diagnostics failed) →
      ∃ f, (graph thrown).kind = .compile f ∧ rebuilt.expose.kind = .compile f ∧ f.Consistent := by
  intro rebuilt
  have hkind : rebuilt.expose.kind = (graph thrown).kind := kind_decode thrown
  refine ⟨hkind, message_decode thrown, fun hcancel n hn => causes_decode thrown hcancel hn,
    encode_decode thrown, fun stage diagnostics failed h => ?_⟩
  obtain ⟨f, hf, hconsistent⟩ := @engineError_consistent N graph stage diagnostics failed
  have hthrown : (graph thrown).kind = .compile f := by
    rw [h, Thrown.kind, hf]
    rfl
  exact ⟨f, hthrown, hkind.trans hthrown, hconsistent⟩

/-- An error that is its own cause. -/
def selfCaused : Unit → Thrown Unit :=
  fun _ => .error ⟨.type (text "TypeError"), text "loop", some ()⟩

/-- An error that is its own cause, cut after four. -/
theorem errors_survive_selfCaused :
    (decodeError (encodeError selfCaused ())).expose.kind = .type ∧
    ∀ n, 4 ≤ n → causes Rebuilt.expose n (decodeError (encodeError selfCaused ())).cause =
      List.replicate 4 (text "TypeError", text "loop") := by
  obtain ⟨hkind, -, hcauses, -⟩ := errors_survive selfCaused ()
  exact ⟨hkind, fun n hn => hcauses rfl n hn⟩

end TsSdk
