import CapnpcWasm.Rewriter.Layout

/-!
# The rewrite keeps the block structure

Scanning flat code for a delimiter ignores what the rewrite inserts, since every
inserted sequence closes the blocks it opens.  So the matching delimiter of a
rewritten block is the rewritten matching delimiter, and no label index of the
original changes its target.

`Balanced` is said of the four scans at once, so that an inserted sequence is looked at
only once.  `matchEnd_rewriteCode`, `matchElse_rewriteCode`, `handlers_rewriteCode` and
`delegated_rewriteCode` are then one induction each on the code, with the pending operand
`operand` of the rewrite generalized, as an instruction may set it for the next one.
-/

namespace Rewriter

open Wasm

/-! ## Balanced sequences -/

/-- Instructions that delimit blocks or their parts. -/
def isDelimiter : Instr → Bool
  | .block _ | .loop _ | .if _ | .try _ | .try_table _ _ => true
  | .end | .delegate _ | .else | .catch _ | .catch_all => true
  | _ => false

/-- A sequence no scan stops in. -/
structure Balanced (seq : List Instr) : Prop where
  matchEnd : ∀ d rest, matchEnd d (seq ++ rest) = matchEnd d rest
  matchElse : ∀ d rest, matchElse d (seq ++ rest) = matchElse d rest
  handlers : ∀ d rest, handlers d (seq ++ rest) = handlers d rest
  delegated : ∀ d rest, delegated d (seq ++ rest) = delegated d rest

namespace Balanced

theorem nil : Balanced [] := ⟨fun _ _ => rfl, fun _ _ => rfl, fun _ _ => rfl, fun _ _ => rfl⟩

theorem append {s t : List Instr} (hs : Balanced s) (ht : Balanced t) : Balanced (s ++ t) where
  matchEnd d rest := by rw [List.append_assoc, hs.matchEnd, ht.matchEnd]
  matchElse d rest := by rw [List.append_assoc, hs.matchElse, ht.matchElse]
  handlers d rest := by rw [List.append_assoc, hs.handlers, ht.handlers]
  delegated d rest := by rw [List.append_assoc, hs.delegated, ht.delegated]

/-- An instruction that delimits nothing. -/
theorem single {i : Instr} (h : isDelimiter i = false) : Balanced [i] := by
  constructor <;> intro d rest <;> cases i <;> first | (cases d <;> rfl) | cases h

theorem cons {i : Instr} {s : List Instr} (h : isDelimiter i = false) (hs : Balanced s) :
    Balanced (i :: s) := (single h).append hs

end Balanced

/-- The check opens one `if` and closes it. -/
theorem checkSequence_balanced (counter interrupt interval : Nat) :
    Balanced (checkSequence counter interrupt interval) :=
  ⟨fun _ _ => rfl, fun d _ => by cases d <;> rfl, fun d _ => by cases d <;> rfl, fun _ _ => rfl⟩

/-- The charge opens three, one inside the other. -/
theorem chargeSequence_balanced (counter scratch interrupt interval shift : Nat) :
    Balanced (chargeSequence counter scratch interrupt interval shift) :=
  ⟨fun _ _ => rfl, fun d _ => by cases d <;> rfl, fun d _ => by cases d <;> rfl, fun _ _ => rfl⟩

/-! ## What one instruction becomes -/

section

variable (ctx : Context) (scratch : Nat)

theorem check_balanced : Balanced ctx.check := checkSequence_balanced ..

/-- What stands after a call of an import, trap or check. -/
theorem afterImport_balanced (f : Nat) : Balanced (ctx.afterImport f) := by
  rw [Context.afterImport]
  split
  · exact .single rfl
  · exact check_balanced ctx

/-- The only delimiter with something inserted after it is `loop`. -/
theorem rewriteInstr_delimiter {i : Instr} (operand : Option (BitVec 32))
    (h : isDelimiter i = true) :
    ∃ post, rewriteInstr ctx scratch operand i = i :: post ∧ Balanced post ∧
      ((∀ bt, i ≠ .loop bt) → post = []) := by
  cases i
  case loop bt => exact ⟨ctx.check, rfl, check_balanced ctx, fun hn => absurd rfl (hn bt)⟩
  all_goals first
    | exact ⟨[], rfl, .nil, fun _ => rfl⟩
    | cases h

/-- An instruction that is charged is copied after its charge. -/
theorem rewriteInstr_charge {i : Instr} {operand : Option (BitVec 32)} {shift : Nat}
    (h : charge? operand i = some shift) :
    rewriteInstr ctx scratch operand i =
      chargeSequence ctx.counter scratch ctx.importedFunctions ctx.interval shift ++ [i] := by
  cases i <;> first | (simp [charge?, chargeShift] at h; done) | simp [rewriteInstr, h]

/-- Everything but a delimiter becomes a balanced sequence. -/
theorem rewriteInstr_balanced {i : Instr} (operand : Option (BitVec 32))
    (h : isDelimiter i = false) : Balanced (rewriteInstr ctx scratch operand i) := by
  cases hc : charge? operand i with
  | some shift =>
      rw [rewriteInstr_charge ctx scratch hc]
      exact (chargeSequence_balanced ..).append (.single h)
  | none =>
      cases i
      case call f =>
        simp only [rewriteInstr]
        split
        · exact .single rfl
        · exact .cons rfl (afterImport_balanced ctx f)
      case return_call f =>
        simp only [rewriteInstr]
        split
        · exact .single rfl
        · split
          · exact .cons rfl (.single rfl)
          · exact .cons rfl ((check_balanced ctx).append (.single rfl))
      case ref_func f => exact .single rfl
      all_goals first
        | (simp only [rewriteInstr, hc]; exact .single h)
        | cases h

/-! ## Scans of rewritten code -/

/-- The `end` of a block. -/
theorem matchEnd_rewriteCode (is : List Instr) : ∀ (d : Nat) (operand : Option (BitVec 32)),
    matchEnd d (rewriteCode ctx scratch operand is) =
      (matchEnd d is).map (rewriteCode ctx scratch none) := by
  induction is with
  | nil => intro d operand; rfl
  | cons i is ih =>
      intro d operand
      rw [rewriteCode]
      cases hi : isDelimiter i with
      | false =>
          rw [(rewriteInstr_balanced ctx scratch operand hi).matchEnd, ih]
          exact congrArg _ ((Balanced.single hi).matchEnd d is).symm
      | true =>
          obtain ⟨post, heq, hpost, hnil⟩ := rewriteInstr_delimiter ctx scratch operand hi
          rw [heq, List.cons_append]
          cases i <;> cases hi
          all_goals simp only [matchEnd, Instr.opens, Instr.closes, if_true, Bool.false_eq_true,
            if_false, hpost.matchEnd, ih]
          all_goals
            cases hnil (by simp)
            cases d <;> rfl

/-- The `else` of an `if`. -/
theorem matchElse_rewriteCode (is : List Instr) : ∀ (d : Nat) (operand : Option (BitVec 32)),
    matchElse d (rewriteCode ctx scratch operand is) =
      (matchElse d is).map (rewriteCode ctx scratch none) := by
  induction is with
  | nil => intro d operand; rfl
  | cons i is ih =>
      intro d operand
      rw [rewriteCode]
      cases hi : isDelimiter i with
      | false =>
          rw [(rewriteInstr_balanced ctx scratch operand hi).matchElse, ih]
          exact congrArg _ ((Balanced.single hi).matchElse d is).symm
      | true =>
          obtain ⟨post, heq, hpost, hnil⟩ := rewriteInstr_delimiter ctx scratch operand hi
          rw [heq, List.cons_append]
          cases i <;> cases hi
          all_goals simp only [matchElse, Instr.opens, Instr.closes, if_true, Bool.false_eq_true,
            if_false, hpost.matchElse, ih]
          all_goals
            cases hnil (by simp)
            cases d <;> rfl

/-- The handlers of a `try`, with the code of each. -/
theorem handlers_rewriteCode (is : List Instr) : ∀ (d : Nat) (operand : Option (BitVec 32)),
    handlers d (rewriteCode ctx scratch operand is) =
      (handlers d is).map fun h => ⟨h.tag, rewriteCode ctx scratch none h.code⟩ := by
  induction is with
  | nil => intro d operand; rfl
  | cons i is ih =>
      intro d operand
      rw [rewriteCode]
      cases hi : isDelimiter i with
      | false =>
          rw [(rewriteInstr_balanced ctx scratch operand hi).handlers, ih]
          exact congrArg _ ((Balanced.single hi).handlers d is).symm
      | true =>
          obtain ⟨post, heq, hpost, hnil⟩ := rewriteInstr_delimiter ctx scratch operand hi
          rw [heq, List.cons_append]
          cases i <;> cases hi
          all_goals simp only [handlers, Instr.opens, Instr.closes, if_true, Bool.false_eq_true,
            if_false, hpost.handlers, ih]
          all_goals
            cases hnil (by simp)
            cases d <;> rfl

/-- The label of a `delegate`, which is no code. -/
theorem delegated_rewriteCode (is : List Instr) : ∀ (d : Nat) (operand : Option (BitVec 32)),
    delegated d (rewriteCode ctx scratch operand is) = delegated d is := by
  induction is with
  | nil => intro d operand; rfl
  | cons i is ih =>
      intro d operand
      rw [rewriteCode]
      cases hi : isDelimiter i with
      | false =>
          rw [(rewriteInstr_balanced ctx scratch operand hi).delegated, ih]
          exact ((Balanced.single hi).delegated d is).symm
      | true =>
          obtain ⟨post, heq, hpost, hnil⟩ := rewriteInstr_delimiter ctx scratch operand hi
          rw [heq, List.cons_append]
          cases i <;> cases hi
          all_goals simp only [delegated, Instr.opens, if_true, Bool.false_eq_true, if_false,
            hpost.delegated, ih]

end

end Rewriter
