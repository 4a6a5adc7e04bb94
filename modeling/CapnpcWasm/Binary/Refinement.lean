import CapnpcWasm.Binary.Format
import CapnpcWasm.Rewriter.Transform

/-!
# The rewrite of bytes is the rewrite of instructions

Where the bytes of a function body spell a list of instructions, what `functionBody` writes
spells the rewrite of this list, and it fails exactly where that rewrite does.

* `Token.Spells` relates a token of the rewriter to an instruction, and `FunctionText.Spells`
  a text to a function.  What the rewriter looks at, the kind of a token, is determined by
  the instruction (`operand_kindOf`, `unit_kindOf`, `callsGuest_kindOf`).
* `State.context` reads a state of the pass as the context of the instruction rewrite, which
  agrees with it once thunks are numbered (`State.Numbered.thunkOf`).
* `State.Numbered.rewriteToken` is the step, and `rewriteTokens` the induction over a body.
  A second family, with `_declared` and `_some`, proves the other direction.
* `functionBody_refines` is the result for a body, and `code_refines` for the code section.
-/

namespace Binary

open TsSdk Leb

/-! ## What tokens spell -/

/-- A token that spells an instruction. -/
def Token.Spells (U : Grammar Nat) (t : Token) (i : Wasm.Instr) : Prop :=
  t.kind = kindOf i ∧ ∃ op rest, t.bytes = op :: rest ∧ InstrText U i op rest

section

variable {U : Grammar Nat} {t : Token} {i : Wasm.Instr} {op : UInt8} {rest : Bytes}

/-- What spells an instruction is a token of the grammar. -/
theorem Token.Spells.valid (h : t.Spells U i) : t.Valid U := by
  obtain ⟨hkind, op, rest, hbytes, htext⟩ := h
  refine ⟨op, rest, hbytes, ?_⟩
  rw [hkind]
  exact htext.follows

/-- Both ways of asking whether a size is small. -/
theorem smallSize_eq (operand : Option (BitVec 32)) (unit : Nat) :
    smallSize operand unit = Rewriter.small operand unit := by
  cases operand with
  | none => rfl
  | some value =>
      have hshift : value.sshiftRight unit = 0 ↔ value.toInt >>> unit = 0 := by
        rw [← BitVec.toInt_inj, BitVec.toInt_sshiftRight]
        rfl
      show (decide (0 ≤ value.toInt) && decide (value.sshiftRight unit = 0)) =
        (decide (0 ≤ value.toInt) && decide (value.toInt >>> unit = 0))
      rw [decide_eq_decide.mpr hshift]

/-- The constant that an instruction leaves for the next one. -/
theorem operand_kindOf (i : Wasm.Instr) : (kindOf i).operand = Rewriter.constantOf i := by
  cases i with
  | plain code => cases code <;> rfl
  | _ => rfl

/-- Whether it may call a function of the instance. -/
theorem callsGuest_kindOf (ctx : Rewriter.Context) (i : Wasm.Instr) :
    (kindOf i).callsGuest ctx.importedFunctions = ctx.callsGuest i := by
  cases i with
  | plain code => cases code <;> rfl
  | _ => rfl

/-- The unit of an instruction, whichever way it is asked. -/
theorem unit_kindOf (operand : Option (BitVec 32)) (h : InstrText U i op rest) :
    (kindOf i).unit operand = Rewriter.charge? operand i := by
  have hfilter (unit : Option Nat) : (unit.filter fun unit => !smallSize operand unit) =
      unit.filter fun unit => !Rewriter.small operand unit := by
    simp only [smallSize_eq]
  cases i with
  | memory_init | memory_copy | memory_fill => exact hfilter (some memoryChargeShift)
  | table_init | table_copy | table_grow | table_fill => exact hfilter (some tableChargeShift)
  | plain code =>
      cases code with
      | saturating code =>
          obtain ⟨-, hcode, -⟩ := h
          have hnone : bulkUnit code = none := by
            rw [bulkUnit, if_neg, if_neg]
            all_goals
              simp only [tableBulk, memoryBulk, List.mem_cons, List.not_mem_nil, or_false]
              omega
          show (bulkUnit code).filter _ = _
          rw [hnone]
          rfl
      | _ => rfl
  | _ => rfl

end

/-! ## Inserted instructions -/

section

variable (counter scratch interrupt interval shift : Nat)

/-- The check, instruction by instruction. -/
theorem spells_check : List.Forall₂ (Token.Spells Encodes)
    (checkTokens counter interrupt (.ofNat 32 interval)) (Rewriter.checkSequence counter interrupt interval) := by
  refine .cons ⟨rfl, 0x23, _, rfl, rfl, encodes_leb counter⟩ ?_
  refine .cons ⟨rfl, 0x45, _, rfl, rfl, by decide, by decide, rfl⟩ ?_
  refine .cons ⟨rfl, 0x04, _, rfl, rfl, rfl⟩ ?_
  refine .cons ⟨rfl, 0x10, _, rfl, rfl, encodes_leb interrupt⟩ ?_
  refine .cons ⟨rfl, 0x04, _, rfl, rfl, rfl⟩ ?_
  refine .cons ⟨rfl, 0x00, _, rfl, rfl, rfl⟩ ?_
  refine .cons ⟨rfl, 0x0b, _, rfl, rfl, rfl⟩ ?_
  refine .cons ⟨rfl, 0x41, _, rfl, rfl, s32_signedLeb_of _⟩ ?_
  refine .cons ⟨rfl, 0x24, _, rfl, rfl, encodes_leb counter⟩ ?_
  refine .cons ⟨rfl, 0x0b, _, rfl, rfl, rfl⟩ ?_
  refine .cons ⟨rfl, 0x23, _, rfl, rfl, encodes_leb counter⟩ ?_
  refine .cons ⟨rfl, 0x41, _, rfl, rfl, s32_signedLeb_of _⟩ ?_
  refine .cons ⟨rfl, 0x6b, _, rfl, rfl, by decide, by decide, rfl⟩ ?_
  exact .cons ⟨rfl, 0x24, _, rfl, rfl, encodes_leb counter⟩ .nil

theorem ofNat_shiftLeft_one : (1 <<< shift : BitVec 32) = BitVec.ofNat 32 (1 <<< shift) := by
  apply BitVec.eq_of_toNat_eq
  simp

/-- The charge, instruction by instruction. -/
theorem spells_charge : List.Forall₂ (Token.Spells Encodes)
    (chargeTokens counter scratch interrupt (.ofNat 32 interval) shift)
    (Rewriter.chargeSequence counter scratch interrupt interval shift) := by
  refine .cons ⟨rfl, 0x22, _, rfl, rfl, encodes_leb scratch⟩ ?_
  refine .cons ⟨?_, 0x41, _, rfl, rfl, ?_⟩ ?_
  · exact congrArg Kind.const (ofNat_shiftLeft_one shift)
  · exact ofNat_shiftLeft_one shift ▸ s32_signedLeb_of _
  refine .cons ⟨rfl, 0x4f, _, rfl, rfl, by decide, by decide, rfl⟩ ?_
  refine .cons ⟨rfl, 0x04, _, rfl, rfl, rfl⟩ ?_
  refine .cons ⟨rfl, 0x20, _, rfl, rfl, encodes_leb scratch⟩ ?_
  refine .cons ⟨rfl, 0x41, _, rfl, rfl, s32_signedLeb_of _⟩ ?_
  refine .cons ⟨rfl, 0x76, _, rfl, rfl, by decide, by decide, rfl⟩ ?_
  refine .cons ⟨rfl, 0x23, _, rfl, rfl, encodes_leb counter⟩ ?_
  refine .cons ⟨rfl, 0x4f, _, rfl, rfl, by decide, by decide, rfl⟩ ?_
  refine .cons ⟨rfl, 0x04, _, rfl, rfl, rfl⟩ ?_
  refine .cons ⟨rfl, 0x10, _, rfl, rfl, encodes_leb interrupt⟩ ?_
  refine .cons ⟨rfl, 0x04, _, rfl, rfl, rfl⟩ ?_
  refine .cons ⟨rfl, 0x00, _, rfl, rfl, rfl⟩ ?_
  refine .cons ⟨rfl, 0x0b, _, rfl, rfl, rfl⟩ ?_
  refine .cons ⟨rfl, 0x41, _, rfl, rfl, s32_signedLeb_of _⟩ ?_
  refine .cons ⟨rfl, 0x24, _, rfl, rfl, encodes_leb counter⟩ ?_
  refine .cons ⟨rfl, 0x05, _, rfl, rfl, rfl⟩ ?_
  refine .cons ⟨rfl, 0x23, _, rfl, rfl, encodes_leb counter⟩ ?_
  refine .cons ⟨rfl, 0x20, _, rfl, rfl, encodes_leb scratch⟩ ?_
  refine .cons ⟨rfl, 0x41, _, rfl, rfl, s32_signedLeb_of _⟩ ?_
  refine .cons ⟨rfl, 0x76, _, rfl, rfl, by decide, by decide, rfl⟩ ?_
  refine .cons ⟨rfl, 0x6b, _, rfl, rfl, by decide, by decide, rfl⟩ ?_
  refine .cons ⟨rfl, 0x24, _, rfl, rfl, encodes_leb counter⟩ ?_
  refine .cons ⟨rfl, 0x0b, _, rfl, rfl, rfl⟩ ?_
  refine .cons ⟨rfl, 0x0b, _, rfl, rfl, rfl⟩ ?_
  exact .cons ⟨rfl, 0x20, _, rfl, rfl, encodes_leb scratch⟩ .nil

end

/-! ## The context of the rewrite -/

namespace State

variable (s : State)

/-- The thunks are numbered behind the defined functions, in the order they were found. -/
def Numbered : Prop :=
  ∀ i (h : i < s.thunks.length), (s.thunks[i]).2 = s.importedFunctions + 1 + s.definedFunctions + i

/-- What the rewrite of instruction lists reads of the state. -/
def context (interval : Nat) : Rewriter.Context where
  importedFunctions := s.importedFunctions
  exitFunction := s.exitFunction
  counter := s.countdown
  interval := interval
  thunkImports := s.thunks.map Prod.fst
  definedFunctions := s.definedFunctions

end State

section

variable {s s' : State} {index f interval : Nat}

/-- There is no thunk yet. -/
theorem numbered_start : State.start.Numbered := fun i h => absurd h (Nat.not_lt_zero i)

/-- A new thunk gets the next number. -/
theorem State.Numbered.reference (hs : s.Numbered) (h : s.reference index = .ok (f, s')) : s'.Numbered := by
  rw [State.reference] at h
  split at h
  · cases h
    exact hs
  · split at h
    · cases h
      exact hs
    · split at h
      · cases h
        exact hs
      · split at h
        · cases h
        · cases h
          intro i hi
          simp only [List.length_append, List.length_singleton] at hi
          show ((s.thunks ++ [_])[i]).2 = _
          by_cases hold : i < s.thunks.length
          · rw [List.getElem_append_left hold]
            exact hs i hold
          · obtain rfl : i = s.thunks.length := by omega
            rw [List.getElem_append_right (Nat.le_refl _)]
            simp

/-- Looking up in numbered pairs is counting. -/
theorem lookup_numbered {thunks : List (Nat × Nat)} {base : Nat}
    (h : ∀ i (hi : i < thunks.length), (thunks[i]).2 = base + i) (f : Nat) :
    thunks.lookup f = if f ∈ thunks.map Prod.fst then some (base + (thunks.map Prod.fst).idxOf f) else none := by
  induction thunks generalizing base with
  | nil => rfl
  | cons thunk thunks ih =>
      obtain ⟨g, number⟩ := thunk
      have hfirst : number = base := h 0 (Nat.zero_lt_succ _)
      have hrest := @ih (base + 1) fun i hi => by
        have hnext := h (i + 1) (Nat.succ_lt_succ hi)
        rw [List.getElem_cons_succ] at hnext
        omega
      rw [List.map_cons]
      by_cases heq : f = g
      · subst heq
        rw [List.lookup_cons_self, if_pos List.mem_cons_self, List.idxOf_cons_self, hfirst]
        rfl
      · rw [List.lookup_cons, beq_false_of_ne heq, hrest, List.idxOf_cons_ne _ (Ne.symm heq)]
        simp only [List.mem_cons, heq, false_or]
        split
        · simp [Nat.add_assoc, Nat.add_comm]
        · rfl

/-- So the context finds the same thunk as the state. -/
theorem State.Numbered.thunkOf (hs : s.Numbered) (f : Nat) :
    (s.context interval).thunkOf f = s.thunks.lookup f := by
  rw [lookup_numbered hs]
  rfl

/-- Where a reference of the code points to. -/
theorem State.Numbered.referTo {n : Nat} (hs : s.Numbered) (hdefined : s.definedFunctions ≠ 0) (f : Nat) :
    s.referTo f = if (s.context n).declared (.ref_func f) then some ((s.context n).reference f) else none := by
  rw [State.referTo, if_neg hdefined]
  show _ = if (decide (s.importedFunctions ≤ f) || ((s.context n).thunkOf f).isSome) = true then
    some (if s.importedFunctions ≤ f then f + 1 else ((s.context n).thunkOf f).getD f) else none
  rw [hs.thunkOf]
  by_cases himport : s.importedFunctions ≤ f
  · simp [himport]
  · cases s.thunks.lookup f <;> simp [himport]

end

/-! ## Instructions -/

section

variable {s : State} {ctx : Rewriter.Context} {interval scratch : Nat} {operand : Option (BitVec 32)} {t : Token}
  {i : Wasm.Instr} {tokens out : List Token} {is : List Wasm.Instr}

/-- Only `ref.func` has this kind. -/
theorem kindOf_refFunc {f : Nat} (h : kindOf i = .refFunc f) : i = .ref_func f := by
  cases i with
  | ref_func g =>
      cases h
      rfl
  | plain code => cases code <;> cases h
  | _ => cases h

/-- The instructions that are kept, charged or not. -/
theorem rewriteInstr_kept (hloop : ∀ type, i ≠ .loop type) (hcall : ∀ f, i ≠ .call f)
    (hreturn : ∀ f, i ≠ .return_call f) (href : ∀ f, i ≠ .ref_func f) :
    Rewriter.rewriteInstr ctx scratch operand i = (Rewriter.charge? operand i).elim [i] fun shift =>
      Rewriter.chargeSequence ctx.counter scratch ctx.importedFunctions ctx.interval shift ++ [i] := by
  rw [Rewriter.rewriteInstr]
  · cases Rewriter.charge? operand i <;> rfl
  · exact hloop
  · exact hcall
  · exact hreturn
  · exact href

/-- An instruction that is kept, with its charge before it. -/
theorem spells_kept (ht : t.Spells Encodes i) : List.Forall₂ (Token.Spells Encodes)
    (((kindOf i).unit operand).elim [t] fun unit =>
      chargeTokens s.countdown scratch s.importedFunctions (.ofNat 32 interval) unit ++ [t])
    ((Rewriter.charge? operand i).elim [i] fun shift =>
      Rewriter.chargeSequence s.countdown scratch s.importedFunctions interval shift ++ [i]) := by
  obtain ⟨op, rest, -, htext⟩ := ht.2
  rw [unit_kindOf operand htext]
  cases Rewriter.charge? operand i with
  | none => exact .cons ht .nil
  | some shift => exact List.rel_append (spells_charge _ _ _ _ _) (.cons ht .nil)

/-- What is written for a token spells what stands for its instruction. -/
theorem State.Numbered.rewriteToken (hs : s.Numbered) (hdefined : s.definedFunctions ≠ 0)
    (ht : t.Spells Encodes i)
    (hout : s.rewriteToken (.ofNat 32 interval) scratch operand t = some out) :
    (s.context interval).declared i = true ∧ List.Forall₂ (Token.Spells Encodes) out
      (Rewriter.rewriteInstr (s.context interval) scratch operand i) := by
  have hcheck := spells_check s.countdown s.importedFunctions interval
  have hcall (f : Nat) : (callTo false f).Spells Encodes (.call f) := ⟨rfl, _, _, rfl, rfl, encodes_leb f⟩
  have htail (f : Nat) : (callTo true f).Spells Encodes (.return_call f) := ⟨rfl, _, _, rfl, rfl, encodes_leb f⟩
  have hunreachable : (plain 0x00).Spells Encodes .unreachable := ⟨rfl, _, _, rfl, rfl, rfl⟩
  have hreturn : (plain 0x0f).Spells Encodes .return := ⟨rfl, _, _, rfl, rfl, rfl⟩
  rw [State.rewriteToken, ht.1] at hout
  cases i with
  | loop type =>
      obtain rfl := Option.some.inj hout
      exact ⟨rfl, .cons ht hcheck⟩
  | call f =>
      refine ⟨rfl, ?_⟩
      rw [Rewriter.rewriteInstr, Rewriter.Context.afterImport]
      simp only [kindOf, Bool.false_eq_true, ↓reduceIte, List.append_nil] at hout
      show List.Forall₂ _ _ (if s.importedFunctions ≤ f then _ else _ :: if s.exitFunction = some f then _ else _)
      split_ifs at hout ⊢ with himport hexit
      all_goals obtain rfl := Option.some.inj hout
      · exact .cons (hcall _) .nil
      · exact .cons (hcall f) (.cons hunreachable .nil)
      · exact .cons (hcall f) hcheck
  | return_call f =>
      refine ⟨rfl, ?_⟩
      rw [Rewriter.rewriteInstr]
      simp only [kindOf, ↓reduceIte] at hout
      show List.Forall₂ _ _ (if s.importedFunctions ≤ f then _ else if s.exitFunction = some f then _ else _)
      split_ifs at hout ⊢ with himport hexit
      all_goals obtain rfl := Option.some.inj hout
      · exact .cons (htail _) .nil
      · exact .cons (hcall f) (.cons hunreachable .nil)
      · exact .cons (hcall f) (List.rel_append hcheck (.cons hreturn .nil))
  | ref_func f =>
      obtain ⟨g, hg, rfl⟩ := Option.map_eq_some_iff.mp hout
      have hto := hs.referTo (n := interval) hdefined f
      rw [hto] at hg
      split at hg
      · next hdeclared =>
        obtain rfl := Option.some.inj hg
        exact ⟨hdeclared, .cons ⟨rfl, _, _, rfl, rfl, encodes_leb _⟩ .nil⟩
      · cases hg
  | plain code =>
      rw [rewriteInstr_kept (fun _ h => by cases h) (fun _ h => by cases h) (fun _ h => by cases h)
        (fun _ h => by cases h)]
      cases code
      all_goals
        obtain rfl := Option.some.inj hout
        exact ⟨rfl, spells_kept ht⟩
  | _ =>
      obtain rfl := Option.some.inj hout
      rw [rewriteInstr_kept (fun _ h => by cases h) (fun _ h => by cases h) (fun _ h => by cases h)
        (fun _ h => by cases h)]
      exact ⟨rfl, spells_kept ht⟩

/-- Every instruction that the rewrite can renumber is rewritten. -/
theorem State.Numbered.rewriteToken_declared (hs : s.Numbered) (hdefined : s.definedFunctions ≠ 0)
    (ht : t.Spells Encodes i) (hi : (s.context interval).declared i = true) :
    ∃ out, s.rewriteToken (.ofNat 32 interval) scratch operand t = some out := by
  apply State.rewriteToken_some
  intro f hf
  rw [ht.1] at hf
  obtain rfl := kindOf_refFunc hf
  rw [hs.referTo (n := interval) hdefined, if_pos hi]
  exact ⟨_, rfl⟩

/-- By induction on the tokens, for every constant before them. -/
theorem State.Numbered.rewriteTokens (hs : s.Numbered) (hdefined : s.definedFunctions ≠ 0)
    (ht : List.Forall₂ (Token.Spells Encodes) tokens is)
    (hout : s.rewriteTokens (.ofNat 32 interval) scratch operand tokens = some out) :
    is.all (s.context interval).declared = true ∧ List.Forall₂ (Token.Spells Encodes) out
      (Rewriter.rewriteCode (s.context interval) scratch operand is) := by
  induction ht generalizing operand out with
  | nil =>
      obtain rfl := Option.some.inj hout
      exact ⟨rfl, .nil⟩
  | @cons t i tokens is ht _ ih =>
      obtain ⟨first, rest, hfirst, hrest, rfl⟩ := State.rewriteTokens_cons.mp hout
      obtain ⟨hi, hspells⟩ := hs.rewriteToken hdefined ht hfirst
      rw [ht.1, operand_kindOf] at hrest
      obtain ⟨hall, hbehind⟩ := ih hrest
      refine ⟨?_, List.rel_append hspells hbehind⟩
      rw [List.all_cons, hi, hall]
      rfl

/-- The converse, where every reference is declared. -/
theorem State.Numbered.rewriteTokens_declared (hs : s.Numbered) (hdefined : s.definedFunctions ≠ 0)
    (ht : List.Forall₂ (Token.Spells Encodes) tokens is)
    (his : is.all (s.context interval).declared = true) :
    ∃ out, s.rewriteTokens (.ofNat 32 interval) scratch operand tokens = some out := by
  induction ht generalizing operand with
  | nil => exact ⟨[], rfl⟩
  | @cons t i tokens is ht _ ih =>
      rw [List.all_cons, Bool.and_eq_true] at his
      obtain ⟨first, hfirst⟩ := hs.rewriteToken_declared hdefined ht his.1
      obtain ⟨rest, hrest⟩ := ih his.2
      exact ⟨first ++ rest, State.rewriteTokens_cons.mpr ⟨first, rest, hfirst, hrest, rfl⟩⟩

end

/-! ## Functions -/

/-- A group of locals of one type. -/
def GroupText (U : Grammar Nat) (group : Nat × Wasm.ValType) : Bytes → Prop :=
  Then (Number U group.1) (ValTypeText group.2)

/-- A body that spells a function. -/
structure FunctionText.Spells (U : Grammar Nat) (f : FunctionText) (F : Wasm.Func) : Prop where
  size : U f.size f.count
  count : f.count = F.locals.length
  groups : Each (GroupText U) F.locals f.groups
  declared : f.declared = Rewriter.declaredLocals F.locals
  tokens : List.Forall₂ (Token.Spells U) f.tokens F.body

/-- Bytes that spell a function. -/
def FunctionBytes (U : Grammar Nat) (bytes : Bytes) (F : Wasm.Func) : Prop :=
  ∃ f : FunctionText, bytes = f.bytes ∧ f.Spells U F

section

variable {U V : Grammar Nat} {s : State} {ctx : Rewriter.Context} {interval params : Nat}
  {operand : Option (BitVec 32)} {tokens out : List Token} {is : List Wasm.Instr} {f g : FunctionText}
  {F G : Wasm.Func} {bytes : Bytes}

theorem Each.snoc {α : Type} {L : α → Bytes → Prop} {l : List α} {a : α} {last : Bytes}
    (h : Each L l bytes) (hlast : L a last) : Each L (l ++ [a]) (bytes ++ last) := by
  induction l generalizing bytes with
  | nil =>
      obtain rfl : bytes = [] := h
      exact ⟨last, [], (List.append_nil _).symm, hlast, rfl⟩
  | cons b l ih =>
      obtain ⟨first, second, rfl, hfirst, hsecond⟩ := h
      exact ⟨first, second ++ last, List.append_assoc _ _ _, hfirst, ih hsecond⟩

/-- The groups of locals add up to the declared ones. -/
theorem locals_of_each (l : List (Nat × Wasm.ValType)) (declared : Nat) :
    ∀ bytes, Each (GroupText U) l bytes →
      Grammar.times (LocalGroup U) l.length declared bytes (declared + Rewriter.declaredLocals l) := by
  induction l generalizing declared with
  | nil => exact fun bytes h => ⟨h, rfl⟩
  | cons group l ih =>
      rintro _ ⟨_, second, rfl, ⟨number, type, rfl, hnumber, htype⟩, hsecond⟩
      refine ⟨number ++ type, second, declared + group.1, rfl,
        ⟨number, type, group.1, rfl, hnumber, htype.valueType, rfl⟩, ?_⟩
      have hrest := ih (declared + group.1) second hsecond
      rwa [Nat.add_assoc] at hrest

/-- Token by token. -/
theorem valid_spells (h : List.Forall₂ (Token.Spells U) tokens is) : ∀ t ∈ tokens, t.Valid U := by
  induction h with
  | nil => exact List.forall_mem_nil _
  | cons ht _ ih => exact List.forall_mem_cons.mpr ⟨ht.valid, ih⟩

/-- A text that spells a function is a text. -/
theorem FunctionText.Spells.valid (h : f.Spells U F) : f.Valid U where
  size := h.size
  groups := by
    have hlocals := locals_of_each F.locals 0 f.groups h.groups
    rwa [Nat.zero_add, ← h.count, ← h.declared] at hlocals
  tokens := valid_spells h.tokens

/-- Whether a local for the charges is needed, either way it is asked. -/
theorem units_charged (h : List.Forall₂ (Token.Spells U) tokens is) :
    (units operand tokens).isEmpty = !Rewriter.charged operand is := by
  induction h generalizing operand with
  | nil => rfl
  | @cons t i tokens is ht _ ih =>
      obtain ⟨op, rest, -, htext⟩ := ht.2
      rw [units, Rewriter.charged, ht.1, operand_kindOf, unit_kindOf operand htext]
      cases Rewriter.charge? operand i with
      | none => exact ih
      | some unit => rfl

/-- Whether a body calls a function of the instance. -/
theorem callsGuest_spells (ctx : Rewriter.Context) (h : List.Forall₂ (Token.Spells U) tokens is) :
    (tokens.any fun t => t.kind.callsGuest ctx.importedFunctions) = is.any ctx.callsGuest := by
  induction h with
  | nil => rfl
  | @cons t i tokens is ht _ ih => rw [List.any_cons, List.any_cons, ih, ht.1, callsGuest_kindOf]

/-- A spelling that the rewriter reads is one of the format. -/
theorem FunctionText.Spells.encodes (h : f.Spells U32 F) : f.Spells Encodes F where
  size := h.size.1
  count := h.count
  groups := Each.mono (fun group => Then.mono (fun _ h => h.1) fun _ h => h) F.locals _ h.groups
  declared := h.declared
  tokens := by
    refine List.Forall₂.imp ?_ h.tokens
    rintro t i ⟨hkind, op, rest, hbytes, htext⟩
    exact ⟨hkind, op, rest, hbytes, htext.mono fun _ _ h => h.1⟩

/-- Whether it needs the scratch local. -/
theorem FunctionText.Spells.charged (h : f.Spells U F) : f.charged = Rewriter.charged none F.body := by
  rw [FunctionText.charged, units_charged h.tokens, Bool.not_not]

/-- What stands for a body spells the rewrite of its function. -/
theorem State.Numbered.rewriteFunction (hs : s.Numbered) (hdefined : s.definedFunctions ≠ 0)
    (hf : f.Spells Encodes F) (hg : s.rewriteFunction (.ofNat 32 interval) params f = some g) :
    ∃ G, Rewriter.functionBody (s.context interval) params F = some G ∧ g.Spells Encodes G := by
  obtain ⟨hroom, out, hout, rfl⟩ := State.rewriteFunction_some.mp hg
  obtain ⟨hall, hspells⟩ := hs.rewriteTokens hdefined hf.tokens hout
  have hcharged := hf.charged
  have hguest : f.callsGuest s.importedFunctions = F.body.any (s.context interval).callsGuest :=
    callsGuest_spells (s.context interval) hf.tokens
  have hcheck := spells_check s.countdown s.importedFunctions interval
  refine ⟨_, if_pos ?_, ?_⟩
  · rw [hall, ← hcharged, ← hf.declared]
    cases hc : f.charged with
    | false => rfl
    | true =>
        have hmost : decide (Rewriter.maxLocals < params + f.declared + 1) = false :=
          decide_eq_false fun hover => hroom ⟨hc, hover⟩
        rw [hmost]
        rfl
  · rw [← hcharged, ← hguest]
    constructor
    case size => exact encodes_leb _
    case count =>
      show f.count + _ = List.length (if _ then _ else _)
      cases f.charged <;> simp [hf.count]
    case groups =>
      show Each _ (if _ then _ else _) (f.groups ++ _)
      cases f.charged with
      | false => simpa using hf.groups
      | true => exact Each.snoc hf.groups ⟨[1], [0x7f], rfl, leb_one ▸ encodes_leb 1, rfl⟩
    case declared =>
      show f.declared + _ = Rewriter.declaredLocals (if _ then _ else _)
      cases f.charged <;> simp [hf.declared, Rewriter.declaredLocals]
    case tokens =>
      refine List.rel_append ?_ ?_
      · cases f.callsGuest s.importedFunctions with
        | false => exact .nil
        | true => exact hcheck
      · rwa [hf.declared] at hspells

/-- A function that the instruction rewrite accepts is accepted. -/
theorem State.Numbered.rewriteFunction_some (hs : s.Numbered) (hdefined : s.definedFunctions ≠ 0)
    (hf : f.Spells Encodes F) (hG : Rewriter.functionBody (s.context interval) params F = some G) :
    ∃ g, s.rewriteFunction (.ofNat 32 interval) params f = some g := by
  rw [Rewriter.functionBody] at hG
  split at hG
  · next hok =>
    rw [Bool.and_eq_true, Bool.not_eq_true', ← hf.charged, ← hf.declared] at hok
    obtain ⟨out, hout⟩ := hs.rewriteTokens_declared hdefined hf.tokens hok.1
    refine ⟨_, State.rewriteFunction_some.mpr ⟨?_, out, hout, rfl⟩⟩
    rintro ⟨hc, hover⟩
    rw [hc, Bool.true_and] at hok
    exact of_decide_eq_false hok.2 hover
  · cases hG

end

/-! ## The body of a function -/

section

variable {s : State} {interval type : Nat} {r : Reader} {F : Wasm.Func}

/-- What is accepted is a text, and its rewrite is written. -/
theorem State.functionBody_written {interval : BitVec 32} {w : Writer} {s' : State} (hsealed : s.sealed_ = true)
    (h : s.functionBody interval r type (spelled (s.checks interval)) = .ok (w, s')) :
    ∃ f g : FunctionText, f.Valid U32 ∧ r.rest = f.bytes ∧
      s.rewriteFunction interval (s.paramCounts[type]?.getD 0) f = some g ∧ w.contents = g.bytes := by
  obtain ⟨f, g, hf, hrest, hg⟩ := State.functionBody_ok hsealed h
  obtain ⟨w', hw', hcontents⟩ := State.functionBody_of hsealed hf hrest hg
  obtain ⟨rfl, -⟩ := Prod.mk.inj (Except.ok.inj (h.symm.trans hw'))
  exact ⟨f, g, hf, hrest, hg, hcontents⟩

/-- The rewriter accepts a body exactly if it is a text with a rewrite, and writes this rewrite, which has
the same grammar. -/
theorem functionBody_exact (hsealed : s.sealed_ = true) (output : Bytes) :
    (∃ w s', s.functionBody (.ofNat 32 interval) r type
        (checkSequence s.countdown s.importedFunctions (.ofNat 32 interval)) = .ok (w, s') ∧
      w.contents = output) ↔
    ∃ f g : FunctionText, f.Valid U32 ∧ r.rest = f.bytes ∧
      s.rewriteFunction (.ofNat 32 interval) (s.paramCounts[type]?.getD 0) f = some g ∧
      g.Valid Encodes ∧ output = g.bytes := by
  have hcheck : checkSequence s.countdown s.importedFunctions (.ofNat 32 interval) =
      spelled (s.checks (.ofNat 32 interval)) := (spelled_check _ _ _).symm
  rw [hcheck]
  constructor
  · rintro ⟨w, s', h, rfl⟩
    obtain ⟨f, g, hf, hrest, hg, hcontents⟩ := State.functionBody_written hsealed h
    exact ⟨f, g, hf, hrest, hg, State.rewriteFunction_valid hf hg, hcontents⟩
  · rintro ⟨f, g, hf, hrest, hg, -, rfl⟩
    obtain ⟨w, hw, hcontents⟩ := State.functionBody_of hsealed hf hrest hg
    exact ⟨w, _, hw, hcontents⟩

/-- Where a body spells a function, the rewriter fails exactly if the rewrite of the function does, and
what it writes spells the rewritten function. -/
theorem functionBody_refines (hsealed : s.sealed_ = true) (hs : s.Numbered) (hdefined : s.definedFunctions ≠ 0)
    (hF : FunctionBytes U32 r.rest F) :
    (∀ w s', s.functionBody (.ofNat 32 interval) r type
        (checkSequence s.countdown s.importedFunctions (.ofNat 32 interval)) = .ok (w, s') →
      ∃ G, Rewriter.functionBody (s.context interval) (s.paramCounts[type]?.getD 0) F = some G ∧
        FunctionBytes Encodes w.contents G) ∧
    ((∃ w s', s.functionBody (.ofNat 32 interval) r type
        (checkSequence s.countdown s.importedFunctions (.ofNat 32 interval)) = .ok (w, s')) ↔
      (Rewriter.functionBody (s.context interval) (s.paramCounts[type]?.getD 0) F).isSome) := by
  obtain ⟨f, hrest, hf⟩ := hF
  have hcheck : checkSequence s.countdown s.importedFunctions (.ofNat 32 interval) =
      spelled (s.checks (.ofNat 32 interval)) := (spelled_check _ _ _).symm
  rw [hcheck]
  have hwrites : ∀ w s', s.functionBody (.ofNat 32 interval) r type
      (spelled (s.checks (.ofNat 32 interval))) = .ok (w, s') →
      ∃ G, Rewriter.functionBody (s.context interval) (s.paramCounts[type]?.getD 0) F = some G ∧
        FunctionBytes Encodes w.contents G := by
    intro w s' h
    obtain ⟨f', g, hf', hrest', hg, hcontents⟩ := State.functionBody_written hsealed h
    -- The bytes have one reading: the text that was accepted is the one that spells the function.
    obtain rfl : f' = f := FunctionText.unique unambiguous_u32 hf' hf.valid (hrest'.symm.trans hrest)
    obtain ⟨G, hG, hspells⟩ := hs.rewriteFunction hdefined hf.encodes hg
    exact ⟨G, hG, g, hcontents, hspells⟩
  refine ⟨hwrites, fun h => ?_, fun h => ?_⟩
  · obtain ⟨w, s', h⟩ := h
    obtain ⟨G, hG, -⟩ := hwrites w s' h
    rw [hG]
    rfl
  · obtain ⟨G, hG⟩ := Option.isSome_iff_exists.mp h
    obtain ⟨g, hg⟩ := hs.rewriteFunction_some hdefined hf.encodes hG
    obtain ⟨w, hw, -⟩ := State.functionBody_of hsealed hf.valid hrest hg
    exact ⟨w, _, hw⟩

end

/-- A module with one function behind one import, whose thunk is declared. -/
def oneFunction : State :=
  { State.start with
    paramCounts := [0]
    importedFunctions := 1
    importTypes := [0]
    definedFunctions := 1
    functionTypes := [0]
    thunks := [(0, 3)]
    sealed_ := true }

theorem numbered_oneFunction : oneFunction.Numbered := by
  intro i h
  obtain rfl : i = 0 := Nat.lt_one_iff.mp h
  rfl

/-- A function that loops. -/
def loopFunction : Wasm.Func := ⟨0, [], [.loop .empty, .br 0, .end, .end]⟩

/-- No locals, then `loop`, `br 0` and both `end`s. -/
def loopBytes : Bytes := [0x00, 0x03, 0x40, 0x0c, 0x00, 0x0b, 0x0b]

/-- These bytes spell it. -/
theorem loop_spelled : FunctionBytes U32 loopBytes loopFunction := by
  have hzero : U32 [0] 0 := ⟨.last rfl, by decide, by decide⟩
  refine ⟨⟨[0], 0, [], 0, [⟨[0x03, 0x40], .loop⟩, ⟨[0x0c, 0x00], .other⟩, plain 0x0b, plain 0x0b]⟩, rfl,
    hzero, rfl, rfl, rfl, ?_⟩
  refine .cons ⟨rfl, _, _, rfl, rfl, rfl⟩ (.cons ⟨rfl, _, _, rfl, rfl, hzero⟩ ?_)
  exact .cons ⟨rfl, _, _, rfl, rfl, rfl⟩ (.cons ⟨rfl, _, _, rfl, rfl, rfl⟩ .nil)

theorem functionBody_exact_loop : ∃ (w : Writer) (s' : State) (g : FunctionText),
    oneFunction.functionBody (.ofNat 32 100) ⟨loopBytes, 0, 7, by decide, by decide⟩ 0
      (checkSequence 0 1 (.ofNat 32 100)) = .ok (w, s') ∧ g.Valid Encodes ∧ w.contents = g.bytes := by
  obtain ⟨f, hbytes, hf⟩ := loop_spelled
  have hG : Rewriter.functionBody (oneFunction.context 100) 0 loopFunction = some _ := rfl
  obtain ⟨g, hg⟩ := numbered_oneFunction.rewriteFunction_some (by decide) hf.encodes hG
  obtain ⟨w, s', h, hw⟩ := (@functionBody_exact oneFunction 100 0 ⟨loopBytes, 0, 7, by decide, by decide⟩ rfl
    g.bytes).mpr ⟨f, g, hf.valid, hbytes, hg, State.rewriteFunction_valid hf.valid hg, rfl⟩
  exact ⟨w, s', g, h, State.rewriteFunction_valid hf.valid hg, hw⟩

theorem functionBody_refines_loop : ∃ w s' G,
    oneFunction.functionBody (.ofNat 32 100) ⟨loopBytes, 0, 7, by decide, by decide⟩ 0
      (checkSequence 0 1 (.ofNat 32 100)) = .ok (w, s') ∧
    Rewriter.functionBody (oneFunction.context 100) 0 loopFunction = some G ∧
    FunctionBytes Encodes w.contents G := by
  obtain ⟨hwrites, haccepts⟩ := @functionBody_refines oneFunction 100 0 ⟨loopBytes, 0, 7, by decide, by decide⟩
    loopFunction rfl numbered_oneFunction (by decide) loop_spelled
  obtain ⟨w, s', h⟩ := haccepts.mpr rfl
  obtain ⟨G, hG, hspells⟩ := hwrites w s' h
  exact ⟨w, s', G, h, hG, hspells⟩

/-! ## The code section -/

/-- A function behind its size. -/
def SizedFunction (U : Grammar Nat) (F : Wasm.Func) (bytes : Bytes) : Prop :=
  ∃ size body, bytes = size ++ body ∧ U size body.length ∧ FunctionBytes U body F

/-- Bytes that spell the payload of a code section. -/
def CodeBytes (U : Grammar Nat) (bytes : Bytes) (Fs : List Wasm.Func) : Prop := Vec U (SizedFunction U) Fs bytes

section

variable {s : State} {interval i : Nat} {r : Reader} {F : Wasm.Func} {Fs Gs : List Wasm.Func}
  {entries : List CodeEntry} {fs gs : List FunctionText} {bytes : Bytes}

/-- The rewrite of functions, each with the parameters of its type. -/
def State.Rewrites (s : State) (interval : Nat) : List Wasm.Func → List Wasm.Func → Prop :=
  List.Forall₂ fun F G =>
    Rewriter.functionBody (s.context interval) (s.paramCounts[F.type]?.getD 0) F = some G

/-- The functions of the thunks. -/
def State.thunkFuncs (s : State) (interval : Nat) : List Wasm.Func :=
  s.thunks.map fun thunk => Rewriter.thunkBody (s.context interval) (s.importTypes[thunk.1]?.getD 0)
    (s.paramsOfImport thunk.1) thunk.1

/-- A thunk pushes its parameters, calls the import and checks. -/
theorem spells_thunk (s : State) (interval index type : Nat) :
    (s.thunkText (.ofNat 32 interval) index).Spells Encodes
      (Rewriter.thunkBody (s.context interval) type (s.paramsOfImport index) index) where
  size := .last rfl
  count := rfl
  groups := rfl
  declared := rfl
  tokens := by
    refine List.rel_append ?_ (.cons ⟨rfl, _, _, rfl, rfl, encodes_leb index⟩ (List.rel_append ?_ ?_))
    · rw [List.forall₂_map_left_iff, List.forall₂_map_right_iff, List.forall₂_same]
      exact fun i _ => ⟨rfl, _, _, rfl, rfl, encodes_leb i⟩
    · show List.Forall₂ _ _ (if s.exitFunction = some index then _ else _)
      split
      · exact .cons ⟨rfl, _, _, rfl, rfl, rfl⟩ .nil
      · exact spells_check _ _ _
    · exact .cons ⟨rfl, _, _, rfl, rfl, rfl⟩ .nil

/-- The section, entry by entry. -/
theorem entries_of_code (h : Each (SizedFunction U32) Fs bytes) :
    ∃ entries : List CodeEntry, bytes = entries.flatMap CodeEntry.bytes ∧
      List.Forall₂ (fun e F => e.text.Spells U32 F) entries Fs := by
  induction Fs generalizing bytes with
  | nil => exact ⟨[], h, .nil⟩
  | cons F Fs ih =>
      obtain ⟨first, second, rfl, ⟨size, body, rfl, hsize, f, rfl, hf⟩, hsecond⟩ := h
      obtain ⟨entries, rfl, hspells⟩ := ih hsecond
      exact ⟨⟨size, f, hsize, hf.valid⟩ :: entries, rfl, .cons hf hspells⟩

/-- The bodies, each with the parameters of its type. -/
theorem State.Numbered.rewriteFunctions (hs : s.Numbered) (hdefined : Fs ≠ [] → s.definedFunctions ≠ 0)
    (htypes : ∀ k F, Fs[k]? = some F → s.functionTypes[i + k]?.getD 0 = F.type)
    (hspells : List.Forall₂ (fun e F => e.text.Spells U32 F) entries Fs)
    (hgs : s.rewriteFunctions (.ofNat 32 interval) i (entries.map CodeEntry.text) = some gs) :
    ∃ Gs, s.Rewrites interval Fs Gs ∧ List.Forall₂ (fun g G => g.Spells Encodes G) gs Gs := by
  induction hspells generalizing i gs with
  | nil =>
      obtain rfl := Option.some.inj hgs
      exact ⟨[], .nil, .nil⟩
  | @cons e F entries Fs hf _ ih =>
      obtain ⟨g, rest, hg, hrest, rfl⟩ := State.rewriteFunctions_cons.mp hgs
      have hnonzero := hdefined (List.cons_ne_nil F Fs)
      obtain ⟨G, hG, hspell⟩ := hs.rewriteFunction hnonzero hf.encodes hg
      have hbehind (k : Nat) (F : Wasm.Func) (h : Fs[k]? = some F) :
          s.functionTypes[i + 1 + k]?.getD 0 = F.type := by
        rw [Nat.add_assoc, Nat.add_comm 1]
        exact htypes (k + 1) F h
      obtain ⟨Gs, hGs, hspells⟩ := ih (fun _ => hnonzero) hbehind hrest
      have htype : s.functionTypes[i]?.getD 0 = F.type := htypes 0 F rfl
      rw [State.paramsOf, htype] at hG
      exact ⟨G :: Gs, .cons hG hGs, .cons hspell hspells⟩

/-- All functions are accepted where each one is. -/
theorem State.Numbered.rewriteFunctions_some (hs : s.Numbered) (hdefined : Fs ≠ [] → s.definedFunctions ≠ 0)
    (htypes : ∀ k F, Fs[k]? = some F → s.functionTypes[i + k]?.getD 0 = F.type)
    (hspells : List.Forall₂ (fun e F => e.text.Spells U32 F) entries Fs) (hGs : s.Rewrites interval Fs Gs) :
    ∃ gs, s.rewriteFunctions (.ofNat 32 interval) i (entries.map CodeEntry.text) = some gs := by
  induction hspells generalizing i Gs with
  | nil => exact ⟨[], rfl⟩
  | @cons e F entries Fs hf _ ih =>
      cases hGs with
      | cons hG hGs =>
          have hnonzero := hdefined (List.cons_ne_nil F Fs)
          have hbehind (k : Nat) (F : Wasm.Func) (h : Fs[k]? = some F) :
              s.functionTypes[i + 1 + k]?.getD 0 = F.type := by
            rw [Nat.add_assoc, Nat.add_comm 1]
            exact htypes (k + 1) F h
          obtain ⟨rest, hrest⟩ := ih (fun _ => hnonzero) hbehind hGs
          have htype : s.functionTypes[i]?.getD 0 = F.type := htypes 0 F rfl
          rw [← htype] at hG
          obtain ⟨g, hg⟩ := hs.rewriteFunction_some hnonzero hf.encodes hG
          exact ⟨g :: rest, State.rewriteFunctions_cons.mpr ⟨g, rest, hg, hrest, rfl⟩⟩

/-- What is written for them, each behind its size. -/
theorem each_spelled (h : List.Forall₂ (fun g G => g.Spells Encodes G) gs Gs) :
    Each (SizedFunction Encodes) Gs (gs.flatMap fun g => sizedBytes g.bytes) := by
  induction h with
  | nil => rfl
  | @cons g G gs Gs hg _ ih =>
      exact ⟨sizedBytes g.bytes, _, rfl, ⟨_, _, rfl, encodes_leb _, g, rfl, hg⟩, ih⟩

/-- The bodies of the output spell the rewritten functions and the thunks. -/
theorem State.spells_bodies (hspells : List.Forall₂ (fun g G => g.Spells Encodes G) gs Gs) :
    List.Forall₂ (fun g G => g.Spells Encodes G) (s.bodies (.ofNat 32 interval) gs)
      (Gs ++ s.thunkFuncs interval) := by
  refine List.rel_append hspells ?_
  rw [State.thunkFuncs, List.forall₂_map_left_iff, List.forall₂_map_right_iff, List.forall₂_same]
  exact fun thunk _ => spells_thunk s interval thunk.1 _

/-- The section that is written, the functions behind their number. -/
theorem code_spelled (h : List.Forall₂ (fun g G => g.Spells Encodes G) gs Gs) :
    CodeBytes Encodes (leb gs.length ++ gs.flatMap fun g => sizedBytes g.bytes) Gs :=
  ⟨_, _, rfl, h.length_eq ▸ encodes_leb _, each_spelled h⟩

/-- Where a code section spells functions of the declared types, the rewriter fails exactly if one of the
functions has no rewrite, and what it writes spells the rewritten functions with the thunks behind them. -/
theorem code_refines (hsealed : s.sealed_ = true) (hs : s.Numbered)
    (hcount : Fs.length = s.definedFunctions)
    (htypes : ∀ (k : Nat) (F : Wasm.Func), Fs[k]? = some F → s.functionTypes[k]?.getD 0 = F.type)
    (hFs : CodeBytes U32 r.rest Fs) :
    (∀ s', s.code (.ofNat 32 interval) r = .ok s' → ∃ counts Gs payload,
      s' = { s with codeSeen := true, result := counts }.emit 10 payload ∧ s.Rewrites interval Fs Gs ∧
        CodeBytes Encodes payload.contents (Gs ++ s.thunkFuncs interval)) ∧
    ((∃ s', s.code (.ofNat 32 interval) r = .ok s') ↔ ∃ Gs, s.Rewrites interval Fs Gs) := by
  obtain ⟨size, behind, hrest, hsize, hbehind⟩ := hFs
  obtain ⟨entries, rfl, hspells⟩ := entries_of_code hbehind
  have hlength : entries.length = Fs.length := hspells.length_eq
  have hdefined (h : Fs ≠ []) : s.definedFunctions ≠ 0 :=
    hcount ▸ fun hzero => h (List.length_eq_zero_iff.mp hzero)
  have hfrom (k : Nat) (F : Wasm.Func) (h : Fs[k]? = some F) : s.functionTypes[0 + k]?.getD 0 = F.type := by
    rw [Nat.zero_add]
    exact htypes k F h
  have hwrites : ∀ s', s.code (.ofNat 32 interval) r = .ok s' → ∃ counts Gs payload,
      s' = { s with codeSeen := true, result := counts }.emit 10 payload ∧ s.Rewrites interval Fs Gs ∧
        CodeBytes Encodes payload.contents (Gs ++ s.thunkFuncs interval) := by
    intro s' h
    obtain ⟨size', entries', gs, hsize', hcount', hrest', hgs⟩ := State.code_ok hsealed h
    -- The bytes have one reading: what the rewriter took them for is what they spell.
    obtain ⟨rfl, -⟩ := unambiguous_u32 _ _ _ _ _ _ hsize hsize' (hrest.symm.trans hrest')
    obtain rfl := codeEntries_unique ((hlength.trans hcount).trans hcount'.symm)
      (List.append_cancel_left (hrest.symm.trans hrest'))
    obtain ⟨payload, hcode, hpayload⟩ := State.code_of hsealed hsize' hcount' hrest' hgs
    obtain ⟨Gs, hGs, hspelled⟩ := hs.rewriteFunctions hdefined hfrom hspells hgs
    obtain ⟨counts, hcounts⟩ := State.counted_foldl (entries.map CodeEntry.text) { s with codeSeen := true }
    refine ⟨{ counts with functions := counts.functions + (entries.map CodeEntry.text).length }, Gs, payload,
      ?_, hGs, hpayload ▸ code_spelled (State.spells_bodies hspelled)⟩
    rw [Except.ok.inj (h.symm.trans hcode), State.coded, hcounts]
  refine ⟨hwrites, fun h => ?_, fun h => ?_⟩
  · obtain ⟨s', h⟩ := h
    obtain ⟨-, Gs, -, -, hGs, -⟩ := hwrites s' h
    exact ⟨Gs, hGs⟩
  · obtain ⟨Gs, hGs⟩ := h
    obtain ⟨gs, hgs⟩ := hs.rewriteFunctions_some hdefined hfrom hspells hGs
    obtain ⟨payload, hcode, -⟩ := State.code_of hsealed (hlength ▸ hsize) (hlength.trans hcount) hrest hgs
    exact ⟨_, hcode⟩

end

/-- The section with the one function. -/
theorem loop_coded : CodeBytes U32 (0x01 :: 0x07 :: loopBytes) [loopFunction] := by
  have hsized : SizedFunction U32 loopFunction (0x07 :: loopBytes) :=
    ⟨[0x07], loopBytes, rfl, ⟨.last rfl, by decide, by decide⟩, loop_spelled⟩
  exact ⟨[0x01], _, rfl, ⟨.last rfl, by decide, by decide⟩, 0x07 :: loopBytes, [], (List.append_nil _).symm,
    hsized, rfl⟩

end Binary
