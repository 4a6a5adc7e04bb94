import CapnpcWasm.Binary.Immediates

/-!
# Instructions

The grammar of the instructions that `functionBody` supports.  An instruction is its opcode and its
immediates; what the rewriter looks at is its kind.  A sequence of instructions is spelled in one way
only.
-/

namespace Binary

open TsSdk Leb

/-! ## Kinds -/

/-- What the rewriter looks at in an instruction. -/
inductive Kind where
  | loop
  /-- A direct call, plain or in tail position. -/
  | call (tail : Bool) (callee : Nat)
  | refFunc (index : Nat)
  /-- A call through a table or a reference. -/
  | indirect
  /-- `i32.const`. -/
  | const (value : BitVec 32)
  /-- An instruction under `0xfc`. -/
  | bulk (code : Nat)
  | other
deriving DecidableEq, Repr

/-- The opcodes that the rewriter treats by themselves. -/
def specialOps : List UInt8 := [0x03, 0x10, 0x12, 0xd2, 0x11, 0x13, 0x14, 0x15, 0x41, 0xfc]

/-- A call or a tail call. -/
def callOp (tail : Bool) : UInt8 := if tail then 0x12 else 0x10

/-- What follows an opcode in an instruction of a kind. -/
def Follows (U : Grammar Nat) (op : UInt8) (rest : Bytes) : Kind → Prop
  | .loop => op = 0x03 ∧ BlockType rest
  | .call tail callee => op = callOp tail ∧ U rest callee
  | .refFunc index => op = 0xd2 ∧ U rest index
  | .indirect => (op = 0x11 ∨ op = 0x13) ∧ Times (Index U) 2 rest ∨ (op = 0x14 ∨ op = 0x15) ∧ Index U rest
  | .const value => op = 0x41 ∧ S32 rest value
  | .bulk code => op = 0xfc ∧ ∃ first second, rest = first ++ second ∧ U first code ∧
      BulkImmediates U code second
  | .other => op ∉ specialOps ∧ Immediates U op rest

/-- An instruction. -/
def Instruction (U : Grammar Nat) : Grammar Kind := fun bytes kind =>
  ∃ op rest, bytes = op :: rest ∧ Follows U op rest kind

/-- An instruction as it is spelled. -/
structure Token where
  bytes : Bytes
  kind : Kind
deriving DecidableEq, Repr

/-- The bytes of a sequence. -/
def spelled (tokens : List Token) : Bytes := tokens.flatMap Token.bytes

/-- The token is an instruction of the grammar. -/
def Token.Valid (U : Grammar Nat) (t : Token) : Prop := Instruction U t.bytes t.kind

/-- The bytes are these instructions. -/
def Spells (U : Grammar Nat) (bytes : Bytes) (tokens : List Token) : Prop :=
  bytes = spelled tokens ∧ ∀ t ∈ tokens, t.Valid U

section

variable {U V : Grammar Nat} {bytes : Bytes} {kind : Kind} {tokens tokens' : List Token}

/-- An instruction has its opcode. -/
theorem Instruction.ne_nil (h : Instruction U bytes kind) : bytes ≠ [] := by
  obtain ⟨op, rest, rfl, -⟩ := h
  exact List.cons_ne_nil _ _

/-- More spellings of numbers, more instructions. -/
theorem Instruction.mono (hUV : ∀ b n, U b n → V b n) (h : Instruction U bytes kind) :
    Instruction V bytes kind := by
  obtain ⟨op, rest, rfl, h⟩ := h
  refine ⟨op, rest, rfl, ?_⟩
  cases kind with
  | loop => exact h
  | call tail callee => exact ⟨h.1, hUV _ _ h.2⟩
  | refFunc index => exact ⟨h.1, hUV _ _ h.2⟩
  | indirect => exact h.imp (And.imp_right (Times.mono (Index.mono hUV) 2 _)) (And.imp_right (Index.mono hUV _))
  | const value => exact h
  | bulk code =>
      obtain ⟨hop, first, second, hrest, hcode, himm⟩ := h
      exact ⟨hop, first, second, hrest, hUV _ _ hcode, BulkImmediates.mono hUV code _ himm⟩
  | other => exact ⟨h.1, Immediates.mono hUV op _ h.2⟩

/-- The kinds apart from what they read. -/
def Kind.shape : Kind → Nat
  | .loop => 0
  | .call tail _ => if tail then 2 else 1
  | .refFunc _ => 3
  | .indirect => 4
  | .const _ => 5
  | .bulk _ => 6
  | .other => 7

/-- What may follow an opcode. -/
def shapeOf (op : UInt8) : Nat :=
  if op = 0x03 then 0
  else if op = 0x10 then 1
  else if op = 0x12 then 2
  else if op = 0xd2 then 3
  else if op = 0x11 ∨ op = 0x13 ∨ op = 0x14 ∨ op = 0x15 then 4
  else if op = 0x41 then 5
  else if op = 0xfc then 6
  else 7

/-- An opcode says which kind an instruction is of. -/
theorem Follows.shape {op : UInt8} {rest : Bytes} (h : Follows U op rest kind) :
    kind.shape = shapeOf op := by
  cases kind with
  | loop => rw [h.1]; rfl
  | call tail callee => rw [h.1]; cases tail <;> rfl
  | refFunc index => rw [h.1]; rfl
  | indirect =>
      rcases h with ⟨rfl | rfl, -⟩ | ⟨rfl | rfl, -⟩
      all_goals rfl
  | const value => rw [h.1]; rfl
  | bulk code => rw [h.1]; rfl
  | other =>
      have hop := h.1
      simp only [specialOps, List.mem_cons, List.not_mem_nil, or_false, not_or] at hop
      obtain ⟨h03, h10, h12, hd2, h11, h13, h14, h15, h41, hfc⟩ := hop
      simp [shapeOf, Kind.shape, *]

/-- No immediates are the beginning of others. -/
theorem prefixFree_indirect (hU : Unambiguous U) {op : UInt8} {x y s t : Bytes}
    (hx : Follows U op x .indirect) (hy : Follows U op y .indirect) (heq : x ++ s = y ++ t) : x = y := by
  rcases hx with ⟨hop, hx⟩ | ⟨hop, hx⟩
  · rcases hy with ⟨-, hy⟩ | ⟨hop', -⟩
    · exact (prefixFree_index hU).times 2 _ _ _ _ hx hy heq
    · rcases hop with rfl | rfl
      · exact absurd hop' (by decide)
      · exact absurd hop' (by decide)
  · rcases hy with ⟨hop', -⟩ | ⟨-, hy⟩
    · rcases hop with rfl | rfl
      · exact absurd hop' (by decide)
      · exact absurd hop' (by decide)
    · exact prefixFree_index hU _ _ _ _ hx hy heq

/-- No instruction is the beginning of another one, and it is of one kind. -/
theorem unambiguous_instruction (hU : Unambiguous U) : Unambiguous (Instruction U) := by
  rintro _ _ k k' s t ⟨op, x, rfl, hx⟩ ⟨op', y, rfl, hy⟩ heq
  obtain ⟨rfl, hrest⟩ := List.cons.inj heq
  have hshape : k.shape = k'.shape := hx.shape.trans hy.shape.symm
  suffices h : x = y ∧ k = k' from ⟨congrArg (op :: ·) h.1, h.2⟩
  cases k with
  | loop =>
      cases k' with
      | loop => exact ⟨prefixFree_blockType _ _ _ _ hx.2 hy.2 hrest, rfl⟩
      | call tail _ => cases tail <;> cases hshape
      | refFunc | indirect | const | bulk | other => cases hshape
  | call tail callee =>
      cases k' with
      | call tail' callee' =>
          obtain ⟨rfl, rfl⟩ := hU _ _ _ _ _ _ hx.2 hy.2 hrest
          refine ⟨rfl, ?_⟩
          cases tail <;> cases tail' <;> first | rfl | cases hshape
      | loop | refFunc | indirect | const | bulk | other => cases tail <;> cases hshape
  | refFunc index =>
      cases k' with
      | refFunc index' =>
          obtain ⟨rfl, rfl⟩ := hU _ _ _ _ _ _ hx.2 hy.2 hrest
          exact ⟨rfl, rfl⟩
      | call tail _ => cases tail <;> cases hshape
      | loop | indirect | const | bulk | other => cases hshape
  | indirect =>
      cases k' with
      | indirect => exact ⟨prefixFree_indirect hU hx hy hrest, rfl⟩
      | call tail _ => cases tail <;> cases hshape
      | loop | refFunc | const | bulk | other => cases hshape
  | const value =>
      cases k' with
      | const value' =>
          obtain ⟨z, hz, -, rfl⟩ := hx.2
          obtain ⟨z', hz', -, rfl⟩ := hy.2
          obtain ⟨rfl, rfl⟩ := hz.append_inj hz' hrest
          exact ⟨rfl, rfl⟩
      | call tail _ => cases tail <;> cases hshape
      | loop | refFunc | indirect | bulk | other => cases hshape
  | bulk code =>
      cases k' with
      | bulk code' =>
          obtain ⟨-, first, second, rfl, hfirst, hsecond⟩ := hx
          obtain ⟨-, first', second', rfl, hfirst', hsecond'⟩ := hy
          have hsplit : first ++ (second ++ s) = first' ++ (second' ++ t) := by
            rw [← List.append_assoc, ← List.append_assoc]
            exact hrest
          obtain ⟨rfl, rfl⟩ := hU _ _ _ _ _ _ hfirst hfirst' hsplit
          have htail := List.append_cancel_left hsplit
          rw [prefixFree_bulkImmediates hU code _ _ _ _ hsecond hsecond' htail]
          exact ⟨rfl, rfl⟩
      | call tail _ => cases tail <;> cases hshape
      | loop | refFunc | indirect | const | other => cases hshape
  | other =>
      cases k' with
      | other => exact ⟨prefixFree_immediates hU op _ _ _ _ hx.2 hy.2 hrest, rfl⟩
      | call tail _ => cases tail <;> cases hshape
      | loop | refFunc | indirect | const | bulk => cases hshape

@[simp] theorem spelled_nil : spelled [] = [] := rfl

theorem spelled_cons (t : Token) (tokens : List Token) : spelled (t :: tokens) = t.bytes ++ spelled tokens :=
  List.flatMap_cons

/-- Sequences one after the other. -/
theorem spelled_append (tokens tokens' : List Token) :
    spelled (tokens ++ tokens') = spelled tokens ++ spelled tokens' :=
  List.flatMap_append

/-- Bytes are the instructions of one sequence at most. -/
theorem Spells.unique (hU : Unambiguous U) (h : Spells U bytes tokens) (h' : Spells U bytes tokens') :
    tokens = tokens' := by
  obtain ⟨rfl, hvalid⟩ := h
  obtain ⟨heq, hvalid'⟩ := h'
  induction tokens generalizing tokens' with
  | nil =>
      cases tokens' with
      | nil => rfl
      | cons t tokens' =>
          rw [spelled_cons] at heq
          have hnil := (List.append_eq_nil_iff.mp heq.symm).1
          exact absurd hnil (hvalid' t (List.mem_cons_self)).ne_nil
  | cons t tokens ih =>
      cases tokens' with
      | nil =>
          rw [spelled_cons] at heq
          have hnil := (List.append_eq_nil_iff.mp heq).1
          exact absurd hnil (hvalid t (List.mem_cons_self)).ne_nil
      | cons t' tokens' =>
          rw [List.forall_mem_cons] at hvalid hvalid'
          rw [spelled_cons, spelled_cons] at heq
          obtain ⟨hbytes, hkind⟩ := unambiguous_instruction hU _ _ _ _ _ _ hvalid.1 hvalid'.1 heq
          obtain rfl : t = t' := by
            cases t
            cases t'
            cases hbytes
            cases hkind
            rfl
          rw [ih hvalid.2 (List.append_cancel_left heq) hvalid'.2]

end

end Binary
