import CapnpcWasm.Binary.Instructions

/-!
# The rewrite on instructions

What `functionBody` is for, as a function on sequences of instructions: every instruction of the
original is kept, possibly renumbered, and others are inserted.
-/

namespace Binary

open TsSdk Leb

/-! ## Instructions that are inserted -/

/-- An opcode without immediates. -/
def plain (op : UInt8) : Token := ⟨[op], .other⟩

/-- An instruction with an index. -/
def indexed (op : UInt8) (index : Nat) : Token := ⟨op :: leb index, .other⟩

/-- A call, as it is written. -/
def callTo (tail : Bool) (callee : Nat) : Token := ⟨callOp tail :: leb callee, .call tail callee⟩

/-- A reference to a function. -/
def refTo (index : Nat) : Token := ⟨0xd2 :: leb index, .refFunc index⟩

/-- A constant. -/
def constOf (value : BitVec 32) : Token := ⟨0x41 :: signedLeb value, .const value⟩

/-- `if` without a result. -/
def ifEmpty : Token := ⟨[0x04, 0x40], .other⟩

/-- The check: poll when the countdown is zero, and trap on a nonzero answer. -/
def checkTokens (counter interrupt : Nat) (interval : BitVec 32) : List Token :=
  [indexed 0x23 counter, plain 0x45, ifEmpty,
    callTo false interrupt, ifEmpty, plain 0x00, plain 0x0b,
    constOf interval, indexed 0x24 counter, plain 0x0b,
    indexed 0x23 counter, constOf 1, plain 0x6b, indexed 0x24 counter]

/-- The ticks of the size in the scratch local. -/
def tickTokens (scratch shift : Nat) : List Token :=
  [indexed 0x20 scratch, constOf (BitVec.ofNat 32 shift), plain 0x76]

/-- The charge around the size operand of a bulk operation. -/
def chargeTokens (counter scratch interrupt : Nat) (interval : BitVec 32) (shift : Nat) : List Token :=
  [indexed 0x22 scratch, constOf (1 <<< shift), plain 0x4f, ifEmpty] ++ tickTokens scratch shift ++
  [indexed 0x23 counter, plain 0x4f, ifEmpty,
    callTo false interrupt, ifEmpty, plain 0x00, plain 0x0b,
    constOf interval, indexed 0x24 counter, plain 0x05, indexed 0x23 counter] ++
  tickTokens scratch shift ++
  [plain 0x6b, indexed 0x24 counter, plain 0x0b, plain 0x0b, indexed 0x20 scratch]

section

variable (counter scratch interrupt shift : Nat) (interval : BitVec 32)

theorem signedLeb_one : signedLeb 1#32 = [1] := by
  rw [signedLeb, if_pos (by decide)]
  decide

/-- The bytes of the check are its instructions. -/
theorem spelled_check : spelled (checkTokens counter interrupt interval) =
    checkSequence counter interrupt interval := by
  simp [spelled, checkTokens, checkSequence, indexed, plain, ifEmpty, callTo, callOp, constOf, signedLeb_one]

/-- The bytes of the charge are its tokens. -/
theorem spelled_charge : spelled (chargeTokens counter scratch interrupt interval shift) =
    chargeSequence counter scratch interrupt interval shift := by
  simp [spelled, chargeTokens, tickTokens, chargeSequence, indexed, plain, ifEmpty, callTo, callOp, constOf]

/-- What `u32` writes is an encoding of its value. -/
theorem encodes_leb (n : Nat) : Encodes (leb n) n := leb_eq n ▸ encodes_unsigned n

/-- What `s32` writes is an encoding of its value. -/
theorem s32_signedLeb_of (value : BitVec 32) : S32 (signedLeb value) value := by
  refine ⟨value.toInt, encodes_signedLeb value, ?_, (BitVec.ofInt_toInt).symm⟩
  have hmin := value.le_toInt
  have hmax := value.toInt_lt
  exact length_signedLeb (k := 4) value ⟨by omega, by omega⟩

/-- The opcodes that are inserted without immediates. -/
def insertedOps : List UInt8 := [0x00, 0x05, 0x0b, 0x0f, 0x45, 0x4f, 0x6b, 0x76]

/-- Lists of opcodes without a common one. -/
theorem notMem_of_all {ops others : List UInt8} {op : UInt8}
    (hapart : (ops.all fun op => !others.elem op) = true) (h : op ∈ ops) : op ∉ others := by
  have hop := List.all_eq_true.mp hapart op h
  rw [Bool.not_eq_true'] at hop
  intro hmem
  rw [List.elem_eq_true_of_mem hmem] at hop
  cases hop

/-- An inserted opcode without immediates is an instruction. -/
theorem valid_plain {op : UInt8} (h : op ∈ insertedOps) : (plain op).Valid Encodes := by
  refine ⟨op, [], rfl, notMem_of_all rfl h, ?_⟩
  simp only [insertedOps, List.mem_cons, List.not_mem_nil, or_false] at h
  rcases h with rfl | rfl | rfl | rfl | rfl | rfl | rfl | rfl
  all_goals exact (rfl : ([] : Bytes) = [])

/-- So is an opcode with an index. -/
theorem valid_indexed {op : UInt8} (h : op ∈ indexOps) (index : Nat) :
    (indexed op index).Valid Encodes := by
  refine ⟨op, leb index, rfl, notMem_of_all rfl h, ?_⟩
  rw [Immediates, if_neg (notMem_of_all rfl h), if_neg (notMem_of_all rfl h), if_pos h]
  exact ⟨leb index, [], index, (List.append_nil _).symm, encodes_leb index, rfl⟩

theorem valid_callTo (tail : Bool) (callee : Nat) : (callTo tail callee).Valid Encodes :=
  ⟨_, _, rfl, rfl, encodes_leb callee⟩

theorem valid_refTo (index : Nat) : (refTo index).Valid Encodes := ⟨_, _, rfl, rfl, encodes_leb index⟩

/-- So is a constant. -/
theorem valid_constOf (value : BitVec 32) : (constOf value).Valid Encodes :=
  ⟨_, _, rfl, rfl, s32_signedLeb_of value⟩

/-- So is an `if` without parameters and results. -/
theorem valid_ifEmpty : ifEmpty.Valid Encodes :=
  ⟨0x04, [0x40], rfl, by decide, [0x40], [], 0x40, rfl, rfl, rfl⟩

end

/-! ## The rewrite -/

/-- The value that an instruction leaves for the one behind it. -/
def Kind.operand : Kind → Option (BitVec 32)
  | .const value => some value
  | _ => none

/-- The unit in which an instruction is charged. -/
def Kind.unit (operand : Option (BitVec 32)) : Kind → Option Nat
  | .bulk code => (bulkUnit code).filter fun unit => !smallSize operand unit
  | _ => none

/-- The instruction may call a function of the instance. -/
def Kind.callsGuest (imported : Nat) : Kind → Bool
  | .call _ callee => imported ≤ callee
  | .indirect => true
  | _ => false

/-- The units in which instructions are charged. -/
def units : Option (BitVec 32) → List Token → List Nat
  | _, [] => []
  | operand, t :: tokens => (t.kind.unit operand).toList ++ units t.kind.operand tokens

namespace State

variable (s : State) (interval : BitVec 32) (scratch : Nat)

/-- Where a function index used as a value refers to, once the thunks are fixed. -/
def referTo (index : Nat) : Option Nat :=
  if s.importedFunctions ≤ index then some (index + 1)
  else if s.definedFunctions = 0 then some index
  else s.thunks.lookup index

/-- The check of a state. -/
def checks : List Token := checkTokens s.countdown s.importedFunctions interval

/-- What stands for an instruction in the output. -/
def rewriteToken (operand : Option (BitVec 32)) (t : Token) : Option (List Token) :=
  match t.kind with
  | .loop => some (t :: s.checks interval)
  | .call tail callee =>
      if s.importedFunctions ≤ callee then some [callTo tail (s.shift callee)]
      else if s.exitFunction = some callee then some [callTo false callee, plain 0x00]
      else some (callTo false callee :: (s.checks interval ++ if tail then [plain 0x0f] else []))
  | .refFunc index => (s.referTo index).map fun f => [refTo f]
  | kind => some ((kind.unit operand).elim [t] fun unit =>
      chargeTokens s.countdown scratch s.importedFunctions interval unit ++ [t])

/-- The rewrite of a sequence, each token with the constant before it. -/
def rewriteTokens : Option (BitVec 32) → List Token → Option (List Token)
  | _, [] => some []
  | operand, t :: tokens => do
      let first ← s.rewriteToken interval scratch operand t
      let rest ← rewriteTokens t.kind.operand tokens
      return first ++ rest

end State

end Binary
