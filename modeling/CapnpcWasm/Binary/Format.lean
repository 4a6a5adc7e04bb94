import CapnpcWasm.Binary.Code
import CapnpcWasm.Wasm.Syntax

/-!
# The binary format

How instructions and types are spelled.  Where the format leaves a choice, as in the length
of a number or in the shorthand of a reference type, every choice spells the same instruction.

The spellings take the way a number is written as a parameter `U`, since the original is read
with every `u32` of the format and the output is written with the shortest one.

* `InstrText U i op rest` says that the opcode `op` and the immediates `rest` spell `i`.
* `InstrText.follows` says that what spells an instruction is an instruction of the rewriter's
  grammar, of the kind its rewrite goes by (`kindOf`).
* `InstrText.mono` says that a spelling stays one when more numbers are allowed.
-/

namespace Binary

open TsSdk Leb

/-! ## Types -/

/-- A named heap type is one byte, and an index is a signed number of 33 bits. -/
def HeapTypeText : Wasm.HeapType → Bytes → Prop
  | .named code, bytes => 0x40 ≤ code ∧ code < 0x80 ∧ bytes = [UInt8.ofNat code]
  | .type index, bytes => EncodesSigned bytes index ∧ bytes.length ≤ 5

/-- The types of values, references with their shorthands. -/
def ValTypeText : Wasm.ValType → Bytes → Prop
  | .i32, bytes => bytes = [0x7f]
  | .i64, bytes => bytes = [0x7e]
  | .f32, bytes => bytes = [0x7d]
  | .f64, bytes => bytes = [0x7c]
  | .v128, bytes => bytes = [0x7b]
  | .ref nullable heap, bytes =>
      (∃ rest, bytes = (if nullable then 0x63 else 0x64) :: rest ∧ HeapTypeText heap rest) ∨
      -- The shorthand of a nullable reference to an abstract heap type.
      (nullable = true ∧ ∃ code, heap = .named code ∧ 0x69 ≤ code ∧ code ≤ 0x74 ∧ bytes = [UInt8.ofNat code])

/-- A block type is empty, one value type or the index of a type. -/
def BlockTypeText : Wasm.BlockType → Bytes → Prop
  | .empty, bytes => bytes = [0x40]
  | .value type, bytes => ValTypeText type bytes
  | .type index, bytes => EncodesSigned bytes index ∧ bytes.length ≤ 5

/-- One after the other. -/
def Each {α : Type} (L : α → Bytes → Prop) : List α → Bytes → Prop
  | [] => Nothing
  | a :: l => Then (L a) (Each L l)

/-- A count, and so many of them. -/
def Vec (U : Grammar Nat) {α : Type} (L : α → Bytes → Prop) (l : List α) : Bytes → Prop :=
  Then (fun bytes => U bytes l.length) (Each L l)

section

variable {U V : Grammar Nat} {bytes : Bytes} {z : Int}

/-- A signed number is also the groups of some unsigned one. -/
theorem encodes_of_signed (h : EncodesSigned bytes z) : ∃ n, Encodes bytes n := by
  induction h with
  | last hlast => exact ⟨_, .last hlast⟩
  | next hnext _ ih =>
      obtain ⟨n, hn⟩ := ih
      exact ⟨_, .next hnext hn⟩

/-- So the rewriter, which only counts groups, reads it. -/
theorem groups_of_signed (h : EncodesSigned bytes z) {limit : Nat} (hlength : bytes.length ≤ limit) :
    Groups limit bytes := ⟨encodes_of_signed h, hlength⟩

/-- Codes of one byte without a continuation. -/
theorem ofNat_code {code : Nat} (h : code < 128) : continues (UInt8.ofNat code) = false := (group_low h).2

/-- A spelled heap type is one that the rewriter skips. -/
theorem HeapTypeText.heapType {heap : Wasm.HeapType} (h : HeapTypeText heap bytes) : HeapType bytes := by
  cases heap with
  | named code =>
      obtain ⟨-, hcode, rfl⟩ := h
      exact ⟨⟨_, .last (ofNat_code hcode)⟩, by simp⟩
  | type index => exact groups_of_signed h.1 h.2

/-- The shorthands are among the codes the rewriter lists. -/
theorem mem_valueTypes {code : Nat} (hleast : 0x69 ≤ code) (hmost : code ≤ 0x74) :
    UInt8.ofNat code ∈ valueTypes := by
  have hall : ∀ k : Fin 12, UInt8.ofNat (0x69 + k.val) ∈ valueTypes := by decide
  have hcode := hall ⟨code - 0x69, by omega⟩
  rwa [show 0x69 + (code - 0x69) = code by omega] at hcode

/-- Codes of one byte are no references. -/
theorem valueType_code {b : UInt8} (h : b ∈ valueTypes) : ¬(b = 0x63 ∨ b = 0x64) := by
  rintro (rfl | rfl)
  · exact absurd h (by decide)
  · exact absurd h (by decide)

/-- A value type is one byte, or a reference with its heap type. -/
theorem ValTypeText.parts {type : Wasm.ValType} (h : ValTypeText type bytes) :
    (∃ b ∈ valueTypes, bytes = [b]) ∨
      ∃ b rest, (b = 0x63 ∨ b = 0x64) ∧ bytes = b :: rest ∧ HeapType rest := by
  cases type with
  | i32 => exact .inl ⟨0x7f, by decide, h⟩
  | i64 => exact .inl ⟨0x7e, by decide, h⟩
  | f32 => exact .inl ⟨0x7d, by decide, h⟩
  | f64 => exact .inl ⟨0x7c, by decide, h⟩
  | v128 => exact .inl ⟨0x7b, by decide, h⟩
  | ref nullable heap =>
      rcases h with ⟨rest, rfl, hheap⟩ | ⟨-, code, -, hleast, hmost, rfl⟩
      · refine .inr ⟨_, rest, ?_, rfl, hheap.heapType⟩
        cases nullable
        · exact .inr rfl
        · exact .inl rfl
      · exact .inl ⟨_, mem_valueTypes hleast hmost, rfl⟩

/-- A spelled value type is one that the rewriter skips. -/
theorem ValTypeText.valueType {type : Wasm.ValType} (h : ValTypeText type bytes) : ValueType bytes := by
  rcases h.parts with ⟨b, hb, rfl⟩ | ⟨b, rest, hb, rfl, hheap⟩
  · refine ⟨[b], [], b, rfl, rfl, ?_⟩
    beta_reduce
    rw [if_neg (valueType_code hb), if_pos hb]
    rfl
  · refine ⟨[b], rest, b, rfl, rfl, ?_⟩
    beta_reduce
    rwa [if_pos hb]

/-- A spelled block type is one that it skips. -/
theorem BlockTypeText.blockType {type : Wasm.BlockType} (h : BlockTypeText type bytes) : BlockType bytes := by
  cases type with
  | empty =>
      obtain rfl : bytes = [0x40] := h
      exact ⟨[0x40], [], 0x40, rfl, rfl, rfl⟩
  | value type =>
      rcases ValTypeText.parts h with ⟨b, hb, rfl⟩ | ⟨b, rest, hb, rfl, hheap⟩
      · refine ⟨[b], [], b, rfl, rfl, ?_⟩
        have hsingle : ¬(b &&& 128 ≠ 0) := by
          have hall : (valueTypes.all fun b => b &&& 128 == 0) = true := by decide
          exact not_not.mpr (eq_of_beq (List.all_eq_true.mp hall b hb))
        beta_reduce
        rw [if_neg (valueType_code hb), if_neg hsingle]
        rfl
      · refine ⟨[b], rest, b, rfl, rfl, ?_⟩
        beta_reduce
        rwa [if_pos hb]
  | type index =>
      obtain ⟨hindex, hlength⟩ := h
      generalize hz : (index : Int) = z at hindex
      cases hindex with
      | @last b hlast =>
          -- A single byte with a positive number has neither of the two high bits.
          have hzero := (Reader.continues_eq b).mpr hlast
          refine ⟨[b], [], b, rfl, rfl, ?_⟩
          have hcode : ¬(b = 0x63 ∨ b = 0x64) := by
            rintro (rfl | rfl)
            · have hvalue : ((group 0x63 : Nat) : Int) - (if negative 0x63 then 128 else 0) = -29 := by decide
              omega
            · have hvalue : ((group 0x64 : Nat) : Int) - (if negative 0x64 then 128 else 0) = -28 := by decide
              omega
          beta_reduce
          rw [if_neg hcode, if_neg (not_not.mpr hzero)]
          rfl
      | @next b tail z hnext htail =>
          have hmore : b &&& 128 ≠ 0 := by
            intro hzero
            rw [(Reader.continues_eq b).mp hzero] at hnext
            cases hnext
          have hcode : ¬(b = 0x63 ∨ b = 0x64) := by
            rintro (rfl | rfl)
            · exact hmore (by decide)
            · exact hmore (by decide)
          refine ⟨[b], tail, b, rfl, rfl, ?_⟩
          beta_reduce
          rw [if_neg hcode, if_pos hmore]
          exact groups_of_signed htail (Nat.le_of_succ_le_succ hlength)

end

/-! ## Immediates -/

section

variable (U : Grammar Nat)

/-- A number, as it is spelled. -/
def Number (n : Nat) (bytes : Bytes) : Prop := U bytes n

/-- Two numbers. -/
def Numbers (n m : Nat) : Bytes → Prop := Then (Number U n) (Number U m)

/-- Alignment, memory and offset.  A memory other than the first is announced by a bit of the
alignment. -/
def MemArgText (arg : Wasm.MemArg) (bytes : Bytes) : Prop :=
  arg.align < 64 ∧ ∃ first index last, bytes = first ++ (index ++ last) ∧
    (Encodes last arg.offset ∧ last.length ≤ 10) ∧
    (U first arg.align ∧ index = [] ∧ arg.memory = 0 ∨ U first (arg.align + 64) ∧ U index arg.memory)

/-- A clause of `try_table`, its code saying whether the reference is wanted. -/
def CatchText : Wasm.Catch → Bytes → Prop
  | .tag tag ref label, bytes =>
      ∃ rest, bytes = (if ref then 0x01 else 0x00) :: rest ∧ Numbers U tag label rest
  | .all ref label, bytes => ∃ rest, bytes = (if ref then 0x03 else 0x02) :: rest ∧ U rest label

/-- A vector instruction: an address, lanes, both or neither, by its code. -/
def SimdText (code : Nat) (arg : Option Wasm.MemArg) (lanes bytes : Bytes) : Prop :=
  if code ≤ 0x0b ∨ code = 0x5c ∨ code = 0x5d then lanes = [] ∧ ∃ a, arg = some a ∧ MemArgText U a bytes
  else if code = 0x0c ∨ code = 0x0d then arg = none ∧ lanes.length = 16 ∧ bytes = lanes
  else if 0x15 ≤ code ∧ code ≤ 0x22 then arg = none ∧ lanes.length = 1 ∧ bytes = lanes
  else if 0x54 ≤ code ∧ code ≤ 0x5b then
    lanes.length = 1 ∧ ∃ a rest, arg = some a ∧ bytes = rest ++ lanes ∧ MemArgText U a rest
  else code ≤ 0x113 ∧ code ∉ unassignedSimd ∧ arg = none ∧ lanes = [] ∧ bytes = []

/-- An atomic instruction: the fence has a byte, the others an address. -/
def AtomicText (code : Nat) (arg : Option Wasm.MemArg) (bytes : Bytes) : Prop :=
  if code = 3 then arg = none ∧ bytes = [0x00] -- atomic.fence
  else (code ≤ 2 ∨ 0x10 ≤ code ∧ code ≤ 0x4e) ∧ ∃ a, arg = some a ∧ MemArgText U a bytes

/-- What an opcode of numbers and linear memory and its immediates spell. -/
def PlainText : Wasm.PlainOp → UInt8 → Bytes → Prop
  | .numeric code, op, rest => op = UInt8.ofNat code ∧ 0x45 ≤ code ∧ code ≤ 0xc4 ∧ rest = []
  | .access code arg, op, rest => op = UInt8.ofNat code ∧ 0x28 ≤ code ∧ code ≤ 0x3e ∧ MemArgText U arg rest
  | .i64_const value, op, rest => op = 0x42 ∧ EncodesSigned rest value ∧ rest.length ≤ 10
  | .f32_const data, op, rest => op = 0x43 ∧ rest = data ∧ data.length = 4
  | .f64_const data, op, rest => op = 0x44 ∧ rest = data ∧ data.length = 8
  | .saturating code, op, rest => op = 0xfc ∧ code ≤ 7 ∧ U rest code
  | .simd code arg lanes, op, rest => op = 0xfd ∧ Then (Number U code) (SimdText U code arg lanes) rest
  | .atomic code arg, op, rest => op = 0xfe ∧ Then (Number U code) (AtomicText U code arg) rest

/-- An instruction under `0xfc`. -/
def PrefixedText (code : Nat) (L : Bytes → Prop) (op : UInt8) (rest : Bytes) : Prop :=
  op = 0xfc ∧ Then (Number U code) L rest

/-- What an opcode and what follows it spell. -/
def InstrText : Wasm.Instr → UInt8 → Bytes → Prop
  | .unreachable, op, rest => op = 0x00 ∧ rest = []
  | .nop, op, rest => op = 0x01 ∧ rest = []
  | .block type, op, rest => op = 0x02 ∧ BlockTypeText type rest
  | .loop type, op, rest => op = 0x03 ∧ BlockTypeText type rest
  | .if type, op, rest => op = 0x04 ∧ BlockTypeText type rest
  | .else, op, rest => op = 0x05 ∧ rest = []
  | .try type, op, rest => op = 0x06 ∧ BlockTypeText type rest
  | .catch tag, op, rest => op = 0x07 ∧ U rest tag
  | .catch_all, op, rest => op = 0x19 ∧ rest = []
  | .delegate label, op, rest => op = 0x18 ∧ U rest label
  | .throw tag, op, rest => op = 0x08 ∧ U rest tag
  | .rethrow label, op, rest => op = 0x09 ∧ U rest label
  | .throw_ref, op, rest => op = 0x0a ∧ rest = []
  | .try_table type clauses, op, rest =>
      op = 0x1f ∧ Then (BlockTypeText type) (Vec U (CatchText U) clauses) rest
  | .end, op, rest => op = 0x0b ∧ rest = []
  | .br label, op, rest => op = 0x0c ∧ U rest label
  | .br_if label, op, rest => op = 0x0d ∧ U rest label
  | .br_table labels default, op, rest =>
      op = 0x0e ∧ Then (Vec U (Number U) labels) (Number U default) rest
  | .br_on_null label, op, rest => op = 0xd5 ∧ U rest label
  | .br_on_non_null label, op, rest => op = 0xd6 ∧ U rest label
  | .return, op, rest => op = 0x0f ∧ rest = []
  | .call f, op, rest => op = 0x10 ∧ U rest f
  | .call_indirect type table, op, rest => op = 0x11 ∧ Numbers U type table rest
  | .call_ref type, op, rest => op = 0x14 ∧ U rest type
  | .return_call f, op, rest => op = 0x12 ∧ U rest f
  | .return_call_indirect type table, op, rest => op = 0x13 ∧ Numbers U type table rest
  | .return_call_ref type, op, rest => op = 0x15 ∧ U rest type
  | .drop, op, rest => op = 0x1a ∧ rest = []
  | .select, op, rest => op = 0x1b ∧ rest = []
  | .select_typed types, op, rest => op = 0x1c ∧ Vec U ValTypeText types rest
  | .local_get index, op, rest => op = 0x20 ∧ U rest index
  | .local_set index, op, rest => op = 0x21 ∧ U rest index
  | .local_tee index, op, rest => op = 0x22 ∧ U rest index
  | .global_get index, op, rest => op = 0x23 ∧ U rest index
  | .global_set index, op, rest => op = 0x24 ∧ U rest index
  | .table_get table, op, rest => op = 0x25 ∧ U rest table
  | .table_set table, op, rest => op = 0x26 ∧ U rest table
  | .table_init elem table, op, rest => PrefixedText U 12 (Numbers U elem table) op rest
  | .elem_drop elem, op, rest => PrefixedText U 13 (Number U elem) op rest
  | .table_copy target source, op, rest => PrefixedText U 14 (Numbers U target source) op rest
  | .table_grow table, op, rest => PrefixedText U 15 (Number U table) op rest
  | .table_size table, op, rest => PrefixedText U 16 (Number U table) op rest
  | .table_fill table, op, rest => PrefixedText U 17 (Number U table) op rest
  | .memory_size memory, op, rest => op = 0x3f ∧ U rest memory
  | .memory_grow memory, op, rest => op = 0x40 ∧ U rest memory
  | .memory_init data memory, op, rest => PrefixedText U 8 (Numbers U data memory) op rest
  | .data_drop data, op, rest => PrefixedText U 9 (Number U data) op rest
  | .memory_copy target source, op, rest => PrefixedText U 10 (Numbers U target source) op rest
  | .memory_fill memory, op, rest => PrefixedText U 11 (Number U memory) op rest
  | .ref_null heap, op, rest => op = 0xd0 ∧ HeapTypeText heap rest
  | .ref_is_null, op, rest => op = 0xd1 ∧ rest = []
  | .ref_func f, op, rest => op = 0xd2 ∧ U rest f
  | .ref_eq, op, rest => op = 0xd3 ∧ rest = []
  | .ref_as_non_null, op, rest => op = 0xd4 ∧ rest = []
  | .i32_const value, op, rest => op = 0x41 ∧ S32 rest value
  | .plain code, op, rest => PlainText U code op rest

end

/-- What the rewriter looks at in an instruction. -/
def kindOf : Wasm.Instr → Kind
  | .loop _ => .loop
  | .call f => .call false f
  | .return_call f => .call true f
  | .ref_func f => .refFunc f
  | .call_indirect _ _ | .return_call_indirect _ _ | .call_ref _ | .return_call_ref _ => .indirect
  | .i32_const value => .const value
  | .memory_init _ _ => .bulk 8
  | .data_drop _ => .bulk 9
  | .memory_copy _ _ => .bulk 10
  | .memory_fill _ => .bulk 11
  | .table_init _ _ => .bulk 12
  | .elem_drop _ => .bulk 13
  | .table_copy _ _ => .bulk 14
  | .table_grow _ => .bulk 15
  | .table_size _ => .bulk 16
  | .table_fill _ => .bulk 17
  | .plain (.saturating code) => .bulk code
  | _ => .other

/-! ## Instructions of the format are instructions -/

section

variable {U : Grammar Nat} {op : UInt8} {bytes rest : Bytes} {i : Wasm.Instr} {n m code : Nat}

/-- One number is one index. -/
theorem Number.index (h : Number U n bytes) : Index U bytes := ⟨bytes, [], n, (List.append_nil _).symm, h, rfl⟩

/-- Two numbers are two of them. -/
theorem Numbers.times (h : Numbers U n m bytes) : Times (Index U) 2 bytes := by
  obtain ⟨first, second, rfl, hfirst, hsecond⟩ := h
  exact ⟨first, second, rfl, Number.index hfirst, second, [], (List.append_nil _).symm, Number.index hsecond, rfl⟩

/-- Spellings one after the other are as many repetitions. -/
theorem Each.times {α : Type} {L : α → Bytes → Prop} {M : Bytes → Prop} (hL : ∀ a b, L a b → M b) (l : List α) :
    ∀ b, Each L l b → Times M l.length b := by
  induction l with
  | nil => exact fun _ h => h
  | cons a l ih => exact Then.mono (hL a) ih

/-- A repetition with one more at its end. -/
theorem Times.snoc {M : Bytes → Prop} {count : Nat} {last : Bytes} (h : Times M count bytes) (hlast : M last) :
    Times M (count + 1) (bytes ++ last) := by
  induction count generalizing bytes with
  | zero =>
      obtain rfl : bytes = [] := h
      exact ⟨last, [], (List.append_nil _).symm, hlast, rfl⟩
  | succ count ih =>
      obtain ⟨first, second, rfl, hfirst, hsecond⟩ := h
      exact ⟨first, second ++ last, List.append_assoc _ _ _, hfirst, ih hsecond⟩

/-- A vector is its length and as many of its elements. -/
theorem Vec.after {α : Type} {L : α → Bytes → Prop} {M : Bytes → Prop} (hL : ∀ a b, L a b → M b) {l : List α}
    (h : Vec U L l bytes) : After U (fun length => Times M length) bytes := by
  obtain ⟨first, second, rfl, hfirst, hsecond⟩ := h
  exact ⟨first, second, l.length, rfl, hfirst, Each.times hL l _ hsecond⟩

/-- The bit of an alignment that announces a memory. -/
theorem align_bit {align : Nat} (h : align < 64) : align &&& 64 = 0 ∧ (align + 64) &&& 64 ≠ 0 := by
  have hall : ∀ a : Fin 64, a.val &&& 64 = 0 ∧ (a.val + 64) &&& 64 ≠ 0 := by decide
  exact hall ⟨align, h⟩

/-- The alignment, its bit for a memory index, and the offset. -/
theorem MemArgText.memoryArgument {arg : Wasm.MemArg} (h : MemArgText U arg bytes) : MemoryArgument U bytes := by
  obtain ⟨halign, first, index, last, rfl, ⟨hlast, hlength⟩, hmemory⟩ := h
  obtain ⟨hzero, hbit⟩ := align_bit halign
  have hgroups : Groups 10 last := ⟨⟨_, hlast⟩, hlength⟩
  rcases hmemory with ⟨hfirst, rfl, -⟩ | ⟨hfirst, hindex⟩
  · refine ⟨first, _, arg.align, rfl, hfirst, [], last, rfl, ?_, hgroups⟩
    rw [if_neg (not_not.mpr hzero)]
    rfl
  · refine ⟨first, _, arg.align + 64, rfl, hfirst, index, last, rfl, ?_, hgroups⟩
    rw [if_pos hbit]
    exact Number.index hindex

/-- Each of the four clauses. -/
theorem CatchText.catchClause {clause : Wasm.Catch} (h : CatchText U clause bytes) : CatchClause U bytes := by
  cases clause with
  | tag tag ref label =>
      obtain ⟨rest, rfl, first, second, rfl, hfirst, hsecond⟩ := h
      cases ref
      · exact ⟨[0x00], _, 0x00, rfl, rfl, first, second, rfl, Number.index hfirst, Number.index hsecond⟩
      · exact ⟨[0x01], _, 0x01, rfl, rfl, first, second, rfl, Number.index hfirst, Number.index hsecond⟩
  | all ref label =>
      obtain ⟨rest, rfl, hlabel⟩ := h
      cases ref
      · exact ⟨[0x02], _, 0x02, rfl, rfl, [], rest, rfl, rfl, Number.index hlabel⟩
      · exact ⟨[0x03], _, 0x03, rfl, rfl, [], rest, rfl, rfl, Number.index hlabel⟩

/-- The immediates of a vector instruction. -/
theorem SimdText.immediates {arg : Option Wasm.MemArg} {lanes : Bytes}
    (h : SimdText U code arg lanes bytes) : SimdImmediates U code bytes := by
  rw [SimdText] at h
  rw [SimdImmediates]
  split_ifs at h ⊢
  · obtain ⟨-, a, -, ha⟩ := h
    exact ha.memoryArgument
  · obtain ⟨-, hlength, rfl⟩ := h
    exact hlength
  · obtain ⟨-, hlength, rfl⟩ := h
    exact hlength
  · obtain ⟨hlength, a, rest, -, rfl, ha⟩ := h
    exact ⟨rest, lanes, rfl, ha.memoryArgument, hlength⟩
  · next hunassigned =>
    obtain ⟨hcode, hassigned, -⟩ := h
    exact absurd hunassigned (by simp [Nat.not_lt.mpr hcode, hassigned])
  · obtain ⟨-, -, -, -, rfl⟩ := h
    rfl

/-- The immediates of an atomic one. -/
theorem AtomicText.immediates {arg : Option Wasm.MemArg} (h : AtomicText U code arg bytes) :
    AtomicImmediates U code bytes := by
  rw [AtomicText] at h
  rw [AtomicImmediates]
  split_ifs at h ⊢ with hfence haccess
  · obtain ⟨-, rfl⟩ := h
    rfl
  · obtain ⟨-, a, -, ha⟩ := h
    exact ha.memoryArgument
  · exact absurd h.1 haccess

/-- An opcode alone. -/
theorem follows_plain (h : op ∈ plainOps) : Follows U op [] .other := by
  refine ⟨notMem_of_all rfl h, ?_⟩
  rw [Immediates, if_pos h]
  rfl

/-- An opcode with a block type. -/
theorem follows_block (h : op ∈ blockOps) (htype : BlockType rest) : Follows U op rest .other := by
  refine ⟨notMem_of_all rfl h, ?_⟩
  rwa [Immediates, if_neg (notMem_of_all rfl h), if_pos h]

/-- An opcode with one index. -/
theorem follows_index (h : op ∈ indexOps) (hindex : U rest n) : Follows U op rest .other := by
  refine ⟨notMem_of_all rfl h, ?_⟩
  rw [Immediates, if_neg (notMem_of_all rfl h), if_neg (notMem_of_all rfl h), if_pos h]
  exact Number.index hindex

/-- A prefixed instruction: its code is a number of its own. -/
theorem follows_bulk {L : Bytes → Prop} (hL : ∀ b, L b → BulkImmediates U code b)
    (h : PrefixedText U code L op rest) : Follows U op rest (.bulk code) := by
  obtain ⟨hop, first, second, hrest, hfirst, hsecond⟩ := h
  exact ⟨hop, first, second, hrest, hfirst, hL _ hsecond⟩

/-- Opcodes in a range are not in a list without opcodes of the range. -/
theorem notMem_of_range {ops : List UInt8} {least most : UInt8}
    (hapart : (ops.all fun op => decide (op < least) || decide (most < op)) = true)
    (hleast : least ≤ op) (hmost : op ≤ most) : op ∉ ops := by
  intro hmem
  have hop := List.all_eq_true.mp hapart op hmem
  rw [Bool.or_eq_true, decide_eq_true_iff, decide_eq_true_iff] at hop
  rcases hop with h | h
  · exact UInt8.not_lt.mpr hleast h
  · exact UInt8.not_lt.mpr hmost h

/-- An opcode of a range is none outside it. -/
theorem ne_of_range {op code least most : UInt8} (hapart : code < least ∨ most < code) (hleast : least ≤ op)
    (hmost : op ≤ most) : op ≠ code := by
  rintro rfl
  rcases hapart with h | h
  · exact UInt8.not_lt.mpr hleast h
  · exact UInt8.not_lt.mpr hmost h

/-- The numeric instructions have no immediates. -/
theorem follows_numeric (hleast : 0x45 ≤ op) (hmost : op ≤ 0xc4) : Follows U op [] .other := by
  refine ⟨notMem_of_range rfl hleast hmost, ?_⟩
  have hne {code : UInt8} (h : code < 0x45 ∨ 0xc4 < code) : op ≠ code := ne_of_range h hleast hmost
  rw [Immediates, if_neg (notMem_of_range rfl hleast hmost), if_neg (notMem_of_range rfl hleast hmost),
    if_neg (notMem_of_range rfl hleast hmost), if_neg (hne (by decide)), if_neg (hne (by decide)),
    if_neg (hne (by decide)), if_neg (hne (by decide)), if_neg (hne (by decide)), if_neg (hne (by decide)),
    if_neg (hne (by decide)), if_neg (hne (by decide)), if_neg (hne (by decide)), if_neg, if_neg]
  · rfl
  · rintro (h | h)
    · exact UInt8.not_lt.mpr hleast h
    · exact UInt8.not_lt.mpr hmost h
  · rintro ⟨-, h⟩
    exact absurd (UInt8.le_trans hleast h) (by decide)

/-- Loads and stores have an address. -/
theorem follows_access (hleast : 0x28 ≤ op) (hmost : op ≤ 0x3e) (harg : MemoryArgument U rest) :
    Follows U op rest .other := by
  refine ⟨notMem_of_range rfl hleast hmost, ?_⟩
  have hne {code : UInt8} (h : code < 0x28 ∨ 0x3e < code) : op ≠ code := ne_of_range h hleast hmost
  rwa [Immediates, if_neg (notMem_of_range rfl hleast hmost), if_neg (notMem_of_range rfl hleast hmost),
    if_neg (notMem_of_range rfl hleast hmost), if_neg (hne (by decide)), if_neg (hne (by decide)),
    if_neg (hne (by decide)), if_neg (hne (by decide)), if_neg (hne (by decide)), if_neg (hne (by decide)),
    if_neg (hne (by decide)), if_neg (hne (by decide)), if_neg (hne (by decide)), if_pos ⟨hleast, hmost⟩]

/-- A range of codes is a range of bytes. -/
theorem ofNat_range {least most : Nat} (hmost : most < 256) (hcode : least ≤ code) (hcode' : code ≤ most) :
    UInt8.ofNat least ≤ UInt8.ofNat code ∧ UInt8.ofNat code ≤ UInt8.ofNat most := by
  have hcode'' : code < 256 := by omega
  have hleast : least < 256 := by omega
  rw [UInt8.le_iff_toNat_le, UInt8.le_iff_toNat_le, UInt8.toNat_ofNat', UInt8.toNat_ofNat', UInt8.toNat_ofNat',
    Nat.mod_eq_of_lt hcode'', Nat.mod_eq_of_lt hleast, Nat.mod_eq_of_lt hmost]
  exact ⟨hcode, hcode'⟩

/-- All that the rewrite copies as it is. -/
theorem PlainText.follows {code : Wasm.PlainOp} (h : PlainText U code op rest) :
    Follows U op rest (kindOf (.plain code)) := by
  cases code with
  | numeric code =>
      obtain ⟨rfl, hleast, hmost, rfl⟩ := h
      obtain ⟨hleast', hmost'⟩ := ofNat_range (by decide) hleast hmost
      exact follows_numeric hleast' hmost'
  | access code arg =>
      obtain ⟨rfl, hleast, hmost, harg⟩ := h
      obtain ⟨hleast', hmost'⟩ := ofNat_range (by decide) hleast hmost
      exact follows_access hleast' hmost' harg.memoryArgument
  | i64_const value =>
      obtain ⟨rfl, hvalue, hlength⟩ := h
      exact ⟨by decide, groups_of_signed hvalue hlength⟩
  | f32_const data =>
      obtain ⟨rfl, rfl, hlength⟩ := h
      exact ⟨by decide, hlength⟩
  | f64_const data =>
      obtain ⟨rfl, rfl, hlength⟩ := h
      exact ⟨by decide, hlength⟩
  | saturating code =>
      obtain ⟨rfl, hcode, hrest⟩ := h
      refine ⟨rfl, rest, [], (List.append_nil _).symm, hrest, ?_⟩
      rw [BulkImmediates, if_pos hcode]
      rfl
  | simd code arg lanes =>
      obtain ⟨rfl, first, second, rfl, hfirst, hsecond⟩ := h
      exact ⟨by decide, first, second, code, rfl, hfirst, hsecond.immediates⟩
  | atomic code arg =>
      obtain ⟨rfl, first, second, rfl, hfirst, hsecond⟩ := h
      exact ⟨by decide, first, second, code, rfl, hfirst, hsecond.immediates⟩

/-- What spells an instruction is what the rewriter reads as one, and of its kind. -/
theorem InstrText.follows (h : InstrText U i op rest) : Follows U op rest (kindOf i) := by
  cases i with
  | unreachable | nop | «else» | catch_all | throw_ref | «end» | «return» | drop | select | ref_is_null
  | ref_eq | ref_as_non_null =>
      obtain ⟨rfl, rfl⟩ := h
      exact follows_plain (by decide)
  | block type | «if» type | «try» type =>
      obtain ⟨rfl, htype⟩ := h
      exact follows_block (by decide) htype.blockType
  | loop type => exact ⟨h.1, h.2.blockType⟩
  | «catch» n | delegate n | throw n | rethrow n | br n | br_if n | br_on_null n | br_on_non_null n
  | local_get n | local_set n | local_tee n | global_get n | global_set n | table_get n | table_set n
  | memory_size n | memory_grow n =>
      obtain ⟨rfl, hindex⟩ := h
      exact follows_index (by decide) hindex
  | try_table type clauses =>
      obtain ⟨rfl, first, second, rfl, hfirst, hsecond⟩ := h
      exact ⟨by decide, first, second, rfl, hfirst.blockType,
        Vec.after (fun _ _ hclause => hclause.catchClause) hsecond⟩
  | br_table labels default =>
      obtain ⟨rfl, _, last, rfl, ⟨first, second, rfl, hfirst, hsecond⟩, hlast⟩ := h
      refine ⟨by decide, first, second ++ last, labels.length, List.append_assoc _ _ _, hfirst, ?_⟩
      exact Times.snoc (Each.times (fun _ _ hlabel => Number.index hlabel) labels _ hsecond)
        (Number.index hlast)
  | call f => exact h
  | return_call f => exact h
  | ref_func f => exact h
  | call_indirect type table => exact .inl ⟨.inl h.1, Numbers.times h.2⟩
  | return_call_indirect type table => exact .inl ⟨.inr h.1, Numbers.times h.2⟩
  | call_ref type => exact .inr ⟨.inl h.1, Number.index h.2⟩
  | return_call_ref type => exact .inr ⟨.inr h.1, Number.index h.2⟩
  | select_typed types =>
      obtain ⟨rfl, htypes⟩ := h
      exact ⟨by decide, Vec.after (fun _ _ htype => htype.valueType) htypes⟩
  | table_init | table_copy | memory_init | memory_copy => exact follows_bulk (fun _ => Numbers.times) h
  | elem_drop | table_grow | table_size | table_fill | data_drop | memory_fill =>
      exact follows_bulk (fun _ => Number.index) h
  | ref_null heap =>
      obtain ⟨rfl, hheap⟩ := h
      exact ⟨by decide, hheap.heapType⟩
  | i32_const value => exact h
  | plain code => exact PlainText.follows h

end

/-! ## Spellings with more room -/

section

variable {U V : Grammar Nat} {op : UInt8} {i : Wasm.Instr}

theorem Each.mono {α : Type} {L M : α → Bytes → Prop} (hL : ∀ a b, L a b → M a b) (l : List α) :
    ∀ b, Each L l b → Each M l b := by
  induction l with
  | nil => exact fun _ h => h
  | cons a l ih => exact Then.mono (hL a) ih

variable (hUV : ∀ b n, U b n → V b n)

include hUV

theorem Vec.mono {α : Type} {L M : α → Bytes → Prop} (hL : ∀ a b, L a b → M a b) (l : List α) :
    ∀ b, Vec U L l b → Vec V M l b :=
  Then.mono (fun b => hUV b l.length) (Each.mono hL l)

theorem Numbers.mono (n m : Nat) : ∀ b, Numbers U n m b → Numbers V n m b :=
  Then.mono (fun b => hUV b n) (fun b => hUV b m)

theorem MemArgText.mono (arg : Wasm.MemArg) : ∀ b, MemArgText U arg b → MemArgText V arg b := by
  rintro _ ⟨halign, first, index, last, rfl, hlast, hmemory⟩
  refine ⟨halign, first, index, last, rfl, hlast, ?_⟩
  rcases hmemory with ⟨hfirst, hindex⟩ | ⟨hfirst, hindex⟩
  · exact .inl ⟨hUV _ _ hfirst, hindex⟩
  · exact .inr ⟨hUV _ _ hfirst, hUV _ _ hindex⟩

theorem CatchText.mono (clause : Wasm.Catch) : ∀ b, CatchText U clause b → CatchText V clause b := by
  intro b h
  cases clause with
  | tag tag ref label =>
      obtain ⟨rest, hb, hrest⟩ := h
      exact ⟨rest, hb, Numbers.mono hUV _ _ _ hrest⟩
  | all ref label =>
      obtain ⟨rest, hb, hrest⟩ := h
      exact ⟨rest, hb, hUV _ _ hrest⟩

theorem SimdText.mono (code : Nat) (arg : Option Wasm.MemArg) (lanes : Bytes) :
    ∀ b, SimdText U code arg lanes b → SimdText V code arg lanes b := by
  intro b h
  rw [SimdText] at h ⊢
  split_ifs at h ⊢
  · obtain ⟨hlanes, a, harg, ha⟩ := h
    exact ⟨hlanes, a, harg, MemArgText.mono hUV a b ha⟩
  · exact h
  · exact h
  · obtain ⟨hlanes, a, rest, harg, hb, ha⟩ := h
    exact ⟨hlanes, a, rest, harg, hb, MemArgText.mono hUV a rest ha⟩
  · exact h

theorem AtomicText.mono (code : Nat) (arg : Option Wasm.MemArg) :
    ∀ b, AtomicText U code arg b → AtomicText V code arg b := by
  intro b h
  rw [AtomicText] at h ⊢
  split_ifs at h ⊢
  · exact h
  · obtain ⟨hcode, a, harg, ha⟩ := h
    exact ⟨hcode, a, harg, MemArgText.mono hUV a b ha⟩

/-- A prefixed one, whatever follows its code. -/
theorem PrefixedText.mono {L M : Bytes → Prop} {code : Nat} (hL : ∀ b, L b → M b) {rest : Bytes}
    (h : PrefixedText U code L op rest) : PrefixedText V code M op rest :=
  ⟨h.1, Then.mono (fun b => hUV b code) hL rest h.2⟩

theorem PlainText.mono (code : Wasm.PlainOp) {rest : Bytes} (h : PlainText U code op rest) :
    PlainText V code op rest := by
  cases code with
  | numeric | i64_const | f32_const | f64_const => exact h
  | access code arg =>
      obtain ⟨hop, hleast, hmost, harg⟩ := h
      exact ⟨hop, hleast, hmost, MemArgText.mono hUV arg rest harg⟩
  | saturating code => exact ⟨h.1, h.2.1, hUV _ _ h.2.2⟩
  | simd code arg lanes => exact ⟨h.1, Then.mono (fun b => hUV b code) (SimdText.mono hUV code arg lanes) _ h.2⟩
  | atomic code arg => exact ⟨h.1, Then.mono (fun b => hUV b code) (AtomicText.mono hUV code arg) _ h.2⟩

/-- Every instruction. -/
theorem InstrText.mono {rest : Bytes} (h : InstrText U i op rest) : InstrText V i op rest := by
  cases i with
  | unreachable | nop | «else» | catch_all | throw_ref | «end» | «return» | drop | select | ref_is_null
  | ref_eq | ref_as_non_null | block | loop | «if» | «try» | ref_null | i32_const => exact h
  | «catch» | delegate | throw | rethrow | br | br_if | br_on_null | br_on_non_null
  | local_get | local_set | local_tee | global_get | global_set | table_get | table_set
  | memory_size | memory_grow | call | return_call | ref_func | call_ref | return_call_ref =>
      exact ⟨h.1, hUV _ _ h.2⟩
  | call_indirect | return_call_indirect => exact ⟨h.1, Numbers.mono hUV _ _ _ h.2⟩
  | try_table type clauses =>
      exact ⟨h.1, Then.mono (fun _ h => h) (Vec.mono hUV (CatchText.mono hUV) clauses) _ h.2⟩
  | br_table labels default =>
      have hlabels := Vec.mono hUV (fun label b (h : Number U label b) => hUV b label h) labels
      exact ⟨h.1, Then.mono hlabels (fun b => hUV b default) _ h.2⟩
  | select_typed types => exact ⟨h.1, Vec.mono hUV (fun _ _ h => h) types _ h.2⟩
  | table_init | table_copy | memory_init | memory_copy =>
      exact PrefixedText.mono hUV (Numbers.mono hUV _ _) h
  | elem_drop n | table_grow n | table_size n | table_fill n | data_drop n | memory_fill n =>
      exact PrefixedText.mono hUV (fun b => hUV b n) h
  | plain code => exact PlainText.mono hUV code h

end

end Binary
