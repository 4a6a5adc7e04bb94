import Mathlib.Data.List.Basic
import Mathlib.Tactic.Ring

/-!
# Wasm abstract syntax

The modules the rewriter accepts, as an engine reads them: no GC instruction or
type definition, no 64-bit table, one result list per function type.

Code is flat, as in the binary: a block runs to its matching `end`, and nothing
here nests instructions.  The rewriter inserts into the flat list, so every later
statement about it is a statement about lists.

Opcodes whose immediates the rewriter only skips, and which touch nothing but
numbers and linear memory, are one constructor, `Instr.plain`.  Everything that
transfers control, names an index or handles a reference has its own.
-/

namespace Wasm

/-! ## Types -/

/-- A heap type: an abstract one by its code in the binary, or a type index. -/
inductive HeapType where
  | named (code : Nat)
  | type (index : Nat)
deriving DecidableEq, Repr

/-- `func`, the heap type of the shorthand `funcref`. -/
abbrev HeapType.func : HeapType := .named 0x70

/-- `exn`, the heap type of the shorthand `exnref`. -/
abbrev HeapType.exn : HeapType := .named 0x69

/-- The types of values. -/
inductive ValType where
  | i32
  | i64
  | f32
  | f64
  | v128
  | ref (nullable : Bool) (heap : HeapType)
deriving DecidableEq, Repr

/-- The type `funcref`. -/
abbrev ValType.funcref : ValType := .ref true .func

/-- The parameters and results of a function. -/
structure FuncType where
  params : List ValType
  results : List ValType
deriving DecidableEq, Repr

/-- The type of a block: none, one result, or a function type by its index. -/
inductive BlockType where
  | empty
  | value (type : ValType)
  | type (index : Nat)
deriving DecidableEq, Repr

/-! ## Instructions -/

/-- Alignment, memory index and offset of a memory access. -/
structure MemArg where
  align : Nat
  memory : Nat
  offset : Nat
deriving DecidableEq, Repr

/-- Opcodes that compute on numbers and linear memory only.  A sub-opcode is
kept as its code, `lanes` are the immediate bytes of a SIMD instruction. -/
inductive PlainOp where
  /-- Opcodes `0x45` to `0xc4`. -/
  | numeric (op : Nat)
  /-- Loads and stores, `0x28` to `0x3e`. -/
  | access (op : Nat) (arg : MemArg)
  | i64_const (value : Int)
  /-- The four bytes of the literal. -/
  | f32_const (bytes : List UInt8)
  | f64_const (bytes : List UInt8)
  /-- Saturating truncation, `0xfc 0` to `0xfc 7`. -/
  | saturating (code : Nat)
  | simd (code : Nat) (arg : Option MemArg) (lanes : List UInt8)
  | atomic (code : Nat) (arg : Option MemArg)
deriving DecidableEq, Repr

/-- A catch clause of `try_table`.  With `ref` the handler also receives the
exception itself. -/
inductive Catch where
  | tag (tag : Nat) (ref : Bool) (label : Nat)
  | all (ref : Bool) (label : Nat)
deriving DecidableEq, Repr

/-- Instructions, named as in the text format. -/
inductive Instr where
  | unreachable
  | nop
  | block (type : BlockType)
  | loop (type : BlockType)
  | «if» (type : BlockType)
  | «else»
  | «try» (type : BlockType)
  | «catch» (tag : Nat)
  | catch_all
  | delegate (label : Nat)
  | throw (tag : Nat)
  | rethrow (label : Nat)
  | throw_ref
  | try_table (type : BlockType) (clauses : List Catch)
  | «end»
  | br (label : Nat)
  | br_if (label : Nat)
  | br_table (labels : List Nat) (default : Nat)
  | br_on_null (label : Nat)
  | br_on_non_null (label : Nat)
  | «return»
  | call (function : Nat)
  | call_indirect (type table : Nat)
  | call_ref (type : Nat)
  | return_call (function : Nat)
  | return_call_indirect (type table : Nat)
  | return_call_ref (type : Nat)
  | drop
  | select
  | select_typed (types : List ValType)
  | local_get (index : Nat)
  | local_set (index : Nat)
  | local_tee (index : Nat)
  | global_get (index : Nat)
  | global_set (index : Nat)
  | table_get (table : Nat)
  | table_set (table : Nat)
  | table_init (elem table : Nat)
  | elem_drop (elem : Nat)
  | table_copy (target source : Nat)
  | table_grow (table : Nat)
  | table_size (table : Nat)
  | table_fill (table : Nat)
  | memory_size (memory : Nat)
  | memory_grow (memory : Nat)
  | memory_init (data memory : Nat)
  | data_drop (data : Nat)
  | memory_copy (target source : Nat)
  | memory_fill (memory : Nat)
  | ref_null (heap : HeapType)
  | ref_is_null
  | ref_func (function : Nat)
  | ref_eq
  | ref_as_non_null
  | i32_const (value : BitVec 32)
  | plain (op : PlainOp)
deriving DecidableEq, Repr

/-- The numeric opcodes the injected sequences use. -/
abbrev Instr.i32_eqz : Instr := .plain (.numeric 0x45)

/-- The comparison of the injected sequences, and their arithmetic. -/
abbrev Instr.i32_ge_u : Instr := .plain (.numeric 0x4f)
abbrev Instr.i32_sub : Instr := .plain (.numeric 0x6b)
abbrev Instr.i32_shr_u : Instr := .plain (.numeric 0x76)

/-- Instructions of a constant expression, its `end` left out. -/
inductive ConstInstr where
  | i32_const (value : BitVec 32)
  | global_get (index : Nat)
  | ref_null (heap : HeapType)
  | ref_func (function : Nat)
  /-- A literal, or an extended constant `add`, `sub`, `mul`. -/
  | plain (op : PlainOp)
deriving DecidableEq, Repr

/-- The constant expressions of globals, offsets and segments. -/
abbrev ConstExpr := List ConstInstr

/-! ## Modules -/

/-- Bounds of a memory, in pages. -/
structure Limits where
  min : Nat
  max : Option Nat
deriving DecidableEq, Repr

/-- The type of a table. -/
structure TableType where
  elem : ValType
  limits : Limits
deriving DecidableEq, Repr

/-- The type of a global. -/
structure GlobalType where
  type : ValType
  mutable : Bool
deriving DecidableEq, Repr

/-- What is imported, with its type. -/
inductive ImportDesc where
  | func (type : Nat)
  | table (type : TableType)
  | memory (limits : Limits)
  | global (type : GlobalType)
  | tag (type : Nat)
deriving DecidableEq, Repr

/-- Module and field of an import, as their bytes. -/
structure ImportName where
  module : List UInt8
  field : List UInt8
deriving DecidableEq, Repr

/-- An import. -/
structure Import where
  name : ImportName
  desc : ImportDesc
deriving DecidableEq, Repr

/-- A defined function: its type index, its local groups and its code, the
final `end` included. -/
structure Func where
  type : Nat
  locals : List (Nat × ValType)
  body : List Instr
deriving DecidableEq, Repr

/-- A global with its first value. -/
structure Global where
  type : GlobalType
  init : ConstExpr
deriving DecidableEq, Repr

/-- The kinds of exports. -/
inductive ExternKind where
  | func
  | table
  | memory
  | global
  | tag
deriving DecidableEq, Repr

/-- An export, by its index. -/
structure Export where
  name : List UInt8
  kind : ExternKind
  index : Nat
deriving DecidableEq, Repr

/-- When a segment of references is written. -/
inductive ElemMode where
  | active (table : Nat) (offset : ConstExpr)
  | passive
  | declarative
deriving DecidableEq, Repr

/-- A segment of references. -/
structure Elem where
  mode : ElemMode
  type : ValType
  init : List ConstExpr
deriving DecidableEq, Repr

/-- When a segment of bytes is written. -/
inductive DataMode where
  | active (memory : Nat) (offset : ConstExpr)
  | passive
deriving DecidableEq, Repr

/-- A segment of bytes. -/
structure Data where
  mode : DataMode
  bytes : List UInt8
deriving DecidableEq, Repr

/-- A module with its defined parts, each index space being the imports of its
kind followed by the definitions. -/
structure Module where
  types : List FuncType := []
  imports : List Import := []
  funcs : List Func := []
  tables : List TableType := []
  memories : List Limits := []
  tags : List Nat := []
  globals : List Global := []
  exports : List Export := []
  start : Option Nat := none
  elems : List Elem := []
  datas : List Data := []
deriving DecidableEq, Repr

/-! ## Index spaces -/

/-- The index spaces of imports, one for each kind. -/
def ImportDesc.func? : ImportDesc → Option Nat
  | .func type => some type
  | _ => none

def ImportDesc.global? : ImportDesc → Option GlobalType
  | .global type => some type
  | _ => none

def ImportDesc.table? : ImportDesc → Option TableType
  | .table type => some type
  | _ => none

def ImportDesc.memory? : ImportDesc → Option Limits
  | .memory limits => some limits
  | _ => none

def ImportDesc.tag? : ImportDesc → Option Nat
  | .tag type => some type
  | _ => none

namespace Module

/-- The imported functions, with their names and type indices. -/
def importedFunctions (m : Module) : List (ImportName × Nat) :=
  m.imports.filterMap fun i => i.desc.func?.map fun type => (i.name, type)

def importedGlobals (m : Module) : List GlobalType := m.imports.filterMap (·.desc.global?)

def importedTables (m : Module) : List TableType := m.imports.filterMap (·.desc.table?)

def importedMemories (m : Module) : List Limits := m.imports.filterMap (·.desc.memory?)

def importedTags (m : Module) : List Nat := m.imports.filterMap (·.desc.tag?)

/-- The type index of every function. -/
def funcTypes (m : Module) : List Nat := m.importedFunctions.map (·.2) ++ m.funcs.map (·.type)

/-- Imports come first in every index space. -/
def globalTypes (m : Module) : List GlobalType := m.importedGlobals ++ m.globals.map (·.type)

def tableTypes (m : Module) : List TableType := m.importedTables ++ m.tables

def memoryTypes (m : Module) : List Limits := m.importedMemories ++ m.memories

/-- The type index of every tag. -/
def tagTypes (m : Module) : List Nat := m.importedTags ++ m.tags

/-- The function type of a function index. -/
def funcType? (m : Module) (f : Nat) : Option FuncType := do m.types[← m.funcTypes[f]?]?

/-- The function type of a tag index. -/
def tagType? (m : Module) (x : Nat) : Option FuncType := do m.types[← m.tagTypes[x]?]?

/-- The function type a block type stands for. -/
def blockType? (m : Module) : BlockType → Option FuncType
  | .empty => some ⟨[], []⟩
  | .value type => some ⟨[], [type]⟩
  | .type index => m.types[index]?

end Module

/-! ## Block structure of flat code -/

namespace Instr

/-- Instructions that open a block, closed by `end` or `delegate`. -/
def opens : Instr → Bool
  | .block _ | .loop _ | .if _ | .try _ | .try_table _ _ => true
  | _ => false

/-- What ends a block. -/
def closes : Instr → Bool
  | .end | .delegate _ => true
  | _ => false

end Instr

/-- The code after the `end` or `delegate` that closes the block `depth` blocks
around the head. -/
def matchEnd : Nat → List Instr → Option (List Instr)
  | _, [] => none
  | depth, i :: is =>
      if i.opens then matchEnd (depth + 1) is
      else if i.closes then
        match depth with
        | 0 => some is
        | depth + 1 => matchEnd depth is
      else matchEnd depth is

/-- The code after the `else` of the `if` whose then-part this is, if it has one. -/
def matchElse : Nat → List Instr → Option (List Instr)
  | _, [] => none
  | depth, i :: is =>
      if i.opens then matchElse (depth + 1) is
      else if i.closes then
        match depth with
        | 0 => none
        | depth + 1 => matchElse depth is
      else
        match depth, i with
        | 0, .else => some is
        | depth, _ => matchElse depth is

/-- A handler of a legacy `try`: the tag it catches, none for `catch_all`, and
the code from its start. -/
structure Handler where
  tag : Option Nat
  code : List Instr
deriving DecidableEq, Repr

/-- The handlers of the `try` whose body this is, in order. -/
def handlers : Nat → List Instr → List Handler
  | _, [] => []
  | depth, i :: is =>
      if i.opens then handlers (depth + 1) is
      else if i.closes then
        match depth with
        | 0 => []
        | depth + 1 => handlers depth is
      else
        match depth, i with
        | 0, .catch tag => ⟨some tag, is⟩ :: handlers 0 is
        | 0, .catch_all => ⟨none, is⟩ :: handlers 0 is
        | depth, _ => handlers depth is

/-- The label of the `delegate` that closes the `try` whose body this is. -/
def delegated : Nat → List Instr → Option Nat
  | _, [] => none
  | depth, i :: is =>
      if i.opens then delegated (depth + 1) is
      else
        match i, depth with
        | .delegate label, 0 => some label
        | .end, 0 => none
        | .delegate _, depth + 1 => delegated depth is
        | .end, depth + 1 => delegated depth is
        | _, depth => delegated depth is

end Wasm
