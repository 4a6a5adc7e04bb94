import CapnpcWasm.TsSdk.Files
import CapnpcWasm.Wasm.Machine

/-!
# The rewrite on instruction lists

`instrument` of `sdk/typescript/rewriter.ts` as a function on abstract modules.
What the source does to bytes in one pass is here a function per section; `none`
stands for every `TypeError` and `RangeError` the source throws on a module that
the abstract syntax can express.

The two injected sequences, `checkSequence` and `chargeSequence`, are written out
instruction by instruction, as the source emits them.

Names are compared as `Reader.name` reads them.  Its `TextDecoder` leaves a byte order
mark in front of a name out, so more than one name reads as `proc_exit`.
-/

namespace Rewriter

open Wasm

/-! ## The injected sequences -/

/-- The stack-neutral check: poll every `interval` ticks, trap on a nonzero answer. -/
def checkSequence (counter interrupt interval : Nat) : List Instr :=
  [.global_get counter,
   .i32_eqz,
   .if .empty,
     .call interrupt,
     .if .empty,
       .unreachable,
     .end,
     .i32_const (.ofNat 32 interval),
     .global_set counter,
   .end,
   .global_get counter,
   .i32_const 1,
   .i32_sub,
   .global_set counter]

/-- The charge before a bulk operation, stack-neutral around its size operand,
which it keeps in the local `scratch`. -/
def chargeSequence (counter scratch interrupt interval shift : Nat) : List Instr :=
  [.local_tee scratch,
   .i32_const (.ofNat 32 (1 <<< shift)),
   .i32_ge_u,
   .if .empty,
     .local_get scratch,
     .i32_const (.ofNat 32 shift),
     .i32_shr_u,
     .global_get counter,
     .i32_ge_u,
     .if .empty,
       .call interrupt,
       .if .empty,
         .unreachable,
       .end,
       .i32_const (.ofNat 32 interval),
       .global_set counter,
     .else,
       .global_get counter,
       .local_get scratch,
       .i32_const (.ofNat 32 shift),
       .i32_shr_u,
       .i32_sub,
       .global_set counter,
     .end,
   .end,
   .local_get scratch]

/-- Ticks per KiB of a memory operation, and per 16 entries of a table one. -/
def memoryChargeShift : Nat := 10
def tableChargeShift : Nat := 4

/-- Parameters plus locals per function in every engine. -/
def maxLocals : Nat := 50000

/-! ## Function indices -/

/-- What `functionBody` reads of the module around it. -/
structure Context where
  importedFunctions : Nat
  /-- The last import that reads as `proc_exit`. -/
  exitFunction : Option Nat
  /-- The index of the countdown global. -/
  counter : Nat
  interval : Nat
  /-- The imports used as values, in the order they were met. -/
  thunkImports : List Nat
  definedFunctions : Nat

namespace Context

variable (ctx : Context)

/-- The index of a function after the interrupt import was added. -/
def shift (f : Nat) : Nat := if ctx.importedFunctions ≤ f then f + 1 else f

/-- The thunk of an import used as a value. -/
def thunkOf (f : Nat) : Option Nat :=
  if f ∈ ctx.thunkImports then
    some (ctx.importedFunctions + 1 + ctx.definedFunctions + ctx.thunkImports.idxOf f)
  else none

/-- A function index used as a value: an import escapes through its thunk.
Without defined functions nothing can call it, and it keeps its index. -/
def reference (f : Nat) : Nat :=
  if ctx.importedFunctions ≤ f then f + 1 else (ctx.thunkOf f).getD f

def check : List Instr := checkSequence ctx.counter ctx.importedFunctions ctx.interval

/-- What follows a call of the import `f`: `unreachable` after `proc_exit`, a check
after any other. -/
def afterImport (f : Nat) : List Instr :=
  if ctx.exitFunction = some f then [.unreachable] else ctx.check

end Context

/-! ## Function bodies -/

/-- The charge shift of an operation whose cost grows with its size operand. -/
def chargeShift : Instr → Option Nat
  | .memory_init _ _ | .memory_copy _ _ | .memory_fill _ => some memoryChargeShift
  | .table_init _ _ | .table_copy _ _ | .table_grow _ | .table_fill _ => some tableChargeShift
  | _ => none

/-- A constant size below one tick costs no more than any other instruction. -/
def small (operand : Option (BitVec 32)) (shift : Nat) : Bool :=
  match operand with
  | some c => 0 ≤ c.toInt && c.toInt >>> shift == 0
  | none => false

/-- The value of an `i32.const`, as the operand of the instruction after it. -/
def constantOf : Instr → Option (BitVec 32)
  | .i32_const c => some c
  | _ => none

/-- The shift an instruction is charged with, after the operand `operand`. -/
def charge? (operand : Option (BitVec 32)) (i : Instr) : Option Nat :=
  (chargeShift i).filter fun shift => !small operand shift

/-- What one instruction becomes.  `scratch` is the local of the charges,
`operand` the constant just before the instruction. -/
def rewriteInstr (ctx : Context) (scratch : Nat) (operand : Option (BitVec 32)) (i : Instr) :
    List Instr :=
  match i with
  | .loop bt => .loop bt :: ctx.check
  | .call f =>
      if ctx.importedFunctions ≤ f then [.call (ctx.shift f)] else .call f :: ctx.afterImport f
  | .return_call f =>
      if ctx.importedFunctions ≤ f then [.return_call (ctx.shift f)]
      else if ctx.exitFunction = some f then [.call f, .unreachable]
      else .call f :: (ctx.check ++ [.return])
  | .ref_func f => [.ref_func (ctx.reference f)]
  | i =>
      match charge? operand i with
      | some shift =>
          chargeSequence ctx.counter scratch ctx.importedFunctions ctx.interval shift ++ [i]
      | none => [i]

/-- The instructions of a body after the rewrite. -/
def rewriteCode (ctx : Context) (scratch : Nat) : Option (BitVec 32) → List Instr → List Instr
  | _, [] => []
  | operand, i :: is =>
      rewriteInstr ctx scratch operand i ++ rewriteCode ctx scratch (constantOf i) is

/-- Whether a charge is inserted. -/
def charged : Option (BitVec 32) → List Instr → Bool
  | _, [] => false
  | operand, i :: is => (charge? operand i).isSome || charged (constantOf i) is

/-- Instructions that can call guest code: a defined function directly, or
anything indirectly. -/
def Context.callsGuest (ctx : Context) : Instr → Bool
  | .call f | .return_call f => ctx.importedFunctions ≤ f
  | .call_indirect _ _ | .return_call_indirect _ _ | .call_ref _ | .return_call_ref _ => true
  | _ => false

/-- A `ref.func` the rewrite can renumber: not of an import without a thunk. -/
def Context.declared (ctx : Context) : Instr → Bool
  | .ref_func f => ctx.importedFunctions ≤ f || (ctx.thunkOf f).isSome
  | _ => true

/-- How many locals the groups of a function declare. -/
def declaredLocals (groups : List (Nat × ValType)) : Nat := (groups.map (·.1)).sum

/-- `functionBody`.  `params` is the number of parameters. -/
def functionBody (ctx : Context) (params : Nat) (f : Func) : Option Func :=
  let scratch := params + declaredLocals f.locals
  let charges := charged none f.body
  if f.body.all ctx.declared && !(charges && maxLocals < scratch + 1) then
    some {
      type := f.type
      locals := if charges then f.locals ++ [(1, .i32)] else f.locals
      body := (if f.body.any ctx.callsGuest then ctx.check else []) ++
        rewriteCode ctx scratch none f.body }
  else none

/-- The thunk of the import `f`: forward the parameters, call, check. -/
def thunkBody (ctx : Context) (type params f : Nat) : Func where
  type := type
  locals := []
  body := (List.range params).map .local_get ++ .call f :: (ctx.afterImport f ++ [.end])

/-! ## Sections -/

def constantInstr (ctx : Context) : ConstInstr → ConstInstr
  | .ref_func f => .ref_func (ctx.reference f)
  | i => i

/-- A constant expression with its `ref.func` renumbered. -/
def constant (ctx : Context) (e : ConstExpr) : ConstExpr := e.map (constantInstr ctx)

/-- The functions a constant expression names. -/
def constantRefs (e : ConstExpr) : List Nat :=
  e.filterMap fun
    | .ref_func f => some f
    | _ => none

/-- The functions an element segment names, its offset first. -/
def elemRefs (e : Elem) : List Nat :=
  (match e.mode with
    | .active _ offset => constantRefs offset
    | _ => []) ++ e.init.flatMap constantRefs

/-- The functions used as values before the code section, in the order of the
sections: globals, exports, elements. -/
def references (m : Module) : List Nat :=
  m.globals.flatMap (fun g => constantRefs g.init) ++
    (m.exports.filter (·.kind == .func)).map (·.index) ++ m.elems.flatMap elemRefs

/-- One call of `reference`: an import met for the first time gets a thunk. -/
def escape (imported : Nat) (seen : List Nat) (f : Nat) : List Nat :=
  if f < imported ∧ f ∉ seen then seen ++ [f] else seen

/-- The imports among `fs`, each once, in order. -/
def escaping (imported : Nat) (fs : List Nat) : List Nat := fs.foldl (escape imported) []

/-- `wasi_snapshot_preview1.proc_exit`. -/
def procExit : ImportName := ⟨"wasi_snapshot_preview1".toUTF8.toList, "proc_exit".toUTF8.toList⟩

/-- `capnp_wasm.interrupt`. -/
def interruptImport : ImportName := ⟨"capnp_wasm".toUTF8.toList, "interrupt".toUTF8.toList⟩

/-- Whether an import reads as `proc_exit`. -/
def readsProcExit (name : ImportName) : Bool :=
  TsSdk.decodeText name.module == TsSdk.text "wasi_snapshot_preview1" &&
    TsSdk.decodeText name.field == TsSdk.text "proc_exit"

/-- The last function import that reads as `proc_exit`, by its function index. -/
def exitFunction (m : Module) : Option Nat :=
  ((List.range m.importedFunctions.length).filter fun f =>
    (m.importedFunctions[f]?.map (·.1)).any readsProcExit).getLast?

/-- What the bodies of `m` are rewritten with. -/
def contextOf (m : Module) (interval : Nat) : Context where
  importedFunctions := m.importedFunctions.length
  exitFunction := exitFunction m
  counter := m.importedGlobals.length + m.globals.length
  interval := interval
  thunkImports :=
    if m.funcs.isEmpty then [] else escaping m.importedFunctions.length (references m)
  definedFunctions := m.funcs.length

/-- The limits of the one defined memory, its maximum lowered to `maximum` pages. -/
def boundedMemory (maximum : Nat) : List Limits → Option Limits
  | [limits] =>
      let declared := limits.max.getD 65536
      if limits.min ≤ declared ∧ declared ≤ 65536 ∧ limits.min ≤ maximum then
        some ⟨limits.min, some (min maximum declared)⟩
      else none
  | _ => none

/-- The parameter count of a type index. -/
def paramCount (m : Module) (type : Nat) : Nat :=
  (m.types[type]?.map (·.params.length)).getD 0

/-- The thunks, in the order of their imports. -/
def thunks (ctx : Context) (m : Module) : List Func :=
  ctx.thunkImports.map fun f =>
    let type := (m.funcTypes[f]?).getD 0
    thunkBody ctx type (paramCount m type) f

def rewriteElem (ctx : Context) (e : Elem) : Elem where
  mode := match e.mode with
    | .active table offset => .active table (constant ctx offset)
    | mode => mode
  type := e.type
  init := e.init.map (constant ctx)

/-- A declarative segment of every thunk: valid `ref.func` targets in code. -/
def declareThunks (ctx : Context) : List Elem :=
  if ctx.thunkImports.isEmpty then []
  else [{ mode := .declarative
          type := .funcref
          init := ctx.thunkImports.map fun f => [.ref_func (ctx.reference f)] }]

/-- The checks of the section headers that the abstract syntax leaves open. -/
def accepted (m : Module) (interval : Nat) : Bool :=
  (1 ≤ interval && interval ≤ 2 ^ 31 - 1) &&
    m.importedFunctions.all (·.2 < m.types.length) &&
    m.funcs.all (·.type < m.types.length) &&
    m.exports.all (TsSdk.decodeText ·.name != TsSdk.text "capnp_wasm.countdown")

/-- The reserved export name reads as itself. -/
theorem decodeText_countdownExport :
    TsSdk.decodeText countdownExport = TsSdk.text "capnp_wasm.countdown" := by decide +kernel

/-- `instrument`: bound the memory and inject the interruption checks. -/
def instrument (m : Module) (maximum interval : Nat) : Option Module :=
  let ctx := contextOf m interval
  if accepted m interval then do
    let memory ← boundedMemory maximum m.memories
    let funcs ← m.funcs.mapM fun f => functionBody ctx (paramCount m f.type) f
    some {
      types := m.types ++ [⟨[], [.i32]⟩]
      imports := m.imports ++ [⟨interruptImport, .func m.types.length⟩]
      funcs := funcs ++ thunks ctx m
      tables := m.tables
      memories := [memory]
      tags := m.tags
      globals := m.globals.map (fun g => { g with init := constant ctx g.init }) ++
        [⟨⟨.i32, true⟩, [.i32_const (.ofNat 32 interval)]⟩]
      exports := m.exports.map (fun e =>
          if e.kind = .func then { e with index := ctx.shift e.index } else e) ++
        [⟨countdownExport, .global, ctx.counter⟩]
      start := m.start.map ctx.shift
      elems := m.elems.map (rewriteElem ctx) ++ declareThunks ctx
      datas := m.datas }
  else none

end Rewriter
