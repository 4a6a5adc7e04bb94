import CapnpcWasm.Binary.Memory
import CapnpcWasm.TsSdk.Modes

/-!
# The rewriter on bytes

`instrument` of `sdk/typescript/rewriter.ts`, function by function: one pass over the sections of a
module that copies, renumbers and inserts.
-/

namespace Binary

open TsSdk Leb

/-! ## Names -/

def interruptModule : JsString := TsSdk.text "capnp_wasm"

def interruptName : JsString := TsSdk.text "interrupt"

def countdownExport : JsString := TsSdk.text "capnp_wasm.countdown"

def Writer.name (w : Writer) (value : JsString) : Writer :=
  let bytes := encodeText value
  (w.u32 bytes.length).bytes bytes

/-- A byte as `0x` and two digits, for messages. -/
def hex (value : UInt8) : String :=
  let digit (n : Nat) : Char := if n < 10 then Char.ofNat (48 + n) else Char.ofNat (87 + n)
  String.ofList ['0', 'x', digit (value.toNat / 16), digit (value.toNat % 16)]

def unsupported {α : Type} (what : String) : Except TypeError α := .error (typeError ("unsupported Wasm " ++ what))

/-! ## Types -/

/-- Section ids in their required order; tags (13) sit between memory and globals. -/
def sectionOrder (id : UInt8) : Option Nat :=
  match id.toNat with
  | 1 => some 1
  | 2 => some 2
  | 3 => some 3
  | 4 => some 4
  | 5 => some 5
  | 13 => some 6
  | 6 => some 7
  | 7 => some 8
  | 8 => some 9
  | 9 => some 10
  | 12 => some 11
  | 10 => some 12
  | 11 => some 13
  | _ => none

/-- Custom sections without code offsets or function indices, kept verbatim. -/
def keptCustomSections : List JsString := [TsSdk.text "producers", TsSdk.text "target_features"]

/-- Single-byte value types. -/
def valueTypes : List UInt8 :=
  [0x7f, 0x7e, 0x7d, 0x7c, 0x7b, 0x74, 0x73, 0x72, 0x71, 0x70, 0x6f, 0x6e, 0x6d, 0x6c, 0x6b, 0x6a, 0x69]

/-- A heap type is an s33: an abstract type code or a type index. -/
def heapType (r : Reader) : Except TypeError Reader := r.leb 5

def valueType (r : Reader) : Except TypeError Reader := do
  let (code, r) ← r.byte
  if code = 0x63 ∨ code = 0x64 then heapType r
  else if code ∈ valueTypes then .ok r
  else unsupported ("value type " ++ hex code)

def blockType (r : Reader) : Except TypeError Reader := do
  let (code, r) ← r.byte
  if code = 0x63 ∨ code = 0x64 then heapType r
  else if code &&& 128 ≠ 0 then r.leb 4
  else .ok r

/-- Reads a number that is not looked at. -/
def skipU32 (r : Reader) : Except TypeError Reader := do
  let (_, r) ← r.u32
  return r

/-- Skips what is there only under a condition. -/
def skipIf (c : Prop) [Decidable c] (p : Reader → Except TypeError Reader) (r : Reader) :
    Except TypeError Reader :=
  if c then p r else .ok r

def memoryArgument (r : Reader) : Except TypeError Reader := do
  let (alignment, r) ← r.u32
  let r ← skipIf (alignment &&& 64 ≠ 0) skipU32 r
  r.leb 10

/-- A reference type with 32-bit limits; table64 is not supported. -/
def tableType (r : Reader) : Except TypeError Reader := do
  let r ← valueType r
  let (flags, r) ← r.byte
  if 1 < flags then unsupported "table limits"
  else
    let r ← skipU32 r
    skipIf (flags = 1) skipU32 r

/-- SIMD sub-opcodes up to the last relaxed SIMD instruction that no instruction uses. -/
def unassignedSimd : List Nat :=
  [0x9a, 0xa2, 0xa5, 0xa6, 0xaf, 0xb0, 0xb2, 0xb3, 0xb4, 0xbb, 0xc2, 0xc5, 0xc6, 0xcf, 0xd0, 0xd2,
    0xd3, 0xd4, 0xe2, 0xee]

/-- SIMD sub-opcodes with immediates.  Every other assigned one has none. -/
def simdImmediates (code : Nat) (r : Reader) : Except TypeError Reader :=
  if code ≤ 0x0b ∨ code = 0x5c ∨ code = 0x5d then memoryArgument r
  else if code = 0x0c ∨ code = 0x0d then r.skip 16
  else if 0x15 ≤ code ∧ code ≤ 0x22 then r.skip 1
  else if 0x54 ≤ code ∧ code ≤ 0x5b then do
    let r ← memoryArgument r
    r.skip 1
  else if 0x113 < code ∨ code ∈ unassignedSimd then
    unsupported ("instruction 0xfd " ++ toString code)
  else .ok r

def repeat_ (p : Reader → Except TypeError Reader) : Nat → Reader → Except TypeError Reader
  | 0, r => .ok r
  | count + 1, r => do
      let r ← p r
      repeat_ p count r

/-! ## Injected sequences -/

def memoryBulk : List Nat := [8, 10, 11]

def tableBulk : List Nat := [12, 14, 15, 17]

def memoryChargeShift : Nat := 10

def tableChargeShift : Nat := 4

/-- The stack-neutral check: poll every `interval` ticks, trap on a nonzero answer. -/
def checkSequence (counter interrupt : Nat) (interval : BitVec 32) : Bytes :=
  let check := Writer.empty
  let check := (check.byte 0x23).u32 counter -- global.get $countdown
  let check := check.byte 0x45 -- i32.eqz
  let check := (check.byte 0x04).byte 0x40 -- if
  let check := (check.byte 0x10).u32 interrupt -- call $interrupt
  let check := (check.byte 0x04).byte 0x40 -- if
  let check := check.byte 0x00 -- unreachable
  let check := check.byte 0x0b -- end
  let check := (check.byte 0x41).s32 interval -- i32.const interval
  let check := (check.byte 0x24).u32 counter -- global.set $countdown
  let check := check.byte 0x0b -- end
  let check := (check.byte 0x23).u32 counter -- global.get $countdown
  let check := (check.byte 0x41).byte 0x01 -- i32.const 1
  let check := check.byte 0x6b -- i32.sub
  let check := (check.byte 0x24).u32 counter -- global.set $countdown
  check.contents

/-- The charge before a bulk operation, around its size operand, which it keeps in `scratch`. -/
def chargeSequence (counter scratch interrupt : Nat) (interval : BitVec 32) (shift : Nat) : Bytes :=
  let ticks (charge : Writer) : Writer :=
    let charge := (charge.byte 0x20).u32 scratch -- local.get $scratch
    let charge := (charge.byte 0x41).s32 (BitVec.ofNat 32 shift) -- i32.const shift
    charge.byte 0x76 -- i32.shr_u
  let charge := Writer.empty
  let charge := (charge.byte 0x22).u32 scratch -- local.tee $scratch
  let charge := (charge.byte 0x41).s32 (1 <<< shift) -- i32.const 1 << shift
  let charge := charge.byte 0x4f -- i32.ge_u
  let charge := (charge.byte 0x04).byte 0x40 -- if
  let charge := ticks charge
  let charge := (charge.byte 0x23).u32 counter -- global.get $countdown
  let charge := charge.byte 0x4f -- i32.ge_u
  let charge := (charge.byte 0x04).byte 0x40 -- if
  let charge := (charge.byte 0x10).u32 interrupt -- call $interrupt
  let charge := (charge.byte 0x04).byte 0x40 -- if
  let charge := charge.byte 0x00 -- unreachable
  let charge := charge.byte 0x0b -- end
  let charge := (charge.byte 0x41).s32 interval -- i32.const interval
  let charge := (charge.byte 0x24).u32 counter -- global.set $countdown
  let charge := charge.byte 0x05 -- else
  let charge := (charge.byte 0x23).u32 counter -- global.get $countdown
  let charge := ticks charge
  let charge := charge.byte 0x6b -- i32.sub
  let charge := (charge.byte 0x24).u32 counter -- global.set $countdown
  let charge := charge.byte 0x0b -- end
  let charge := charge.byte 0x0b -- end
  let charge := (charge.byte 0x20).u32 scratch -- local.get $scratch
  charge.contents

/-- Parameters plus locals per function in every engine. -/
def maxLocals : Nat := 50000

/-! ## The state of a pass -/

/-- The name section's fate. -/
inductive Names where
  | renumbered
  | dropped
  | absent
deriving DecidableEq, Repr

/-- What a pass counts. -/
structure Counts where
  functions : Nat
  entryChecks : Nat
  loopChecks : Nat
  importChecks : Nat
  bulkChecks : Nat
  thunks : Nat
  names : Names

/-- The added entries that are still to be written. -/
structure Pending where
  type : Bool
  import_ : Bool
  global : Bool
  export_ : Bool

/-- The function section, which waits in `slot` until the thunks are known. -/
structure FunctionSection where
  entries : Bytes
  slot : Nat

/-- `thunks` has the imports used as values with their thunks, in the order they were found. -/
structure State where
  output : Writer
  result : Counts
  lastOrder : Nat
  typeCount : Nat
  paramCounts : List Nat
  importedFunctions : Nat
  importTypes : List Nat
  importedGlobals : Nat
  definedGlobals : Nat
  definedFunctions : Nat
  functionTypes : List Nat
  exitFunction : Option Nat
  memorySeen : Bool
  codeSeen : Bool
  pending : Pending
  functions : Option FunctionSection
  thunks : List (Nat × Nat)
  elementsSeen : Bool
  sealed_ : Bool

def State.start : State where
  output := Writer.empty.bytes header
  result := ⟨0, 0, 0, 0, 0, 0, .absent⟩
  lastOrder := 0
  typeCount := 0
  paramCounts := []
  importedFunctions := 0
  importTypes := []
  importedGlobals := 0
  definedGlobals := 0
  definedFunctions := 0
  functionTypes := []
  exitFunction := none
  memorySeen := false
  codeSeen := false
  pending := ⟨true, true, true, true⟩
  functions := none
  thunks := []
  elementsSeen := false
  sealed_ := false

namespace State

def shift (s : State) (index : Nat) : Nat :=
  if s.importedFunctions ≤ index then index + 1 else index

def countdown (s : State) : Nat := s.importedGlobals + s.definedGlobals

/-- A function index used as a value. -/
def reference (s : State) (index : Nat) : Except TypeError (Nat × State) :=
  if s.importedFunctions ≤ index then .ok (index + 1, s)
  else if s.definedFunctions = 0 then .ok (index, s)
  else
    match s.thunks.lookup index with
    | some thunk => .ok (thunk, s)
    | none =>
        if s.sealed_ then .error (typeError "undeclared Wasm function reference")
        else
          let thunk := s.importedFunctions + 1 + s.definedFunctions + s.thunks.length
          .ok (thunk, { s with thunks := s.thunks ++ [(index, thunk)] })

end State

def framed (id : UInt8) (payload : Writer) : Writer :=
  ((Writer.empty.byte id).u32 payload.length).append payload

namespace State

def emit (s : State) (id : UInt8) (payload : Writer) : State :=
  { s with output := s.output.append (framed id payload) }

end State

def done (r : Reader) (what : String) : Except TypeError Unit :=
  if r.position ≠ r.end_ then .error (typeError ("invalid Wasm " ++ what ++ " section")) else .ok ()

/-! ## Added entries -/

def interruptType (payload : Writer) : Writer :=
  (((payload.byte 0x60).byte 0).byte 1).byte 0x7f

namespace State

def interruptImport (s : State) (payload : Writer) : Writer :=
  (((payload.name interruptModule).name interruptName).byte 0).u32 s.typeCount

/-- A declarative segment of every thunk. -/
def declareThunks (s : State) (payload : Writer) : Writer :=
  let payload := ((payload.u32 3).byte 0).u32 s.thunks.length
  s.thunks.foldl (fun payload thunk => payload.u32 thunk.2) payload

def countdownEntry (s : State) (payload : Writer) : Writer :=
  ((payload.name countdownExport).byte 3).u32 s.countdown

/-- The function section with one entry for each thunk. -/
def functionPayload (s : State) (f : FunctionSection) : Writer :=
  let payload := (Writer.empty.u32 (s.definedFunctions + s.thunks.length)).bytes f.entries
  s.thunks.foldl (fun payload thunk => payload.u32 (s.importTypes[thunk.1]?.getD 0)) payload

/-- An element section of the thunks where the module has none. -/
def sealElements (s : State) : State :=
  if s.elementsSeen = false ∧ s.thunks ≠ [] then
    { s with elementsSeen := true }.emit 9 (s.declareThunks (Writer.empty.u32 1))
  else s

/-- Fixes the thunk set.  A slot is always one that was reserved. -/
def seal_ (s : State) : Except TypeError State :=
  if s.sealed_ then .ok s
  else
    let s := { s with sealed_ := true, result := { s.result with thunks := s.thunks.length } }.sealElements
    match s.functions with
    | none => .ok s
    | some f =>
        match s.output.fill f.slot (framed 3 (s.functionPayload f)) with
        | none => .error (typeError "Cannot read properties of undefined (reading 'length')")
        | some output => .ok { s with output := output }

end State

def countdownGlobal (interval : BitVec 32) (payload : Writer) : Writer :=
  ((((payload.byte 0x7f).byte 1).byte 0x41).s32 interval).byte 0x0b

namespace State

def single (s : State) (id : UInt8) (entry : Writer → Writer) : State :=
  s.emit id (entry (Writer.empty.u32 1))

/-- Emits the added entries' sections that belong before an order and were absent. -/
def synthesizeBefore (interval : BitVec 32) (s : State) (order : Nat) : Except TypeError State :=
  let s := if s.pending.type ∧ 1 < order then
    { s with pending := { s.pending with type := false } }.single 1 interruptType else s
  let s := if s.pending.import_ ∧ 2 < order then
    { s with pending := { s.pending with import_ := false } }.single 2 s.interruptImport else s
  let s := if s.pending.global ∧ 7 < order then
    { s with pending := { s.pending with global := false } }.single 6 (countdownGlobal interval) else s
  let s := if s.pending.export_ ∧ 8 < order then
    { s with pending := { s.pending with export_ := false } }.single 7 s.countdownEntry else s
  if 10 < order then s.seal_ else .ok s

end State

/-! ## Loops -/

/-- `for (let i = 0; i < count; i++)`. -/
def times {σ : Type} (round : σ → Reader → Except TypeError (σ × Reader)) :
    Nat → σ → Reader → Except TypeError (σ × Reader)
  | 0, s, r => .ok (s, r)
  | count + 1, s, r => do
      let (s, r) ← round s r
      times round count s r

/-- `while (reader.position < reader.end)`, with as many rounds as there are bytes: every round reads
one. -/
def whileMore {σ : Type} (round : σ → Reader → Except TypeError (σ × Reader)) :
    Nat → σ → Reader → Except TypeError (σ × Reader)
  | 0, s, r => .ok (s, r)
  | fuel + 1, s, r =>
      if r.position < r.end_ then do
        let (s, r) ← round s r
        whileMore round fuel s r
      else .ok (s, r)

/-! ## Constant expressions -/

/-- The extended constants: i32 and i64 add, sub and mul. -/
def arithmeticOps : List UInt8 := [0x6a, 0x6b, 0x6c, 0x7c, 0x7d, 0x7e]

/-- Of the vector instructions, only `v128.const` is constant. -/
def simdConstant (r : Reader) : Except TypeError Reader := do
  let (code, r) ← r.u32
  if code ≠ 0x0c then unsupported "constant instruction 0xfd" else r.skip 16

/-- The immediates of a constant instruction other than `end` and `ref.func`. -/
def constantImmediates (op : UInt8) (r : Reader) : Except TypeError Reader :=
  if op = 0x41 then r.leb 5
  else if op = 0x42 then r.leb 10
  else if op = 0x43 then r.skip 4
  else if op = 0x44 then r.skip 8
  else if op = 0x23 then skipU32 r
  else if op = 0xd0 then heapType r
  else if op ∈ arithmeticOps then .ok r
  else if op = 0xfd then simdConstant r
  else unsupported ("constant instruction " ++ hex op)

/-- Copies a constant expression, renumbering `ref.func`.  A round reads a byte, so where no round is
left the next byte is missing. -/
def constantRounds : Nat → State × Writer → Reader → Except TypeError ((State × Writer) × Reader)
  | 0, _, _ => .error (typeError "truncated Wasm section")
  | fuel + 1, (s, payload), r => do
      let start := r.position
      let (op, r) ← r.byte
      if op = 0x0b then return ((s, payload.byte op), r)
      else if op = 0xd2 then
        let (index, r) ← r.u32
        let (f, s) ← s.reference index
        constantRounds fuel (s, (payload.byte op).u32 f) r
      else
        let r ← constantImmediates op r
        constantRounds fuel (s, payload.bytes (r.slice start r.position)) r

def constant (x : State × Writer) (r : Reader) : Except TypeError ((State × Writer) × Reader) :=
  constantRounds (r.end_ - r.position) x r

/-! ## Sections -/

def functionType (paramCounts : List Nat) (r : Reader) : Except TypeError (List Nat × Reader) := do
  let (form, r) ← r.byte
  if form ≠ 0x60 then
    unsupported "type: only function types are supported (no GC types or recursion groups)"
  else
    let (params, r) ← r.u32
    let r ← repeat_ valueType params r
    let (results, r) ← r.u32
    let r ← repeat_ valueType results r
    return (paramCounts ++ [params], r)

def mutability (r : Reader) : Except TypeError Reader := do
  let (mutable_, r) ← r.byte
  if 1 < mutable_ then unsupported "global mutability" else .ok r

/-- A memory import: shared and 64-bit ones are refused. -/
def memoryImport (r : Reader) : Except TypeError Reader := do
  let (flags, r) ← r.byte
  if 15 < flags ∨ flags &&& 6 ≠ 0 then unsupported "memory import"
  else
    let r ← r.leb 10
    let r ← skipIf (flags &&& 1 ≠ 0) (·.leb 10) r
    skipIf (flags &&& 8 ≠ 0) skipU32 r

def tagType (r : Reader) : Except TypeError Reader := do
  let (reserved, r) ← r.byte
  if reserved ≠ 0 then unsupported "tag" else skipU32 r

namespace State

def types (s : State) (r : Reader) : Except TypeError State := do
  let (count, r) ← r.u32
  let entries := r.position
  let (paramCounts, r) ← times functionType count s.paramCounts r
  done r "type"
  let payload := (Writer.empty.u32 (count + 1)).bytes (r.slice entries r.end_)
  let s := { s with paramCounts := paramCounts, typeCount := count
                    pending := { s.pending with type := false } }
  return s.emit 1 (interruptType payload)

def importEntry (s : State) (r : Reader) : Except TypeError (State × Reader) := do
  let (moduleName, r) ← r.name
  let (fieldName, r) ← r.name
  let (kind, r) ← r.byte
  match kind.toNat with
  | 0 =>
      let (type, r) ← r.u32
      if s.typeCount ≤ type then .error (typeError "invalid Wasm type index")
      else
        let exits := moduleName = TsSdk.text "wasi_snapshot_preview1" ∧ fieldName = TsSdk.text "proc_exit"
        return ({ s with importTypes := s.importTypes ++ [type]
                         exitFunction := if exits then some s.importedFunctions else s.exitFunction
                         importedFunctions := s.importedFunctions + 1 }, r)
  | 1 =>
      let r ← tableType r
      return (s, r)
  | 2 =>
      let r ← memoryImport r
      return (s, r)
  | 3 =>
      let r ← valueType r
      let r ← mutability r
      return ({ s with importedGlobals := s.importedGlobals + 1 }, r)
  | 4 =>
      let r ← tagType r
      return (s, r)
  | _ => unsupported ("import kind " ++ toString kind.toNat)

def imports (s : State) (r : Reader) : Except TypeError State := do
  let (count, r) ← r.u32
  let entries := r.position
  let (s, r) ← times importEntry count s r
  done r "import"
  let payload := (Writer.empty.u32 (count + 1)).bytes (r.slice entries r.end_)
  let s := { s with pending := { s.pending with import_ := false } }
  return s.emit 2 (s.interruptImport payload)

def functionEntry (s : State) (r : Reader) : Except TypeError (State × Reader) := do
  let (type, r) ← r.u32
  if s.typeCount ≤ type then .error (typeError "invalid Wasm type index")
  else return ({ s with functionTypes := s.functionTypes ++ [type] }, r)

/-- The case of the function section. -/
def functionSection (s : State) (r : Reader) : Except TypeError State := do
  let (count, r) ← r.u32
  let entries := r.position
  let (s, r) ← times functionEntry count s r
  done r "function"
  let (slot, output) := s.output.slot
  return { s with definedFunctions := count, output := output
                  functions := some ⟨r.slice entries r.end_, slot⟩ }

def tableEntry (r : Reader) : Except TypeError Reader :=
  if r.bytes[r.position]? = some 0x40 then unsupported "table initializer" else tableType r

def tables (s : State) (r : Reader) : Except TypeError State := do
  let start := r.position
  let (count, r) ← r.u32
  let r ← repeat_ tableEntry count r
  done r "table"
  return s.emit 4 (Writer.empty.bytes (r.slice start r.end_))

/-- The case of the memory section. -/
def memory (maximum : Nat) (s : State) (r : Reader) : Except TypeError State := do
  let payload ← boundedMemory r maximum
  let s := { s with memorySeen := true }
  return s.emit 5 (payload.foldl Writer.byte Writer.empty)

def globalEntry (x : State × Writer) (r : Reader) : Except TypeError ((State × Writer) × Reader) := do
  let start := r.position
  let r ← valueType r
  let r ← mutability r
  constant (x.1, x.2.bytes (r.slice start r.position)) r

def globals (interval : BitVec 32) (s : State) (r : Reader) : Except TypeError State := do
  let (count, r) ← r.u32
  let ((s, payload), r) ← times globalEntry count (s, Writer.empty.u32 (count + 1)) r
  done r "global"
  let s := { s with definedGlobals := count, pending := { s.pending with global := false } }
  return s.emit 6 (countdownGlobal interval payload)

/-- An exported import stays the host's function, but lets code take it with `ref.func`. -/
def exportEntry (x : State × Writer) (r : Reader) : Except TypeError ((State × Writer) × Reader) := do
  let (s, payload) := x
  let start := r.position
  let (name, r) ← r.name
  if name = countdownExport then
    .error (typeError "the export name capnp_wasm.countdown is reserved")
  else
    let payload := payload.bytes (r.slice start r.position)
    let (kind, r) ← r.byte
    if 4 < kind then unsupported ("export kind " ++ toString kind.toNat)
    else
      let (index, r) ← r.u32
      if kind = 0 then
        let (_, s) ← s.reference index
        return ((s, (payload.byte kind).u32 (s.shift index)), r)
      else return ((s, (payload.byte kind).u32 index), r)

def exports (s : State) (r : Reader) : Except TypeError State := do
  let (count, r) ← r.u32
  let ((s, payload), r) ← times exportEntry count (s, Writer.empty.u32 (count + 1)) r
  done r "export"
  let s := { s with pending := { s.pending with export_ := false } }
  return s.emit 7 (s.countdownEntry payload)

/-- The case of the start section. -/
def start_ (s : State) (r : Reader) : Except TypeError State := do
  let (index, r) ← r.u32
  done r "start"
  return s.emit 8 (Writer.empty.u32 (s.shift index))

def elementIndex (x : State × Writer) (r : Reader) : Except TypeError ((State × Writer) × Reader) := do
  let (index, r) ← r.u32
  let (f, s) ← x.1.reference index
  return ((s, x.2.u32 f), r)

/-- The table index and the offset of an active segment. -/
def elementOffset (flags : Nat) (x : State × Writer) (r : Reader) :
    Except TypeError ((State × Writer) × Reader) :=
  if flags &&& 1 ≠ 0 then .ok (x, r)
  else if flags &&& 2 ≠ 0 then do
    let (table, r) ← r.u32
    constant (x.1, x.2.u32 table) r
  else constant x r

/-- The type of a segment of expressions. -/
def elementType (flags : Nat) (segments : Writer) (r : Reader) : Except TypeError (Writer × Reader) :=
  if flags &&& 3 ≠ 0 then do
    let start := r.position
    let r ← valueType r
    return (segments.bytes (r.slice start r.position), r)
  else .ok (segments, r)

/-- The kind of a segment of functions. -/
def elementKind (flags : Nat) (segments : Writer) (r : Reader) : Except TypeError (Writer × Reader) :=
  if flags &&& 3 ≠ 0 then do
    let (kind, r) ← r.byte
    if kind ≠ 0 then unsupported "element kind" else return (segments.byte 0, r)
  else .ok (segments, r)

def elementEntry (x : State × Writer) (r : Reader) : Except TypeError ((State × Writer) × Reader) := do
  let (flags, r) ← r.u32
  if 7 < flags then unsupported "element segment"
  else
    let ((s, segments), r) ← elementOffset flags (x.1, x.2.u32 flags) r
    if flags &&& 4 ≠ 0 then
      let (segments, r) ← elementType flags segments r
      let (length, r) ← r.u32
      times constant length (s, segments.u32 length) r
    else
      let (segments, r) ← elementKind flags segments r
      let (length, r) ← r.u32
      times elementIndex length (s, segments.u32 length) r

def elements (s : State) (r : Reader) : Except TypeError State := do
  let (count, r) ← r.u32
  let ((s, segments), r) ← times elementEntry count (s, Writer.empty) r
  done r "element"
  let s := { s with elementsSeen := true }
  let payload := (Writer.empty.u32 (count + if s.thunks ≠ [] then 1 else 0)).append segments
  let payload := if s.thunks ≠ [] then s.declareThunks payload else payload
  (s.emit 9 payload).seal_

end State

/-! ## Bodies -/

/-- What a pass over a body keeps: the instructions written so far, where the bytes that were only
read begin, whether the body calls guest code, the value of an `i32.const` just before, and the
units that were charged. -/
structure Body where
  state : State
  instructions : Writer
  from_ : Nat
  callsGuest : Bool
  constant : Option (BitVec 32)
  charges : List Nat

/-- What stays the same during a pass over a body. -/
structure BodyContext where
  check : Bytes
  scratch : Nat
  interval : BitVec 32

namespace Body

def copyUntil (b : Body) (r : Reader) (position : Nat) : Body :=
  if b.from_ < position then
    { b with instructions := b.instructions.bytes (r.slice b.from_ position) }
  else b

def write (b : Body) (bytes : Bytes) : Body := { b with instructions := b.instructions.bytes bytes }

/-- The charge for a unit, and that it was made. -/
def charge (ctx : BodyContext) (b : Body) (shift : Nat) : Body :=
  let sequence := chargeSequence b.state.countdown ctx.scratch b.state.importedFunctions ctx.interval shift
  { b.write sequence with
    charges := if shift ∈ b.charges then b.charges else b.charges ++ [shift] }

def countLoop (b : Body) : Body :=
  { b with state := { b.state with
      result := { b.state.result with loopChecks := b.state.result.loopChecks + 1 } } }

def countImport (b : Body) : Body :=
  { b with state := { b.state with
      result := { b.state.result with importChecks := b.state.result.importChecks + 1 } } }

def countBulk (b : Body) : Body :=
  { b with state := { b.state with
      result := { b.state.result with bulkChecks := b.state.result.bulkChecks + 1 } } }

end Body

/-- A catch clause of `try_table`. -/
def catchClause (r : Reader) : Except TypeError Reader := do
  let (kind, r) ← r.byte
  if 3 < kind then unsupported "catch clause"
  else
    let r ← skipIf (kind < 2) skipU32 r
    skipU32 r

def atomicImmediates (code : Nat) (r : Reader) : Except TypeError Reader :=
  if code = 3 then r.skip 1 -- atomic.fence
  else if code ≤ 2 ∨ 0x10 ≤ code ∧ code ≤ 0x4e then memoryArgument r
  else unsupported ("instruction 0xfe " ++ toString code)

/-- Opcodes without immediates. -/
def plainOps : List UInt8 :=
  [0x00, 0x01, 0x05, 0x0a, 0x0b, 0x0f, 0x19, 0x1a, 0x1b, 0xd1, 0xd3, 0xd4]

/-- `block`, `if` and the legacy `try`. -/
def blockOps : List UInt8 := [0x02, 0x04, 0x06]

/-- Opcodes with one index or label. -/
def indexOps : List UInt8 :=
  [0x07, 0x08, 0x09, 0x0c, 0x0d, 0x18, 0x20, 0x21, 0x22, 0x23, 0x24, 0x25, 0x26, 0x3f, 0x40, 0xd5, 0xd6]

def brTable (r : Reader) : Except TypeError Reader := do
  let (length, r) ← r.u32
  repeat_ skipU32 (length + 1) r

def selectTypes (r : Reader) : Except TypeError Reader := do
  let (length, r) ← r.u32
  repeat_ valueType length r

def tryTable (r : Reader) : Except TypeError Reader := do
  let r ← blockType r
  let (length, r) ← r.u32
  repeat_ catchClause length r

def simd (r : Reader) : Except TypeError Reader := do
  let (code, r) ← r.u32
  simdImmediates code r

def atomic (r : Reader) : Except TypeError Reader := do
  let (code, r) ← r.u32
  atomicImmediates code r

/-- The immediates of an instruction that is only copied. -/
def immediates (op : UInt8) (r : Reader) : Except TypeError Reader :=
  if op ∈ plainOps then .ok r
  else if op ∈ blockOps then blockType r
  else if op ∈ indexOps then skipU32 r
  else if op = 0x0e then brTable r
  else if op = 0x1c then selectTypes r
  else if op = 0x1f then tryTable r
  else if op = 0x42 then r.leb 10
  else if op = 0x43 then r.skip 4
  else if op = 0x44 then r.skip 8
  else if op = 0xd0 then heapType r
  else if op = 0xfd then simd r
  else if op = 0xfe then atomic r
  else if 0x28 ≤ op ∧ op ≤ 0x3e then memoryArgument r
  else if op < 0x45 ∨ 0xc4 < op then unsupported ("instruction " ++ hex op)
  else .ok r

/-- The immediates of an instruction under `0xfc`. -/
def bulkImmediates (code : Nat) (r : Reader) : Except TypeError Reader :=
  if code ≤ 7 then .ok r -- saturating truncation
  else if code = 8 ∨ code = 10 ∨ code = 12 ∨ code = 14 then repeat_ skipU32 2 r
  else if code ≤ 17 then skipU32 r
  else unsupported ("instruction 0xfc " ++ toString code)

/-- The shift of the unit in which an instruction under `0xfc` is charged. -/
def bulkUnit (code : Nat) : Option Nat :=
  if code ∈ memoryBulk then some memoryChargeShift
  else if code ∈ tableBulk then some tableChargeShift
  else none

/-- A constant size below one tick. -/
def smallSize (operand : Option (BitVec 32)) (unit : Nat) : Bool :=
  match operand with
  | none => false
  | some value => decide (0 ≤ value.toInt) && decide (value.sshiftRight unit = 0)

namespace Body

/-- A direct call, plain or in tail position. -/
def call (ctx : BodyContext) (b : Body) (at_ : Nat) (op : UInt8) (r : Reader) :
    Except TypeError (Body × Reader) := do
  let (callee, r) ← r.u32
  let b := { b.copyUntil r at_ with from_ := r.position }
  if b.state.importedFunctions ≤ callee then
    return ({ b with callsGuest := true
                     instructions := (b.instructions.byte op).u32 (b.state.shift callee) }, r)
  else
    let b := { b with instructions := (b.instructions.byte 0x10).u32 callee }
    if b.state.exitFunction = some callee then
      return ({ b with instructions := b.instructions.byte 0x00 }, r)
    else
      let b := (b.write ctx.check).countImport
      return (if op = 0x12 then { b with instructions := b.instructions.byte 0x0f } else b, r)

/-- `ref.func`. -/
def refFunc (b : Body) (at_ : Nat) (op : UInt8) (r : Reader) : Except TypeError (Body × Reader) := do
  let (index, r) ← r.u32
  let b := { b.copyUntil r at_ with from_ := r.position }
  let (f, state) ← b.state.reference index
  return ({ b with state := state, instructions := (b.instructions.byte op).u32 f }, r)

/-- An instruction under `0xfc`, with the constant just before. -/
def bulk (ctx : BodyContext) (b : Body) (at_ : Nat) (operand : Option (BitVec 32)) (r : Reader) :
    Except TypeError (Body × Reader) := do
  let (code, r) ← r.u32
  let r ← bulkImmediates code r
  match bulkUnit code with
  | none => return (b, r)
  | some unit =>
      if smallSize operand unit then return (b, r)
      else
        -- The operation itself is copied with the bytes that follow.
        let b := { b.copyUntil r at_ with from_ := at_ }
        return ((b.charge ctx unit).countBulk, r)

/-- One instruction. -/
def instruction (ctx : BodyContext) (b : Body) (r : Reader) : Except TypeError (Body × Reader) := do
  let at_ := r.position
  let (op, r) ← r.byte
  let operand := b.constant
  let b := { b with constant := none }
  if op = 0x03 then -- loop
    let r ← blockType r
    let b := { b.copyUntil r r.position with from_ := r.position }
    return ((b.write ctx.check).countLoop, r)
  else if op = 0x10 ∨ op = 0x12 then b.call ctx at_ op r
  else if op = 0xd2 then b.refFunc at_ op r
  else if op = 0x11 ∨ op = 0x13 then -- call_indirect and return_call_indirect
    let r ← repeat_ skipU32 2 r
    return ({ b with callsGuest := true }, r)
  else if op = 0x14 ∨ op = 0x15 then -- call_ref and return_call_ref
    let r ← skipU32 r
    return ({ b with callsGuest := true }, r)
  else if op = 0x41 then -- i32.const
    let (value, r) ← r.s32
    return ({ b with constant := some value }, r)
  else if op = 0xfc then b.bulk ctx at_ operand r
  else
    let r ← immediates op r
    return (b, r)

end Body

/-- A group of locals, added to how many are declared. -/
def localGroup (declared : Nat) (r : Reader) : Except TypeError (Nat × Reader) := do
  let (count, r) ← r.u32
  let r ← valueType r
  return (declared + count, r)

namespace State

/-- The body with its checks and charges, and the state after it. -/
def functionBody (interval : BitVec 32) (s : State) (r : Reader) (type : Nat) (check : Bytes) :
    Except TypeError (Writer × State) := do
  let (groups, r) ← r.u32
  let groupsStart := r.position
  let (declared, r) ← times localGroup groups 0 r
  let groupsEnd := r.position
  let scratch := s.paramCounts[type]?.getD 0 + declared
  let body : Body := ⟨s, Writer.empty, r.position, false, none, []⟩
  let (b, r) ← whileMore (Body.instruction ⟨check, scratch, interval⟩) (r.end_ - r.position) body r
  let b := b.copyUntil r r.end_
  if b.charges ≠ [] ∧ maxLocals < scratch + 1 then
    unsupported "function: no local is left for bulk operation sizes"
  else
    let head :=
      if b.charges ≠ [] then
        (((Writer.empty.u32 (groups + 1)).bytes (r.slice groupsStart groupsEnd)).u32 1).byte 0x7f
      else (Writer.empty.u32 groups).bytes (r.slice groupsStart groupsEnd)
    let result := { b.state.result with
      entryChecks := b.state.result.entryChecks + if b.callsGuest then 1 else 0 }
    let head := if b.callsGuest then head.bytes check else head
    return (head.append b.instructions, { b.state with result := result })

/-- The body of the function with an index, read by its size. -/
def codeEntry (interval : BitVec 32) (check : Bytes) (x : State × Writer × Nat) (r : Reader) :
    Except TypeError ((State × Writer × Nat) × Reader) := do
  let (s, payload, i) := x
  let (size, r) ← r.u32
  if h : r.end_ < r.position + size then .error (typeError "truncated Wasm section")
  else
    let hsize := Nat.le_of_not_lt h
    let (body, s) ← s.functionBody interval (r.upto size hsize) (s.functionTypes[i]?.getD 0) check
    return ((s, (payload.u32 body.length).append body, i + 1),
      { r with position := r.position + size, within := hsize })

/-- A thunk forwards its parameters to the import and checks after it. -/
def thunkBody (check : Bytes) (s : State) (index : Nat) : Writer :=
  let body := Writer.empty.byte 0
  let params := s.paramCounts[s.importTypes[index]?.getD 0]?.getD 0
  let body := (List.range params).foldl (fun body i => (body.byte 0x20).u32 i) body
  let body := (body.byte 0x10).u32 index
  let body := if s.exitFunction = some index then body.byte 0x00 else body.bytes check
  body.byte 0x0b

def code (interval : BitVec 32) (s : State) (r : Reader) : Except TypeError State := do
  let check := checkSequence s.countdown s.importedFunctions interval
  let (count, r) ← r.u32
  if count ≠ s.definedFunctions then .error (typeError "invalid Wasm code section")
  else
    let s := { s with codeSeen := true }
    let payload := Writer.empty.u32 (count + s.thunks.length)
    let ((s, payload, _), r) ← times (codeEntry interval check) count (s, payload, 0) r
    done r "code"
    let payload := s.thunks.foldl (fun payload thunk =>
      let body := s.thunkBody check thunk.1
      (payload.u32 body.length).append body) payload
    let s := { s with result := { s.result with functions := s.result.functions + count } }
    return s.emit 10 payload

/-! ## Names -/

/-- An entry of the function names. -/
def functionName (s : State) (rewritten : Writer) (r : Reader) : Except TypeError (Writer × Reader) := do
  let (index, r) ← r.u32
  let start := r.position
  let (_, r) ← r.name
  return ((rewritten.u32 (s.shift index)).bytes (r.slice start r.position), r)

def localName (r : Reader) : Except TypeError Reader := do
  let r ← skipU32 r
  let (_, r) ← r.name
  return r

/-- An entry of the local names: the names of one function's locals. -/
def localNames (s : State) (rewritten : Writer) (r : Reader) : Except TypeError (Writer × Reader) := do
  let (index, r) ← r.u32
  let start := r.position
  let (locals, r) ← r.u32
  let r ← repeat_ localName locals r
  return ((rewritten.u32 (s.shift index)).bytes (r.slice start r.position), r)

/-- The contents of a subsection, rewritten.  `none` where it cannot be. -/
def namePart (s : State) (id : UInt8) (part : Reader) : Except TypeError (Option Writer) :=
  match id.toNat with
  | 1 => do
      let (count, part) ← part.u32
      let (rewritten, part) ← times s.functionName count (Writer.empty.u32 count) part
      return if part.position ≠ part.end_ then none else some rewritten
  | 2 => do
      let (count, part) ← part.u32
      let (rewritten, part) ← times s.localNames count (Writer.empty.u32 count) part
      return if part.position ≠ part.end_ then none else some rewritten
  | 0 | 4 | 5 | 6 | 7 | 8 | 9 | 11 =>
      return some (Writer.empty.bytes (part.slice part.position part.end_))
  | _ => return none

/-- One subsection of the name section.  `none` once the section is dropped. -/
def nameRound (s : State) (payload : Option Writer) (r : Reader) :
    Except TypeError (Option Writer × Reader) := do
  let (id, r) ← r.byte
  let (size, r) ← r.u32
  if h : r.position + size ≤ r.end_ then
    let after : Reader := { r with position := r.position + size, within := h }
    let rewritten ← s.namePart id (r.upto size h)
    match payload, rewritten with
    | some payload, some rewritten =>
        return (some (((payload.byte id).u32 rewritten.length).append rewritten), after)
    | _, _ => return (none, after)
  else return (none, r)

/-- Renumbers the name section's function indices, or drops it. -/
def names (s : State) (r : Reader) : Option Writer :=
  if s.lastOrder < 2 then none
  else
    match whileMore s.nameRound (r.end_ - r.position) (some (Writer.empty.name (TsSdk.text "name"))) r with
    | .ok (payload, _) => payload
    | .error _ => none

/-! ## The pass -/

/-- A custom section: the name section, one that is kept, or one that is dropped. -/
def custom (s : State) (payload : Reader) : Except TypeError State := do
  let (name, r) ← payload.name
  if name = TsSdk.text "name" then
    match s.names r with
    | some renamed => return { s with result := { s.result with names := .renumbered } }.emit 0 renamed
    | none => return { s with result := { s.result with names := .dropped } }
  else if name ∈ keptCustomSections then
    return s.emit 0 (Writer.empty.bytes (payload.slice payload.position payload.end_))
  else return s

/-- The case of a section with its place in the order. -/
def numbered (maximum : Nat) (interval : BitVec 32) (s : State) (id : UInt8) (r : Reader) :
    Except TypeError State :=
  match id.toNat with
  | 1 => s.types r
  | 2 => s.imports r
  | 3 => s.functionSection r
  | 4 => s.tables r
  | 5 => s.memory maximum r
  | 6 => s.globals interval r
  | 7 => s.exports r
  | 8 => s.start_ r
  | 9 => s.elements r
  | 10 => s.code interval r
  | _ => .ok (s.emit id (Writer.empty.bytes (r.slice r.position r.end_)))

def pass (maximum : Nat) (interval : BitVec 32) (s : State) (sec : Section) : Except TypeError State :=
  if sec.id = 0 then s.custom sec.payload
  else
    match sectionOrder sec.id with
    | none => unsupported ("section " ++ toString sec.id.toNat)
    | some order =>
        if order ≤ s.lastOrder then .error (typeError "invalid Wasm section order")
        else do
          let s ← { s with lastOrder := order }.synthesizeBefore interval order
          s.numbered maximum interval sec.id sec.payload

/-- What is done once every section was read: `14` is after every order. -/
def conclude (interval : BitVec 32) (s : State) : Except TypeError State := do
  let s ← s.synthesizeBefore interval 14
  if s.memorySeen = false then
    .error (typeError "WASI command requires exactly one defined memory")
  else if 0 < s.definedFunctions ∧ s.codeSeen = false then
    .error (typeError "invalid Wasm code section")
  else return s

end State

/-- What `instrument` throws: a `RangeError` for its interval, a `TypeError` for the module. -/
inductive Thrown where
  | range (message : JsString)
  | type (e : TypeError)

def instrumentBytes (module : Bytes) (maximum : Nat) (interval : BitVec 32) : Except TypeError State :=
  match h : moduleBytes module with
  | .error e => .error e
  | .ok bytes => do
      let s ← walk (State.pass maximum interval) (sections bytes (length_moduleBytes h)) .start
      s.conclude interval

/-- Bounds the memory and injects the checks in one pass over a module. -/
def instrument (module : Bytes) (maximum interval : Nat) : Except Thrown (Bytes × Counts) :=
  if interval < 1 ∨ 2 ^ 31 - 1 < interval then
    .error (.range (TsSdk.text "invalid interruption interval"))
  else
    match instrumentBytes module maximum (BitVec.ofNat 32 interval) with
    | .error e => .error (.type e)
    | .ok s =>
        match s.output.finish with
        | none => .error (.range (TsSdk.text "offset is out of bounds"))
        | some bytes => .ok (bytes, s.result)

end Binary
