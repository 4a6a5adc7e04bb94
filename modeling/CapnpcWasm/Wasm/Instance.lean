import CapnpcWasm.Wasm.Machine

/-!
# Instances

The store a module starts with, and the calls that come from outside.  Constant
expressions have no effect, so one pass over the segments evaluates each and, if it
is active, writes it and drops it.
-/

namespace Wasm

open Run (Next Steps Halts)

/-- What the embedder passes for the imports that are not functions. -/
structure Externs where
  globals : List Val
  tables : List Table
  mems : List Mem
  tags : List Nat

/-- There is one for each import. -/
structure Externs.Fits (ext : Externs) (m : Module) : Prop where
  globals : ext.globals.length = m.importedGlobals.length
  mems : ext.mems.length = m.importedMemories.length

/-! ## Constant expressions -/

/-- One constant instruction, `globals` being the globals before it. -/
def constStep (P : Prims) (globals : List Val) (i : ConstInstr) (vs : List Val) :
    Res (List Val) :=
  match i with
  | .i32_const c => .ok (.i32 c :: vs)
  | .global_get x => (Res.ofStuck globals[x]?).map (· :: vs)
  | .ref_null _ => .ok (.ref .null :: vs)
  | .ref_func f => .ok (.ref (.func f) :: vs)
  | .plain op => do
      let (args, vs) ← popNums (plainType P op).params.length vs
      let (_, out) ← execPlain P op [] args
      .ok ((out.map Val.num).reverse ++ vs)

def constRun (P : Prims) (globals : List Val) : ConstExpr → List Val → Res (List Val)
  | [], vs => .ok vs
  | i :: e, vs => constStep P globals i vs >>= constRun P globals e

/-- The value of a constant expression. -/
def evalConst (P : Prims) (globals : List Val) (e : ConstExpr) : Res Val :=
  constRun P globals e [] >>= fun vs =>
    match vs with
    | [v] => .ok v
    | _ => .stuck

def evalRef (P : Prims) (globals : List Val) (e : ConstExpr) : Res Ref :=
  evalConst P globals e >>= fun v =>
    match v with
    | .ref r => .ok r
    | .num _ => .stuck

def evalOffset (P : Prims) (globals : List Val) (e : ConstExpr) : Res (BitVec 32) :=
  evalConst P globals e >>= fun v =>
    match v with
    | .num (.i32 c) => .ok c
    | _ => .stuck

def evalRefs (P : Prims) (globals : List Val) : List ConstExpr → Res (List Ref)
  | [] => .ok []
  | e :: es => do
      let r ← evalRef P globals e
      let rs ← evalRefs P globals es
      .ok (r :: rs)

/-! ## The first store -/

/-- The globals defined after `globals`. -/
def initGlobals (P : Prims) : List Global → List Val → Res (List Val)
  | [], globals => .ok globals
  | g :: gs, globals => evalConst P globals g.init >>= fun v => initGlobals P gs (globals ++ [v])

namespace Store

/-- Write entries over a table, references of an active segment. -/
def writeTable (st : Store) (t : Nat) (offset : BitVec 32) (rs : List Ref) : Res Store :=
  match st.tables[t]? with
  | none => .stuck
  | some table => .ofTrap <| (splice table.elems rs offset.toNat).map (st.setTable t)

/-- Write bytes over a memory. -/
def writeMem (st : Store) (i : Nat) (offset : BitVec 32) (bytes : List UInt8) : Res Store :=
  match st.mems[i]? with
  | none => .stuck
  | some mem => .ofTrap <| (splice mem.bytes bytes offset.toNat).map (st.setMem i)

end Store

/-- One element segment: kept if it is passive, written if it is active. -/
def initElem (P : Prims) (e : Elem) (st : Store) : Res Store := do
  let rs ← evalRefs P st.globals e.init
  match e.mode with
  | .passive => .ok { st with elems := st.elems ++ [rs] }
  | .declarative => .ok { st with elems := st.elems ++ [[]] }
  | .active t offset => do
      let d ← evalOffset P st.globals offset
      let st ← st.writeTable t d rs
      .ok { st with elems := st.elems ++ [[]] }

def initElems (P : Prims) : List Elem → Store → Res Store
  | [], st => .ok st
  | e :: es, st => initElem P e st >>= initElems P es

/-- One data segment. -/
def initData (P : Prims) (d : Data) (st : Store) : Res Store :=
  match d.mode with
  | .passive => .ok { st with datas := st.datas ++ [d.bytes] }
  | .active i offset => do
      let n ← evalOffset P st.globals offset
      let st ← st.writeMem i n d.bytes
      .ok { st with datas := st.datas ++ [[]] }

def initDatas (P : Prims) : List Data → Store → Res Store
  | [], st => .ok st
  | d :: ds, st => initData P d st >>= initDatas P ds

/-- Addresses for `n` tags, none of them among `tags`. -/
def freshTags (tags : List Nat) (n : Nat) : List Nat :=
  (List.range n).map (· + (tags.foldr max 0 + 1))

def Table.ofType (t : TableType) : Table := ⟨List.replicate t.limits.min .null, t.limits.max⟩

def Mem.ofLimits (l : Limits) : Mem := ⟨List.replicate (l.min * pageSize) 0, l.max⟩

/-- The store before the segments are written. -/
def Module.allocate (m : Module) (ext : Externs) (globals : List Val) : Store where
  mems := ext.mems ++ m.memories.map Mem.ofLimits
  tables := ext.tables ++ m.tables.map Table.ofType
  globals := globals
  elems := []
  datas := []
  tags := ext.tags ++ freshTags ext.tags m.tags.length
  exns := []

/-- The store a module starts with. -/
def Module.instantiate (m : Module) (P : Prims) (ext : Externs) : Res Store := do
  let globals ← initGlobals P m.globals ext.globals
  let st ← initElems P m.elems (m.allocate ext globals)
  initDatas P m.datas st

/-! ## Calls from outside -/

/-- The function exported under a name. -/
def Module.exported? (m : Module) (name : List UInt8) : Option Nat :=
  (m.exports.find? fun e => e.name == name && e.kind == .func).map (·.index)

section

variable {σ : Type} (m : Module) (P : Prims) (h : Host σ)

/-- A call from outside ends with a result. -/
def Ends (s : Step σ) (r : Outcome × World σ) : Prop :=
  match s with
  | .halt r' => r' = r
  | .more c => Halts (step m P h) c r

/-- Every configuration a call goes through has `Good`. -/
def Stays (s : Step σ) (Good : Config σ → Prop) : Prop :=
  ∀ c, s = .more c → ∀ n d, Steps (step m P h) n c d → Good d

end

end Wasm
