import CapnpcWasm.Wasm.Machine

/-!
# Validation

The validation algorithm of the Wasm standard on flat code: a stack of control
frames, each with the operand types pushed since it was entered.  A frame whose end is
unreachable yields operands of unknown type when its own are used up.

Where the standard keeps one operand stack and the height of each frame, here each
frame keeps its own operands, so that a property of one frame says nothing about the
others.
-/

namespace Wasm

/-! ## Matching types -/

/-- The abstract heap types below another, by their codes: the bottoms, and the
hierarchy of `any`. -/
def abstractBelow : List (Nat × Nat) :=
  [(0x73, 0x70), (0x72, 0x6f), (0x74, 0x69),
   (0x71, 0x6e), (0x71, 0x6d), (0x71, 0x6c), (0x71, 0x6b), (0x71, 0x6a),
   (0x6d, 0x6e), (0x6c, 0x6e), (0x6b, 0x6e), (0x6a, 0x6e),
   (0x6c, 0x6d), (0x6b, 0x6d), (0x6a, 0x6d)]

/-- Every type index is a function type. -/
def HeapType.matches (types : List FuncType) : HeapType → HeapType → Bool
  | .named c, .named d => c == d || abstractBelow.contains (c, d)
  | .named c, .type j => c == 0x73 && j < types.length
  | .type i, .named d => d == 0x70 && i < types.length
  | .type i, .type j => sameType types (i + 1) i j

def ValType.matches (types : List FuncType) : ValType → ValType → Bool
  | .ref n h, .ref n' h' => (n' || !n) && h.matches types h'
  | t, t' => t == t'

def ValType.isRef : ValType → Bool
  | .ref _ _ => true
  | _ => false

/-- Locals of these types start at zero or null. -/
def ValType.defaultable : ValType → Bool
  | .ref false _ => false
  | _ => true

/-- Lists of types, position by position. -/
def matchesAll (types : List FuncType) (ts ts' : List ValType) : Bool :=
  ts.length == ts'.length && (ts.zip ts').all fun p => p.1.matches types p.2

/-- The indices a type mentions are types. -/
def ValType.ok (bound : Nat) : ValType → Bool
  | .ref _ (.type i) => i < bound
  | _ => true

/-- A type mentions no later one, and its parameters can be locals, of which a function
has at most `limit`. -/
def TypesOk (limit : Nat) (types : List FuncType) : Prop :=
  ∀ (i : Nat) (t : FuncType), types[i]? = some t →
    ((t.params ++ t.results).all (·.ok (i + 1)) && t.params.length ≤ limit) = true

/-! ## Control frames -/

/-- An operand type; unreachable code has operands of unknown type, or references of
unknown type. -/
inductive Operand where
  | bot
  | refBot
  | val (type : ValType)
deriving DecidableEq, Repr

def Operand.matches (types : List FuncType) : Operand → ValType → Bool
  | .bot, _ => true
  | .refBot, t => t.isRef
  | .val u, t => u.matches types t

inductive CtrlKind where
  | func
  | block
  | loop
  | «if»
  | «else»
  | «try»
  | «catch»
  | catch_all
deriving DecidableEq, Repr

structure Ctrl where
  kind : CtrlKind
  start : List ValType
  results : List ValType
  /-- The operands of the frame, the top first. -/
  stack : List Operand
  unreachable : Bool
  /-- The locals set in the frame. -/
  sets : List Nat
deriving DecidableEq, Repr

namespace Ctrl

/-- The types a branch to the frame carries. -/
def label (c : Ctrl) : List ValType := if c.kind = .loop then c.start else c.results

/-- A frame at its start. -/
def enter (kind : CtrlKind) (type : FuncType) (operands : List ValType) : Ctrl where
  kind := kind
  start := type.params
  results := type.results
  stack := operands.reverse.map .val
  unreachable := false
  sets := []

def pop (c : Ctrl) : Option (Operand × Ctrl) :=
  match c.stack with
  | u :: us => some (u, { c with stack := us })
  | [] => if c.unreachable then some (.bot, c) else none

def push (c : Ctrl) (u : Operand) : Ctrl := { c with stack := u :: c.stack }

def pushAll (c : Ctrl) (ts : List ValType) : Ctrl :=
  { c with stack := ts.reverse.map .val ++ c.stack }

/-- The rest of the frame is unreachable. -/
def mark (c : Ctrl) : Ctrl := { c with stack := [], unreachable := true }

def popAs (types : List FuncType) (t : ValType) (c : Ctrl) : Option (Operand × Ctrl) := do
  let (u, c) ← c.pop
  if u.matches types t then some (u, c) else none

/-- Pop operands of these types, the first on top; also what was popped. -/
def popList (types : List FuncType) : List ValType → Ctrl → Option (List Operand × Ctrl)
  | [], c => some ([], c)
  | t :: ts, c => do
      let (u, c) ← c.popAs types t
      let (us, c) ← popList types ts c
      some (u :: us, c)

/-- Pop operands of these types, the last on top. -/
def popAll (types : List FuncType) (ts : List ValType) (c : Ctrl) : Option Ctrl :=
  (popList types ts.reverse c).map (·.2)

/-- A reference operand. -/
def popRef (c : Ctrl) : Option (Operand × Ctrl) := do
  let (u, c) ← c.pop
  match u with
  | .bot | .refBot => some (.refBot, c)
  | .val t => if t.isRef then some (u, c) else none

/-- Leave the frame: its results and nothing else are on its stack. -/
def close (types : List FuncType) (c : Ctrl) : Option Unit := do
  let c' ← c.popAll types c.results
  if c'.stack.isEmpty then some () else none

end Ctrl

/-- Operands the untyped `select` chooses from. -/
def Operand.isNumeric : Operand → Bool
  | .bot => true
  | .refBot => false
  | .val t => !t.isRef

/-- The operand, which is a reference, when it is not null. -/
def Operand.nonNull : Operand → Operand
  | .val (.ref _ h) => .val (.ref false h)
  | u => u

/-! ## Instructions -/

/-- The alignment and the lanes of a plain opcode, if it has them. -/
def Prims.immediatesOk (P : Prims) : PlainOp → Bool
  | .access op arg => P.inRange (.access op arg)
  | .simd code arg lanes => P.inRange (.simd code arg lanes)
  | .atomic code arg => P.inRange (.atomic code arg)
  | _ => true

/-- What code is checked against. -/
structure Env where
  types : List FuncType
  funcs : List Nat
  tables : List TableType
  memories : Nat
  tags : List Nat
  globals : List GlobalType
  elems : List ValType
  datas : Nat
  /-- The functions `ref.func` may name. -/
  refs : List Nat
  locals : List ValType
  params : Nat
  results : List ValType

namespace Env

variable (P : Prims) (C : Env)

def funcType (f : Nat) : Option FuncType := do C.types[← C.funcs[f]?]?

/-- The type of a tag; an exception returns nothing. -/
def tagType (x : Nat) : Option FuncType := do
  let t ← C.types[← C.tags[x]?]?
  if t.results.isEmpty then some t else none

def blockType : BlockType → Option FuncType
  | .empty => some ⟨[], []⟩
  | .value t => if t.ok C.types.length then some ⟨[], [t]⟩ else none
  | .type i => C.types[i]?

/-- The memory a plain opcode accesses. -/
def plainMemory : PlainOp → Option MemArg
  | .access _ arg => some arg
  | .simd _ arg _ => arg
  | .atomic _ arg => arg
  | _ => none

def plainOk (op : PlainOp) : Bool :=
  P.immediatesOk op && ((plainMemory op).map fun arg => decide (arg.memory < C.memories)).getD true

/-- The type of an instruction that has one wherever it stands. -/
def sig : Instr → Option FuncType
  | .nop => some ⟨[], []⟩
  | .call f => C.funcType f
  | .call_indirect type t => do
      let ft ← C.types[type]?
      let tt ← C.tables[t]?
      if tt.elem.matches C.types .funcref then some ⟨ft.params ++ [.i32], ft.results⟩ else none
  | .call_ref type => do
      let ft ← C.types[type]?
      some ⟨ft.params ++ [.ref true (.type type)], ft.results⟩
  | .select_typed [t] => if t.ok C.types.length then some ⟨[t, t, .i32], [t]⟩ else none
  | .global_get x => C.globals[x]?.map fun g => ⟨[], [g.type]⟩
  | .global_set x => do
      let g ← C.globals[x]?
      if g.mutable then some ⟨[g.type], []⟩ else none
  | .table_get t => C.tables[t]?.map fun tt => ⟨[.i32], [tt.elem]⟩
  | .table_set t => C.tables[t]?.map fun tt => ⟨[.i32, tt.elem], []⟩
  | .table_size t => C.tables[t]?.map fun _ => ⟨[], [.i32]⟩
  | .table_grow t => C.tables[t]?.map fun tt => ⟨[tt.elem, .i32], [.i32]⟩
  | .table_fill t => C.tables[t]?.map fun tt => ⟨[.i32, tt.elem, .i32], []⟩
  | .table_copy t u => do
      let tt ← C.tables[t]?
      let tu ← C.tables[u]?
      if tu.elem.matches C.types tt.elem then some ⟨[.i32, .i32, .i32], []⟩ else none
  | .table_init e t => do
      let te ← C.elems[e]?
      let tt ← C.tables[t]?
      if te.matches C.types tt.elem then some ⟨[.i32, .i32, .i32], []⟩ else none
  | .elem_drop e => C.elems[e]?.map fun _ => ⟨[], []⟩
  | .memory_size k => if k < C.memories then some ⟨[], [.i32]⟩ else none
  | .memory_grow k => if k < C.memories then some ⟨[.i32], [.i32]⟩ else none
  | .memory_fill k => if k < C.memories then some ⟨[.i32, .i32, .i32], []⟩ else none
  | .memory_copy k l =>
      if k < C.memories ∧ l < C.memories then some ⟨[.i32, .i32, .i32], []⟩ else none
  | .memory_init d k =>
      if d < C.datas ∧ k < C.memories then some ⟨[.i32, .i32, .i32], []⟩ else none
  | .data_drop d => if d < C.datas then some ⟨[], []⟩ else none
  | .ref_null h => if (ValType.ref true h).ok C.types.length then some ⟨[], [.ref true h]⟩ else none
  | .ref_func f => do
      let type ← C.funcs[f]?
      if f ∈ C.refs then some ⟨[], [.ref false (.type type)]⟩ else none
  | .ref_eq => some ⟨[.ref true (.named 0x6d), .ref true (.named 0x6d)], [.i32]⟩
  | .i32_const _ => some ⟨[], [.i32]⟩
  | .plain op => if C.plainOk P op then some (plainType P op) else none
  | _ => none

/-- Instructions after which code is unreachable: the types they pop. -/
def leaves (i : Instr) (cs : List Ctrl) : Option (List ValType) :=
  match i with
  | .unreachable => some []
  | .br l => cs[l]?.map (·.label)
  | .return => some C.results
  | .return_call f => do
      let ft ← C.funcType f
      if matchesAll C.types ft.results C.results then some ft.params else none
  | .return_call_indirect type t => do
      let ft ← C.types[type]?
      let tt ← C.tables[t]?
      if tt.elem.matches C.types .funcref && matchesAll C.types ft.results C.results then
        some (ft.params ++ [.i32])
      else none
  | .return_call_ref type => do
      let ft ← C.types[type]?
      if matchesAll C.types ft.results C.results then
        some (ft.params ++ [.ref true (.type type)])
      else none
  | .throw x => (C.tagType x).map (·.params)
  | .rethrow l => do
      let c ← cs[l]?
      if c.kind = .catch ∨ c.kind = .catch_all then some [] else none
  | .throw_ref => some [.ref true .exn]
  | _ => none

/-- The types a catch clause passes to its label. -/
def clauseTypes : Catch → Option (List ValType)
  | .tag x ref _ => (C.tagType x).map fun t => t.params ++ if ref then [.ref true .exn] else []
  | .all ref _ => some (if ref then [.ref true .exn] else [])

def clauseOk (cs : List Ctrl) (c : Catch) : Bool :=
  match C.clauseTypes c, cs[c.label]? with
  | some ts, some l => matchesAll C.types ts l.label
  | _, _ => false

/-- Enter a block, its parameters taken from the frame around it. -/
def open_ (kind : CtrlKind) (bt : BlockType) (c : Ctrl) (outer : List Ctrl) :
    Option (List Ctrl) := do
  let t ← C.blockType bt
  let c ← c.popAll C.types t.params
  some (.enter kind t t.params :: c :: outer)

/-- The local `x` has a value. -/
def isSet (cs : List Ctrl) (x : Nat) (t : ValType) : Bool :=
  x < C.params || t.defaultable || cs.any (·.sets.contains x)

/-- Restart a frame as another part of its block. -/
def part (c : Ctrl) (kind : CtrlKind) (operands : List ValType) : Ctrl :=
  .enter kind ⟨c.start, c.results⟩ operands

/-- The labels of a `br_table` before its default: each carries as many values as the
default and takes what is on the stack, which stays there. -/
def tableLabels (arity : Nat) (cs : List Ctrl) : List Nat → Ctrl → Option Ctrl
  | [], c => some c
  | l :: ls, c => do
      let ts := (← cs[l]?).label
      if ts.length = arity then
        let (us, c) ← c.popList C.types ts.reverse
        tableLabels arity cs ls { c with stack := us ++ c.stack }
      else none

/-- An instruction with a type of its own. -/
def checkTyped (i : Instr) (c : Ctrl) (outer : List Ctrl) : Option (List Ctrl) :=
  match C.leaves i (c :: outer) with
  | some ts => do
      let c ← c.popAll C.types ts
      some (c.mark :: outer)
  | none => do
      let t ← C.sig P i
      let c ← c.popAll C.types t.params
      some (c.pushAll t.results :: outer)

/-- One instruction in the frame `c`, the frames around it in `outer`. -/
def checkIn (i : Instr) (c : Ctrl) (outer : List Ctrl) : Option (List Ctrl) :=
  match i with
  | .drop => do
      let (_, c) ← c.pop
      some (c :: outer)
  | .select => do
      let (_, c) ← c.popAs C.types .i32
      let (u, c) ← c.pop
      let (v, c) ← c.pop
      if u.isNumeric ∧ v.isNumeric ∧ (u = v ∨ u = .bot ∨ v = .bot) then
        some (c.push (if u = .bot then v else u) :: outer)
      else none
  | .local_get x => do
      let t ← C.locals[x]?
      if C.isSet (c :: outer) x t then some (c.push (.val t) :: outer) else none
  | .local_set x => do
      let t ← C.locals[x]?
      let (_, c) ← c.popAs C.types t
      some ({ c with sets := x :: c.sets } :: outer)
  | .local_tee x => do
      let t ← C.locals[x]?
      let (_, c) ← c.popAs C.types t
      some ({ c with sets := x :: c.sets }.push (.val t) :: outer)
  | .ref_is_null => do
      let (_, c) ← c.popRef
      some (c.push (.val .i32) :: outer)
  | .ref_as_non_null => do
      let (u, c) ← c.popRef
      some (c.push u.nonNull :: outer)
  | .block bt => C.open_ .block bt c outer
  | .loop bt => C.open_ .loop bt c outer
  | .try bt => C.open_ .try bt c outer
  | .if bt => do
      let (_, c) ← c.popAs C.types .i32
      C.open_ .if bt c outer
  | .try_table bt clauses => do
      let t ← C.blockType bt
      let c ← c.popAll C.types t.params
      if clauses.all (C.clauseOk (c :: outer)) then some (.enter .block t t.params :: c :: outer)
      else none
  | .else =>
      if c.kind = .if then do
        c.close C.types
        some (part c .else c.start :: outer)
      else none
  | .catch x =>
      if c.kind = .try ∨ c.kind = .catch then do
        c.close C.types
        let t ← C.tagType x
        some (part c .catch t.params :: outer)
      else none
  | .catch_all =>
      if c.kind = .try ∨ c.kind = .catch then do
        c.close C.types
        some (part c .catch_all [] :: outer)
      else none
  | .delegate l =>
      if c.kind = .try ∧ l < outer.length then do
        c.close C.types
        leaveBlock c outer
      else none
  | .end =>
      if c.kind = .if → matchesAll C.types c.start c.results then do
        c.close C.types
        leaveBlock c outer
      else none
  | .br_if l => do
      let ts := (← (c :: outer)[l]?).label
      let (_, c) ← c.popAs C.types .i32
      let c ← c.popAll C.types ts
      some (c.pushAll ts :: outer)
  | .br_table ls l => do
      let (_, c) ← c.popAs C.types .i32
      let ts := (← (c :: outer)[l]?).label
      let c ← C.tableLabels ts.length (c :: outer) ls c
      let c ← c.popAll C.types ts
      some (c.mark :: outer)
  | .br_on_null l => do
      let ts := (← (c :: outer)[l]?).label
      let (u, c) ← c.popRef
      let c ← c.popAll C.types ts
      some ((c.pushAll ts).push u.nonNull :: outer)
  | .br_on_non_null l => do
      let ts := (← (c :: outer)[l]?).label
      let (u, c) ← c.popRef
      let t ← ts.getLast?
      if u.nonNull.matches C.types t then
        let c ← c.popAll C.types ts.dropLast
        some (c.pushAll ts.dropLast :: outer)
      else none
  | i => C.checkTyped P i c outer
where
  /-- The results of the block go to the frame around it. -/
  leaveBlock (c : Ctrl) : List Ctrl → Option (List Ctrl)
    | [] => some []
    | o :: os => some (o.pushAll c.results :: os)

def check (i : Instr) (cs : List Ctrl) : Option (List Ctrl) :=
  match cs with
  | [] => none
  | c :: outer => C.checkIn P i c outer

/-- A sequence of instructions. -/
def checks : List Instr → List Ctrl → Option (List Ctrl)
  | [], cs => some cs
  | i :: is, cs => C.check P i cs >>= checks is

end Env

/-! ## Constant expressions -/

/-- The types of the opcodes of constant expressions: literals, and the extended
constants `add`, `sub` and `mul`. -/
def PlainOp.constType : PlainOp → Option FuncType
  | .numeric op =>
      if op ∈ [0x6a, 0x6b, 0x6c] then some ⟨[.i32, .i32], [.i32]⟩
      else if op ∈ [0x7c, 0x7d, 0x7e] then some ⟨[.i64, .i64], [.i64]⟩
      else none
  | .i64_const _ => some ⟨[], [.i64]⟩
  | .f32_const _ => some ⟨[], [.f32]⟩
  | .f64_const _ => some ⟨[], [.f64]⟩
  | .simd code none _ => if code = 12 then some ⟨[], [.v128]⟩ else none
  | _ => none

/-- The functions a constant expression names. -/
def ConstExpr.funcs (e : ConstExpr) : List Nat :=
  e.filterMap fun
    | .ref_func f => some f
    | _ => none

def Elem.funcs (e : Elem) : List Nat :=
  (match e.mode with
    | .active _ offset => ConstExpr.funcs offset
    | _ => []) ++ e.init.flatMap ConstExpr.funcs

namespace Module

/-- The functions a module names outside its code; `ref.func` may name them. -/
def declared (m : Module) : List Nat :=
  m.globals.flatMap (fun g => ConstExpr.funcs g.init) ++
    (m.exports.filter (·.kind == .func)).map (·.index) ++ m.elems.flatMap Elem.funcs

section

variable (P : Prims) (m : Module)

/-- The type of a constant instruction, `globals` being the globals before it. -/
def constSig (globals : List GlobalType) : ConstInstr → Option FuncType
  | .i32_const _ => some ⟨[], [.i32]⟩
  | .global_get x => do
      let g ← globals[x]?
      if g.mutable then none else some ⟨[], [g.type]⟩
  | .ref_null h => if (ValType.ref true h).ok m.types.length then some ⟨[], [.ref true h]⟩ else none
  | .ref_func f => m.funcTypes[f]?.map fun type => ⟨[], [.ref false (.type type)]⟩
  | .plain op => if P.immediatesOk op then op.constType else none

/-- The types a constant expression leaves over others, the top first. -/
def constTypes (globals : List GlobalType) : ConstExpr → List ValType → Option (List ValType)
  | [], ts => some ts
  | i :: e, ts => do
      let t ← m.constSig P globals i
      if matchesAll m.types (ts.take t.params.length) t.params.reverse then
        constTypes globals e (t.results.reverse ++ ts.drop t.params.length)
      else none

/-- The expression has a value of this type. -/
def constOk (globals : List GlobalType) (e : ConstExpr) (t : ValType) : Bool :=
  match m.constTypes P globals e [] with
  | some [u] => u.matches m.types t
  | _ => false

/-! ## Modules -/

def limitsOk (bound : Nat) (l : Limits) : Bool :=
  l.min ≤ bound && (l.max.map fun n => decide (l.min ≤ n ∧ n ≤ bound)).getD true

def tableOk (t : TableType) : Bool :=
  t.elem.isRef && t.elem.ok m.types.length && limitsOk (2 ^ 32 - 1) t.limits

def memoryOk (l : Limits) : Bool := limitsOk 65536 l

/-- An exception has no results. -/
def tagOk (type : Nat) : Bool := (m.types[type]?.map (·.results.isEmpty)).getD false

def importOk : ImportDesc → Bool
  | .func type => type < m.types.length
  | .table t => m.tableOk t
  | .memory l => memoryOk l
  | .global g => g.type.ok m.types.length
  | .tag type => m.tagOk type

def exportOk (e : Export) : Bool :=
  match e.kind with
  | .func => e.index < m.funcTypes.length
  | .table => e.index < m.tableTypes.length
  | .memory => e.index < m.memoryTypes.length
  | .global => e.index < m.globalTypes.length
  | .tag => e.index < m.tagTypes.length

/-- The types of the locals the groups of a function declare. -/
def localTypes (groups : List (Nat × ValType)) : List ValType :=
  groups.flatMap fun g => List.replicate g.1 g.2

/-- What the code of a function of type `t` with these locals is checked against. -/
def env (t : FuncType) (groups : List (Nat × ValType)) : Env where
  types := m.types
  funcs := m.funcTypes
  tables := m.tableTypes
  memories := m.memoryTypes.length
  tags := m.tagTypes
  globals := m.globalTypes
  elems := m.elems.map (·.type)
  datas := m.datas.length
  refs := m.declared
  locals := t.params ++ localTypes groups
  params := t.params.length
  results := t.results

/-- A function: its type, its locals, at most `limit` with the parameters, and its code. -/
def funcOk (limit : Nat) (f : Func) : Bool :=
  match m.types[f.type]? with
  | none => false
  | some t =>
      t.params.length + (localTypes f.locals).length ≤ limit &&
        f.locals.all (·.2.ok m.types.length) &&
        (m.env t f.locals).checks P f.body [.enter .func ⟨[], t.results⟩ []] == some []

def elemOk (e : Elem) : Bool :=
  e.type.isRef && e.type.ok m.types.length &&
    e.init.all (m.constOk P m.globalTypes · e.type) &&
    match e.mode with
    | .active t offset =>
        (m.tableTypes[t]?.map fun tt => e.type.matches m.types tt.elem).getD false &&
          m.constOk P m.globalTypes offset .i32
    | _ => true

def dataOk (d : Data) : Bool :=
  match d.mode with
  | .active k offset => k < m.memoryTypes.length && m.constOk P m.globalTypes offset .i32
  | .passive => true

/-- The globals the initial value of the `i`th defined one can read. -/
def globalsBefore (i : Nat) : List GlobalType :=
  m.globalTypes.take (m.importedGlobals.length + i)

/-- A valid module, for an engine that allows `limit` locals in a function. -/
structure Valid (limit : Nat) : Prop where
  types : TypesOk limit m.types
  imports : m.imports.all (fun i => m.importOk i.desc) = true
  funcs : m.funcs.all (m.funcOk P limit) = true
  /-- Entries start at null. -/
  tables : m.tables.all (fun t => m.tableOk t && t.elem.defaultable) = true
  memories : m.memories.all memoryOk = true
  tags : m.tags.all m.tagOk = true
  globals : ∀ (i : Nat) (g : Global), m.globals[i]? = some g →
    (g.type.type.ok m.types.length && m.constOk P (m.globalsBefore i) g.init g.type.type) = true
  exports : m.exports.all m.exportOk = true
  names : (m.exports.map (·.name)).Nodup
  start : ∀ f, m.start = some f → m.funcType? f = some ⟨[], []⟩
  elems : m.elems.all (m.elemOk P) = true
  datas : m.datas.all (m.dataOk P) = true

end

end Module

end Wasm
