import CapnpcWasm.Wasm.Syntax
import CapnpcWasm.Lib.Run

/-!
# The Wasm machine

A small-step machine for one instance.  A frame keeps the code still to run, its
operand stack and its labels; a configuration is a store, the host's own state,
the log of host calls and a stack of frames.  `step` is total: an ill-formed
configuration ends in `Outcome.stuck`.

Flat code needs no list of nested instructions.  A label records where a branch
to it continues and where its block ends, both found by scanning for the matching
delimiter when the block is entered.

Two things are parameters.  `Prims` computes the opcodes that only touch numbers
and linear memory, except the four the injected sequences use.  `Host` answers
calls that leave the instance; it sees and may change the memories, the tables
and the globals, and it may set the exported countdown, which it cannot see
otherwise.  The host does not call back into the instance during a call.
-/

namespace Wasm

open Run (Next)

/-! ## Values and the store -/

inductive Num where
  | i32 (value : BitVec 32)
  | i64 (value : BitVec 64)
  | f32 (bits : BitVec 32)
  | f64 (bits : BitVec 64)
  | v128 (bits : BitVec 128)
deriving DecidableEq, Repr

/-- A reference.  `func` is a function of the instance by its index; `foreign` is
a function from elsewhere, which only the host can run. -/
inductive Ref where
  | null
  | func (function : Nat)
  | foreign (function : Nat)
  | exn (address : Nat)
  | host (value : Nat)
deriving DecidableEq, Repr

inductive Val where
  | num (value : Num)
  | ref (value : Ref)
deriving DecidableEq, Repr

abbrev Val.i32 (value : BitVec 32) : Val := .num (.i32 value)

structure Mem where
  bytes : List UInt8
  /-- The most pages it may grow to. -/
  max : Option Nat
deriving DecidableEq, Repr

structure Table where
  elems : List Ref
  max : Option Nat
deriving DecidableEq, Repr

/-- An exception: the address of its tag and its arguments. -/
structure Exn where
  tag : Nat
  args : List Val
deriving DecidableEq, Repr

structure Store where
  mems : List Mem
  tables : List Table
  globals : List Val
  /-- Element and data segments; a dropped one is empty. -/
  elems : List (List Ref)
  datas : List (List UInt8)
  /-- The address of each tag index. -/
  tags : List Nat
  exns : List Exn
deriving DecidableEq, Repr

/-! ## The parameters of the machine -/

/-- The opcodes `Instr.plain` stands for: their types, whether their alignment and lanes
are in range, and what they make of the memories and their operands, `none` being a
trap. -/
structure Prims where
  type : PlainOp → FuncType
  inRange : PlainOp → Bool
  exec : PlainOp → List (List UInt8) → List Num → Option (List (List UInt8) × List Num)

/-- A function only the host can run. -/
inductive HostFn where
  | imported (index : Nat) (name : ImportName)
  | foreign (function : Nat)
deriving DecidableEq, Repr

structure HostCall where
  fn : HostFn
  args : List Val
deriving DecidableEq, Repr

/-- What a host call sees of the instance, and leaves there. -/
structure View where
  mems : List (List UInt8)
  tables : List (List Ref)
  globals : List Val
deriving DecidableEq, Repr

inductive Reply where
  | ret (values : List Val)
  | throw (exn : Exn)
  /-- The run ends here, as in `proc_exit`. -/
  | exit
deriving DecidableEq, Repr

structure Answer (σ : Type) where
  state : σ
  view : View
  /-- A new value for the exported countdown, if the host sets it. -/
  countdown : Option (BitVec 32) := none
  reply : Reply

structure Host (σ : Type) where
  call : σ → HostFn → List Val → View → Answer σ
  /-- Whether a foreign function has this type. -/
  foreignHas : Nat → FuncType → Bool

/-! ## Types at run time -/

/-- The same type, where `eq` says which indices denote the same. -/
def HeapType.sameBy (eq : Nat → Nat → Bool) : HeapType → HeapType → Bool
  | .named c, .named d => c == d
  | .type i, .type j => eq i j
  | _, _ => false

def ValType.sameBy (eq : Nat → Nat → Bool) : ValType → ValType → Bool
  | .ref n h, .ref n' h' => n == n' && h.sameBy eq h'
  | t, t' => t == t'

def FuncType.sameBy (eq : Nat → Nat → Bool) (t t' : FuncType) : Bool :=
  let vals (ts ts' : List ValType) : Bool :=
    ts.length == ts'.length && (ts.zip ts').all fun p => p.1.sameBy eq p.2
  vals t.params t'.params && vals t.results t'.results

/-- Two type indices denote the same type: equal up to the indices they mention,
with mentions of the own index matching each other.  `fuel` bounds the depth;
every index an engine accepts is at most the one that mentions it. -/
def sameType (types : List FuncType) : Nat → Nat → Nat → Bool
  | 0, _, _ => false
  | fuel + 1, i, j =>
      match types[i]?, types[j]? with
      | some t, some t' =>
          t.sameBy (fun a b => (a == i && b == j) || (a < i && b < j && sameType types fuel a b)) t'
      | _, _ => false

/-- The fuel an index needs is one more than itself. -/
def Module.sameType (m : Module) (i j : Nat) : Bool := Wasm.sameType m.types (i + 1) i j

def ValType.default : ValType → Val
  | .i32 => .num (.i32 0)
  | .i64 => .num (.i64 0)
  | .f32 => .num (.f32 0)
  | .f64 => .num (.f64 0)
  | .v128 => .num (.v128 0)
  | .ref _ _ => .ref .null

/-- The locals a function declares, at their defaults. -/
def Func.zeros (f : Func) : List Val :=
  f.locals.flatMap fun g => List.replicate g.1 g.2.default

/-! ## Memories, tables and segments -/

/-- The result of an instruction that stays in its frame. -/
inductive Res (α : Type) where
  | ok (a : α)
  | trap
  | stuck

def Res.map {α β : Type} (f : α → β) : Res α → Res β
  | .ok a => .ok (f a)
  | .trap => .trap
  | .stuck => .stuck

def Res.bind {α β : Type} (x : Res α) (f : α → Res β) : Res β :=
  match x with
  | .ok a => f a
  | .trap => .trap
  | .stuck => .stuck

instance : Monad Res where
  pure := .ok
  bind := Res.bind

/-- `none` is a trap. -/
def Res.ofTrap {α : Type} : Option α → Res α
  | some a => .ok a
  | none => .trap

/-- `none` is stuck. -/
def Res.ofStuck {α : Type} : Option α → Res α
  | some a => .ok a
  | none => .stuck

/-- Write `new` over `old` at `at_`, if it fits. -/
def splice {α : Type} (old new : List α) (at_ : Nat) : Option (List α) :=
  if at_ + new.length ≤ old.length then
    some (old.take at_ ++ new ++ old.drop (at_ + new.length))
  else none

/-- The `n` items from `at_`, if they are there. -/
def slice {α : Type} (xs : List α) (at_ n : Nat) : Option (List α) :=
  if at_ + n ≤ xs.length then some ((xs.drop at_).take n) else none

/-- A list replaced by one of the same length only. -/
def overwrite {α : Type} (old new : List α) : List α :=
  if new.length = old.length then new else old

abbrev pageSize : Nat := 65536

def Mem.pages (mem : Mem) : Nat := mem.bytes.length / pageSize

namespace Store

def setMem (st : Store) (i : Nat) (bytes : List UInt8) : Store :=
  { st with mems := st.mems.modify i fun mem => { mem with bytes } }

def setTable (st : Store) (t : Nat) (elems : List Ref) : Store :=
  { st with tables := st.tables.modify t fun table => { table with elems } }

/-- The bytes of every memory, and the store with other bytes. -/
def bytes (st : Store) : List (List UInt8) := st.mems.map (·.bytes)

def setBytes (st : Store) (new : List (List UInt8)) : Store :=
  { st with mems := st.mems.zipWith (fun mem bytes => { mem with bytes }) (overwrite st.bytes new) }

/-- `memory.grow`: the new store and the old size, or all ones. -/
def memoryGrow (st : Store) (i : Nat) (n : BitVec 32) : Res (Store × BitVec 32) :=
  match st.mems[i]? with
  | none => .stuck
  | some mem =>
      if mem.pages + n.toNat ≤ min (mem.max.getD 65536) 65536 then
        .ok (st.setMem i (mem.bytes ++ List.replicate (n.toNat * pageSize) 0), .ofNat 32 mem.pages)
      else .ok (st, BitVec.allOnes 32)

def memoryFill (st : Store) (i : Nat) (target value count : BitVec 32) : Res Store :=
  match st.mems[i]? with
  | none => .stuck
  | some mem =>
      .ofTrap <| (splice mem.bytes
        (List.replicate count.toNat (UInt8.ofNat value.toNat)) target.toNat).map (st.setMem i)

def memoryCopy (st : Store) (i j : Nat) (target source count : BitVec 32) : Res Store :=
  match st.mems[i]?, st.mems[j]? with
  | some mem, some from_ =>
      .ofTrap <| ((slice from_.bytes source.toNat count.toNat).bind fun new =>
        splice mem.bytes new target.toNat).map (st.setMem i)
  | _, _ => .stuck

def memoryInit (st : Store) (d i : Nat) (target source count : BitVec 32) : Res Store :=
  match st.mems[i]?, st.datas[d]? with
  | some mem, some data =>
      .ofTrap <| ((slice data source.toNat count.toNat).bind fun new =>
        splice mem.bytes new target.toNat).map (st.setMem i)
  | _, _ => .stuck

def tableGet (st : Store) (t : Nat) (i : BitVec 32) : Res Ref :=
  match st.tables[t]? with
  | none => .stuck
  | some table => .ofTrap table.elems[i.toNat]?

def tableFill (st : Store) (t : Nat) (target : BitVec 32) (r : Ref) (count : Nat) : Res Store :=
  match st.tables[t]? with
  | none => .stuck
  | some table =>
      .ofTrap <| (splice table.elems (List.replicate count r) target.toNat).map (st.setTable t)

/-- `table.grow`: the new store and the old size, or all ones. -/
def tableGrow (st : Store) (t : Nat) (r : Ref) (n : BitVec 32) : Res (Store × BitVec 32) :=
  match st.tables[t]? with
  | none => .stuck
  | some table =>
      if table.elems.length + n.toNat ≤ min (table.max.getD (2 ^ 32 - 1)) (2 ^ 32 - 1) then
        .ok (st.setTable t (table.elems ++ List.replicate n.toNat r), .ofNat 32 table.elems.length)
      else .ok (st, BitVec.allOnes 32)

def tableCopy (st : Store) (t u : Nat) (target source count : BitVec 32) : Res Store :=
  match st.tables[t]?, st.tables[u]? with
  | some table, some from_ =>
      .ofTrap <| ((slice from_.elems source.toNat count.toNat).bind fun new =>
        splice table.elems new target.toNat).map (st.setTable t)
  | _, _ => .stuck

def tableInit (st : Store) (e t : Nat) (target source count : BitVec 32) : Res Store :=
  match st.tables[t]?, st.elems[e]? with
  | some table, some elem =>
      .ofTrap <| ((slice elem source.toNat count.toNat).bind fun new =>
        splice table.elems new target.toNat).map (st.setTable t)
  | _, _ => .stuck

end Store

/-! ## Instructions that stay in their frame -/

/-- What an instruction that transfers no control works on. -/
structure Local where
  store : Store
  locals : List Val
  stack : List Val

def Local.push (s : Local) (v : Val) : Local := { s with stack := v :: s.stack }

/-- The top value and the rest. -/
def popVal : List Val → Res (Val × List Val)
  | v :: vs => .ok (v, vs)
  | [] => .stuck

def popI32 : List Val → Res (BitVec 32 × List Val)
  | .num (.i32 c) :: vs => .ok (c, vs)
  | _ => .stuck

def popRef : List Val → Res (Ref × List Val)
  | .ref r :: vs => .ok (r, vs)
  | _ => .stuck

/-- The three operands of a bulk operation: target, source, size. -/
def popBulk (vs : List Val) : Res ((BitVec 32 × BitVec 32 × BitVec 32) × List Val) := do
  let (n, vs) ← popI32 vs
  let (s, vs) ← popI32 vs
  let (d, vs) ← popI32 vs
  .ok ((d, s, n), vs)

/-- The top `n` values, which must be numbers, in operand order, and the rest. -/
def popNums : Nat → List Val → Res (List Num × List Val)
  | 0, vs => .ok ([], vs)
  | n + 1, .num x :: vs => (popNums n vs).map fun p => (p.1 ++ [x], p.2)
  | _ + 1, _ => .stuck

def Num.ofBool (b : Bool) : Num := .i32 (if b then 1 else 0)

/-- The type of a plain opcode; the injected sequences fix four. -/
def plainType (P : Prims) : PlainOp → FuncType
  | .numeric 0x45 => ⟨[.i32], [.i32]⟩
  | .numeric 0x4f => ⟨[.i32, .i32], [.i32]⟩
  | .numeric 0x6b => ⟨[.i32, .i32], [.i32]⟩
  | .numeric 0x76 => ⟨[.i32, .i32], [.i32]⟩
  | op => P.type op

def execPlain (P : Prims) (op : PlainOp) (mems : List (List UInt8)) (args : List Num) :
    Res (List (List UInt8) × List Num) :=
  match op with
  | .numeric 0x45 =>
      match args with
      | [.i32 a] => .ok (mems, [.ofBool (a == 0)])
      | _ => .stuck
  | .numeric 0x4f =>
      match args with
      | [.i32 a, .i32 b] => .ok (mems, [.ofBool (b.ule a)])
      | _ => .stuck
  | .numeric 0x6b =>
      match args with
      | [.i32 a, .i32 b] => .ok (mems, [.i32 (a - b)])
      | _ => .stuck
  | .numeric 0x76 =>
      match args with
      | [.i32 a, .i32 b] => .ok (mems, [.i32 (a >>> (b.toNat % 32))])
      | _ => .stuck
  | op => .ofTrap (P.exec op mems args)

/-- Whether two references are the same; functions and exceptions have no identity. -/
def Ref.same : Ref → Ref → Res Bool
  | .null, .null => .ok true
  | .null, .host _ => .ok false
  | .host _, .null => .ok false
  | .host a, .host b => .ok (a == b)
  | _, _ => .stuck

/-- One instruction that transfers no control. -/
def execLocal (P : Prims) (i : Instr) (s : Local) : Res Local :=
  match i with
  | .nop => .ok s
  | .drop => do
      let (_, vs) ← popVal s.stack
      .ok { s with stack := vs }
  | .select | .select_typed _ => do
      let (c, vs) ← popI32 s.stack
      let (b, vs) ← popVal vs
      let (a, vs) ← popVal vs
      .ok { s with stack := (if c = 0 then b else a) :: vs }
  | .local_get x => (Res.ofStuck s.locals[x]?).map s.push
  | .local_set x => do
      let (v, vs) ← popVal s.stack
      if x < s.locals.length then .ok { s with locals := s.locals.set x v, stack := vs } else .stuck
  | .local_tee x => do
      let (v, _) ← popVal s.stack
      if x < s.locals.length then .ok { s with locals := s.locals.set x v } else .stuck
  | .global_get x => (Res.ofStuck s.store.globals[x]?).map s.push
  | .global_set x => do
      let (v, vs) ← popVal s.stack
      if x < s.store.globals.length then
        .ok { s with store := { s.store with globals := s.store.globals.set x v }, stack := vs }
      else .stuck
  | .table_get t => do
      let (i, vs) ← popI32 s.stack
      let r ← s.store.tableGet t i
      .ok { s with stack := .ref r :: vs }
  | .table_set t => do
      let (r, vs) ← popRef s.stack
      let (i, vs) ← popI32 vs
      let st ← s.store.tableFill t i r 1
      .ok { s with store := st, stack := vs }
  | .table_size t =>
      (Res.ofStuck s.store.tables[t]?).map fun table => s.push (.i32 (.ofNat 32 table.elems.length))
  | .table_grow t => do
      let (n, vs) ← popI32 s.stack
      let (r, vs) ← popRef vs
      let (st, old) ← s.store.tableGrow t r n
      .ok { s with store := st, stack := .i32 old :: vs }
  | .table_fill t => do
      let (n, vs) ← popI32 s.stack
      let (r, vs) ← popRef vs
      let (i, vs) ← popI32 vs
      let st ← s.store.tableFill t i r n.toNat
      .ok { s with store := st, stack := vs }
  | .table_copy t u => do
      let ((d, j, n), vs) ← popBulk s.stack
      let st ← s.store.tableCopy t u d j n
      .ok { s with store := st, stack := vs }
  | .table_init e t => do
      let ((d, j, n), vs) ← popBulk s.stack
      let st ← s.store.tableInit e t d j n
      .ok { s with store := st, stack := vs }
  | .elem_drop e =>
      if e < s.store.elems.length then
        .ok { s with store := { s.store with elems := s.store.elems.set e [] } }
      else .stuck
  | .memory_size i =>
      (Res.ofStuck s.store.mems[i]?).map fun mem => s.push (.i32 (.ofNat 32 mem.pages))
  | .memory_grow i => do
      let (n, vs) ← popI32 s.stack
      let (st, old) ← s.store.memoryGrow i n
      .ok { s with store := st, stack := .i32 old :: vs }
  | .memory_fill i => do
      let ((d, v, n), vs) ← popBulk s.stack
      let st ← s.store.memoryFill i d v n
      .ok { s with store := st, stack := vs }
  | .memory_copy i j => do
      let ((d, k, n), vs) ← popBulk s.stack
      let st ← s.store.memoryCopy i j d k n
      .ok { s with store := st, stack := vs }
  | .memory_init e i => do
      let ((d, k, n), vs) ← popBulk s.stack
      let st ← s.store.memoryInit e i d k n
      .ok { s with store := st, stack := vs }
  | .data_drop d =>
      if d < s.store.datas.length then
        .ok { s with store := { s.store with datas := s.store.datas.set d [] } }
      else .stuck
  | .ref_null _ => .ok (s.push (.ref .null))
  | .ref_is_null => do
      let (r, vs) ← popRef s.stack
      .ok { s with stack := .num (.ofBool (r == .null)) :: vs }
  | .ref_func f => .ok (s.push (.ref (.func f)))
  | .ref_eq => do
      let (a, vs) ← popRef s.stack
      let (b, vs) ← popRef vs
      let same ← a.same b
      .ok { s with stack := .num (.ofBool same) :: vs }
  | .ref_as_non_null => do
      let (r, _) ← popRef s.stack
      if r = .null then .trap else .ok s
  | .i32_const c => .ok (s.push (.i32 c))
  | .plain op => do
      let (args, vs) ← popNums (plainType P op).params.length s.stack
      let (mems, out) ← execPlain P op s.store.bytes args
      .ok { s with
        store := s.store.setBytes mems
        stack := (out.map Val.num).reverse ++ vs }
  | _ => .stuck

/-! ## Frames and configurations -/

inductive LabelKind where
  | plain
  /-- The body of a legacy `try`, with its handlers or its `delegate`. -/
  | guarded (handlers : List Handler) (delegate : Option Nat)
  /-- A legacy handler running for the exception at this address. -/
  | catching (address : Nat)
  /-- The body of a `try_table`. -/
  | clauses (clauses : List Catch)
deriving DecidableEq, Repr

structure Label where
  kind : LabelKind
  /-- How many values a branch to it carries. -/
  arity : Nat
  /-- The operand stack below the block. -/
  base : List Val
  /-- Where a branch to it continues. -/
  cont : List Instr
  /-- The code after the block. -/
  after : List Instr
deriving DecidableEq, Repr

structure Frame where
  /-- The function the frame runs. -/
  fn : Nat
  code : List Instr
  stack : List Val
  labels : List Label
  locals : List Val
  /-- How many values it returns. -/
  arity : Nat
deriving DecidableEq, Repr

/-- Everything that outlives a frame. -/
structure World (σ : Type) where
  store : Store
  host : σ
  log : List HostCall

/-- The running frame and the ones that wait for it. -/
structure Config (σ : Type) where
  world : World σ
  top : Frame
  callers : List Frame

inductive Outcome where
  | values (values : List Val)
  | trap
  /-- An exception nothing caught, by its address. -/
  | exception (address : Nat)
  | exited
  | stuck
deriving DecidableEq, Repr

/-- What a step leads to: a configuration, or an outcome and what it leaves. -/
abbrev Step (σ : Type) := Next (Config σ) (Outcome × World σ)

/-! ## Control inside a frame -/

/-- Where a branch leads: on in the frame, or out of it with values. -/
inductive Jump where
  | to (frame : Frame)
  | leave (values : List Val)
  | stuck

namespace Frame

/-- Branch to a label; the one past the last returns. -/
def branch (fr : Frame) (label : Nat) : Jump :=
  match fr.labels[label]? with
  | some l =>
      if l.arity ≤ fr.stack.length then
        .to { fr with
          code := l.cont
          stack := fr.stack.take l.arity ++ l.base
          labels := fr.labels.drop (label + 1) }
      else .stuck
  | none =>
      if label = fr.labels.length ∧ fr.arity ≤ fr.stack.length then
        .leave (fr.stack.take fr.arity).reverse
      else .stuck

/-- Enter a block of type `type` at the code `body`. -/
def enter (fr : Frame) (type : FuncType) (kind : LabelKind) (arity : Nat)
    (cont after body : List Instr) : Jump :=
  if type.params.length ≤ fr.stack.length then
    .to { fr with
      code := body
      stack := fr.stack.take type.params.length
      labels := ⟨kind, arity, fr.stack.drop type.params.length, cont, after⟩ :: fr.labels }
  else .stuck

/-- Leave the innermost block at its end, for the code `next`. -/
def exitBlock (fr : Frame) (next : Label → List Instr) : Jump :=
  match fr.labels with
  | l :: ls => .to { fr with code := next l, stack := fr.stack ++ l.base, labels := ls }
  | [] => .stuck

end Frame

/-! ## Exceptions -/

/-- Whether the handler or clause for the tag index `x` takes an exception. -/
def Exn.hasTag (e : Exn) (tags : List Nat) (x : Nat) : Bool := tags[x]? == some e.tag

def Handler.catches (h : Handler) (tags : List Nat) (e : Exn) : Bool :=
  match h.tag with
  | some x => e.hasTag tags x
  | none => true

def Catch.catches (c : Catch) (tags : List Nat) (e : Exn) : Bool :=
  match c with
  | .tag x _ _ => e.hasTag tags x
  | .all _ _ => true

def Catch.label : Catch → Nat
  | .tag _ _ l => l
  | .all _ l => l

/-- The operands a clause passes to its label, top first. -/
def Catch.operands (c : Catch) (address : Nat) (e : Exn) : List Val :=
  match c with
  | .tag _ false _ => e.args.reverse
  | .tag _ true _ => .ref (.exn address) :: e.args.reverse
  | .all false _ => []
  | .all true _ => [.ref (.exn address)]

/-- Search the labels of a frame for a handler.  The number says how many labels
a `delegate` still skips. -/
def Frame.handle (fr : Frame) (tags : List Nat) (address : Nat) (e : Exn) :
    Nat → List Label → Option Jump
  | _, [] => none
  | skip + 1, _ :: ls => fr.handle tags address e skip ls
  | 0, l :: ls =>
      match l.kind with
      | .plain => fr.handle tags address e 0 ls
      | .catching _ => fr.handle tags address e 0 ls
      | .guarded _ (some label) => fr.handle tags address e label ls
      | .guarded hs none =>
          match hs.find? (·.catches tags e) with
          | some h => some <| .to { fr with
              code := h.code
              stack := if h.tag.isSome then e.args.reverse else []
              labels := { l with kind := .catching address } :: ls }
          | none => fr.handle tags address e 0 ls
      | .clauses cs =>
          match cs.find? (·.catches tags e) with
          | some c =>
              some <| { fr with stack := c.operands address e, labels := ls }.branch c.label
          | none => fr.handle tags address e 0 ls

/-! ## Calls and returns -/

/-- The export name of the countdown the rewriter adds, `capnp_wasm.countdown`. -/
def countdownExport : List UInt8 := "capnp_wasm.countdown".toUTF8.toList

/-- The global exported as the countdown. -/
def Module.countdown? (m : Module) : Option Nat :=
  (m.exports.find? fun e => e.name == countdownExport && e.kind == .global).map (·.index)

/-- How many globals the host can see: all up to the countdown. -/
def Module.visibleGlobals (m : Module) (st : Store) : Nat := m.countdown?.getD st.globals.length

def Module.view (m : Module) (st : Store) : View where
  mems := st.bytes
  tables := st.tables.map (·.elems)
  globals := st.globals.take (m.visibleGlobals st)

/-- The store after a host call. -/
def Module.absorb {σ : Type} (m : Module) (st : Store) (ans : Answer σ) : Store :=
  let hidden := st.globals.drop (m.visibleGlobals st)
  { st.setBytes ans.view.mems with
    tables := st.tables.zipWith (fun table elems => { table with elems })
      (overwrite (st.tables.map (·.elems)) ans.view.tables)
    globals := overwrite (st.globals.take (m.visibleGlobals st)) ans.view.globals ++
      match ans.countdown with
      | some v => hidden.set 0 (.i32 v)
      | none => hidden }

section Step

variable {σ : Type} (m : Module) (P : Prims) (h : Host σ)

/-- Hand values to the frame that waits for them. -/
def resume (w : World σ) (values : List Val) : List Frame → Step σ
  | [] => .halt (.values values, w)
  | fr :: frs => .more ⟨w, { fr with stack := values.reverse ++ fr.stack }, frs⟩

def Jump.follow (w : World σ) (callers : List Frame) : Jump → Step σ
  | .to fr => .more ⟨w, fr, callers⟩
  | .leave values => resume w values callers
  | .stuck => .halt (.stuck, w)

/-- Unwind frames until one handles the exception. -/
def unwind (w : World σ) (address : Nat) (e : Exn) : List Frame → Step σ
  | [] => .halt (.exception address, w)
  | fr :: frs =>
      match fr.handle w.store.tags address e 0 fr.labels with
      | some jump => jump.follow w frs
      | none => unwind w address e frs

/-- Throw a new exception through the frames. -/
def throwExn (w : World σ) (e : Exn) (frames : List Frame) : Step σ :=
  unwind { w with store := { w.store with exns := w.store.exns ++ [e] } } w.store.exns.length e
    frames

/-- The world after the host ran `fn`, and what it replied. -/
def hostCall (w : World σ) (fn : HostFn) (args : List Val) : World σ × Reply :=
  let ans := h.call w.host fn args (m.view w.store)
  (⟨m.absorb w.store ans, ans.state, w.log ++ [⟨fn, args⟩]⟩, ans.reply)

/-- Call the host for `callers`, the innermost frame first. -/
def callHost (w : World σ) (fn : HostFn) (type : FuncType) (args : List Val)
    (callers : List Frame) : Step σ :=
  match hostCall m h w fn args with
  | (w, .ret values) =>
      if values.length = type.results.length then resume w values callers
      else .halt (.stuck, w)
  | (w, .throw e) => throwExn w e callers
  | (w, .exit) => .halt (.exited, w)

/-- The frame of a defined function at its start. -/
def Func.frame (fn : Nat) (f : Func) (type : FuncType) (args : List Val) : Frame where
  fn := fn
  code := f.body
  stack := []
  labels := []
  locals := args ++ f.zeros
  arity := type.results.length

/-- Call the function `fn` of the instance for `callers`. -/
def invoke (w : World σ) (fn : Nat) (args : List Val) (callers : List Frame) : Step σ :=
  match m.funcType? fn with
  | none => .halt (.stuck, w)
  | some type =>
      if args.length ≠ type.params.length then .halt (.stuck, w)
      else
        match m.importedFunctions[fn]? with
        | some (name, _) => callHost m h w (.imported fn name) type args callers
        | none =>
            match m.funcs[fn - m.importedFunctions.length]? with
            | some f => .more ⟨w, f.frame fn type args, callers⟩
            | none => .halt (.stuck, w)

/-- Split the top `n` operands off, in order. -/
def Frame.popArgs (fr : Frame) (n : Nat) : Option (List Val × Frame) :=
  if n ≤ fr.stack.length then some ((fr.stack.take n).reverse, { fr with stack := fr.stack.drop n })
  else none

/-- Call `fn` with operands of the top frame; a tail call drops that frame. -/
def callFunction (w : World σ) (fr : Frame) (callers : List Frame) (tail : Bool) (fn : Nat) :
    Step σ :=
  match m.funcType? fn with
  | none => .halt (.stuck, w)
  | some type =>
      match fr.popArgs type.params.length with
      | none => .halt (.stuck, w)
      | some (args, fr) => invoke m h w fn args (if tail then callers else fr :: callers)

/-- Call a reference at the type `type`; `ok` says whether a function of the
instance has that type, for which an indirect call checks. -/
def callReference (w : World σ) (fr : Frame) (callers : List Frame) (tail : Bool) (type : Nat)
    (ok : Nat → Bool) : Ref → Step σ
  | .null => .halt (.trap, w)
  | .func fn => if ok fn then callFunction m h w fr callers tail fn else .halt (.trap, w)
  | .foreign n =>
      match m.types[type]? with
      | none => .halt (.stuck, w)
      | some t =>
          if h.foreignHas n t then
            match fr.popArgs t.params.length with
            | none => .halt (.stuck, w)
            | some (args, fr) =>
                callHost m h w (.foreign n) t args (if tail then callers else fr :: callers)
          else .halt (.trap, w)
  | _ => .halt (.stuck, w)

/-- An indirect call through the table `t`. -/
def callIndirect (w : World σ) (fr : Frame) (callers : List Frame) (tail : Bool)
    (type t : Nat) : Step σ :=
  let entry : Res (Ref × List Val) := do
    let (i, vs) ← popI32 fr.stack
    let r ← w.store.tableGet t i
    .ok (r, vs)
  match entry with
  | .ok (r, vs) =>
      callReference m h w { fr with stack := vs } callers tail type
        (fun fn => (m.funcTypes[fn]?.map fun u => m.sameType u type).getD false) r
  | .trap => .halt (.trap, w)
  | .stuck => .halt (.stuck, w)

/-- A call through a reference on the stack. -/
def callRef (w : World σ) (fr : Frame) (callers : List Frame) (tail : Bool) (type : Nat) :
    Step σ :=
  match popRef fr.stack with
  | .ok (r, vs) =>
      callReference m h w { fr with stack := vs } callers tail type (fun _ => true) r
  | _ => .halt (.stuck, w)

/-! ## One step -/

/-- Control inside the top frame: blocks and branches.  `fr` is the frame past the
instruction, `is` its code; a `loop` is re-entered at itself. -/
def control (i : Instr) (fr : Frame) : Option Jump :=
  let block (bt : BlockType) (kind : LabelKind) (body : List Instr) : Jump :=
    match m.blockType? bt, matchEnd 0 fr.code with
    | some t, some after => fr.enter t kind t.results.length after after body
    | _, _ => .stuck
  match i with
  | .block bt => some (block bt .plain fr.code)
  | .try bt => some (block bt (.guarded (handlers 0 fr.code) (delegated 0 fr.code)) fr.code)
  | .try_table bt cs => some (block bt (.clauses cs) fr.code)
  | .loop bt =>
      some <| match m.blockType? bt, matchEnd 0 fr.code with
      | some t, some after => fr.enter t .plain t.params.length (.loop bt :: fr.code) after fr.code
      | _, _ => .stuck
  | .if bt =>
      some <| match popI32 fr.stack with
      | .ok (c, vs) =>
          let fr := { fr with stack := vs }
          match m.blockType? bt, matchEnd 0 fr.code with
          | some t, some after =>
              if c ≠ 0 then fr.enter t .plain t.results.length after after fr.code
              else
                match matchElse 0 fr.code with
                | some body => fr.enter t .plain t.results.length after after body
                | none => .to { fr with code := after }
          | _, _ => .stuck
      | _ => .stuck
  | .else | .catch _ | .catch_all => some (fr.exitBlock (·.after))
  | .end =>
      some <| if fr.labels.isEmpty then fr.branch 0 else fr.exitBlock fun _ => fr.code
  | .delegate _ => some (fr.exitBlock fun _ => fr.code)
  | .br l => some (fr.branch l)
  | .br_if l =>
      some <| match popI32 fr.stack with
      | .ok (c, vs) =>
          let fr := { fr with stack := vs }
          if c ≠ 0 then fr.branch l else .to fr
      | _ => .stuck
  | .br_table ls l =>
      some <| match popI32 fr.stack with
      | .ok (c, vs) => { fr with stack := vs }.branch (ls.getD c.toNat l)
      | _ => .stuck
  | .br_on_null l =>
      some <| match popRef fr.stack with
      | .ok (r, vs) => if r = .null then { fr with stack := vs }.branch l else .to fr
      | _ => .stuck
  | .br_on_non_null l =>
      some <| match popRef fr.stack with
      | .ok (r, vs) => if r = .null then .to { fr with stack := vs } else fr.branch l
      | _ => .stuck
  | .return => some (fr.branch fr.labels.length)
  | _ => none

/-- Throws and rethrows. -/
def raise (i : Instr) (w : World σ) (fr : Frame) (callers : List Frame) : Option (Step σ) :=
  let again (address : Nat) (fr : Frame) : Step σ :=
    match w.store.exns[address]? with
    | some e => unwind w address e (fr :: callers)
    | none => .halt (.stuck, w)
  match i with
  | .throw x =>
      some <| match m.tagType? x, w.store.tags[x]? with
      | some type, some tag =>
          match fr.popArgs type.params.length with
          | some (args, fr) => throwExn w ⟨tag, args⟩ (fr :: callers)
          | none => .halt (.stuck, w)
      | _, _ => .halt (.stuck, w)
  | .rethrow l =>
      some <| match fr.labels[l]? with
      | some ⟨.catching address, _, _, _, _⟩ => again address fr
      | _ => .halt (.stuck, w)
  | .throw_ref =>
      some <| match popRef fr.stack with
      | .ok (.exn address, vs) => again address { fr with stack := vs }
      | .ok (.null, _) => .halt (.trap, w)
      | _ => .halt (.stuck, w)
  | _ => none

/-- Calls of every form. -/
def call (i : Instr) (w : World σ) (fr : Frame) (callers : List Frame) : Option (Step σ) :=
  match i with
  | .call f => some (callFunction m h w fr callers false f)
  | .return_call f => some (callFunction m h w fr callers true f)
  | .call_indirect type t => some (callIndirect m h w fr callers false type t)
  | .return_call_indirect type t => some (callIndirect m h w fr callers true type t)
  | .call_ref type => some (callRef m h w fr callers false type)
  | .return_call_ref type => some (callRef m h w fr callers true type)
  | _ => none

/-- What a result of `execLocal` makes of the top frame. -/
def Res.toStep (w : World σ) (fr : Frame) (callers : List Frame) : Res Local → Step σ
  | .ok s => .more ⟨{ w with store := s.store }, { fr with locals := s.locals, stack := s.stack },
      callers⟩
  | .trap => .halt (.trap, w)
  | .stuck => .halt (.stuck, w)

/-- One instruction, `fr` being the frame past it. -/
def exec (i : Instr) (w : World σ) (fr : Frame) (callers : List Frame) : Step σ :=
  if i = .unreachable then .halt (.trap, w)
  else if let some jump := control m i fr then jump.follow w callers
  else if let some s := raise m i w fr callers then s
  else if let some s := call m h i w fr callers then s
  else (execLocal P i ⟨w.store, fr.locals, fr.stack⟩).toStep w fr callers

/-- One step of the machine. -/
def step (c : Config σ) : Step σ :=
  match c.top.code with
  | [] => .halt (.stuck, c.world)
  | i :: is => exec m P h i c.world { c.top with code := is } c.callers

end Step

end Wasm
