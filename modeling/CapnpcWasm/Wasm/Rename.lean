import CapnpcWasm.Wasm.Machine

/-!
# Renumbering the functions of an instance

A function reference is an index, so two instances of one program whose functions
are numbered differently hold different values.  `Val.rename ρ` moves a value from
one numbering to the other.  Everything the machine does to a value except calling
it commutes with the renaming.

The lemmas here are the value level of that: defaults, the operand pops and the list
operations that the stores are written with.  The pops answer a `Res`, and an instruction
is a sequence of them, so `Res.bind_comm` carries the renaming through such a sequence one
pop at a time.  `Rewriter.Worlds` states the same for worlds, and `Rewriter.Simulation`
for the instructions.
-/

namespace Wasm

/-! ## Values -/

/-- Only a reference to a function names it by an index that differs.  A foreign function, an
exception and a host reference are the same in both instances. -/
def Ref.rename (ρ : Nat → Nat) : Ref → Ref
  | .func f => .func (ρ f)
  | r => r

/-- Numbers are the same in both instances. -/
def Val.rename (ρ : Nat → Nat) : Val → Val
  | .num x => .num x
  | .ref r => .ref (r.rename ρ)

/-- An exception carries values, so its arguments are renumbered. -/
def Exn.rename (ρ : Nat → Nat) (e : Exn) : Exn := ⟨e.tag, e.args.map (Val.rename ρ)⟩

/-- A table holds references.  Its maximum is a number of entries. -/
def Table.rename (ρ : Nat → Nat) (t : Table) : Table := ⟨t.elems.map (Ref.rename ρ), t.max⟩

variable (ρ : Nat → Nat)

/-- The simp set of the renaming, one lemma for each constructor. -/
@[simp] theorem Ref.rename_null : Ref.null.rename ρ = .null := rfl
@[simp] theorem Ref.rename_func (f : Nat) : (Ref.func f).rename ρ = .func (ρ f) := rfl
@[simp] theorem Ref.rename_foreign (f : Nat) : (Ref.foreign f).rename ρ = .foreign f := rfl
@[simp] theorem Ref.rename_exn (a : Nat) : (Ref.exn a).rename ρ = .exn a := rfl
@[simp] theorem Ref.rename_host (n : Nat) : (Ref.host n).rename ρ = .host n := rfl
@[simp] theorem Val.rename_num (x : Num) : (Val.num x).rename ρ = .num x := rfl
@[simp] theorem Val.rename_ref (r : Ref) : (Val.ref r).rename ρ = .ref (r.rename ρ) := rfl

/-- Null is no function, so the renaming makes none and loses none. -/
@[simp] theorem Ref.rename_eq_null {r : Ref} : r.rename ρ = .null ↔ r = .null := by
  cases r <;> simp

/-- Renaming tells null from everything else. -/
@[simp] theorem Ref.rename_beq_null (r : Ref) : (r.rename ρ == .null) = (r == .null) := by
  cases r <;> rfl

/-- A default is a number or null. -/
@[simp] theorem ValType.rename_default (t : ValType) : t.default.rename ρ = t.default := by
  cases t <;> rfl

/-- The locals a function starts with are defaults. -/
theorem Func.rename_zeros (f : Func) : f.zeros.map (Val.rename ρ) = f.zeros := by
  simp [Func.zeros, List.map_flatMap]

/-- Vectors of numbers, such as the arguments that a numeric instruction takes. -/
@[simp] theorem Val.map_rename_num (xs : List Num) :
    (xs.map Val.num).map (Val.rename ρ) = xs.map Val.num := by
  simp [Function.comp_def]

/-! ## Operands -/

/-- Two changes of a result are one. -/
theorem Res.map_map {α β γ : Type} (g : β → γ) (f : α → β) (x : Res α) :
    (x.map f).map g = x.map (g ∘ f) := by
  cases x <;> rfl

/-- A change of the values commutes with a sequence when it does with each part. -/
theorem Res.bind_comm' {α β γ δ : Type} {x : Res α} {g : α → β} {f' : β → Res δ} {f : α → Res γ}
    {k : γ → δ} (h : ∀ a, x = .ok a → f' (g a) = (f a).map k) :
    (x.map g >>= f') = (x >>= f).map k := by
  cases x with
  | ok a => exact h a rfl
  | trap | stuck => rfl

/-- The same where the parts commute whatever the first gave. -/
theorem Res.bind_comm {α β γ δ : Type} {x : Res α} {g : α → β} {f' : β → Res δ} {f : α → Res γ}
    {k : γ → δ} (h : ∀ a, f' (g a) = (f a).map k) : (x.map g >>= f') = (x >>= f).map k :=
  Res.bind_comm' fun a _ => h a

/-- The pops look at the shape of the top operand only, which the renaming keeps. -/
theorem popVal_rename (vs : List Val) :
    popVal (vs.map (Val.rename ρ)) =
      (popVal vs).map fun p => (p.1.rename ρ, p.2.map (Val.rename ρ)) := by
  cases vs <;> rfl

/-- The `i32` at the top is the same number. -/
theorem popI32_rename (vs : List Val) :
    popI32 (vs.map (Val.rename ρ)) = (popI32 vs).map fun p => (p.1, p.2.map (Val.rename ρ)) := by
  match vs with
  | [] | .ref _ :: _ => rfl
  | .num x :: vs => cases x <;> rfl

/-- The reference at the top is renamed. -/
theorem popRef_rename (vs : List Val) :
    popRef (vs.map (Val.rename ρ)) =
      (popRef vs).map fun p => (p.1.rename ρ, p.2.map (Val.rename ρ)) := by
  match vs with
  | [] | .num _ :: _ | .ref _ :: _ => rfl

/-- The three numbers that a bulk instruction takes. -/
theorem popBulk_rename (vs : List Val) :
    popBulk (vs.map (Val.rename ρ)) = (popBulk vs).map fun p => (p.1, p.2.map (Val.rename ρ)) := by
  simp only [popBulk, popI32_rename]
  -- The three numbers are popped one after the other, each from what the last left.
  cases popI32 vs with
  | trap | stuck => rfl
  | ok p =>
      simp only [Res.map, bind, Res.bind, popI32_rename]
      cases popI32 p.2 with
      | trap | stuck => rfl
      | ok q =>
          simp only [popI32_rename]
          cases popI32 q.2 <;> rfl

/-- The numbers that a numeric instruction takes. -/
theorem popNums_rename (n : Nat) (vs : List Val) :
    popNums n (vs.map (Val.rename ρ)) =
      (popNums n vs).map fun p => (p.1, p.2.map (Val.rename ρ)) := by
  induction n generalizing vs with
  | zero => rfl
  | succ n ih =>
      match vs with
      | [] | .ref _ :: _ => rfl
      | .num x :: vs => simp [popNums, ih, Res.map_map, Function.comp_def]

/-- `ref.eq` compares references that are no functions, and answers the same. -/
theorem Ref.same_rename (a b : Ref) : (a.rename ρ).same (b.rename ρ) = a.same b := by
  cases a <;> cases b <;> rfl

/-! ## The host -/

/-- What the host sees of an instance, under its numbering: the bytes are the same. -/
def View.rename (v : View) : View where
  mems := v.mems
  tables := v.tables.map fun t => t.map (Ref.rename ρ)
  globals := v.globals.map (Val.rename ρ)

/-- What the host answers, under the instance's numbering. -/
def Reply.rename : Reply → Reply
  | .ret vs => .ret (vs.map (Val.rename ρ))
  | .throw e => .throw (e.rename ρ)
  | .exit => .exit

/-- A call as the log keeps it: imports have the same indices in both. -/
def HostCall.rename (c : HostCall) : HostCall := ⟨c.fn, c.args.map (Val.rename ρ)⟩

/-! ## Lists under renaming -/

/-- A splice is refused for its lengths alone. -/
theorem splice_map {α β : Type} (g : α → β) (old new : List α) (n : Nat) :
    splice (old.map g) (new.map g) n = (splice old new n).map (List.map g) := by
  simp only [splice, List.length_map]
  split <;> simp

/-- So is a slice. -/
theorem slice_map {α β : Type} (g : α → β) (xs : List α) (i n : Nat) :
    slice (xs.map g) i n = (slice xs i n).map (List.map g) := by
  simp only [slice, List.length_map]
  split <;> simp

/-- An overwrite compares lengths too. -/
theorem overwrite_map {α β : Type} (g : α → β) (old new : List α) :
    overwrite (old.map g) (new.map g) = (overwrite old new).map g := by
  simp only [overwrite, List.length_map]
  split <;> rfl

/-- The host that writes back what it saw changes nothing. -/
@[simp] theorem overwrite_self {α : Type} (xs : List α) : overwrite xs xs = xs := by
  simp [overwrite]

/-- The host cannot change how many there are. -/
@[simp] theorem overwrite_length {α : Type} (old new : List α) :
    (overwrite old new).length = old.length := by
  simp only [overwrite]
  split
  · assumption
  · rfl

end Wasm
