import CapnpcWasm.Wasm.Rename

/-!
# Single steps of the machine

One lemma for each instruction the injected sequences use, at a frame written out
by its parts, and the classification of instructions the later proofs split on:
local ones stay in their frame and change only operands, locals and the store.
-/

namespace Wasm

open Run (Next Steps Halts)

/-! ## Classes of instructions -/

/-- Instructions `execLocal` runs. -/
def isLocal : Instr → Bool
  | .unreachable | .block _ | .loop _ | .if _ | .else | .try _ | .catch _ | .catch_all
  | .delegate _ | .throw _ | .rethrow _ | .throw_ref | .try_table _ _ | .end | .br _ | .br_if _
  | .br_table _ _ | .br_on_null _ | .br_on_non_null _ | .return | .call _ | .call_indirect _ _
  | .call_ref _ | .return_call _ | .return_call_indirect _ _ | .return_call_ref _ => false
  | _ => true

/-- Instructions `control` runs. -/
def isControl : Instr → Bool
  | .block _ | .loop _ | .if _ | .else | .try _ | .catch _ | .catch_all | .delegate _
  | .try_table _ _ | .end | .br _ | .br_if _ | .br_table _ _ | .br_on_null _
  | .br_on_non_null _ | .return => true
  | _ => false

/-- Instructions `raise` runs. -/
def isRaise : Instr → Bool
  | .throw _ | .rethrow _ | .throw_ref => true
  | _ => false

/-- Instructions `call` runs. -/
def isCall : Instr → Bool
  | .call _ | .call_indirect _ _ | .call_ref _ | .return_call _ | .return_call_indirect _ _
  | .return_call_ref _ => true
  | _ => false

/-- Every instruction is of one class. -/
theorem instr_class (i : Instr) :
    i = .unreachable ∨ isControl i = true ∨ isRaise i = true ∨ isCall i = true ∨
      isLocal i = true := by
  cases i <;> simp [isControl, isRaise, isCall, isLocal]

section

variable {σ : Type} {m : Module} {P : Prims} {h : Host σ}

/-- Control is a jump, which is then followed. -/
theorem exec_control {i : Instr} (hi : isControl i = true) (w : World σ) (fr : Frame)
    (cs : List Frame) :
    ∃ jump, control m i fr = some jump ∧ exec m P h i w fr cs = jump.follow w cs := by
  cases i <;> first | exact ⟨_, rfl, rfl⟩ | cases hi

/-- Exceptions. -/
theorem exec_raise {i : Instr} (hi : isRaise i = true) (w : World σ) (fr : Frame)
    (cs : List Frame) :
    raise m i w fr cs = some (exec m P h i w fr cs) := by
  cases i <;> first | rfl | cases hi

/-- Calls. -/
theorem exec_call {i : Instr} (hi : isCall i = true) (w : World σ) (fr : Frame)
    (cs : List Frame) :
    call m h i w fr cs = some (exec m P h i w fr cs) := by
  cases i <;> first | rfl | cases hi

/-- All others stay in their frame. -/
theorem exec_local {i : Instr} (hi : isLocal i = true) (w : World σ) (fr : Frame)
    (cs : List Frame) :
    exec m P h i w fr cs = (execLocal P i ⟨w.store, fr.locals, fr.stack⟩).toStep w fr cs := by
  cases i <;> first | rfl | cases hi

/-! ## Steps of a frame written out -/

variable {w : World σ} {fn n : Nat} {is : List Instr} {vs xs : List Val} {ls : List Label}
  {cs : List Frame}

/-- A step runs the next instruction on the code behind it. -/
theorem step_cons {i : Instr} :
    step m P h ⟨w, ⟨fn, i :: is, vs, ls, xs, n⟩, cs⟩ =
      exec m P h i w ⟨fn, is, vs, ls, xs, n⟩ cs := rfl

/-- A local instruction that succeeds. -/
theorem step_local {i : Instr} {s : Local} (hi : isLocal i = true)
    (hs : execLocal P i ⟨w.store, xs, vs⟩ = .ok s) :
    step m P h ⟨w, ⟨fn, i :: is, vs, ls, xs, n⟩, cs⟩ =
      .more ⟨{ w with store := s.store }, ⟨fn, is, s.stack, ls, s.locals, n⟩, cs⟩ := by
  rw [step_cons, exec_local hi, hs, Res.toStep]

/-- Numeric and memory instructions pop, compute and push. -/
theorem execLocal_plain (op : PlainOp) (s : Local) : execLocal P (.plain op) s =
    (popNums (plainType P op).params.length s.stack).bind fun p =>
      (execPlain P op s.store.bytes p.1).bind fun q =>
        .ok { s with
          store := s.store.setBytes q.1
          stack := (q.2.map Val.num).reverse ++ p.2 } := rfl

/-- Writing back the bytes that are there changes nothing. -/
@[simp] theorem Store.setBytes_bytes (st : Store) : st.setBytes st.bytes = st := by
  have h : ∀ mems : List Mem,
      mems.zipWith (fun mem bytes => { mem with bytes }) (mems.map (·.bytes)) = mems := by
    intro mems
    induction mems with
    | nil => rfl
    | cons mem mems ih => simp [ih]
  simp [Store.setBytes, Store.bytes, h]

theorem step_unreachable :
    step m P h ⟨w, ⟨fn, .unreachable :: is, vs, ls, xs, n⟩, cs⟩ = .halt (.trap, w) := rfl

theorem step_global_get {x : Nat} {v : Val} (hx : w.store.globals[x]? = some v) :
    step m P h ⟨w, ⟨fn, .global_get x :: is, vs, ls, xs, n⟩, cs⟩ =
      .more ⟨w, ⟨fn, is, v :: vs, ls, xs, n⟩, cs⟩ :=
  step_local (s := ⟨w.store, xs, v :: vs⟩) rfl (congrArg (fun o => (Res.ofStuck o).map _) hx)

/-- A store with one global replaced. -/
def World.setGlobal (w : World σ) (x : Nat) (v : Val) : World σ :=
  { w with store := { w.store with globals := w.store.globals.set x v } }

theorem step_global_set {x : Nat} {v : Val} (hx : x < w.store.globals.length) :
    step m P h ⟨w, ⟨fn, .global_set x :: is, v :: vs, ls, xs, n⟩, cs⟩ =
      .more ⟨w.setGlobal x v, ⟨fn, is, vs, ls, xs, n⟩, cs⟩ :=
  step_local (s := ⟨_, xs, vs⟩) rfl (if_pos hx)

theorem step_local_get {x : Nat} {v : Val} (hx : xs[x]? = some v) :
    step m P h ⟨w, ⟨fn, .local_get x :: is, vs, ls, xs, n⟩, cs⟩ =
      .more ⟨w, ⟨fn, is, v :: vs, ls, xs, n⟩, cs⟩ :=
  step_local (s := ⟨w.store, xs, v :: vs⟩) rfl (congrArg (fun o => (Res.ofStuck o).map _) hx)

theorem step_local_tee {x : Nat} {v : Val} (hx : x < xs.length) :
    step m P h ⟨w, ⟨fn, .local_tee x :: is, v :: vs, ls, xs, n⟩, cs⟩ =
      .more ⟨w, ⟨fn, is, v :: vs, ls, xs.set x v, n⟩, cs⟩ :=
  step_local (s := ⟨w.store, xs.set x v, v :: vs⟩) rfl (if_pos hx)

theorem step_i32_const {c : BitVec 32} :
    step m P h ⟨w, ⟨fn, .i32_const c :: is, vs, ls, xs, n⟩, cs⟩ =
      .more ⟨w, ⟨fn, is, .i32 c :: vs, ls, xs, n⟩, cs⟩ := rfl

theorem step_i32_eqz {a : BitVec 32} :
    step m P h ⟨w, ⟨fn, .i32_eqz :: is, .i32 a :: vs, ls, xs, n⟩, cs⟩ =
      .more ⟨w, ⟨fn, is, .num (.ofBool (a == 0)) :: vs, ls, xs, n⟩, cs⟩ :=
  step_local (s := ⟨w.store, xs, _⟩) rfl (by
    simp [execLocal_plain, plainType, popNums, execPlain, Res.bind, Res.map])

/-- The branch the checks take while the countdown runs. -/
theorem step_i32_eqz_ne {a : BitVec 32} (ha : a ≠ 0) :
    step m P h ⟨w, ⟨fn, .i32_eqz :: is, .i32 a :: vs, ls, xs, n⟩, cs⟩ =
      .more ⟨w, ⟨fn, is, .i32 0 :: vs, ls, xs, n⟩, cs⟩ := by
  have ha' : (a == 0) = false := by simpa using ha
  rw [step_i32_eqz, ha']
  rfl

theorem step_i32_ge_u {a b : BitVec 32} :
    step m P h ⟨w, ⟨fn, .i32_ge_u :: is, .i32 b :: .i32 a :: vs, ls, xs, n⟩, cs⟩ =
      .more ⟨w, ⟨fn, is, .num (.ofBool (b.ule a)) :: vs, ls, xs, n⟩, cs⟩ :=
  step_local (s := ⟨w.store, xs, _⟩) rfl (by
    simp [execLocal_plain, plainType, popNums, execPlain, Res.bind, Res.map])

/-- A comparison that holds, as a charge makes it against the unit and the countdown. -/
theorem step_i32_ge_u_true {a b : BitVec 32} (hab : b.ule a = true) :
    step m P h ⟨w, ⟨fn, .i32_ge_u :: is, .i32 b :: .i32 a :: vs, ls, xs, n⟩, cs⟩ =
      .more ⟨w, ⟨fn, is, .i32 1 :: vs, ls, xs, n⟩, cs⟩ := by
  rw [step_i32_ge_u, hab]
  rfl

theorem step_i32_ge_u_false {a b : BitVec 32} (hab : b.ule a = false) :
    step m P h ⟨w, ⟨fn, .i32_ge_u :: is, .i32 b :: .i32 a :: vs, ls, xs, n⟩, cs⟩ =
      .more ⟨w, ⟨fn, is, .i32 0 :: vs, ls, xs, n⟩, cs⟩ := by
  rw [step_i32_ge_u, hab]
  rfl

theorem step_i32_sub {a b : BitVec 32} :
    step m P h ⟨w, ⟨fn, .i32_sub :: is, .i32 b :: .i32 a :: vs, ls, xs, n⟩, cs⟩ =
      .more ⟨w, ⟨fn, is, .i32 (a - b) :: vs, ls, xs, n⟩, cs⟩ :=
  step_local (s := ⟨w.store, xs, _⟩) rfl (by
    simp [execLocal_plain, plainType, popNums, execPlain, Res.bind, Res.map])

theorem step_i32_shr_u {a b : BitVec 32} :
    step m P h ⟨w, ⟨fn, .i32_shr_u :: is, .i32 b :: .i32 a :: vs, ls, xs, n⟩, cs⟩ =
      .more ⟨w, ⟨fn, is, .i32 (a >>> (b.toNat % 32)) :: vs, ls, xs, n⟩, cs⟩ :=
  step_local (s := ⟨w.store, xs, _⟩) rfl (by
    simp [execLocal_plain, plainType, popNums, execPlain, Res.bind, Res.map])

/-- An `if` whose end is there. -/
theorem step_if {js : List Instr} {c : BitVec 32} (he : matchEnd 0 is = some js) :
    step m P h ⟨w, ⟨fn, .if .empty :: is, .i32 c :: vs, ls, xs, n⟩, cs⟩ =
      if c ≠ 0 then .more ⟨w, ⟨fn, is, [], ⟨.plain, 0, vs, js, js⟩ :: ls, xs, n⟩, cs⟩
      else (matchElse 0 is).elim (.more ⟨w, ⟨fn, js, vs, ls, xs, n⟩, cs⟩) fun es =>
        .more ⟨w, ⟨fn, es, [], ⟨.plain, 0, vs, js, js⟩ :: ls, xs, n⟩, cs⟩ := by
  cases hn : matchElse 0 is <;> by_cases hc : c = 0#32 <;>
    simp [step, exec, control, popI32, Module.blockType?, he, hn, hc, Jump.follow, Frame.enter]

/-- A false `if` without an `else` is skipped. -/
theorem step_if_skip {js : List Instr} (he : matchEnd 0 is = some js)
    (hn : matchElse 0 is = none) :
    step m P h ⟨w, ⟨fn, .if .empty :: is, .i32 0 :: vs, ls, xs, n⟩, cs⟩ =
      .more ⟨w, ⟨fn, js, vs, ls, xs, n⟩, cs⟩ := by
  rw [step_if he, if_neg (not_not.mpr rfl), hn]
  rfl

/-- A false `if` with an `else` enters it. -/
theorem step_if_else {js es : List Instr} (he : matchEnd 0 is = some js)
    (hn : matchElse 0 is = some es) :
    step m P h ⟨w, ⟨fn, .if .empty :: is, .i32 0 :: vs, ls, xs, n⟩, cs⟩ =
      .more ⟨w, ⟨fn, es, [], ⟨.plain, 0, vs, js, js⟩ :: ls, xs, n⟩, cs⟩ := by
  rw [step_if he, if_neg (not_not.mpr rfl), hn]
  rfl

/-- A true `if` is entered. -/
theorem step_if_then {js : List Instr} {c : BitVec 32} (hc : c ≠ 0)
    (he : matchEnd 0 is = some js) :
    step m P h ⟨w, ⟨fn, .if .empty :: is, .i32 c :: vs, ls, xs, n⟩, cs⟩ =
      .more ⟨w, ⟨fn, is, [], ⟨.plain, 0, vs, js, js⟩ :: ls, xs, n⟩, cs⟩ := by
  rw [step_if he, if_pos hc]

/-- The operands of a block stay, above those below its label. -/
theorem step_end {l : Label} :
    step m P h ⟨w, ⟨fn, .end :: is, vs, l :: ls, xs, n⟩, cs⟩ =
      .more ⟨w, ⟨fn, is, vs ++ l.base, ls, xs, n⟩, cs⟩ := rfl

/-- The first branch is done, so the code behind the block is next. -/
theorem step_else {l : Label} :
    step m P h ⟨w, ⟨fn, .else :: is, vs, l :: ls, xs, n⟩, cs⟩ =
      .more ⟨w, ⟨fn, l.after, vs ++ l.base, ls, xs, n⟩, cs⟩ := rfl

/-- A branch past the labels leaves the frame with its results. -/
theorem branch_out (hn : n ≤ vs.length) :
    (Frame.mk fn is vs ls xs n).branch ls.length = .leave (vs.take n).reverse := by
  simp [Frame.branch, hn]

/-- `return` leaves the frame with its results, whatever the labels. -/
theorem step_return (hn : n ≤ vs.length) :
    step m P h ⟨w, ⟨fn, .return :: is, vs, ls, xs, n⟩, cs⟩ =
      resume w (vs.take n).reverse cs :=
  congrArg (Jump.follow w cs) (branch_out hn)

/-- The last `end` does the same. -/
theorem step_last_end (hn : n ≤ vs.length) :
    step m P h ⟨w, ⟨fn, .end :: is, vs, [], xs, n⟩, cs⟩ = resume w (vs.take n).reverse cs :=
  congrArg (Jump.follow w cs) (branch_out hn : (Frame.mk fn is vs [] xs n).branch 0 = _)

/-- The whole stack as arguments. -/
theorem popArgs_all {k : Nat} (hk : xs.length = k) :
    (Frame.mk fn is xs.reverse ls vs n).popArgs k = some (xs, ⟨fn, is, [], ls, vs, n⟩) := by
  have htake : xs.reverse.take xs.length = xs.reverse := List.take_of_length_le (by simp)
  simp [Frame.popArgs, ← hk, htake]

@[simp] theorem popArgs_none : (Frame.mk fn is vs ls xs n).popArgs 0 =
    some ([], ⟨fn, is, vs, ls, xs, n⟩) := by
  simp [Frame.popArgs]

/-- A call of an import is a host call, which returns at once. -/
theorem exec_call_import {f t : Nat} {name : ImportName} {type : FuncType} {args : List Val}
    {fr fr' : Frame} (hf : m.importedFunctions[f]? = some (name, t))
    (ht : m.funcType? f = some type)
    (ha : fr.popArgs type.params.length = some (args, fr')) :
    exec m P h (.call f) w fr cs = callHost m h w (.imported f name) type args (fr' :: cs) := by
  have hlen : args.length = type.params.length := by
    simp only [Frame.popArgs] at ha
    split at ha
    · cases ha; simp; omega
    · cases ha
  simp [exec, control, raise, call, callFunction, ht, ha, invoke, hf, hlen]

end

end Wasm
