import CapnpcWasm.Wasm.Steps
import CapnpcWasm.Rewriter.Layout

/-!
# What the injected sequences do

Runs of `checkSequence` and `chargeSequence` in any frame, under any labels and
above any operands, for every answer of the host.  A check that finds the
countdown above zero takes one tick.  At zero it polls: the answer zero resets the
countdown, any other answer traps.  A charge does the same with the ticks its size
operand is worth, which must reach the countdown for a poll.

Both leave the operand stack, the labels and the callers as they were.
-/

namespace Rewriter

open Wasm
open Run (Next Steps Halts)

/-- The module imports the interrupt function where `ctx` calls it. -/
structure Polls (m : Module) (ctx : Context) : Prop where
  imported : ∃ t, m.importedFunctions[ctx.importedFunctions]? = some (interruptImport, t)
  type : m.funcType? ctx.importedFunctions = some ⟨[], [.i32]⟩

theorem Instruments.polls {m m' : Module} {maximum interval : Nat}
    (hi : Instruments m m' maximum interval) : Polls m' (contextOf m interval) where
  imported := ⟨m.types.length, by rw [hi.importedFunctions]; simp⟩
  type := by
    simp [Module.funcType?, Module.funcTypes, hi.importedFunctions, hi.types]

/-- The interrupt function as the host sees it. -/
def Context.interrupt (ctx : Context) : HostFn := .imported ctx.importedFunctions interruptImport

/-- The value the countdown is reset to. -/
def Context.full (ctx : Context) : BitVec 32 := .ofNat 32 ctx.interval

theorem setGlobal_get {σ : Type} {w : World σ} {x : Nat} {v : Val}
    (h : x < w.store.globals.length) : (w.setGlobal x v).store.globals[x]? = some v := by
  simp [World.setGlobal, h]

theorem setGlobal_setGlobal {σ : Type} (w : World σ) (x : Nat) (u v : Val) :
    (w.setGlobal x u).setGlobal x v = w.setGlobal x v := by
  simp [World.setGlobal]

@[simp] theorem setGlobal_length {σ : Type} (w : World σ) (x : Nat) (v : Val) :
    (w.setGlobal x v).store.globals.length = w.store.globals.length := by
  simp [World.setGlobal]

section

variable {σ : Type} {m : Module} {P : Prims} {h : Host σ} {ctx : Context} {w w' : World σ}
  {fn n : Nat} {is : List Instr} {vs xs : List Val} {ls : List Label} {cs : List Frame}

/-! ## The poll -/

/-- The call of the interrupt function, when it returns. -/
theorem step_interrupt (hp : Polls m ctx) {v : BitVec 32}
    (hcall : hostCall m h w ctx.interrupt [] = (w', .ret [.i32 v])) :
    step m P h ⟨w, ⟨fn, .call ctx.importedFunctions :: is, vs, ls, xs, n⟩, cs⟩ =
      .more ⟨w', ⟨fn, is, .i32 v :: vs, ls, xs, n⟩, cs⟩ := by
  obtain ⟨t, ht⟩ := hp.imported
  rw [step_cons, exec_call_import ht hp.type popArgs_none]
  rw [Context.interrupt] at hcall
  simp [callHost, hcall, resume]

/-- The part the two sequences share: call the interrupt function, trap on a
nonzero answer, reset the countdown. -/
def pollCode (ctx : Context) (is : List Instr) : List Instr :=
  .call ctx.importedFunctions :: .if .empty :: .unreachable :: .end ::
    .i32_const ctx.full :: .global_set ctx.counter :: is

theorem poll_answered (hp : Polls m ctx)
    (hcall : hostCall m h w ctx.interrupt [] = (w', .ret [.i32 0]))
    (hlen : ctx.counter < w'.store.globals.length) :
    Steps (step m P h) 4 ⟨w, ⟨fn, pollCode ctx is, vs, ls, xs, n⟩, cs⟩
      ⟨w'.setGlobal ctx.counter (.i32 ctx.full), ⟨fn, is, vs, ls, xs, n⟩, cs⟩ :=
  .head (step_interrupt hp hcall) <|
  .head (step_if_skip rfl rfl) <|
  .head step_i32_const <|
  .one (step_global_set hlen)

theorem poll_stopped (hp : Polls m ctx) {v : BitVec 32} (hv : v ≠ 0)
    (hcall : hostCall m h w ctx.interrupt [] = (w', .ret [.i32 v])) :
    Halts (step m P h) ⟨w, ⟨fn, pollCode ctx is, vs, ls, xs, n⟩, cs⟩ (.trap, w') :=
  .of_steps
    (.head (step_interrupt hp hcall) <|
      .one (step_if_then hv rfl))
    (.now step_unreachable)

/-! ## The check -/

/-- A check above zero takes one tick. -/
theorem check_tick {c : BitVec 32} (hc : w.store.globals[ctx.counter]? = some (.i32 c))
    (hne : c ≠ 0) :
    Steps (step m P h) 7 ⟨w, ⟨fn, ctx.check ++ is, vs, ls, xs, n⟩, cs⟩
      ⟨w.setGlobal ctx.counter (.i32 (c - 1)), ⟨fn, is, vs, ls, xs, n⟩, cs⟩ :=
  have hlen : ctx.counter < w.store.globals.length := (List.getElem?_eq_some_iff.mp hc).1
  .head (step_global_get hc) <|
  .head (step_i32_eqz_ne hne) <|
  .head (step_if_skip rfl rfl) <|
  .head (step_global_get hc) <|
  .head step_i32_const <|
  .head step_i32_sub <|
  .one (step_global_set hlen)

/-- What a check still has to do after its poll. -/
def checkRest (ctx : Context) (is : List Instr) : List Instr :=
  .global_get ctx.counter :: .i32_const 1 :: .i32_sub :: .global_set ctx.counter :: is

/-- A check at zero enters the poll. -/
theorem check_enter (hc : w.store.globals[ctx.counter]? = some (.i32 0)) :
    Steps (step m P h) 3 ⟨w, ⟨fn, ctx.check ++ is, vs, ls, xs, n⟩, cs⟩
      ⟨w, ⟨fn, pollCode ctx (.end :: checkRest ctx is), [],
        ⟨.plain, 0, vs, checkRest ctx is, checkRest ctx is⟩ :: ls, xs, n⟩, cs⟩ :=
  .head (step_global_get hc) <|
  .head step_i32_eqz <|
  .one (step_if_then (by decide) rfl)

/-- A check at zero that is answered zero starts a new countdown, minus its tick. -/
theorem check_answered (hp : Polls m ctx)
    (hc : w.store.globals[ctx.counter]? = some (.i32 0))
    (hcall : hostCall m h w ctx.interrupt [] = (w', .ret [.i32 0]))
    (hlen : ctx.counter < w'.store.globals.length) :
    Steps (step m P h) 12 ⟨w, ⟨fn, ctx.check ++ is, vs, ls, xs, n⟩, cs⟩
      ⟨w'.setGlobal ctx.counter (.i32 (ctx.full - 1)), ⟨fn, is, vs, ls, xs, n⟩, cs⟩ := by
  refine Steps.trans (m := 9) (check_enter hc) ?_
  refine Steps.trans (m := 5) (poll_answered hp hcall hlen) (.head step_end <|
    .head (step_global_get (setGlobal_get hlen)) <| .head step_i32_const <|
    .head step_i32_sub <| .one ?_)
  rw [step_global_set (by simpa using hlen), setGlobal_setGlobal, List.nil_append]

/-- A check at zero with a nonzero answer traps. -/
theorem check_stopped (hp : Polls m ctx) {v : BitVec 32} (hv : v ≠ 0)
    (hc : w.store.globals[ctx.counter]? = some (.i32 0))
    (hcall : hostCall m h w ctx.interrupt [] = (w', .ret [.i32 v])) :
    Halts (step m P h) ⟨w, ⟨fn, ctx.check ++ is, vs, ls, xs, n⟩, cs⟩ (.trap, w') :=
  (poll_stopped hp hv hcall).of_steps (check_enter hc)

/-! ## The charge -/

/-- The charge of an operation. -/
def Context.charge (ctx : Context) (scratch shift : Nat) : List Instr :=
  chargeSequence ctx.counter scratch ctx.importedFunctions ctx.interval shift

/-- The least size that costs a tick. -/
def unit_ (shift : Nat) : BitVec 32 := .ofNat 32 (1 <<< shift)

/-- The ticks of a size. -/
def ticks (shift : Nat) (size : BitVec 32) : BitVec 32 :=
  size >>> ((BitVec.ofNat 32 shift).toNat % 32)

variable {scratch shift : Nat} {size : BitVec 32}

/-- A size below one tick costs nothing. -/
theorem charge_small (hx : scratch < xs.length) (hs : (unit_ shift).ule size = false) :
    Steps (step m P h) 5 ⟨w, ⟨fn, ctx.charge scratch shift ++ is, .i32 size :: vs, ls, xs, n⟩, cs⟩
      ⟨w, ⟨fn, is, .i32 size :: vs, ls, xs.set scratch (.i32 size), n⟩, cs⟩ :=
  .head (step_local_tee hx) <|
  .head step_i32_const <|
  .head (step_i32_ge_u_false hs) <|
  .head (step_if_skip rfl rfl) <|
  .one (step_local_get (by simp [hx]))

/-- What a charge still has to do around its poll: skip the `else`, close the outer
block, push the size. -/
def chargeRest (ctx : Context) (scratch shift : Nat) (is : List Instr) : List Instr :=
  .else :: .global_get ctx.counter :: .local_get scratch :: .i32_const (.ofNat 32 shift) ::
    .i32_shr_u :: .i32_sub :: .global_set ctx.counter :: .end :: .end :: .local_get scratch :: is

/-- Ticks that do not reach the countdown are subtracted from it. -/
theorem charge_tick {c : BitVec 32} (hc : w.store.globals[ctx.counter]? = some (.i32 c))
    (hx : scratch < xs.length) (hs : (unit_ shift).ule size = true)
    (ht : c.ule (ticks shift size) = false) :
    Steps (step m P h) 19 ⟨w, ⟨fn, ctx.charge scratch shift ++ is, .i32 size :: vs, ls, xs, n⟩, cs⟩
      ⟨w.setGlobal ctx.counter (.i32 (c - ticks shift size)),
        ⟨fn, is, .i32 size :: vs, ls, xs.set scratch (.i32 size), n⟩, cs⟩ :=
  have hlen : ctx.counter < w.store.globals.length := (List.getElem?_eq_some_iff.mp hc).1
  have hget : (xs.set scratch (.i32 size))[scratch]? = some (.i32 size) := by simp [hx]
  .head (step_local_tee hx) <|
  .head step_i32_const <|
  .head (step_i32_ge_u_true hs) <|
  .head (step_if_then (by decide) rfl) <|
  .head (step_local_get hget) <|
  .head step_i32_const <|
  .head step_i32_shr_u <|
  .head (step_global_get hc) <|
  .head (step_i32_ge_u_false ht) <|
  .head (step_if_else rfl rfl) <|
  .head (step_global_get hc) <|
  .head (step_local_get hget) <|
  .head step_i32_const <|
  .head step_i32_shr_u <|
  .head step_i32_sub <|
  .head (step_global_set hlen) <|
  .head step_end <|
  .head step_end <|
  .one (step_local_get hget)

/-- Ticks that reach the countdown enter the poll. -/
theorem charge_enter {c : BitVec 32} (hc : w.store.globals[ctx.counter]? = some (.i32 c))
    (hx : scratch < xs.length) (hs : (unit_ shift).ule size = true)
    (ht : c.ule (ticks shift size) = true) :
    Steps (step m P h) 10
      ⟨w, ⟨fn, ctx.charge scratch shift ++ is, .i32 size :: vs, ls, xs, n⟩, cs⟩
      ⟨w, ⟨fn, pollCode ctx (chargeRest ctx scratch shift is), [],
        ⟨.plain, 0, [], .end :: .local_get scratch :: is, .end :: .local_get scratch :: is⟩ ::
          ⟨.plain, 0, vs, .local_get scratch :: is, .local_get scratch :: is⟩ :: ls,
        xs.set scratch (.i32 size), n⟩, cs⟩ :=
  have hget : (xs.set scratch (.i32 size))[scratch]? = some (.i32 size) := by simp [hx]
  .head (step_local_tee hx) <|
  .head step_i32_const <|
  .head (step_i32_ge_u_true hs) <|
  .head (step_if_then (by decide) rfl) <|
  .head (step_local_get hget) <|
  .head step_i32_const <|
  .head step_i32_shr_u <|
  .head (step_global_get hc) <|
  .head (step_i32_ge_u_true ht) <|
  .one (step_if_then (by decide) rfl)

/-- A charge that polls and is answered zero starts a new countdown. -/
theorem charge_answered (hp : Polls m ctx) {c : BitVec 32}
    (hc : w.store.globals[ctx.counter]? = some (.i32 c)) (hx : scratch < xs.length)
    (hs : (unit_ shift).ule size = true) (ht : c.ule (ticks shift size) = true)
    (hcall : hostCall m h w ctx.interrupt [] = (w', .ret [.i32 0]))
    (hlen : ctx.counter < w'.store.globals.length) :
    Steps (step m P h) 17 ⟨w, ⟨fn, ctx.charge scratch shift ++ is, .i32 size :: vs, ls, xs, n⟩, cs⟩
      ⟨w'.setGlobal ctx.counter (.i32 ctx.full),
        ⟨fn, is, .i32 size :: vs, ls, xs.set scratch (.i32 size), n⟩, cs⟩ := by
  have hget : (xs.set scratch (.i32 size))[scratch]? = some (.i32 size) := by simp [hx]
  refine Steps.trans (m := 7) (charge_enter hc hx hs ht) ?_
  exact Steps.trans (m := 3) (poll_answered hp hcall hlen) (.head step_else <|
    .head step_end <| .one (step_local_get hget))

/-- A charge that polls and is answered anything else traps. -/
theorem charge_stopped (hp : Polls m ctx) {v c : BitVec 32} (hv : v ≠ 0)
    (hc : w.store.globals[ctx.counter]? = some (.i32 c)) (hx : scratch < xs.length)
    (hs : (unit_ shift).ule size = true) (ht : c.ule (ticks shift size) = true)
    (hcall : hostCall m h w ctx.interrupt [] = (w', .ret [.i32 v])) :
    Halts (step m P h) ⟨w, ⟨fn, ctx.charge scratch shift ++ is, .i32 size :: vs, ls, xs, n⟩, cs⟩
      (.trap, w') :=
  (poll_stopped hp hv hcall).of_steps (charge_enter hc hx hs ht)

end

end Rewriter
