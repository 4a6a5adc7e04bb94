import CapnpcWasm.Rewriter.Scan
import CapnpcWasm.Wasm.Monotone
import Mathlib.Data.List.Induction

/-!
# Rewritten code is valid

The check leaves every stack of control frames as it is, and the charge leaves a number
on top of the frame, so both are valid wherever they are inserted, in unreachable code
too.  What follows an import call makes less known about the frame, never more.  A
rewritten body therefore checks in frames that cover those of the original.
-/

namespace Wasm

namespace Ctrl

variable {types : List FuncType} {c : Ctrl}

/-! ## Pops after pushes -/

theorem pop_push (c : Ctrl) (u : Operand) : (c.push u).pop = some (u, c) := rfl

theorem popAs_push {u : Operand} {t : ValType} (h : u.matches types t = true) (c : Ctrl) :
    (c.push u).popAs types t = some (u, c) := by
  simp [popAs, pop_push, h]

theorem popAll_nil (c : Ctrl) : c.popAll types [] = some c := rfl

/-- The last type is on top. -/
theorem popAll_append (ts : List ValType) (t : ValType) (c : Ctrl) :
    c.popAll types (ts ++ [t]) = (c.popAs types t).bind fun p => p.2.popAll types ts := by
  simp only [popAll, List.reverse_append, List.reverse_cons, List.reverse_nil, List.nil_append,
    List.cons_append, popList, Option.bind_eq_bind]
  cases c.popAs types t with
  | none => rfl
  | some p =>
      simp only [Option.bind_some]
      cases popList types ts.reverse p.2 <;> rfl

/-- What was pushed can be popped, at types it matches. -/
theorem popAll_pushAll {ts us : List ValType} (h : matchesAll types ts us = true) (c : Ctrl) :
    (c.pushAll ts).popAll types us = some c := by
  simp only [matchesAll, Bool.and_eq_true, beq_iff_eq] at h
  obtain ⟨hlen, hall⟩ := h
  induction ts using List.reverseRecOn generalizing us with
  | nil =>
      cases List.length_eq_zero_iff.mp hlen.symm
      rfl
  | append_singleton ts t ih =>
      have hne : us ≠ [] := by
        rintro rfl
        simp at hlen
      obtain ⟨us, u, rfl⟩ := (List.eq_nil_or_concat us).resolve_left hne
      rw [List.concat_eq_append] at *
      have hlen' : ts.length = us.length := by simpa using hlen
      rw [List.zip_append hlen'] at hall
      simp only [List.zip_cons_cons, List.zip_nil_right, List.all_append, List.all_cons,
        List.all_nil, Bool.and_true, Bool.and_eq_true] at hall
      have hpush : c.pushAll (ts ++ [t]) = (c.pushAll ts).push (.val t) := by
        simp [pushAll, push]
      rw [popAll_append, hpush, popAs_push (show Operand.matches types (.val t) u = true from hall.2)]
      exact ih hlen' hall.1

end Ctrl

/-! ## Single instructions -/

namespace Env

variable {P : Prims} {C : Env} {c : Ctrl} {outer : List Ctrl}

theorem checks_cons {i : Instr} {is : List Instr} {cs ds : List Ctrl}
    (h : C.check P i cs = some ds) : C.checks P (i :: is) cs = C.checks P is ds := by
  rw [checks, h]
  rfl

theorem checks_append {is js : List Instr} {cs ds : List Ctrl} (h : C.checks P is cs = some ds) :
    C.checks P (is ++ js) cs = C.checks P js ds := by
  induction is generalizing cs with
  | nil =>
      cases h
      rfl
  | cons i is ih =>
      obtain ⟨es, hi, his⟩ := Option.bind_eq_some_iff.mp h
      rw [List.cons_append, checks_cons hi, ih his]

/-- An instruction with a type pops its parameters and pushes its results. -/
theorem check_of_sig {i : Instr} {t : FuncType} (h : C.sig P i = some t) :
    C.check P i (c :: outer) =
      (c.popAll C.types t.params).map fun d => d.pushAll t.results :: outer := by
  have htyped : C.checkTyped P i c outer =
      (c.popAll C.types t.params).map fun d => d.pushAll t.results :: outer := by
    rw [checkTyped, leaves_none_of_sig h]
    simp only [h, Option.bind_eq_bind, Option.bind_some]
    cases c.popAll C.types t.params <;> rfl
  cases i <;> first | exact htyped | cases h

/-- An instruction that leaves pops its operands; the rest is unreachable. -/
theorem check_of_leaves {i : Instr} {ts : List ValType} (h : C.leaves i (c :: outer) = some ts) :
    C.check P i (c :: outer) = (c.popAll C.types ts).map fun d => d.mark :: outer := by
  have htyped : C.checkTyped P i c outer =
      (c.popAll C.types ts).map fun d => d.mark :: outer := by
    simp only [checkTyped, h, Option.bind_eq_bind]
    cases c.popAll C.types ts <;> rfl
  cases i <;> first | exact htyped | cases h

theorem check_push {i : Instr} {t : ValType} (h : C.sig P i = some ⟨[], [t]⟩) :
    C.check P i (c :: outer) = some (c.push (.val t) :: outer) := check_of_sig h

theorem check_const (value : BitVec 32) :
    C.check P (.i32_const value) (c :: outer) = some (c.push (.val .i32) :: outer) :=
  check_push (i := .i32_const value) rfl

theorem check_pop {i : Instr} (h : C.sig P i = some ⟨[.i32], []⟩) :
    C.check P i (c.push (.val .i32) :: outer) = some (c :: outer) := check_of_sig h

theorem check_unary {i : Instr} (h : C.sig P i = some ⟨[.i32], [.i32]⟩) :
    C.check P i (c.push (.val .i32) :: outer) = some (c.push (.val .i32) :: outer) :=
  check_of_sig h

theorem check_binary {i : Instr} (h : C.sig P i = some ⟨[.i32, .i32], [.i32]⟩) :
    C.check P i ((c.push (.val .i32)).push (.val .i32) :: outer) =
      some (c.push (.val .i32) :: outer) := check_of_sig h

/-- A block that takes and leaves nothing. -/
abbrev emptyBlock (kind : CtrlKind) : Ctrl := .enter kind ⟨[], []⟩ []

theorem check_if : C.check P (.if .empty) (c.push (.val .i32) :: outer) =
    some (emptyBlock .if :: c :: outer) := by
  simp [check, checkIn, Ctrl.popAs_push, Operand.matches, ValType.matches, open_, blockType,
    Ctrl.popAll_nil]

theorem check_else : C.check P .else (emptyBlock .if :: c :: outer) =
    some (emptyBlock .else :: c :: outer) := by
  simp [check, checkIn, Ctrl.enter, Ctrl.close, Ctrl.popAll_nil, part]

/-- The end of a block that takes and leaves nothing, reached or not. -/
theorem check_end (kind : CtrlKind) :
    C.check P .end (emptyBlock kind :: c :: outer) = some (c :: outer) := by
  simp [check, checkIn, matchesAll, Ctrl.enter, Ctrl.close, Ctrl.popAll_nil, checkIn.leaveBlock,
    Ctrl.pushAll]

theorem check_end_mark (kind : CtrlKind) :
    C.check P .end ((emptyBlock kind).mark :: c :: outer) = some (c :: outer) := by
  simp [check, checkIn, matchesAll, Ctrl.enter, Ctrl.mark, Ctrl.close, Ctrl.popAll_nil,
    checkIn.leaveBlock, Ctrl.pushAll]

theorem check_unreachable : C.check P .unreachable (c :: outer) = some (c.mark :: outer) :=
  check_of_leaves (i := .unreachable) rfl

end Env

end Wasm

namespace Rewriter

open Wasm

section

variable {P : Prims} {C : Env} {counter scratch interrupt interval : Nat}

/-! ## The injected sequences -/

/-- What the injected sequences need of the environment. -/
structure Injects (C : Env) (counter interrupt : Nat) : Prop where
  counter : C.globals[counter]? = some ⟨.i32, true⟩
  interrupt : C.funcType interrupt = some ⟨[], [.i32]⟩

namespace Injects

variable (hC : Injects C counter interrupt)

include hC

theorem get : C.sig P (.global_get counter) = some ⟨[], [.i32]⟩ := by simp [Env.sig, hC.counter]

theorem set : C.sig P (.global_set counter) = some ⟨[.i32], []⟩ := by simp [Env.sig, hC.counter]

theorem call : C.sig P (.call interrupt) = some ⟨[], [.i32]⟩ := hC.interrupt

end Injects

/-- The check is valid everywhere and changes nothing. -/
theorem checkSequence_checks (hC : Injects C counter interrupt) (c : Ctrl) (outer : List Ctrl) :
    C.checks P (checkSequence counter interrupt interval) (c :: outer) = some (c :: outer) := by
  rw [checkSequence, Env.checks_cons (Env.check_push hC.get),
    Env.checks_cons (Env.check_unary (i := .i32_eqz) rfl), Env.checks_cons Env.check_if,
    Env.checks_cons (Env.check_push hC.call), Env.checks_cons Env.check_if,
    Env.checks_cons Env.check_unreachable, Env.checks_cons (Env.check_end_mark _),
    Env.checks_cons (Env.check_const _), Env.checks_cons (Env.check_pop hC.set),
    Env.checks_cons (Env.check_end _), Env.checks_cons (Env.check_push hC.get),
    Env.checks_cons (Env.check_const _), Env.checks_cons (Env.check_binary (i := .i32_sub) rfl),
    Env.checks_cons (Env.check_pop hC.set), Env.checks]

/-- The charge is valid wherever a number can be taken, and leaves a number there. -/
theorem chargeSequence_checks (hC : Injects C counter interrupt)
    (hs : C.locals[scratch]? = some .i32) {shift : Nat} {c d : Ctrl} {u : Operand}
    (hp : c.popAs C.types .i32 = some (u, d)) (outer : List Ctrl) :
    C.checks P (chargeSequence counter scratch interrupt interval shift) (c :: outer) =
      some ({ d with sets := scratch :: d.sets }.push (.val .i32) :: outer) := by
  have htee : C.check P (.local_tee scratch) (c :: outer) =
      some ({ d with sets := scratch :: d.sets }.push (.val .i32) :: outer) := by
    simp [Env.check, Env.checkIn, hs, hp]
  have hget : ∀ e outer', C.check P (.local_get scratch) (e :: outer') =
      some (e.push (.val .i32) :: outer') := by
    intro e outer'
    simp [Env.check, Env.checkIn, hs, Env.isSet, ValType.defaultable]
  rw [chargeSequence, Env.checks_cons htee, Env.checks_cons (Env.check_const _),
    Env.checks_cons (Env.check_binary (i := .i32_ge_u) rfl), Env.checks_cons Env.check_if,
    Env.checks_cons (hget ..), Env.checks_cons (Env.check_const _),
    Env.checks_cons (Env.check_binary (i := .i32_shr_u) rfl),
    Env.checks_cons (Env.check_push hC.get),
    Env.checks_cons (Env.check_binary (i := .i32_ge_u) rfl), Env.checks_cons Env.check_if,
    Env.checks_cons (Env.check_push hC.call), Env.checks_cons Env.check_if,
    Env.checks_cons Env.check_unreachable, Env.checks_cons (Env.check_end_mark _),
    Env.checks_cons (Env.check_const _), Env.checks_cons (Env.check_pop hC.set),
    Env.checks_cons Env.check_else, Env.checks_cons (Env.check_push hC.get),
    Env.checks_cons (hget ..), Env.checks_cons (Env.check_const _),
    Env.checks_cons (Env.check_binary (i := .i32_shr_u) rfl),
    Env.checks_cons (Env.check_binary (i := .i32_sub) rfl),
    Env.checks_cons (Env.check_pop hC.set), Env.checks_cons (Env.check_end _),
    Env.checks_cons (Env.check_end _), Env.checks_cons (hget ..), Env.checks]

/-! ## Rewritten code -/

/-- What the code around a rewritten body has to offer, `C'` being the environment of
the rewritten one. -/
structure Supports (ctx : Context) (scratch : Nat) (charges : Bool) (C C' : Env) : Prop where
  extend : C.Extends C'
  inject : Injects C' ctx.counter ctx.importedFunctions
  /-- The added local. -/
  slot : charges = true → C'.locals[scratch]? = some .i32
  /-- Functions called directly. -/
  direct : ∀ f t, C.funcType f = some t → C'.funcType (ctx.shift f) = some t
  /-- Functions used as values. -/
  value : ∀ f type, C.funcs[f]? = some type → f ∈ C.refs → ctx.declared (.ref_func f) = true →
    C'.funcs[ctx.reference f]? = some type ∧ ctx.reference f ∈ C'.refs

variable {ctx : Context} {charges : Bool} {C' : Env} {cs cs' ds : List Ctrl}

/-- A charged instruction takes its size from the top of the stack. -/
theorem sig_of_charge? {p : Option (BitVec 32)} {i : Instr} {shift : Nat}
    (hp : charge? p i = some shift) {t : FuncType} (ht : C.sig P i = some t) :
    ∃ ps, t.params = ps ++ [.i32] := by
  cases i with
  | memory_init d k | memory_copy k l | memory_fill k =>
      obtain ⟨_, ht⟩ := Option.ite_none_right_eq_some.mp ht
      exact ⟨[.i32, .i32], Option.some.inj ht ▸ rfl⟩
  | table_init e u | table_copy u v =>
      obtain ⟨_, _, ht⟩ := Option.bind_eq_some_iff.mp ht
      obtain ⟨_, _, ht⟩ := Option.bind_eq_some_iff.mp ht
      obtain ⟨_, ht⟩ := Option.ite_none_right_eq_some.mp ht
      exact ⟨[.i32, .i32], Option.some.inj ht ▸ rfl⟩
  | table_grow u =>
      obtain ⟨tt, _, ht⟩ := Option.map_eq_some_iff.mp ht
      exact ⟨[tt.elem], ht ▸ rfl⟩
  | table_fill u =>
      obtain ⟨tt, _, ht⟩ := Option.map_eq_some_iff.mp ht
      exact ⟨[.i32, tt.elem], ht ▸ rfl⟩
  | _ => simp [charge?, chargeShift] at hp

/-- A charged instruction that checks has a type. -/
theorem check_of_charge? {p : Option (BitVec 32)} {i : Instr} {shift : Nat}
    (hp : charge? p i = some shift) {c : Ctrl} {outer : List Ctrl}
    (h : C.check P i (c :: outer) = some ds) :
    i.function? = none ∧ ∃ t, C.sig P i = some t := by
  have htyped : C.checkTyped P i c outer = some ds → C.leaves i (c :: outer) = none →
      ∃ t, C.sig P i = some t := by
    intro h hl
    simp only [Env.checkTyped, hl] at h
    obtain ⟨t, ht, -⟩ := Option.bind_eq_some_iff.mp h
    exact ⟨t, ht⟩
  cases i <;> first | exact ⟨rfl, htyped h rfl⟩ | simp [charge?, chargeShift] at hp

/-- A charge and the instruction after it check where the instruction did. -/
theorem charged_checks (hs : Supports ctx scratch true C C') (hc : FramesCover cs cs')
    {p : Option (BitVec 32)} {i : Instr} {shift : Nat} (hp : charge? p i = some shift)
    (h : C.check P i cs = some ds) :
    ∃ ds', C'.checks P (chargeSequence ctx.counter scratch ctx.importedFunctions ctx.interval shift
      ++ [i]) cs' = some ds' ∧ FramesCover ds ds' := by
  cases hc with
  | nil => cases h
  | @cons c c' outer outer' hc ho =>
      obtain ⟨hf, ⟨params, rs⟩, hsig⟩ := check_of_charge? hp h
      obtain ⟨ps, rfl⟩ : ∃ ps, params = ps ++ [.i32] := sig_of_charge? hp hsig
      rw [Env.check_of_sig hsig] at h
      obtain ⟨e, hpop, rfl⟩ := Option.map_eq_some_iff.mp h
      rw [Ctrl.popAll_append] at hpop
      obtain ⟨⟨u, d⟩, hsize, hpop⟩ := Option.bind_eq_some_iff.mp hpop
      obtain ⟨u', d', hsize', -, hd⟩ := hc.popAs hs.extend.types hsize
      -- the local of the charge is set from here on
      have hset : d.Covers { d' with sets := scratch :: d'.sets } :=
        { hd with sets := List.Subset.trans hd.sets (List.subset_cons_self _ _) }
      obtain ⟨e', hpop', he⟩ := hset.popAll hs.extend.types hpop
      refine ⟨e'.pushAll rs :: outer', ?_, .cons (he.pushAll rs) ho⟩
      have hi : C'.check P i ({ d' with sets := scratch :: d'.sets }.push (.val .i32) :: outer') =
          some (e'.pushAll rs :: outer') := by
        rw [Env.check_of_sig (hs.extend.sig hf hsig), Ctrl.popAll_append, Ctrl.popAs_push rfl,
          Option.bind_some, hpop', Option.map_some]
      rw [Env.checks_append (chargeSequence_checks hs.inject (hs.slot rfl) hsize' outer'),
        Env.checks_cons hi, Env.checks]

/-- What follows the call of an import keeps the frames, or makes the rest unreachable. -/
theorem afterImport_checks (hC : Injects C' ctx.counter ctx.importedFunctions) (f : Nat)
    (c : Ctrl) (outer : List Ctrl) :
    ∃ d, C'.checks P (ctx.afterImport f) (c :: outer) = some (d :: outer) ∧ c.Covers d := by
  rw [Context.afterImport]
  split
  · exact ⟨c.mark, Env.checks_cons Env.check_unreachable, Ctrl.covers_mark c⟩
  · exact ⟨c, checkSequence_checks hC c outer, .refl c⟩

/-- A direct call, and the same call in the rewritten code. -/
theorem call_checks (hs : Supports ctx scratch charges C C') {f : Nat} {t : FuncType}
    (ht : C.funcType f = some t) {c c' e : Ctrl} (hc : c.Covers c')
    (hp : c.popAll C.types t.params = some e) (outer : List Ctrl) :
    ∃ e', e.Covers e' ∧
      C'.check P (.call (ctx.shift f)) (c' :: outer) = some (e'.pushAll t.results :: outer) := by
  obtain ⟨e', hp', he⟩ := hc.popAll hs.extend.types hp
  have hsig : C'.sig P (.call (ctx.shift f)) = some t := hs.direct f t ht
  exact ⟨e', he, by rw [Env.check_of_sig hsig, hp', Option.map_some]⟩

/-- A tail call of an import becomes a call, and returns what it was given. -/
theorem return_call_checks (hs : Supports ctx scratch charges C C') {f : Nat} {c c' : Ctrl}
    {outer outer' : List Ctrl} (hc : c.Covers c') (ho : FramesCover outer outer')
    {p : Option (BitVec 32)} (h : C.check P (.return_call f) (c :: outer) = some ds) :
    ∃ ds', C'.checks P (rewriteInstr ctx scratch p (.return_call f)) (c' :: outer') = some ds' ∧
      FramesCover ds ds' := by
  obtain ⟨t, ht, hm, e, hpop, rfl⟩ : ∃ t, C.funcType f = some t ∧
      matchesAll C.types t.results C.results = true ∧ ∃ e, c.popAll C.types t.params = some e ∧
      ds = e.mark :: outer := by
    cases hl : C.leaves (.return_call f) (c :: outer) with
    | none => simp [Env.check, Env.checkIn, Env.checkTyped, hl, Env.sig] at h
    | some ts =>
        rw [Env.check_of_leaves hl] at h
        obtain ⟨e, hpop, rfl⟩ := Option.map_eq_some_iff.mp h
        obtain ⟨t, ht, hl⟩ := Option.bind_eq_some_iff.mp hl
        obtain ⟨hm, hl⟩ := Option.ite_none_right_eq_some.mp hl
        cases hl
        exact ⟨t, ht, hm, e, hpop, rfl⟩
  have hm' : matchesAll C'.types t.results C'.results = true :=
    hs.extend.results ▸ matchesAll_mono hs.extend.types hm
  rw [rewriteInstr]
  split
  · -- a defined function is tail-called under its new index
    obtain ⟨e', hpop', he⟩ := hc.popAll hs.extend.types hpop
    have hl : C'.leaves (.return_call (ctx.shift f)) (c' :: outer') = some t.params := by
      simp [Env.leaves, hs.direct f t ht, hm']
    refine ⟨_, Env.checks_cons ?_, .cons he.mark ho⟩
    rw [Env.check_of_leaves hl, hpop', Option.map_some]
  · next hlt =>
    obtain ⟨e', he, hcall⟩ := call_checks (P := P) hs ht hc hpop outer'
    rw [ctx.shift_of_lt (Nat.not_le.mp hlt)] at hcall
    split
    · have hmark : (e'.pushAll t.results).mark = e'.mark := rfl
      exact ⟨_, by rw [Env.checks_cons hcall, Env.checks_cons Env.check_unreachable, Env.checks,
        hmark], .cons he.mark ho⟩
    · have hreturn : C'.check P .return (e'.pushAll t.results :: outer') =
          some (e'.mark :: outer') := by
        have hl : C'.leaves .return (e'.pushAll t.results :: outer') = some C'.results := rfl
        rw [Env.check_of_leaves hl, Ctrl.popAll_pushAll hm', Option.map_some]
      exact ⟨_, by rw [Env.checks_cons hcall, Context.check,
        Env.checks_append (checkSequence_checks hs.inject _ _), Env.checks_cons hreturn,
        Env.checks], .cons he.mark ho⟩

/-- One instruction. -/
theorem rewriteInstr_checks (hs : Supports ctx scratch charges C C') (hc : FramesCover cs cs')
    {p : Option (BitVec 32)} {i : Instr} (hd : ctx.declared i = true)
    (hp : (charge? p i).isSome = true → charges = true) (h : C.check P i cs = some ds) :
    ∃ ds', C'.checks P (rewriteInstr ctx scratch p i) cs' = some ds' ∧ FramesCover ds ds' := by
  have single : ∀ {j : Instr}, (∃ ds', C'.check P j cs' = some ds' ∧ FramesCover ds ds') →
      ∃ ds', C'.checks P [j] cs' = some ds' ∧ FramesCover ds ds' := by
    rintro j ⟨ds', hj, hds⟩
    exact ⟨ds', by rw [Env.checks_cons hj, Env.checks], hds⟩
  cases hshift : charge? p i with
  | some shift =>
      rw [rewriteInstr_charge ctx scratch hshift]
      cases hp (by rw [hshift]; rfl)
      exact charged_checks hs hc hshift h
  | none =>
      cases hc with
      | nil => cases h
      | @cons c c' outer outer' hc ho =>
          have hcs : FramesCover (c :: outer) (c' :: outer') := .cons hc ho
          cases i with
          -- the check is typed on any stack, so it may stand behind the header
          | loop bt =>
              obtain ⟨ds', hl, hds⟩ := hcs.check hs.extend rfl h
              cases hds with
              | nil =>
                  obtain ⟨t, -, h⟩ := Option.bind_eq_some_iff.mp h
                  obtain ⟨d, -, h⟩ := Option.bind_eq_some_iff.mp h
                  cases h
              | @cons d d' rest rest' hd hrest =>
                  exact ⟨_, by rw [rewriteInstr, Env.checks_cons hl, Context.check,
                    checkSequence_checks hs.inject], .cons hd hrest⟩
          | call f =>
              obtain ⟨t, ht, e, hpop, rfl⟩ : ∃ t, C.funcType f = some t ∧
                  ∃ e, c.popAll C.types t.params = some e ∧ ds = e.pushAll t.results :: outer := by
                cases ht : C.funcType f with
                | none => simp [Env.check, Env.checkIn, Env.checkTyped, Env.leaves, Env.sig, ht] at h
                | some t =>
                    rw [Env.check_of_sig (show C.sig P (.call f) = some t from ht)] at h
                    obtain ⟨e, hpop, rfl⟩ := Option.map_eq_some_iff.mp h
                    exact ⟨t, rfl, e, hpop, rfl⟩
              obtain ⟨e', he, hcall⟩ := call_checks (P := P) hs ht hc hpop outer'
              rw [rewriteInstr]
              split
              · exact ⟨_, Env.checks_cons hcall, .cons (he.pushAll _) ho⟩
              · next hlt =>
                rw [ctx.shift_of_lt (Nat.not_le.mp hlt)] at hcall
                obtain ⟨d, hafter, hd⟩ :=
                  afterImport_checks (P := P) hs.inject f (e'.pushAll t.results) outer'
                exact ⟨_, by rw [Env.checks_cons hcall, hafter],
                  .cons ((he.pushAll _).trans hd) ho⟩
          | return_call f => exact return_call_checks hs hc ho h
          | ref_func f =>
              have hsig : ∀ t, C.sig P (.ref_func f) = some t →
                  C'.sig P (.ref_func (ctx.reference f)) = some t := by
                intro t ht
                obtain ⟨type, htype, ht⟩ := Option.bind_eq_some_iff.mp ht
                obtain ⟨hmem, ht⟩ := Option.ite_none_right_eq_some.mp ht
                obtain ⟨htype', hmem'⟩ := hs.value f type htype hmem hd
                simp [Env.sig, htype', hmem', ← ht]
              have hleaves : ∀ ts, C.leaves (.ref_func f) (c :: outer) = some ts →
                  C'.leaves (.ref_func (ctx.reference f)) (c :: outer) = some ts :=
                fun _ hl => by cases hl
              exact single (FramesCover.checkTyped hs.extend ho hc hleaves hsig h)
          | _ =>
              simp only [rewriteInstr, hshift]
              exact single (hcs.check hs.extend rfl h)

/-- A rewritten list of instructions checks where the original did. -/
theorem rewriteCode_checks (hs : Supports ctx scratch charges C C') {is : List Instr} :
    ∀ {p : Option (BitVec 32)} {cs cs' : List Ctrl}, FramesCover cs cs' →
      is.all ctx.declared = true → (charged p is = true → charges = true) →
      C.checks P is cs = some ds →
      ∃ ds', C'.checks P (rewriteCode ctx scratch p is) cs' = some ds' ∧ FramesCover ds ds' := by
  induction is with
  | nil =>
      intro p cs cs' hc _ _ h
      cases h
      exact ⟨cs', rfl, hc⟩
  | cons i is ih =>
      intro p cs cs' hc hd hp h
      rw [List.all_cons, Bool.and_eq_true] at hd
      simp only [charged, Bool.or_eq_true] at hp
      obtain ⟨es, hi, his⟩ := Option.bind_eq_some_iff.mp h
      obtain ⟨es', hi', hes⟩ := rewriteInstr_checks hs hc hd.1 (fun h => hp (.inl h)) hi
      obtain ⟨ds', his', hds⟩ := ih hes hd.2 (fun h => hp (.inr h)) his
      exact ⟨ds', by rw [rewriteCode, Env.checks_append hi', his'], hds⟩

end

end Rewriter
