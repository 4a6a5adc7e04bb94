import CapnpcWasm.Rewriter.Calls
import CapnpcWasm.Wasm.Keeps

/-!
# The simulation

Every step of the original is matched by steps of the instrumented instance that
lead to a related configuration, as long as the memory stays below the lowered
maximum.  Most instructions are matched by themselves.  After a `loop` and after the
call of an import comes a check, before a bulk operation a charge, and a tail call of
an import becomes a call and a return.

The relation forgets the countdown and the added local, so it holds at whatever
countdown the host leaves.

What is matched is the original as the rewriter reads it (`readStep`): where the import
taken for `proc_exit` is another and returns, that original traps.
-/

namespace Rewriter

open Wasm
open Run (Next Steps Halts Matches Follows Simulates)

section

variable {σ : Type} {S : σ → σ → Prop} {m m' : Module} {P : Prims} {h : Host σ} {maximum interval : Nat}
  {w w' : World σ} {cs cs' : List Frame} {s : Site} {extra : List Val} {fr : Frame}

/-! ## Instructions copied as they are -/

theorem rewriteInstr_self {ctx : Context} {scratch : Nat} {p : Option (BitVec 32)} {i : Instr}
    (hc : charge? p i = none) (hl : ∀ bt, i ≠ .loop bt) (hf : ∀ f, i ≠ .call f)
    (hr : ∀ f, i ≠ .return_call f) (hv : ∀ f, i ≠ .ref_func f) :
    rewriteInstr ctx scratch p i = [i] := by
  cases i with
  | loop bt => exact absurd rfl (hl bt)
  | call f => exact absurd rfl (hf f)
  | return_call f => exact absurd rfl (hr f)
  | ref_func f => exact absurd rfl (hv f)
  | _ => simp only [rewriteInstr, hc]

/-- Only local instructions are charged. -/
theorem charge?_of_not_local {p : Option (BitVec 32)} {i : Instr} (hi : isLocal i = false) :
    charge? p i = none := by
  cases i <;> first | rfl | cases hi

/-! ## Instructions that stay in their frame -/

/-- A local instruction leads to the image of what it leads to. -/
theorem local_led {i : Instr} (hl : isLocal i = true)
    (hnf : ∀ f, i ≠ .ref_func f) (hx : indexed s.scratch m.globalTypes.length m.elems.length i)
    (hw : WorldRel S m maximum interval w w')
    (hf : FrameFits m s (constantOf i) fr) (he : s.slot = true → extra ≠ [])
    (hc : List.Forall₂ (FrameRel m (contextOf m interval) none) cs cs')
    (hb : ∀ d, exec m P h i w fr cs = .more d →
      (changeOf m maximum interval).Below d.world.store) :
    Led S m m' P h maximum interval (exec m P h i w fr cs)
      (exec m' P h i w' ((contextOf m interval).frame s.scratch (constantOf i) extra fr) cs') := by
  obtain ⟨cd, hstore⟩ := hw.store
  rw [exec_local hl] at hb
  rw [exec_local hl, exec_local hl]
  have hcomm := Change.execLocal_localState (changeOf m maximum interval) P cd extra i
    ⟨w.store, fr.locals, fr.stack⟩ (by
      rw [hf.locals, hw.globals, hw.elems]
      exact hx) hnf (by
      intro s' hs'
      rw [hs'] at hb
      exact hb _ rfl)
  have harg : (⟨w'.store, ((contextOf m interval).frame s.scratch (constantOf i) extra fr).locals,
      ((contextOf m interval).frame s.scratch (constantOf i) extra fr).stack⟩ : Local) =
      (changeOf m maximum interval).localState cd extra ⟨w.store, fr.locals, fr.stack⟩ := by
    simp [Context.frame, Change.localState, hstore, changeOf]
  rw [harg, hcomm]
  cases hres : execLocal P i ⟨w.store, fr.locals, fr.stack⟩ with
  | trap => exact led_trap hw
  | stuck => exact led_stuck hw
  | ok s' =>
      obtain ⟨⟨hglobals, helems, -, -⟩, hlocals, -⟩ :=
        execLocal_leaves (Q := fun _ => True) hres trivial fun _ _ => trivial
      refine .more (.refl _) ⟨⟨⟨cd, rfl⟩, hw.host, hw.log, ?_, ?_⟩, ⟨constantOf i, s, extra, ?_, he, ?_⟩, hc⟩
      · exact hglobals.trans hw.globals
      · exact helems.trans hw.elems
      · exact ⟨hf.code, hf.labels, hlocals.trans hf.locals, hf.arity⟩
      · simp [Context.frame, Change.localState, changeOf]

/-- `ref.func` of the thunk is the image of `ref.func` of the import. -/
theorem ref_func_led {f : Nat} (hf : f < m.funcTypes.length)
    (hw : WorldRel S m maximum interval w w') (hfit : FrameFits m s none fr)
    (he : s.slot = true → extra ≠ [])
    (hc : List.Forall₂ (FrameRel m (contextOf m interval) none) cs cs') :
    Led S m m' P h maximum interval (exec m P h (.ref_func f) w fr cs)
      (exec m' P h (.ref_func ((contextOf m interval).reference f)) w'
        ((contextOf m interval).frame s.scratch none extra fr) cs') := by
  rw [Context.reference_eq_image _ (by simpa [Module.funcTypes] using hf)]
  exact .more (.refl _) ⟨hw, ⟨none, s, extra,
    ⟨hfit.code, hfit.labels, hfit.locals, hfit.arity⟩, he, rfl⟩, hc⟩

/-! ## Charged operations -/

/-- A charged operation pops its size first. -/
theorem charged_stuck {p : Option (BitVec 32)} {i : Instr} {shift : Nat}
    (hcharge : charge? p i = some shift) (t : Local)
    (hs : ∀ c vs, t.stack ≠ .i32 c :: vs) : execLocal P i t = .stuck := by
  have hpop : popI32 t.stack = .stuck := by
    match hst : t.stack with
    | [] | .ref _ :: _ | .num (.i64 _) :: _ | .num (.f32 _) :: _ | .num (.f64 _) :: _
    | .num (.v128 _) :: _ => rfl
    | .num (.i32 c) :: vs => exact absurd hst (hs c vs)
  have hbulk : popBulk t.stack = .stuck := by simp only [popBulk, hpop]; rfl
  cases i <;> first
    | (simp only [execLocal, hpop, hbulk]; rfl)
    | simp [charge?, chargeShift] at hcharge

/-- Without a size the charge gets stuck too. -/
theorem charge_stuck {ctx : Context} {scratch shift fn n : Nat} {is : List Instr}
    {vs xs : List Val} {ls : List Label} (hs : ∀ c us, vs ≠ .i32 c :: us) :
    Halts (step m' P h) ⟨w', ⟨fn, ctx.charge scratch shift ++ is, vs, ls, xs, n⟩, cs'⟩
      (.stuck, w') := by
  match vs with
  | [] => exact .now rfl
  | v :: us =>
      by_cases hx : scratch < xs.length
      · refine .of_steps (.head (step_local_tee hx) (.one step_i32_const)) (.now ?_)
        match v with
        | .num (.i32 c) => exact absurd rfl (hs c us)
        | .ref _ | .num (.i64 _) | .num (.f32 _) | .num (.f64 _) | .num (.v128 _) => rfl
      · refine .now ?_
        rw [Context.charge, chargeSequence, List.cons_append, step_cons, exec_local rfl]
        simp only [execLocal, popVal, bind, Res.bind, if_neg hx, Res.toStep]

section

variable (hi : Instruments m m' maximum interval) (hq : QuietHost S h (contextOf m interval))

include hi hq

/-- A charged operation runs after its charge. -/
theorem charged_follows {p : Option (BitVec 32)} {i : Instr} {shift : Nat}
    (hcharge : charge? p i = some shift) (hfit : Fits m s p i)
    (hw : WorldRel S m maximum interval w w') (hf : FrameFits m s none fr)
    (he : s.slot = true → extra ≠ [])
    (hc : List.Forall₂ (FrameRel m (contextOf m interval) none) cs cs')
    (hb : ∀ d, exec m P h i w fr cs = .more d →
      (changeOf m maximum interval).Below d.world.store) :
    Follows (step m' P h) (ConfigRel S m maximum interval) (ResultRel S m maximum interval)
      ⟨w', ⟨fr.fn + 1, (contextOf m interval).charge s.scratch shift ++
          i :: rewriteCode (contextOf m interval) s.scratch none fr.code,
        fr.stack.map (Val.rename (contextOf m interval).image),
        fr.labels.map ((contextOf m interval).label s.scratch),
        fr.locals.map (Val.rename (contextOf m interval).image) ++ extra, fr.arity⟩, cs'⟩
      (exec m P h i w fr cs) := by
  have hl : isLocal i = true := by
    by_contra hl
    rw [charge?_of_not_local (by simpa using hl)] at hcharge
    cases hcharge
  have hnf : ∀ f, i ≠ .ref_func f := by rintro f rfl; simp [charge?, chargeShift] at hcharge
  have hconst : constantOf i = none := by
    cases i <;> first | rfl | simp [charge?, chargeShift] at hcharge
  have hx : s.scratch < (fr.locals.map (Val.rename (contextOf m interval).image) ++
      extra).length := by
    have := List.length_pos_iff.mpr (he (hfit.slot (by rw [hcharge]; rfl)))
    rw [List.length_append, List.length_map, hf.locals]
    omega
  by_cases hs : ∃ c vs, fr.stack = .i32 c :: vs
  · obtain ⟨size, vs, hs⟩ := hs
    obtain ⟨k, w₁', hk, hw₁⟩ := charge_passes hi P hq hw hx shift size (fr.fn + 1)
      (i :: rewriteCode (contextOf m interval) s.scratch none fr.code)
      (vs.map (Val.rename (contextOf m interval).image))
      (fr.labels.map ((contextOf m interval).label s.scratch)) fr.arity cs'
    -- the charge leaves the operand in the scratch local, which is no local of the original
    have hset : (fr.locals.map (Val.rename (contextOf m interval).image) ++ extra).set s.scratch
        (.i32 size) = fr.locals.map (Val.rename (contextOf m interval).image) ++
          extra.set 0 (.i32 size) := by
      rw [List.set_append_right _ _ (by simp [hf.locals]), List.length_map, hf.locals,
        Nat.sub_self]
    rw [hset] at hk
    have hled : Led S m m' P h maximum interval _ _ := local_led hl hnf hfit.indexed hw₁
      (by rw [hconst]; exact hf)
      (show s.slot = true → extra.set 0 (.i32 size) ≠ [] from fun hslot => by
        simpa using he hslot) hc hb
    rw [hconst] at hled
    simp only [Context.frame, hs, List.map_cons, Val.rename_num] at hled
    simp only [hs, List.map_cons, Val.rename_num]
    exact Follows.before hk (Matches.follows hled)
  · have hs : ∀ c vs, fr.stack ≠ .i32 c :: vs := fun c vs hcv => hs ⟨c, vs, hcv⟩
    have hs' : ∀ c vs, fr.stack.map (Val.rename (contextOf m interval).image) ≠
        .i32 c :: vs := by
      intro c vs hcv
      obtain ⟨v, us, hvs, hv, _⟩ := List.map_eq_cons_iff.mp hcv
      cases v with
      | num x =>
          cases hv
          exact hs c us hvs
      | ref r => cases hv
    rw [exec_local hl, charged_stuck hcharge _ hs]
    exact ⟨_, charge_stuck hs', rfl, hw⟩

/-! ## Throws and calls -/

omit hi hq in
theorem unwindTo_led (hw : WorldRel S m maximum interval w w') {fr' : Frame}
    (hf : FrameRel m (contextOf m interval) none fr fr')
    (hc : List.Forall₂ (FrameRel m (contextOf m interval) none) cs cs') (address : Nat)
    (vs : List Val) : Led S m m' P h maximum interval
      (match w.store.exns[address]? with
        | some e => unwind w address e ({ fr with stack := vs } :: cs)
        | none => .halt (.stuck, w))
      (match w'.store.exns[address]? with
        | some e => unwind w' address e
            ({ fr' with stack := vs.map (Val.rename (contextOf m interval).image) } :: cs')
        | none => .halt (.stuck, w')) := by
  rw [exns_eq hw, List.getElem?_map]
  cases w.store.exns[address]? with
  | none => exact led_stuck hw
  | some e => exact unwind_led hw address e (.cons (hf.setStack vs) hc)

omit hq in
theorem raise_led {i : Instr} (hr : isRaise i = true) {p : Option (BitVec 32)}
    (hfit : Fits m s p i) (hw : WorldRel S m maximum interval w w') {fr' : Frame}
    (hf : FrameRel m (contextOf m interval) none fr fr')
    (hc : List.Forall₂ (FrameRel m (contextOf m interval) none) cs cs') :
    Led S m m' P h maximum interval (exec m P h i w fr cs) (exec m' P h i w' fr' cs') := by
  have hagain := @unwindTo_led σ S m m' P h maximum interval w w' cs cs' fr hw fr' hf hc
  have hexec := exec_raise (m := m) (P := P) (h := h) hr w fr cs
  have hexec' := exec_raise (m := m') (P := P) (h := h) hr w' fr' cs'
  cases i <;> cases hr
  case throw x =>
    rw [← Option.some.inj hexec, ← Option.some.inj hexec']
    have htype : m'.tagType? x = m.tagType? x := by
      simp only [Module.tagType?, hi.tagTypes]
      cases htag : m.tagTypes[x]? with
      | none => rfl
      | some t => exact hi.types_get (hfit.names t htag)
    rw [htype, tags_eq hw]
    cases m.tagType? x with
    | none => exact led_stuck hw
    | some type =>
        cases w.store.tags[x]? with
        | none => exact led_stuck hw
        | some tag =>
            rcases hf.popArgs type.params.length with ⟨hn, hn'⟩ | ⟨args, ha, ha'⟩
            · simp only [hn, hn']
              exact led_stuck hw
            · simp only [ha, ha']
              exact throwExn_led hw ⟨tag, args⟩ (.cons (hf.setStack _) hc)
  case rethrow l =>
    rw [← Option.some.inj hexec, ← Option.some.inj hexec']
    obtain ⟨s₁, extra₁, hfit₁, he₁, rfl⟩ := hf
    have hl : ((contextOf m interval).frame s₁.scratch none extra₁ fr).labels[l]? =
        fr.labels[l]?.map ((contextOf m interval).label s₁.scratch) := by simp [Context.frame]
    rw [hl]
    cases fr.labels[l]? with
    | none => exact led_stuck hw
    | some lab =>
        obtain ⟨kind, arity, base, cont, after⟩ := lab
        cases kind with
        | catching address => exact hagain address fr.stack
        | plain | guarded | clauses => exact led_stuck hw
  case throw_ref =>
    rw [← Option.some.inj hexec, ← Option.some.inj hexec', hf.stack, popRef_rename]
    cases popRef fr.stack with
    | trap | stuck => exact led_stuck hw
    | ok q =>
        obtain ⟨r, vs⟩ := q
        cases r with
        | exn address => exact hagain address vs
        | null => exact led_trap hw
        | func | «foreign» | host => exact led_stuck hw

omit hq in
/-- Where the original calls an import directly, so does the instrumented instance. -/
theorem call_import_led (hq : QuietHost S h (contextOf m interval))
    (hw : WorldRel S m maximum interval w w') {fr' : Frame}
    (hf : FrameRel m (contextOf m interval) none fr fr') {f : Nat}
    (hlt : f < m.importedFunctions.length) (tail : Bool) (rest : List Instr)
    {sees : Nat → Prop} (hsees : sees f)
    (hres : ∀ type, m.funcType? f = some type → ∀ w₁ w₁' vs us,
      WorldRel S m maximum interval w₁ w₁' → vs.length = type.results.length →
      exitFunction m ≠ some f →
      Led S m m' P h maximum interval
        (resume w₁ vs (if tail then cs else { fr with stack := us } :: cs))
        (.more ⟨w₁', { fr' with
          code := rest
          stack := (vs.map (Val.rename (contextOf m interval).image)).reverse ++
            us.map (Val.rename (contextOf m interval).image) }, cs'⟩)) :
    Led S m m' P h maximum interval (asRead m sees w (callFunction m h w fr cs tail f))
      (exec m' P h (.call f) w'
        { fr' with code := (contextOf m interval).afterImport f ++ rest } cs') := by
  have hget : m.importedFunctions[f]? = some m.importedFunctions[f] :=
    List.getElem?_eq_getElem hlt
  have hget' : m'.importedFunctions[f]? = some m.importedFunctions[f] := by
    rw [hi.importedFunctions, List.getElem?_append_left hlt, hget]
  have hcall : exec m' P h (.call f) w'
      { fr' with code := (contextOf m interval).afterImport f ++ rest } cs' =
      callFunction m' h w' { fr' with code := (contextOf m interval).afterImport f ++ rest } cs'
        false f := rfl
  rw [hcall, callFunction, callFunction, hi.funcType?_of_funcTypes (hi.funcTypes_import hlt)]
  cases htype : m.funcType? f with
  | none => exact asRead_stuck hw
  | some type =>
      simp only [Frame.popArgs, hf.stack, List.length_map]
      by_cases hlen : type.params.length ≤ fr.stack.length
      · simp only [if_pos hlen]
        have hargs : ((fr.stack.map (Val.rename (contextOf m interval).image)).take
            type.params.length).reverse =
            ((fr.stack.take type.params.length).reverse).map
              (Val.rename (contextOf m interval).image) := by
          rw [List.map_reverse, List.map_take]
        have hl : (fr.stack.take type.params.length).reverse.length = type.params.length := by
          simp [hlen]
        simp only [hargs, invoke, hi.funcType?_of_funcTypes (hi.funcTypes_import hlt), htype,
          List.length_map, hl, ne_eq, not_true_eq_false, if_false, hget, hget', Bool.false_eq_true]
        refine import_led hi hq hw hget type _ hsees { fr' with
          code := rest
          stack := (fr.stack.map (Val.rename (contextOf m interval).image)).drop
            type.params.length } ?_
        intro w₁ w₁' vs hw₁ hvs hne
        have := hres type htype w₁ w₁' vs (fr.stack.drop type.params.length) hw₁ hvs hne
        simpa only [List.map_drop] using this
      · simp only [if_neg hlen]
        exact asRead_stuck hw

/-- A direct call. -/
theorem call_led (hx : WellIndexed m) {f : Nat} {p : Option (BitVec 32)}
    (hf : f < m.funcTypes.length) (hw : WorldRel S m maximum interval w w')
    (hfit : FrameFits m s none fr) (he : s.slot = true → extra ≠ [])
    (hc : List.Forall₂ (FrameRel m (contextOf m interval) none) cs cs') :
    Led S m m' P h maximum interval
      (asRead m ((contextOf m interval).Sees (.call f :: fr.code)) w
        (exec m P h (.call f) w fr cs))
      (step m' P h ⟨w', { (contextOf m interval).frame s.scratch none extra fr with
        code := rewriteInstr (contextOf m interval) s.scratch p (.call f) ++
          rewriteCode (contextOf m interval) s.scratch none fr.code }, cs'⟩) := by
  have hrel : FrameRel m (contextOf m interval) none fr
      ((contextOf m interval).frame s.scratch none extra fr) := ⟨s, extra, hfit, he, rfl⟩
  by_cases hge : m.importedFunctions.length ≤ f
  · have hin : f < m.importedFunctions.length + m.funcs.length := by
      simpa [Module.funcTypes] using hf
    have hcode : rewriteInstr (contextOf m interval) s.scratch p (.call f) =
        [.call ((contextOf m interval).image f)] := by
      rw [rewriteInstr, contextOf_importedFunctions, if_pos hge, Context.shift_of_le _ hge,
        Context.image_defined _ hge hin]
    rw [hcode]
    exact callFunction_led hi hq hx hw hrel hc false f fun hlt => absurd hlt (Nat.not_lt.mpr hge)
  · have hcode : rewriteInstr (contextOf m interval) s.scratch p (.call f) =
        .call f :: (contextOf m interval).afterImport f := by
      rw [rewriteInstr, contextOf_importedFunctions, if_neg hge]
    rw [hcode]
    refine call_import_led hi hq hw hrel (Nat.not_le.mp hge) false _ rfl ?_
    intro type _ w₁ w₁' vs us hw₁ _ _
    have hpush := (hrel.setStack us).push vs.reverse
    rw [List.map_reverse] at hpush
    exact .more (.refl _) ⟨hw₁, ⟨none, hpush⟩, hc⟩

/-- A tail call of an import becomes a call, a check and a return. -/
theorem return_call_led (hx : WellIndexed m) {f : Nat} {p : Option (BitVec 32)}
    (hf : f < m.funcTypes.length)
    (hret : ∀ t, m.funcType? f = some t → t.results.length = s.results)
    (hw : WorldRel S m maximum interval w w')
    (hfit : FrameFits m s none fr) (he : s.slot = true → extra ≠ [])
    (hc : List.Forall₂ (FrameRel m (contextOf m interval) none) cs cs') :
    Led S m m' P h maximum interval
      (asRead m ((contextOf m interval).Sees (.return_call f :: fr.code)) w
        (exec m P h (.return_call f) w fr cs))
      (step m' P h ⟨w', { (contextOf m interval).frame s.scratch none extra fr with
        code := rewriteInstr (contextOf m interval) s.scratch p (.return_call f) ++
          rewriteCode (contextOf m interval) s.scratch none fr.code }, cs'⟩) := by
  have hrel : FrameRel m (contextOf m interval) none fr
      ((contextOf m interval).frame s.scratch none extra fr) := ⟨s, extra, hfit, he, rfl⟩
  by_cases hge : m.importedFunctions.length ≤ f
  · have hin : f < m.importedFunctions.length + m.funcs.length := by
      simpa [Module.funcTypes] using hf
    have hcode : rewriteInstr (contextOf m interval) s.scratch p (.return_call f) =
        [.return_call ((contextOf m interval).image f)] := by
      rw [rewriteInstr, contextOf_importedFunctions, if_pos hge, Context.shift_of_le _ hge,
        Context.image_defined _ hge hin]
    rw [hcode]
    exact callFunction_led hi hq hx hw hrel hc true f fun hlt => absurd hlt (Nat.not_lt.mpr hge)
  · have hcode : ∃ rest, rewriteInstr (contextOf m interval) s.scratch p (.return_call f) =
        .call f :: ((contextOf m interval).afterImport f ++ rest) ∧
          (exitFunction m ≠ some f → rest = [.return]) := by
      rw [rewriteInstr, contextOf_importedFunctions, if_neg hge, Context.afterImport,
        contextOf_exitFunction]
      by_cases hexit : exitFunction m = some f
      · rw [if_pos hexit, if_pos hexit]
        exact ⟨[], rfl, fun hne => absurd hexit hne⟩
      · rw [if_neg hexit, if_neg hexit]
        exact ⟨[.return], rfl, fun _ => rfl⟩
    obtain ⟨rest, hcode, hrest⟩ := hcode
    rw [hcode, List.cons_append, List.append_assoc]
    refine call_import_led hi hq hw hrel (Nat.not_le.mp hge) true _ rfl ?_
    intro type htype w₁ w₁' vs us hw₁ hvs hne
    rw [hrest hne]
    -- What the import returned is what the function returns.
    have harity : ((vs.map (Val.rename (contextOf m interval).image)).reverse).length =
        fr.arity := by
      rw [List.length_reverse, List.length_map, hvs, hret type htype, hfit.arity]
    refine .before (.refl _) ?_
    rw [List.singleton_append, step_return (by
      simp only [Context.frame, List.length_append, harity]
      omega)]
    have htake : ((vs.map (Val.rename (contextOf m interval).image)).reverse ++
        us.map (Val.rename (contextOf m interval).image)).take
          ((contextOf m interval).frame s.scratch none extra fr).arity =
        (vs.map (Val.rename (contextOf m interval).image)).reverse := by
      rw [List.take_append_of_le_length (by simp [Context.frame, ← harity]),
        List.take_of_length_le (by simp [Context.frame, ← harity])]
    rw [htake, List.reverse_reverse]
    exact resume_led hw₁ hc vs

/-! ## Every step -/

omit hi hq in
/-- An instruction copied as it is runs as it is. -/
theorem copied_follows {p : Option (BitVec 32)} {i : Instr} {next : Step σ}
    (hself : rewriteInstr (contextOf m interval) s.scratch p i = [i])
    (hled : Led S m m' P h maximum interval next
      (exec m' P h i w' ((contextOf m interval).frame s.scratch (constantOf i) extra fr) cs')) :
    Follows (step m' P h) (ConfigRel S m maximum interval) (ResultRel S m maximum interval)
      ⟨w', (contextOf m interval).frame s.scratch p extra { fr with code := i :: fr.code }, cs'⟩
      next := by
  refine Matches.follows ?_
  simp only [Context.frame, rewriteCode, hself, List.singleton_append, step_cons]
  exact hled

/-- A `loop` checks at its header. -/
theorem loop_follows {p : Option (BitVec 32)} {bt : BlockType} (hfit : Fits m s p (.loop bt))
    (hw : WorldRel S m maximum interval w w') (hf : FrameFits m s none fr)
    (he : s.slot = true → extra ≠ [])
    (hc : List.Forall₂ (FrameRel m (contextOf m interval) none) cs cs') :
    Follows (step m' P h) (ConfigRel S m maximum interval) (ResultRel S m maximum interval)
      ⟨w', (contextOf m interval).frame s.scratch p extra { fr with code := .loop bt :: fr.code },
        cs'⟩
      (exec m P h (.loop bt) w fr cs) := by
  obtain ⟨j, j', hj, hj', hrel⟩ := loop_rel (contextOf m interval) hi hfit hf he
  obtain ⟨k, hk, hexec⟩ := exec_control (m := m) (P := P) (h := h) (i := .loop bt) rfl w fr cs
  obtain ⟨k', hk', hexec'⟩ := exec_control (m := m') (P := P) (h := h) (i := .loop bt) rfl w'
    { (contextOf m interval).frame s.scratch none extra fr with
      code := (contextOf m interval).check ++
        rewriteCode (contextOf m interval) s.scratch none fr.code } cs'
  cases hj.symm.trans hk
  cases hj'.symm.trans hk'
  rw [hexec]
  refine Matches.follows ?_
  have hstep : step m' P h ⟨w', (contextOf m interval).frame s.scratch p extra
      { fr with code := .loop bt :: fr.code }, cs'⟩ =
      (Jump.before (contextOf m interval).check j').follow w' cs' := hexec'
  rw [hstep]
  exact follow_led (passes_check hi P hq) hw hc hrel

omit hq in
theorem control_follows {p : Option (BitVec 32)} {i : Instr} (hctl : isControl i = true)
    (hloop : ∀ bt, i ≠ .loop bt) (hfit : Fits m s p i)
    (hw : WorldRel S m maximum interval w w') (hf : FrameFits m s none fr)
    (he : s.slot = true → extra ≠ [])
    (hc : List.Forall₂ (FrameRel m (contextOf m interval) none) cs cs') :
    Follows (step m' P h) (ConfigRel S m maximum interval) (ResultRel S m maximum interval)
      ⟨w', (contextOf m interval).frame s.scratch p extra { fr with code := i :: fr.code }, cs'⟩
      (exec m P h i w fr cs) := by
  have hconst : constantOf i = none := by cases i <;> first | rfl | cases hctl
  refine copied_follows ?_ ?_
  · exact rewriteInstr_self (charge?_of_not_local (by cases i <;> first | rfl | cases hctl)) hloop
      (by rintro f rfl; cases hctl) (by rintro f rfl; cases hctl) (by rintro f rfl; cases hctl)
  · obtain ⟨j, j', hj, hj', hrel⟩ := control_rel (contextOf m interval) hi hctl hloop hfit
      hf he
    obtain ⟨k, hk, hexec⟩ := exec_control (m := m) (P := P) (h := h) hctl w fr cs
    obtain ⟨k', hk', hexec'⟩ := exec_control (m := m') (P := P) (h := h) hctl w'
      ((contextOf m interval).frame s.scratch none extra fr) cs'
    cases hj.symm.trans hk
    cases hj'.symm.trans hk'
    rw [hconst, hexec, hexec']
    exact jump_led hw hc hrel

theorem call_follows (hx : WellIndexed m) {p : Option (BitVec 32)} {i : Instr}
    (hcall : isCall i = true) (hfit : Fits m s p i) (hw : WorldRel S m maximum interval w w')
    (hf : FrameFits m s none fr) (he : s.slot = true → extra ≠ [])
    (hc : List.Forall₂ (FrameRel m (contextOf m interval) none) cs cs') :
    Follows (step m' P h) (ConfigRel S m maximum interval) (ResultRel S m maximum interval)
      ⟨w', (contextOf m interval).frame s.scratch p extra { fr with code := i :: fr.code }, cs'⟩
      (asRead m ((contextOf m interval).Sees (i :: fr.code)) w (exec m P h i w fr cs)) := by
  have hrel : FrameRel m (contextOf m interval) none fr
      ((contextOf m interval).frame s.scratch none extra fr) := ⟨s, extra, hf, he, rfl⟩
  cases i <;> cases hcall
  case call f => exact Matches.follows (call_led hi hq hx hfit.names hw hf he hc)
  case return_call f =>
    exact Matches.follows (return_call_led hi hq hx hfit.names.1 hfit.names.2 hw hf he hc)
  case call_indirect type t =>
    exact copied_follows rfl (callIndirect_led hi hq hx hw hrel hc false hfit.names t)
  case return_call_indirect type t =>
    exact copied_follows rfl (callIndirect_led hi hq hx hw hrel hc true hfit.names t)
  case call_ref type =>
    exact copied_follows rfl (callRef_led hi hq hx hw hrel hc false hfit.names)
  case return_call_ref type =>
    exact copied_follows rfl (callRef_led hi hq hx hw hrel hc true hfit.names)

theorem local_follows {p : Option (BitVec 32)} {i : Instr} (hl : isLocal i = true)
    (hfit : Fits m s p i) (hw : WorldRel S m maximum interval w w')
    (hf : FrameFits m s (constantOf i) fr) (he : s.slot = true → extra ≠ [])
    (hc : List.Forall₂ (FrameRel m (contextOf m interval) none) cs cs')
    (hb : ∀ d, exec m P h i w fr cs = .more d →
      (changeOf m maximum interval).Below d.world.store) :
    Follows (step m' P h) (ConfigRel S m maximum interval) (ResultRel S m maximum interval)
      ⟨w', (contextOf m interval).frame s.scratch p extra { fr with code := i :: fr.code }, cs'⟩
      (exec m P h i w fr cs) := by
  cases hcharge : charge? p i with
  | some shift =>
      have hconst : constantOf i = none := by
        cases i <;> first | rfl | simp [charge?, chargeShift] at hcharge
      have hfollows := charged_follows hi hq hcharge hfit hw (hconst ▸ hf) he hc hb
      simpa only [Context.frame, rewriteCode, rewriteInstr_charge _ _ hcharge, hconst,
        List.append_assoc, List.singleton_append, Context.charge] using hfollows
  | none =>
      by_cases hnf : ∃ f, i = .ref_func f
      · obtain ⟨f, rfl⟩ := hnf
        exact Matches.follows (ref_func_led hfit.names hw hf he hc)
      · have hnf : ∀ f, i ≠ .ref_func f := fun f hf => hnf ⟨f, hf⟩
        refine copied_follows ?_ (local_led hl hnf hfit.indexed hw hf he hc hb)
        exact rewriteInstr_self hcharge (by rintro bt rfl; cases hl) (by rintro f rfl; cases hl)
          (by rintro f rfl; cases hl) hnf

omit hi hq in
/-- Only calls are read as something else. -/
theorem asRead_exec {i : Instr} (hcall : isCall i = false) (sees : Nat → Prop) :
    asRead m sees w (exec m P h i w fr cs) = exec m P h i w fr cs :=
  asRead_of_log (exec_log hcall w fr cs)

variable (m P h interval) in
/-- At `c` the original calls an import that reads as `proc_exit` and is another, where the
rewriter follows it up, and the import returns. -/
def Misreads (c : Config σ) : Prop :=
  Misread m ((contextOf m interval).Sees c.top.code) c.world (step m P h c)

variable (m P h interval) in
/-- The machine of the original, cut short where it is misread. -/
noncomputable abbrev readStep : Config σ → Step σ :=
  Run.cut (step m P h) (Misreads m P h interval) fun c => (.trap, (step m P h c).world)

omit hi hq in
theorem readStep_eq (c : Config σ) :
    readStep m P h interval c =
      asRead m ((contextOf m interval).Sees c.top.code) c.world (step m P h c) := rfl

/-- The instrumented instance follows every step of the original as it is read that
leaves the memory below the lowered maximum. -/
theorem simulates (hx : WellIndexed m) :
    Simulates (readStep m P h interval) (step m' P h)
      (fun c => (changeOf m maximum interval).Below c.world.store)
      (ConfigRel S m maximum interval) (ResultRel S m maximum interval) := by
  rintro ⟨w, ⟨fn, code, vs, ls, xs, n⟩, cs⟩ ⟨w', fr', cs'⟩ ⟨hw, ⟨p, s, extra, hfit, he, hfr'⟩, hc⟩
    hgood
  simp only at hw hfit hfr' hc
  subst hfr'
  rw [readStep_eq] at hgood ⊢
  cases code with
  | nil =>
      have hlog : asRead m ((contextOf m interval).Sees []) w (.halt (.stuck, w)) =
          .halt (.stuck, w) := asRead_of_log rfl
      rw [show step m P h ⟨w, ⟨fn, [], vs, ls, xs, n⟩, cs⟩ = .halt (.stuck, w) from rfl, hlog]
      exact ⟨_, .now rfl, rfl, hw⟩
  | cons i is =>
      have hi₁ : Fits m s p i := hfit.code.1
      have hf : FrameFits m s (constantOf i) ⟨fn, is, vs, ls, xs, n⟩ :=
        ⟨hfit.code.2, hfit.labels, hfit.locals, hfit.arity⟩
      have hconst : isLocal i = false → constantOf i = none := by
        intro hl
        cases i <;> first | rfl | cases hl
      rw [step_cons] at hgood ⊢
      rcases instr_class i with rfl | hctl | hraise | hcall | hloc
      · have hled : Led S m m' P h maximum interval
            (exec m P h .unreachable w ⟨fn, is, vs, ls, xs, n⟩ cs)
            (exec m' P h .unreachable w' ((contextOf m interval).frame s.scratch none extra
              ⟨fn, is, vs, ls, xs, n⟩) cs') := led_trap hw
        rw [asRead_exec rfl]
        exact copied_follows rfl hled
      · rw [hconst (by cases i <;> first | rfl | cases hctl)] at hf
        rw [asRead_exec (by cases i <;> first | rfl | cases hctl)]
        by_cases hloop : ∃ bt, i = .loop bt
        · obtain ⟨bt, rfl⟩ := hloop
          exact loop_follows hi hq hi₁ hw hf he hc
        · exact control_follows hi hctl (fun bt hbt => hloop ⟨bt, hbt⟩) hi₁ hw hf he hc
      · have hnone := hconst (by cases i <;> first | rfl | cases hraise)
        rw [hnone] at hf
        rw [asRead_exec (by cases i <;> first | rfl | cases hraise)]
        have hled : Led S m m' P h maximum interval (exec m P h i w ⟨fn, is, vs, ls, xs, n⟩ cs)
            (exec m' P h i w' ((contextOf m interval).frame s.scratch (constantOf i) extra
              ⟨fn, is, vs, ls, xs, n⟩) cs') := by
          rw [hnone]
          exact raise_led hi hraise hi₁ hw ⟨s, extra, hf, he, rfl⟩ hc
        exact copied_follows (by cases i <;> first | rfl | cases hraise) hled
      · rw [hconst (by cases i <;> first | rfl | cases hcall)] at hf
        exact call_follows hi hq hx hcall hi₁ hw hf he hc
      · rw [asRead_exec (by cases i <;> first | rfl | cases hloc)] at hgood ⊢
        exact local_follows hi hq hloc hi₁ hw hf he hc hgood

end

end

end Rewriter
