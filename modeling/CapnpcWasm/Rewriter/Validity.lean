import CapnpcWasm.Rewriter.Typing

/-!
# The instrumented module is valid

The parts of the instrumented module are the parts of the original with functions
renumbered, and a few more.  Types, globals and segments are added at the end, so what
names one still names it; a function keeps its type under its new index.
-/

namespace Rewriter

open Wasm

section

variable {m m' : Module} {P : Prims} {maximum interval limit : Nat}

/-! ## Functions used as values -/

theorem constant_funcs (ctx : Context) (e : ConstExpr) :
    ConstExpr.funcs (constant ctx e) = (ConstExpr.funcs e).map ctx.reference := by
  induction e with
  | nil => rfl
  | cons i e ih =>
      cases i <;> simp_all [constant, constantInstr, ConstExpr.funcs]

theorem rewriteElem_funcs (ctx : Context) (e : Elem) :
    Elem.funcs (rewriteElem ctx e) = (Elem.funcs e).map ctx.reference := by
  have hinit : (e.init.map (constant ctx)).flatMap ConstExpr.funcs =
      (e.init.flatMap ConstExpr.funcs).map ctx.reference := by
    induction e.init with
    | nil => rfl
    | cons x xs ih => simp [constant_funcs, ih]
  cases hm : e.mode <;> simp [Elem.funcs, rewriteElem, hm, hinit, constant_funcs]

theorem mem_declared {f : Nat} : f ∈ m.declared ↔
    (∃ g ∈ m.globals, f ∈ ConstExpr.funcs g.init) ∨
      (∃ e ∈ m.exports, e.kind = .func ∧ e.index = f) ∨ ∃ e ∈ m.elems, f ∈ Elem.funcs e := by
  simp only [Module.declared, List.mem_append, List.mem_flatMap, List.mem_map, List.mem_filter,
    beq_iff_eq, or_assoc, and_assoc]

theorem localTypes_length (groups : List (Nat × ValType)) :
    (Module.localTypes groups).length = declaredLocals groups := by
  simp [Module.localTypes, declaredLocals, List.length_flatMap]

/-- A defined function has the same index as a value and in a call. -/
theorem Context.reference_of_le {ctx : Context} {f : Nat} (h : ctx.importedFunctions ≤ f) :
    ctx.reference f = ctx.shift f := by
  rw [Context.reference, Context.shift, if_pos h, if_pos h]

/-- Constant instructions take numbers only. -/
theorem constSig_params {globals : List GlobalType} {i : ConstInstr} {t : FuncType}
    (h : m.constSig P globals i = some t) : ∀ u ∈ t.params, u.isRef = false := by
  cases i with
  | i32_const c => cases h; nofun
  | global_get x =>
      obtain ⟨g, -, h⟩ := Option.bind_eq_some_iff.mp h
      split at h
      · cases h
      · cases h; nofun
  | ref_null heap =>
      obtain ⟨-, h⟩ := Option.ite_none_right_eq_some.mp h
      cases h; nofun
  | ref_func f =>
      obtain ⟨type, -, h⟩ := Option.map_eq_some_iff.mp h
      cases h; nofun
  | plain op =>
      obtain ⟨-, h⟩ := Option.ite_none_right_eq_some.mp h
      cases op with
      | numeric code =>
          simp only [PlainOp.constType] at h
          split at h
          · cases h; simp [ValType.isRef]
          · split at h
            · cases h; simp [ValType.isRef]
            · cases h
      | i64_const value | f32_const bytes | f64_const bytes => cases h; nofun
      | simd code arg lanes =>
          cases arg with
          | none =>
              obtain ⟨-, h⟩ := Option.ite_none_right_eq_some.mp h
              cases h; nofun
          | some arg => cases h
      | access code arg | saturating code | atomic code arg => cases h

/-- A reference a constant expression makes, or has below it, is there in the end. -/
theorem constTypes_ref {globals : List GlobalType} {e : ConstExpr} {ts us : List ValType}
    (h : m.constTypes P globals e ts = some us)
    (href : (∃ u ∈ ts, u.isRef = true) ∨ ∃ f, .ref_func f ∈ e) : ∃ u ∈ us, u.isRef = true := by
  induction e generalizing ts with
  | nil =>
      cases h
      exact href.resolve_right (by simp)
  | cons i e ih =>
      obtain ⟨t, ht, h⟩ := Option.bind_eq_some_iff.mp h
      obtain ⟨hm, h⟩ := Option.ite_none_right_eq_some.mp h
      refine ih h ?_
      rcases href with ⟨u, hu, hr⟩ | ⟨f, hf⟩
      · refine .inl ⟨u, List.mem_append_right _ ?_, hr⟩
        rw [← List.take_append_drop t.params.length ts] at hu
        refine (List.mem_append.mp hu).resolve_left fun htake => ?_
        -- a popped reference would be a parameter
        obtain ⟨v, hv, hmatch⟩ := exists_of_matchesAll hm htake
        have hparam := constSig_params ht v (List.mem_reverse.mp hv)
        rw [ValType.isRef_of_matches hmatch hr] at hparam
        cases hparam
      · rcases List.mem_cons.mp hf with rfl | hf
        · obtain ⟨type, -, ht⟩ := Option.map_eq_some_iff.mp ht
          cases ht
          exact .inl ⟨_, List.mem_append_left _ List.mem_cons_self, rfl⟩
        · exact .inr ⟨f, hf⟩

/-- A number is computed without references. -/
theorem offset_no_ref {globals : List GlobalType} {offset : ConstExpr}
    (h : m.constOk P globals offset .i32 = true) {f : Nat} : .ref_func f ∉ offset := by
  intro hf
  simp only [Module.constOk] at h
  cases hts : m.constTypes P globals offset [] with
  | none => simp [hts] at h
  | some us =>
      rw [hts] at h
      obtain ⟨u, hu, hr⟩ := constTypes_ref hts (.inr ⟨f, hf⟩)
      match us with
      | [v] =>
          cases List.mem_singleton.mp hu
          exact nomatch ValType.isRef_of_matches h hr
      | [] | _ :: _ :: _ => cases h

namespace Instruments

variable (hi : Instruments m m' maximum interval)

include hi

/-- A function of the original keeps its type as a value. -/
theorem funcTypes_reference {f type : Nat} (h : m.funcTypes[f]? = some type) :
    m'.funcTypes[(contextOf m interval).reference f]? = some type := by
  have hlt : f < m.funcTypes.length := (List.getElem?_eq_some_iff.mp h).1
  rw [Context.reference_eq_image _ (by simpa [Module.funcTypes] using hlt),
    hi.funcTypes_image, h]

/-- The type of a function under the index it is called at. -/
theorem funcTypes_shift {f type : Nat} (h : m.funcTypes[f]? = some type) :
    m'.funcTypes[(contextOf m interval).shift f]? = some type := by
  have hlt : f < m.funcTypes.length := (List.getElem?_eq_some_iff.mp h).1
  by_cases hge : m.importedFunctions.length ≤ f
  · rw [← Context.reference_of_le hge, hi.funcTypes_reference h]
  · rw [Context.shift_of_lt _ (Nat.not_le.mp hge), hi.funcTypes_import (Nat.not_le.mp hge), h]

theorem types_extend : m.types <+: m'.types := ⟨_, hi.types.symm⟩

theorem globalTypes_extend : m.globalTypes <+: m'.globalTypes := ⟨_, hi.globalTypes.symm⟩

theorem funcType?_shift {f : Nat} {t : FuncType} (h : m.funcType? f = some t) :
    m'.funcType? ((contextOf m interval).shift f) = some t := by
  obtain ⟨type, htype, ht⟩ := Option.bind_eq_some_iff.mp h
  exact Option.bind_eq_some_iff.mpr
    ⟨type, hi.funcTypes_shift htype, get_of_extends hi.types_extend ht⟩

theorem memoryTypes_length : m'.memoryTypes.length = m.memoryTypes.length := by
  obtain ⟨limits, hb, hm⟩ := hi.memory
  have hone : m.memories.length = 1 := by
    cases hms : m.memories with
    | nil => simp [boundedMemory, hms] at hb
    | cons l ls => cases ls <;> simp_all [boundedMemory]
  simp [Module.memoryTypes, hi.importedMemories, hm, hone]

/-- What `ref.func` may name in the original, it may name under its new index. -/
theorem declared_reference {f : Nat} (h : f ∈ m.declared)
    (hd : (contextOf m interval).declared (.ref_func f) = true) :
    (contextOf m interval).reference f ∈ m'.declared := by
  rw [mem_declared] at h ⊢
  by_cases hge : m.importedFunctions.length ≤ f
  · rcases h with ⟨g, hg, hf⟩ | ⟨e, he, hk, hf⟩ | ⟨e, he, hf⟩
    · refine .inl ⟨{ g with init := constant (contextOf m interval) g.init }, ?_, ?_⟩
      · rw [hi.globals]
        exact List.mem_append_left _ (List.mem_map_of_mem (f := fun g : Global =>
          { g with init := constant (contextOf m interval) g.init }) hg)
      · rw [constant_funcs]
        exact List.mem_map_of_mem hf
    · refine .inr (.inl ⟨{ e with index := (contextOf m interval).shift e.index }, ?_, hk, ?_⟩)
      · rw [hi.exports]
        refine List.mem_append_left _ (List.mem_map.mpr ⟨e, he, if_pos hk⟩)
      · rw [Context.reference_of_le hge, ← hf]
    · refine .inr (.inr ⟨rewriteElem (contextOf m interval) e, ?_, ?_⟩)
      · rw [hi.elems]
        exact List.mem_append_left _ (List.mem_map_of_mem he)
      · rw [rewriteElem_funcs]
        exact List.mem_map_of_mem hf
  · -- an import with a thunk is in the added segment
    have hmem : f ∈ (contextOf m interval).thunkImports := by
      simp only [Context.declared, contextOf_importedFunctions, hge, decide_false,
        Bool.false_or, Option.isSome_iff_exists] at hd
      obtain ⟨t, ht⟩ := hd
      exact ((Context.thunkOf_eq_some _).mp ht).1
    have hne : (contextOf m interval).thunkImports ≠ [] := List.ne_nil_of_mem hmem
    refine .inr (.inr ⟨{ mode := .declarative, type := .funcref, init :=
      (contextOf m interval).thunkImports.map fun f =>
        [.ref_func ((contextOf m interval).reference f)] }, ?_, ?_⟩)
    · rw [hi.elems, declareThunks, if_neg (by simpa using hne)]
      exact List.mem_append_right _ List.mem_cons_self
    · simp only [Elem.funcs, List.nil_append, List.mem_flatMap, List.mem_map]
      exact ⟨_, ⟨f, hmem, rfl⟩, by simp [ConstExpr.funcs]⟩

/-! ## Constant expressions -/

theorem constTypes {globals globals' : List GlobalType} (hg : globals <+: globals')
    {e : ConstExpr} {ts us : List ValType} (h : m.constTypes P globals e ts = some us) :
    m'.constTypes P globals' (constant (contextOf m interval) e) ts = some us := by
  have hsig : ∀ i t, m.constSig P globals i = some t →
      m'.constSig P globals' (constantInstr (contextOf m interval) i) = some t := by
    intro i t ht
    cases i with
    | i32_const c => exact ht
    | global_get x =>
        obtain ⟨g, hx, ht⟩ := Option.bind_eq_some_iff.mp ht
        exact Option.bind_eq_some_iff.mpr ⟨g, get_of_extends hg hx, ht⟩
    | ref_null heap =>
        simp only [Module.constSig, constantInstr, Option.ite_none_right_eq_some] at ht ⊢
        exact ⟨ValType.ok_mono hi.types_extend.length_le ht.1, ht.2⟩
    | ref_func f =>
        obtain ⟨type, htype, ht⟩ := Option.map_eq_some_iff.mp ht
        exact Option.map_eq_some_iff.mpr ⟨type, hi.funcTypes_reference htype, ht⟩
    | plain op => exact ht
  induction e generalizing ts with
  | nil => exact h
  | cons i e ih =>
      obtain ⟨t, ht, h⟩ := Option.bind_eq_some_iff.mp h
      obtain ⟨hm, h⟩ := Option.ite_none_right_eq_some.mp h
      refine Option.bind_eq_some_iff.mpr ⟨t, hsig i t ht, ?_⟩
      exact Option.ite_none_right_eq_some.mpr ⟨matchesAll_mono hi.types_extend hm, ih h⟩

/-- A constant expression keeps its type. -/
theorem constOk {globals globals' : List GlobalType} (hg : globals <+: globals')
    {e : ConstExpr} {t : ValType} (h : m.constOk P globals e t = true) :
    m'.constOk P globals' (constant (contextOf m interval) e) t = true := by
  simp only [Module.constOk] at h ⊢
  cases hts : m.constTypes P globals e [] with
  | none => simp [hts] at h
  | some ts =>
      rw [hts] at h
      rw [hi.constTypes hg hts]
      match ts with
      | [u] => exact ValType.matches_mono hi.types_extend h
      | [] | _ :: _ :: _ => cases h

/-! ## Function bodies -/

theorem injects (t : FuncType) (groups : List (Nat × ValType)) :
    Injects (m'.env t groups) (contextOf m interval).counter m.importedFunctions.length where
  counter := by
    have hlen : m.globalTypes.length = (contextOf m interval).counter := by
      simp [Module.globalTypes]
    rw [← hlen]
    simp [Module.env, hi.globalTypes]
  interrupt := by
    have htype : m'.funcTypes[m.importedFunctions.length]? = some m.types.length := by
      rw [hi.funcTypes, List.getElem?_append_right (by simp)]
      simp
    have hlast : m'.types[m.types.length]? = some ⟨[], [.i32]⟩ := by
      rw [hi.types, List.getElem?_append_right (by simp)]
      simp
    exact Option.bind_eq_some_iff.mpr ⟨_, htype, hlast⟩

/-- What the instrumented module offers the code of a function whose locals are kept. -/
theorem supports (t : FuncType) (groups : List (Nat × ValType)) (charges : Bool) :
    Supports (contextOf m interval) (t.params.length + declaredLocals groups) charges
      (m.env t groups) (m'.env t (if charges then groups ++ [(1, .i32)] else groups)) where
  extend := {
    types := hi.types_extend
    globals := hi.globalTypes_extend
    elems := by
      refine ⟨(declareThunks (contextOf m interval)).map (·.type), ?_⟩
      simp [Module.env, hi.elems, rewriteElem, Function.comp_def]
    locals := by
      cases charges
      · exact List.prefix_rfl
      · exact ⟨[.i32], by simp [Module.env, Module.localTypes]⟩
    tables := hi.tableTypes
    memories := hi.memoryTypes_length
    tags := hi.tagTypes
    datas := congrArg List.length hi.datas
    params := rfl
    results := rfl }
  inject := hi.injects t _
  slot hc := by
    subst hc
    have hlen : (t.params ++ Module.localTypes groups).length =
        t.params.length + declaredLocals groups := by
      rw [List.length_append, localTypes_length]
    have hlocals : (m'.env t (groups ++ [(1, .i32)])).locals =
        (t.params ++ Module.localTypes groups) ++ [.i32] := by
      simp [Module.env, Module.localTypes]
    rw [if_pos rfl, hlocals, ← hlen]
    simp
  direct _ _ h := hi.funcType?_shift h
  value f type h hmem hd := ⟨hi.funcTypes_reference h, hi.declared_reference hmem hd⟩

/-- A rewritten function is valid. -/
theorem funcOk (hlimit : maxLocals ≤ limit) {f f' : Func} (hf : m.funcOk P limit f = true)
    (h : functionBody (contextOf m interval) (paramCount m f.type) f = some f') :
    m'.funcOk P limit f' = true := by
  obtain ⟨rfl, hdecl, hslot⟩ := functionBody_eq h
  simp only [Module.funcOk] at hf
  cases ht : m.types[f.type]? with
  | none => simp [ht] at hf
  | some t =>
      have hparams : paramCount m f.type = t.params.length := by simp [paramCount, ht]
      simp only [ht, Bool.and_eq_true, decide_eq_true_eq, beq_iff_eq, localTypes_length] at hf
      obtain ⟨⟨hlen, hlocals⟩, hchecks⟩ := hf
      rw [hparams] at hslot ⊢
      simp only [Module.funcOk, get_of_extends hi.types_extend ht, Bool.and_eq_true,
        decide_eq_true_eq, beq_iff_eq]
      refine ⟨⟨?_, ?_⟩, ?_⟩
      · split
        · next hc =>
          have := hslot hc
          simp only [localTypes_length, declaredLocals, List.map_append, List.sum_append] at this ⊢
          simp only [List.map_cons, List.map_nil, List.sum_cons, List.sum_nil]
          omega
        · rwa [localTypes_length]
      · have hok : f.locals.all (·.2.ok m'.types.length) = true := by
          rw [List.all_eq_true] at hlocals ⊢
          exact fun g hg => ValType.ok_mono hi.types_extend.length_le (hlocals g hg)
        split
        · simpa [ValType.ok] using hok
        · exact hok
      · have hsup := hi.supports t f.locals (charged none f.body)
        obtain ⟨ds', hds', hcover⟩ := rewriteCode_checks (P := P) hsup
          (FramesCover.refl [.enter .func ⟨[], t.results⟩ []]) hdecl id hchecks
        cases hcover
        by_cases hg : f.body.any (contextOf m interval).callsGuest = true
        · rw [if_pos hg, Context.check, Env.checks_append (checkSequence_checks hsup.inject _ _)]
          exact hds'
        · rw [if_neg hg]
          exact hds'

/-! ## Thunks -/

theorem typesOk (hv : TypesOk limit m.types) : TypesOk limit m'.types := by
  intro i t ht
  rw [hi.types] at ht
  by_cases hlt : i < m.types.length
  · exact hv i t (by rwa [List.getElem?_append_left hlt] at ht)
  · rw [List.getElem?_append_right (Nat.not_lt.mp hlt), List.getElem?_singleton] at ht
    split at ht
    · cases ht
      rfl
    · cases ht

end Instruments

/-- Forwarding parameters pushes them. -/
theorem forward_checks {C : Env} (ts : List ValType) (hl : C.locals = ts)
    (hp : C.params = ts.length) (c : Ctrl) (outer : List Ctrl) :
    ∀ n, n ≤ ts.length → C.checks P ((List.range n).map .local_get) (c :: outer) =
      some (c.pushAll (ts.take n) :: outer) := by
  intro n
  induction n with
  | zero => exact fun _ => rfl
  | succ n ih =>
      intro hn
      have hget : C.locals[n]? = some ts[n] := by rw [hl, List.getElem?_eq_getElem hn]
      have hset : ∀ cs, C.isSet cs n ts[n] = true := by
        intro cs
        simp [Env.isSet, hp, show n < ts.length from hn]
      rw [List.range_succ, List.map_append, Env.checks_append (ih (by omega))]
      have hpush : c.pushAll (ts.take (n + 1)) = (c.pushAll (ts.take n)).push (.val ts[n]) := by
        rw [Ctrl.pushAll, List.take_succ_eq_append_getElem hn, List.reverse_append]
        rfl
      rw [hpush]
      simp [Env.checks, Env.check, Env.checkIn, hget, hset]

namespace Instruments

variable (hi : Instruments m m' maximum interval)

include hi

/-- A thunk has the type of its import and is valid. -/
theorem thunk_funcOk (hv : TypesOk limit m.types) {f type : Nat}
    (hf : f < m.importedFunctions.length) (htype : m.funcTypes[f]? = some type) :
    m'.funcOk P limit (thunkBody (contextOf m interval) type (paramCount m type) f) = true := by
  have hlt := hi.funcTypes_lt htype
  obtain ⟨t, ht⟩ : ∃ t, m.types[type]? = some t := ⟨_, List.getElem?_eq_getElem hlt⟩
  have ht' := get_of_extends hi.types_extend ht
  have hparams : paramCount m type = t.params.length := by simp [paramCount, ht]
  obtain ⟨hps, hrs⟩ : matchesAll (m'.env t []).types t.params t.params = true ∧
      matchesAll (m'.env t []).types t.results t.results = true :=
    matchesAll_refl (hi.typesOk hv) ht'
  have hsig : (m'.env t []).sig P (.call f) = some t :=
    Option.bind_eq_some_iff.mpr ⟨type, (hi.funcTypes_import hf).trans htype, ht'⟩
  simp only [Module.funcOk, thunkBody, ht', hparams, Module.localTypes, List.flatMap_nil,
    List.length_nil, Nat.add_zero, List.all_nil, Bool.and_true, Bool.and_eq_true,
    decide_eq_true_eq, beq_iff_eq]
  refine ⟨?_, ?_⟩
  · have := hv type t ht
    simp only [Bool.and_eq_true, decide_eq_true_eq] at this
    exact this.2
  · let start : Ctrl := .enter .func ⟨[], t.results⟩ []
    have hforward := forward_checks (P := P) (C := m'.env t []) t.params
      (by simp [Module.env, Module.localTypes]) rfl start [] t.params.length (Nat.le_refl _)
    rw [List.take_length] at hforward
    have hcall : (m'.env t []).check P (.call f) [start.pushAll t.params] =
        some [start.pushAll t.results] := by
      rw [Env.check_of_sig hsig, Ctrl.popAll_pushAll hps, Option.map_some]
    have hend : (m'.env t []).check P .end [start.pushAll t.results] = some [] := by
      have hclose : (start.pushAll t.results).close (m'.env t []).types = some () := by
        rw [Ctrl.close, show (start.pushAll t.results).results = t.results from rfl,
          Ctrl.popAll_pushAll hrs]
        rfl
      have hkind : (start.pushAll t.results).kind ≠ .if := by
        intro heq
        cases heq
      simp [Env.check, Env.checkIn, hclose, hkind, Env.checkIn.leaveBlock]
    obtain ⟨d, hafter, hcover⟩ :=
      afterImport_checks (P := P) (hi.injects t []) f (start.pushAll t.results) []
    obtain ⟨ds', hend', hnil⟩ :=
      FramesCover.check (.refl _) (.cons hcover .nil) rfl hend
    cases hnil
    rw [Env.checks_append hforward, Env.checks_cons hcall, Env.checks_append hafter,
      Env.checks_cons hend', Env.checks]

/-! ## The module -/

theorem tableOk {t : TableType} (h : m.tableOk t = true) : m'.tableOk t = true := by
  simp only [Module.tableOk, Bool.and_eq_true] at h ⊢
  exact ⟨⟨h.1.1, ValType.ok_mono hi.types_extend.length_le h.1.2⟩, h.2⟩

theorem tagOk {type : Nat} (h : m.tagOk type = true) : m'.tagOk type = true := by
  simp only [Module.tagOk] at h ⊢
  cases ht : m.types[type]? with
  | none => simp [ht] at h
  | some t =>
      rw [ht] at h
      rw [get_of_extends hi.types_extend ht]
      exact h

theorem importOk {d : ImportDesc} (h : m.importOk d = true) : m'.importOk d = true := by
  have hlen := hi.types_extend.length_le
  cases d with
  | func type =>
      simp only [Module.importOk, decide_eq_true_eq] at h ⊢
      omega
  | table t => exact hi.tableOk h
  | memory l => exact h
  | global g => exact ValType.ok_mono hlen h
  | tag type => exact hi.tagOk h

theorem elemOk {e : Elem} (h : m.elemOk P e = true) :
    m'.elemOk P (rewriteElem (contextOf m interval) e) = true := by
  have hlen := hi.types_extend.length_le
  simp only [Module.elemOk, rewriteElem, Bool.and_eq_true, List.all_map, List.all_eq_true] at h ⊢
  obtain ⟨⟨⟨href, hok⟩, hinit⟩, hmode⟩ := h
  refine ⟨⟨⟨href, ValType.ok_mono hlen hok⟩, fun c hc =>
    hi.constOk hi.globalTypes_extend (hinit c hc)⟩, ?_⟩
  cases he : e.mode with
  | passive | declarative => rfl
  | active t offset =>
      rw [he] at hmode
      simp only [Bool.and_eq_true, hi.tableTypes] at hmode ⊢
      refine ⟨?_, hi.constOk hi.globalTypes_extend hmode.2⟩
      cases ht : m.tableTypes[t]? with
      | none => simp [ht] at hmode
      | some tt =>
          rw [ht] at hmode
          exact ValType.matches_mono hi.types_extend hmode.1

/-- The added segment. -/
theorem declareThunks_ok {e : Elem} (h : e ∈ declareThunks (contextOf m interval)) :
    m'.elemOk P e = true := by
  rw [declareThunks] at h
  split at h
  · cases h
  · cases List.mem_singleton.mp h
    simp only [Module.elemOk, Bool.and_eq_true, List.all_map, List.all_eq_true, and_true]
    refine ⟨⟨rfl, rfl⟩, fun f hf => ?_⟩
    have hlt := lt_of_mem_thunkImports hf
    obtain ⟨type, htype⟩ : ∃ type, m.funcTypes[f]? = some type :=
      ⟨_, List.getElem?_eq_getElem (by simp [Module.funcTypes]; omega)⟩
    have hbound : type < m'.types.length :=
      Nat.lt_of_lt_of_le (hi.funcTypes_lt htype) hi.types_extend.length_le
    simp [Module.constOk, Module.constTypes, Module.constSig,
      hi.funcTypes_reference htype, matchesAll, ValType.matches, HeapType.matches, hbound]

/-- The offset of a data segment names no function, so it stays as it is. -/
theorem dataOk {d : Data} (h : m.dataOk P d = true) : m'.dataOk P d = true := by
  simp only [Module.dataOk] at h ⊢
  cases hd : d.mode with
  | passive => rfl
  | active k offset =>
      rw [hd] at h
      simp only [Bool.and_eq_true, hi.memoryTypes_length] at h ⊢
      refine ⟨h.1, ?_⟩
      have hself : constant (contextOf m interval) offset = offset :=
        constant_self _ fun i hi f hf => offset_no_ref h.2 (hf ▸ hi)
      rw [← hself]
      exact hi.constOk hi.globalTypes_extend h.2

theorem exportOk {e : Export} (h : m.exportOk e = true) :
    m'.exportOk (if e.kind = .func then
      { e with index := (contextOf m interval).shift e.index } else e) = true := by
  have hglobals := hi.globalTypes_extend.length_le
  simp only [Module.exportOk] at h ⊢
  cases hk : e.kind <;> simp only [hk, decide_eq_true_eq] at h
  case func =>
    obtain ⟨type, htype⟩ : ∃ type, m.funcTypes[e.index]? = some type :=
      ⟨_, List.getElem?_eq_getElem h⟩
    simpa [hk] using (List.getElem?_eq_some_iff.mp (hi.funcTypes_shift htype)).1
  case table => simpa [hk, hi.tableTypes] using h
  case memory => simpa [hk, hi.memoryTypes_length] using h
  case global => simp [hk]; omega
  case tag => simpa [hk, hi.tagTypes] using h

/-- The instrumented module is valid if the original is. -/
theorem valid (hlimit : maxLocals ≤ limit) (hv : m.Valid P limit) : m'.Valid P limit where
  types := hi.typesOk hv.types
  imports := by
    rw [hi.imports, List.all_append, Bool.and_eq_true]
    refine ⟨?_, ?_⟩
    · have := hv.imports
      rw [List.all_eq_true] at this ⊢
      exact fun i h => hi.importOk (this i h)
    · simp [Module.importOk, hi.types]
  funcs := by
    obtain ⟨funcs, hmap, hfuncs⟩ := hi.funcs
    have hall := hv.funcs
    rw [List.all_eq_true] at hall
    rw [hfuncs, List.all_append, Bool.and_eq_true, List.all_eq_true, List.all_eq_true]
    refine ⟨fun f' hf' => ?_, fun f' hf' => ?_⟩
    · obtain ⟨i, hi'⟩ := List.getElem?_of_mem hf'
      rw [mapM_getElem? hmap i, Option.bind_eq_some_iff] at hi'
      obtain ⟨f, hf, hbody⟩ := hi'
      exact hi.funcOk hlimit (hall f (List.mem_of_getElem? hf)) hbody
    · obtain ⟨f, hf, rfl⟩ := List.mem_map.mp hf'
      have hlt := lt_of_mem_thunkImports hf
      obtain ⟨type, htype⟩ : ∃ type, m.funcTypes[f]? = some type :=
        ⟨_, List.getElem?_eq_getElem (by simp [Module.funcTypes]; omega)⟩
      simp only [htype, Option.getD_some]
      exact hi.thunk_funcOk hv.types hlt htype
  tables := by
    have := hv.tables
    simp only [hi.tables, List.all_eq_true, Bool.and_eq_true] at this ⊢
    exact fun t ht => ⟨hi.tableOk (this t ht).1, (this t ht).2⟩
  memories := by
    obtain ⟨limits, hb, hm⟩ := hi.memory
    rw [hm]
    rcases hms : m.memories with _ | ⟨l, _ | _⟩
    · rw [hms] at hb
      cases hb
    · rw [hms] at hb
      obtain ⟨hle, hb⟩ := Option.ite_none_right_eq_some.mp hb
      cases hb
      simp only [List.all_cons, List.all_nil, Bool.and_true, Module.memoryOk, Module.limitsOk,
        Option.map_some, Option.getD_some, Bool.and_eq_true, decide_eq_true_eq]
      omega
    · rw [hms] at hb
      cases hb
  tags := by
    have := hv.tags
    rw [List.all_eq_true] at this
    rw [hi.tags, List.all_eq_true]
    exact fun x hx => hi.tagOk (this x hx)
  globals := by
    intro i g hg
    rw [hi.globals] at hg
    by_cases hlt : i < m.globals.length
    · rw [List.getElem?_append_left (by simpa using hlt), List.getElem?_map,
        Option.map_eq_some_iff] at hg
      obtain ⟨g, hg, rfl⟩ := hg
      have := hv.globals i g hg
      simp only [Bool.and_eq_true] at this ⊢
      have hbefore : m'.globalsBefore i = m.globalsBefore i := by
        rw [Module.globalsBefore, Module.globalsBefore, hi.importedGlobals, hi.globalTypes,
          List.take_append_of_le_length (by simp [Module.globalTypes]; omega)]
      exact ⟨ValType.ok_mono hi.types_extend.length_le this.1,
        hi.constOk (hbefore ▸ List.prefix_rfl) this.2⟩
    · rw [List.getElem?_append_right (by simpa using hlt), List.getElem?_singleton] at hg
      split at hg
      · cases hg
        rfl
      · cases hg
  exports := by
    have := hv.exports
    rw [List.all_eq_true] at this
    rw [hi.exports, List.all_append, Bool.and_eq_true, List.all_map, List.all_eq_true]
    refine ⟨fun e he => hi.exportOk (this e he), ?_⟩
    simp [Module.exportOk, Module.globalTypes, hi.importedGlobals, hi.globals]
  names := by
    -- the name of the added export is taken by none of the original, as the rewriter checks
    have hacc := hi.accepted
    simp only [Rewriter.accepted, Bool.and_eq_true, List.all_eq_true, bne_iff_ne] at hacc
    have hnames : m'.exports.map (·.name) = m.exports.map (·.name) ++ [countdownExport] := by
      have hname : ∀ e : Export, (if e.kind = .func then
          { e with index := (contextOf m interval).shift e.index } else e).name = e.name := by
        intro e
        split <;> rfl
      simp [hi.exports, Function.comp_def, hname]
    rw [hnames, List.nodup_append]
    refine ⟨hv.names, by simp, fun a ha b hb => ?_⟩
    obtain ⟨e, he, rfl⟩ := List.mem_map.mp ha
    cases List.mem_singleton.mp hb
    exact fun hname => hacc.2 e he (hname ▸ decodeText_countdownExport)
  start := by
    intro f hf
    rw [hi.start, Option.map_eq_some_iff] at hf
    obtain ⟨f, hf, rfl⟩ := hf
    exact hi.funcType?_shift (hv.start f hf)
  elems := by
    have := hv.elems
    rw [List.all_eq_true] at this
    rw [hi.elems, List.all_append, Bool.and_eq_true, List.all_map, List.all_eq_true,
      List.all_eq_true]
    exact ⟨fun e he => hi.elemOk (this e he), fun e he => hi.declareThunks_ok he⟩
  datas := by
    have := hv.datas
    rw [List.all_eq_true] at this
    rw [hi.datas, List.all_eq_true]
    exact fun d hd => hi.dataOk (this d hd)

end Instruments

/-! ## Validity is preserved -/

variable (P m m' interval limit) in
/-- The instrumented module is valid, and how each insertion types. -/
structure StaysValid : Prop where
  valid : m'.Valid P limit
  /-- A check is of type `[] → []` at every point, under every label. -/
  check : ∀ t groups c outer,
    (m'.env t groups).checks P (contextOf m interval).check (c :: outer) = some (c :: outer)
  /-- The local of the charges comes after the parameters and the locals of the original. -/
  slot : ∀ f ∈ m.funcs, ∀ t, m.types[f.type]? = some t →
    (m.env t f.locals).locals.length = t.params.length + declaredLocals f.locals ∧
      (m'.env t (f.locals ++ [(1, .i32)])).locals[t.params.length + declaredLocals f.locals]? =
        some .i32
  /-- A charge is of type `[i32] → [i32]` wherever a number can be taken. -/
  charge : ∀ f ∈ m.funcs, ∀ t, m.types[f.type]? = some t → ∀ shift c d u outer,
    c.popAs m'.types .i32 = some (u, d) →
      let scratch := t.params.length + declaredLocals f.locals
      (m'.env t (f.locals ++ [(1, .i32)])).checks P
          (chargeSequence (contextOf m interval).counter scratch m.importedFunctions.length
            interval shift) (c :: outer) =
        some ({ d with sets := scratch :: d.sets }.push (.val .i32) :: outer)
  /-- What an instruction becomes types wherever the instruction does, and leaves no more
  known about the operands. -/
  instr : ∀ f ∈ m.funcs, ∀ t, m.types[f.type]? = some t → ∀ p i cs cs' ds,
    (contextOf m interval).declared i = true →
    ((charge? p i).isSome = true → charged none f.body = true) → FramesCover cs cs' →
    (m.env t f.locals).check P i cs = some ds →
      ∃ ds', (m'.env t (if charged none f.body then f.locals ++ [(1, .i32)] else f.locals)).checks P
          (rewriteInstr (contextOf m interval) (t.params.length + declaredLocals f.locals) p i)
          cs' = some ds' ∧ FramesCover ds ds'
  /-- The delimiters a branch target is found by are those of the original. -/
  targets : ∀ scratch p d is,
    matchEnd d (rewriteCode (contextOf m interval) scratch p is) =
        (matchEnd d is).map (rewriteCode (contextOf m interval) scratch none) ∧
      matchElse d (rewriteCode (contextOf m interval) scratch p is) =
        (matchElse d is).map (rewriteCode (contextOf m interval) scratch none) ∧
      handlers d (rewriteCode (contextOf m interval) scratch p is) =
        (handlers d is).map (fun h =>
          ⟨h.tag, rewriteCode (contextOf m interval) scratch none h.code⟩) ∧
      delegated d (rewriteCode (contextOf m interval) scratch p is) = delegated d is
  /-- A thunk has the type of its import. -/
  thunk : ∀ f ∈ (contextOf m interval).thunkImports,
    m'.funcType? ((contextOf m interval).reference f) = m.funcType? f

/-- Instrumentation preserves validity, for every engine that allows at least the locals
the rewriter counts on. -/
theorem instrument_valid (h : instrument m maximum interval = some m')
    (hlimit : maxLocals ≤ limit) (hv : m.Valid P limit) : StaysValid m m' P interval limit := by
  have hi := Instruments.of_instrument h
  have hsup : ∀ f : Func, ∀ t, Supports (contextOf m interval)
      (t.params.length + declaredLocals f.locals) true (m.env t f.locals)
      (m'.env t (f.locals ++ [(1, .i32)])) := fun f t => hi.supports t f.locals true
  exact {
    valid := hi.valid hlimit hv
    check := fun t groups c outer => checkSequence_checks (hi.injects t groups) c outer
    slot := fun f _ t _ =>
      ⟨by simp [Module.env, localTypes_length], (hsup f t).slot rfl⟩
    charge := fun f _ t _ shift c d u outer hp =>
      chargeSequence_checks (hsup f t).inject ((hsup f t).slot rfl) hp outer
    instr := fun f _ t _ p i cs cs' ds hd hp hc h =>
      rewriteInstr_checks (hi.supports t f.locals (charged none f.body)) hc hd hp h
    targets := fun scratch p d is =>
      ⟨matchEnd_rewriteCode _ scratch is d p, matchElse_rewriteCode _ scratch is d p,
        handlers_rewriteCode _ scratch is d p, delegated_rewriteCode _ scratch is d p⟩
    thunk := fun f hf => by
      have hlt := lt_of_mem_thunkImports hf
      obtain ⟨type, htype⟩ : ∃ type, m.funcTypes[f]? = some type :=
        ⟨_, List.getElem?_eq_getElem (by simp [Module.funcTypes]; omega)⟩
      exact hi.funcType?_of_funcTypes ((hi.funcTypes_reference htype).trans htype.symm) }

end

/-! ## A module and a host -/

/-- A module that calls an import, also through a table, and fills its memory. -/
def sample : Module where
  types := [⟨[.i32], []⟩, ⟨[], [.i32]⟩]
  imports := [⟨⟨[101], [108]⟩, .func 0⟩]
  funcs := [{
    type := 1
    locals := [(1, .i64)]
    body := [.i32_const 7, .call 0, .i32_const 8, .i32_const 0, .call_indirect 0 0,
      .i32_const 0, .i32_const 1, .i32_const 2048, .memory_fill 0, .i32_const 42, .end] }]
  tables := [⟨.funcref, ⟨1, none⟩⟩]
  memories := [⟨0, none⟩]
  exports := [⟨[114], .func, 1⟩]
  elems := [{ mode := .active 0 [.i32_const 0], type := .funcref, init := [[.ref_func 0]] }]

/-- Plain opcodes of no use. -/
def samplePrims : Prims where
  type _ := ⟨[], []⟩
  inRange _ := true
  exec _ mems _ := some (mems, [])

theorem sample_valid : sample.Valid samplePrims maxLocals where
  types i t h := by
    match i with
    | 0 | 1 => cases h; decide
    | i + 2 => cases h
  imports := by decide
  funcs := by decide
  tables := by decide
  memories := by decide
  tags := by decide
  globals _ _ h := by cases h
  exports := by decide
  names := by decide
  start _ h := by cases h
  elems := by decide
  datas := by decide

theorem sample_instrumented : (instrument sample 16 1000).isSome = true := by decide +kernel

theorem instrument_valid_sample :
    StaysValid sample ((instrument sample 16 1000).get sample_instrumented) samplePrims 1000
      maxLocals :=
  instrument_valid (Option.some_get _).symm (Nat.le_refl _) sample_valid

/-- A host that ends the run at `proc_exit` and answers a poll with zero. -/
def sampleHost : Host Unit where
  call _ fn _ v := ⟨(), v, none,
    match fn with
    | .imported _ name =>
        if name = procExit then .exit
        else if name = interruptImport then .ret [.i32 0]
        else .ret []
    | .foreign _ => .ret []⟩
  foreignHas _ _ := false

/-- The first store of the sample. -/
def sampleStore : Store where
  mems := [⟨[], none⟩]
  tables := [⟨[.func 0], none⟩]
  globals := []
  elems := [[]]
  datas := []
  tags := []
  exns := []

def sampleWorld : World Unit := ⟨sampleStore, (), []⟩

end Rewriter
