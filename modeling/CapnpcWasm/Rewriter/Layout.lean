import CapnpcWasm.Rewriter.Transform
import CapnpcWasm.Wasm.Rename

/-!
# Index spaces of the instrumented module

`instrument` appends: a type, an imported function, thunks, a global, an export,
a segment.  Only function indices move, since the added import comes before the
defined functions.  `Context.image` is where a function of the original is found
when it is used as a value; direct calls of imports keep their index.

* `Instruments` lists what an accepted module and its output have in common, so that later
  proofs take fields of it and never unfold `instrument`.
* `Context.image_defined`, `image_thunk` and `image_import` say where each kind of function
  goes.
* `Instruments.funcTypes_image` says that it has the same type there, and
  `Instruments.countdown?` that the added global is the countdown.
-/

namespace Rewriter

open Wasm

/-! ## Results of `List.mapM` -/

/-- A traversal that succeeds did so at every position. -/
theorem mapM_getElem? {α β : Type} {f : α → Option β} {xs : List α} {ys : List β}
    (h : xs.mapM f = some ys) (i : Nat) : ys[i]? = xs[i]?.bind f := by
  induction xs generalizing ys i with
  | nil => simp at h; subst h; simp
  | cons x xs ih =>
      simp only [List.mapM_cons, Option.bind_eq_bind, Option.bind_eq_some_iff] at h
      obtain ⟨y, hy, zs, hzs, hys⟩ := h
      cases Option.some.inj hys
      cases i with
      | zero => simp [hy]
      | succ i => simpa using ih hzs i

/-- It keeps the length. -/
theorem mapM_length {α β : Type} {f : α → Option β} {xs : List α} {ys : List β}
    (h : xs.mapM f = some ys) : ys.length = xs.length := by
  induction xs generalizing ys with
  | nil => simp at h; simp [h]
  | cons x xs ih =>
      simp only [List.mapM_cons, Option.bind_eq_bind, Option.bind_eq_some_iff] at h
      obtain ⟨y, _, zs, hzs, hys⟩ := h
      cases Option.some.inj hys
      simp [ih hzs]

/-- A traversal keeps what each result has in common with its source. -/
theorem mapM_map {α β γ : Type} {f : α → Option β} {g : α → γ} {k : β → γ} {xs : List α}
    {ys : List β} (hk : ∀ x y, f x = some y → k y = g x) (h : xs.mapM f = some ys) :
    ys.map k = xs.map g := by
  induction xs generalizing ys with
  | nil => simp at h; simp [h]
  | cons x xs ih =>
      simp only [List.mapM_cons, Option.bind_eq_bind, Option.bind_eq_some_iff] at h
      obtain ⟨y, hy, zs, hzs, hys⟩ := h
      cases Option.some.inj hys
      simp [hk x y hy, ih hzs]

/-! ## Function bodies -/

/-- What `functionBody` makes of a function, and what it checked. -/
theorem functionBody_eq {ctx : Context} {params : Nat} {f f' : Func}
    (h : functionBody ctx params f = some f') :
    f' = {
      type := f.type
      locals := if charged none f.body then f.locals ++ [(1, .i32)] else f.locals
      body := (if f.body.any ctx.callsGuest then ctx.check else []) ++
        rewriteCode ctx (params + declaredLocals f.locals) none f.body } ∧
    f.body.all ctx.declared = true ∧
    (charged none f.body = true → params + declaredLocals f.locals + 1 ≤ maxLocals) := by
  simp only [functionBody, Option.ite_none_right_eq_some, Bool.and_eq_true, Bool.not_eq_true',
    Bool.and_eq_false_imp, decide_eq_false_iff_not, Nat.not_lt] at h
  obtain ⟨⟨hd, hm⟩, hf⟩ := h
  exact ⟨(Option.some.inj hf).symm, hd, hm⟩

/-! ## Constant expressions -/

/-- A constant expression that names no function stays as it is. -/
theorem constant_self (ctx : Context) {e : ConstExpr} (he : ∀ i ∈ e, ∀ f, i ≠ .ref_func f) :
    constant ctx e = e := by
  rw [constant]
  refine (List.map_congr_left fun i hi => ?_).trans (List.map_id e)
  cases i with
  | ref_func f => exact absurd rfl (he _ hi f)
  | _ => rfl

/-! ## Escaping imports -/

/-- A function is added if it is an import. -/
theorem mem_escape {imported f g : Nat} {seen : List Nat} :
    g ∈ escape imported seen f ↔ g ∈ seen ∨ (g = f ∧ f < imported) := by
  by_cases h : f < imported ∧ f ∉ seen
  · rw [escape, if_pos h, List.mem_append, List.mem_singleton]
    simp [h.1]
  · rw [escape, if_neg h]
    refine ⟨.inl, ?_⟩
    rintro (hg | ⟨rfl, hlt⟩)
    · exact hg
    · by_contra hn
      exact h ⟨hlt, hn⟩

/-- The references, one after the other. -/
theorem mem_foldl_escape {imported g : Nat} (fs : List Nat) :
    ∀ seen, g ∈ fs.foldl (escape imported) seen ↔ g ∈ seen ∨ (g < imported ∧ g ∈ fs) := by
  induction fs with
  | nil => simp
  | cons f fs ih =>
      intro seen
      rw [List.foldl_cons, ih, mem_escape, List.mem_cons]
      constructor
      · rintro ((h | ⟨rfl, h⟩) | ⟨h, h'⟩)
        · exact .inl h
        · exact .inr ⟨h, .inl rfl⟩
        · exact .inr ⟨h, .inr h'⟩
      · rintro (h | ⟨h, rfl | h'⟩)
        · exact .inl (.inl h)
        · exact .inl (.inr ⟨rfl, h⟩)
        · exact .inr ⟨h, h'⟩

/-- The thunks are for the imports among the references, and for no others. -/
theorem mem_escaping {imported f : Nat} {fs : List Nat} :
    f ∈ escaping imported fs ↔ f < imported ∧ f ∈ fs := by
  rw [escaping, mem_foldl_escape]
  simp

/-! ## Where a function goes -/

namespace Context

variable (ctx : Context)

/-- The index a function of the original has as a value.  An index past the last
function stays past the last. -/
def image (f : Nat) : Nat :=
  if f < ctx.importedFunctions + ctx.definedFunctions then ctx.reference f
  else f + 1 + ctx.thunkImports.length

/-- Defined functions move up by one, for the added import. -/
theorem shift_of_le {f : Nat} (h : ctx.importedFunctions ≤ f) : ctx.shift f = f + 1 := if_pos h

/-- Imports do not move. -/
theorem shift_of_lt {f : Nat} (h : f < ctx.importedFunctions) : ctx.shift f = f :=
  if_neg (Nat.not_le.mpr h)

/-- Thunks come last, in the order the imports escaped. -/
theorem thunkOf_eq_some {f t : Nat} :
    ctx.thunkOf f = some t ↔
      f ∈ ctx.thunkImports ∧
        t = ctx.importedFunctions + 1 + ctx.definedFunctions + ctx.thunkImports.idxOf f := by
  simp only [thunkOf]
  split
  · simp_all [eq_comm]
  · simp_all

/-- A defined function moves by one. -/
theorem image_defined {f : Nat} (h : ctx.importedFunctions ≤ f)
    (hf : f < ctx.importedFunctions + ctx.definedFunctions) : ctx.image f = f + 1 := by
  rw [image, if_pos hf, reference, if_pos h]

/-- An import moves to its thunk. -/
theorem image_thunk {f t : Nat} (h : f < ctx.importedFunctions) (ht : ctx.thunkOf f = some t) :
    ctx.image f = t := by
  rw [image, if_pos (by omega), reference, if_neg (by omega), ht, Option.getD_some]

/-- An import nothing uses as a value stays. -/
theorem image_import {f : Nat} (h : f < ctx.importedFunctions) (ht : ctx.thunkOf f = none) :
    ctx.image f = f := by
  rw [image, if_pos (by omega), reference, if_neg (by omega), ht, Option.getD_none]

/-- Indices outside the module stay outside. -/
theorem image_out {f : Nat} (h : ctx.importedFunctions + ctx.definedFunctions ≤ f) :
    ctx.image f = f + 1 + ctx.thunkImports.length := by
  rw [image, if_neg (by omega)]

/-- `ref.func` is given the image. -/
theorem reference_eq_image {f : Nat} (h : f < ctx.importedFunctions + ctx.definedFunctions) :
    ctx.reference f = ctx.image f := by
  rw [image, if_pos h]

end Context

/-! ## The parts of the instrumented module -/

/-- What `instrument` put together, with the checks it made. -/
structure Instruments (m m' : Module) (maximum interval : Nat) : Prop where
  accepted : accepted m interval = true
  memory : ∃ limits, boundedMemory maximum m.memories = some limits ∧ m'.memories = [limits]
  funcs : ∃ funcs,
    (m.funcs.mapM fun f => functionBody (contextOf m interval) (paramCount m f.type) f) =
      some funcs ∧ m'.funcs = funcs ++ thunks (contextOf m interval) m
  types : m'.types = m.types ++ [⟨[], [.i32]⟩]
  imports : m'.imports = m.imports ++ [⟨interruptImport, .func m.types.length⟩]
  tables : m'.tables = m.tables
  tags : m'.tags = m.tags
  globals : m'.globals =
    m.globals.map (fun g => { g with init := constant (contextOf m interval) g.init }) ++
      [⟨⟨.i32, true⟩, [.i32_const (.ofNat 32 interval)]⟩]
  exports : m'.exports =
    m.exports.map (fun e =>
      if e.kind = .func then { e with index := (contextOf m interval).shift e.index } else e) ++
      [⟨countdownExport, .global, (contextOf m interval).counter⟩]
  start : m'.start = m.start.map (contextOf m interval).shift
  elems : m'.elems = m.elems.map (rewriteElem (contextOf m interval)) ++
    declareThunks (contextOf m interval)
  datas : m'.datas = m.datas

/-- The output of an accepted module. -/
theorem Instruments.of_instrument {m m' : Module} {maximum interval : Nat}
    (h : instrument m maximum interval = some m') : Instruments m m' maximum interval := by
  simp only [instrument] at h
  split at h
  case isFalse => cases h
  case isTrue hacc =>
    simp only [Option.bind_eq_bind, Option.bind_eq_some_iff] at h
    obtain ⟨memory, hmem, funcs, hfuncs, hm⟩ := h
    cases Option.some.inj hm
    exact {
      accepted := hacc
      memory := ⟨memory, hmem, rfl⟩
      funcs := ⟨funcs, hfuncs, rfl⟩
      types := rfl
      imports := rfl
      tables := rfl
      tags := rfl
      globals := rfl
      exports := rfl
      start := rfl
      elems := rfl
      datas := rfl }

section

variable {m m' : Module} {maximum interval : Nat}

@[simp] theorem contextOf_importedFunctions :
    (contextOf m interval).importedFunctions = m.importedFunctions.length := rfl

@[simp] theorem contextOf_definedFunctions :
    (contextOf m interval).definedFunctions = m.funcs.length := rfl

@[simp] theorem contextOf_counter :
    (contextOf m interval).counter = m.importedGlobals.length + m.globals.length := rfl

@[simp] theorem contextOf_interval : (contextOf m interval).interval = interval := rfl

@[simp] theorem contextOf_exitFunction :
    (contextOf m interval).exitFunction = exitFunction m := rfl

/-- A thunk calls an import. -/
theorem lt_of_mem_thunkImports {f : Nat} (h : f ∈ (contextOf m interval).thunkImports) :
    f < m.importedFunctions.length := by
  simp only [contextOf] at h
  split at h
  · cases h
  · exact (mem_escaping.mp h).1

namespace Instruments

variable (hi : Instruments m m' maximum interval)

include hi

/-- One more import, after those of the original. -/
theorem importedFunctions :
    m'.importedFunctions = m.importedFunctions ++ [(interruptImport, m.types.length)] := by
  simp [Module.importedFunctions, hi.imports, ImportDesc.func?]

theorem length_importedFunctions :
    m'.importedFunctions.length = m.importedFunctions.length + 1 := by
  rw [hi.importedFunctions, List.length_append, List.length_singleton]

theorem importedGlobals : m'.importedGlobals = m.importedGlobals := by
  simp [Module.importedGlobals, hi.imports, ImportDesc.global?]

theorem importedMemories : m'.importedMemories = m.importedMemories := by
  simp [Module.importedMemories, hi.imports, ImportDesc.memory?]

theorem importedTables : m'.importedTables = m.importedTables := by
  simp [Module.importedTables, hi.imports, ImportDesc.table?]

theorem importedTags : m'.importedTags = m.importedTags := by
  simp [Module.importedTags, hi.imports, ImportDesc.tag?]

theorem tagTypes : m'.tagTypes = m.tagTypes := by
  simp [Module.tagTypes, hi.importedTags, hi.tags]

theorem tableTypes : m'.tableTypes = m.tableTypes := by
  simp [Module.tableTypes, hi.importedTables, hi.tables]

/-- One more global, the countdown. -/
theorem globalTypes : m'.globalTypes = m.globalTypes ++ [⟨.i32, true⟩] := by
  simp [Module.globalTypes, hi.importedGlobals, hi.globals, Function.comp_def]

/-- No original type index is shadowed by the added type. -/
theorem types_get {i : Nat} (h : i < m.types.length) : m'.types[i]? = m.types[i]? := by
  rw [hi.types, List.getElem?_append_left h]

/-- A block type the original can name stands for the same function type. -/
theorem blockType? {bt : BlockType} (h : ∀ index, bt = .type index → index < m.types.length) :
    m'.blockType? bt = m.blockType? bt := by
  cases bt with
  | empty | value type => rfl
  | type index => exact hi.types_get (h index rfl)

/-- The thunks come after the rewritten functions. -/
theorem length_funcs :
    m'.funcs.length = m.funcs.length + (contextOf m interval).thunkImports.length := by
  obtain ⟨funcs, hf, hm⟩ := hi.funcs
  rw [hm, List.length_append, mapM_length hf, thunks, List.length_map]

/-- The rewritten body of a defined function. -/
theorem funcs_get {i : Nat} {f : Func} (h : m.funcs[i]? = some f) :
    ∃ f', functionBody (contextOf m interval) (paramCount m f.type) f = some f' ∧
      m'.funcs[i]? = some f' := by
  obtain ⟨funcs, hf, hm⟩ := hi.funcs
  have hlen : i < funcs.length := by
    rw [mapM_length hf]
    exact (List.getElem?_eq_some_iff.mp h).1
  have hget := mapM_getElem? hf i
  rw [h, Option.bind_some, List.getElem?_eq_getElem hlen] at hget
  refine ⟨funcs[i], hget.symm, ?_⟩
  rw [hm, List.getElem?_append_left hlen, List.getElem?_eq_getElem hlen]

/-- The thunk of an escaping import. -/
theorem funcs_thunk {f : Nat} (h : f ∈ (contextOf m interval).thunkImports) :
    m'.funcs[m.funcs.length + (contextOf m interval).thunkImports.idxOf f]? =
      some (thunkBody (contextOf m interval) ((m.funcTypes[f]?).getD 0)
        (paramCount m ((m.funcTypes[f]?).getD 0)) f) := by
  obtain ⟨funcs, hf, hm⟩ := hi.funcs
  have hlen := mapM_length hf
  rw [hm, List.getElem?_append_right (by omega), hlen, Nat.add_sub_cancel_left, thunks,
    List.getElem?_map, List.getElem?_idxOf h]
  rfl

/-- The interval fits in a positive `i32`. -/
theorem accepted_interval : 1 ≤ interval ∧ interval ≤ 2 ^ 31 - 1 := by
  have := hi.accepted
  simp only [Rewriter.accepted, Bool.and_eq_true, decide_eq_true_eq] at this
  exact this.1.1.1

/-- Types are in range, as the original was accepted. -/
theorem importType_lt {f t : Nat} {name : ImportName}
    (h : m.importedFunctions[f]? = some (name, t)) : t < m.types.length := by
  have := hi.accepted
  simp only [Rewriter.accepted, Bool.and_eq_true, List.all_eq_true, decide_eq_true_eq] at this
  exact this.1.1.2 _ (List.mem_of_getElem? h)

theorem funcType_lt {i : Nat} {f : Func} (h : m.funcs[i]? = some f) : f.type < m.types.length := by
  have := hi.accepted
  simp only [Rewriter.accepted, Bool.and_eq_true, List.all_eq_true, decide_eq_true_eq] at this
  exact this.1.2 _ (List.mem_of_getElem? h)

/-- The type indices of the instrumented module's functions: the interrupt function
comes between the imports and the definitions, the thunks last. -/
theorem funcTypes : m'.funcTypes = m.importedFunctions.map (·.2) ++ m.types.length ::
    (m.funcs.map (·.type) ++
      (contextOf m interval).thunkImports.map fun f => (m.funcTypes[f]?).getD 0) := by
  obtain ⟨funcs, hf, hm⟩ := hi.funcs
  have htypes : funcs.map (·.type) = m.funcs.map (·.type) :=
    mapM_map (fun f f' h => (functionBody_eq h).1 ▸ rfl) hf
  have happ : (funcs ++ thunks (contextOf m interval) m).map (·.type) =
      m.funcs.map (·.type) ++ (thunks (contextOf m interval) m).map (·.type) := by
    rw [List.map_append, htypes]
  rw [Module.funcTypes, hi.importedFunctions, hm, happ]
  simp [thunks, thunkBody, Function.comp_def]

theorem funcTypes_lt {f t : Nat} (h : m.funcTypes[f]? = some t) : t < m.types.length := by
  rcases List.mem_append.mp (List.mem_of_getElem? h) with h | h
  · obtain ⟨p, hp, rfl⟩ := List.mem_map.mp h
    obtain ⟨i, hp⟩ := List.getElem?_of_mem hp
    exact hi.importType_lt hp
  · obtain ⟨f, hf, rfl⟩ := List.mem_map.mp h
    obtain ⟨i, hf⟩ := List.getElem?_of_mem hf
    exact hi.funcType_lt hf

/-- An import called directly keeps its type. -/
theorem funcTypes_import {f : Nat} (h : f < m.importedFunctions.length) :
    m'.funcTypes[f]? = m.funcTypes[f]? := by
  rw [hi.funcTypes, Module.funcTypes, List.getElem?_append_left (by simpa),
    List.getElem?_append_left (by simpa)]

/-- A function used as a value keeps its type. -/
theorem funcTypes_image (f : Nat) :
    m'.funcTypes[(contextOf m interval).image f]? = m.funcTypes[f]? := by
  have hlen : (m.importedFunctions.map (·.2)).length = m.importedFunctions.length := by simp
  by_cases hin : f < m.importedFunctions.length + m.funcs.length
  · by_cases hdef : m.importedFunctions.length ≤ f
    · obtain ⟨k, rfl⟩ := Nat.exists_eq_add_of_le hdef
      rw [Context.image_defined _ hdef hin, hi.funcTypes, Module.funcTypes,
        List.getElem?_append_right (by omega), List.getElem?_append_right (by omega), hlen,
        show m.importedFunctions.length + k + 1 - m.importedFunctions.length = k + 1 by omega,
        List.getElem?_cons_succ, List.getElem?_append_left (by simp; omega),
        Nat.add_sub_cancel_left]
    · cases ht : (contextOf m interval).thunkOf f with
      | none =>
          rw [Context.image_import _ (Nat.not_le.mp hdef) ht]
          exact hi.funcTypes_import (Nat.not_le.mp hdef)
      | some t =>
          rw [Context.image_thunk _ (Nat.not_le.mp hdef) ht]
          obtain ⟨hmem, rfl⟩ := (Context.thunkOf_eq_some _).mp ht
          have hsome : f < m.funcTypes.length := by simp [Module.funcTypes]; omega
          rw [hi.funcTypes, List.getElem?_append_right (by simp; omega), hlen]
          simp only [contextOf_importedFunctions, contextOf_definedFunctions]
          rw [show m.importedFunctions.length + 1 + m.funcs.length +
              (contextOf m interval).thunkImports.idxOf f - m.importedFunctions.length =
            m.funcs.length + (contextOf m interval).thunkImports.idxOf f + 1 by omega,
            List.getElem?_cons_succ, List.getElem?_append_right (by simp), List.length_map,
            Nat.add_sub_cancel_left, List.getElem?_map, List.getElem?_idxOf hmem,
            Option.map_some, List.getElem?_eq_getElem hsome, Option.getD_some]
  · have hout := Nat.not_lt.mp hin
    rw [Context.image_out _ hout, hi.funcTypes, List.getElem?_eq_none, List.getElem?_eq_none]
    · simp only [Module.funcTypes, List.length_append, List.length_map]
      omega
    · simp only [List.length_append, List.length_map, List.length_cons]
      omega

/-- The types of the original are the first of the output. -/
theorem funcType?_of_funcTypes {f g : Nat} (h : m'.funcTypes[g]? = m.funcTypes[f]?) :
    m'.funcType? g = m.funcType? f := by
  rw [Module.funcType?, Module.funcType?, h]
  cases hf : m.funcTypes[f]? with
  | none => rfl
  | some t => exact hi.types_get (hi.funcTypes_lt hf)

/-- The added type is none of the original's, as an engine compares them. -/
theorem sameType {i j : Nat} (hi' : i < m.types.length) (hj : j < m.types.length) :
    m'.sameType i j = m.sameType i j := by
  have key : ∀ fuel i j, i < m.types.length → j < m.types.length →
      Wasm.sameType m'.types fuel i j = Wasm.sameType m.types fuel i j := by
    intro fuel
    induction fuel with
    | zero => intro i j _ _; rfl
    | succ fuel ih =>
        intro i j hi' hj
        have hrec : (fun a b => (a == i && b == j) ||
            (a < i && b < j && Wasm.sameType m'.types fuel a b)) = fun a b =>
            (a == i && b == j) || (a < i && b < j && Wasm.sameType m.types fuel a b) := by
          funext a b
          by_cases hab : a < i ∧ b < j
          · rw [ih a b (by omega) (by omega)]
          · simp only [not_and_or] at hab
            rcases hab with h | h <;> simp [h]
        rw [Wasm.sameType, Wasm.sameType, hi.types_get hi', hi.types_get hj, hrec]
  exact key (i + 1) i j hi' hj

/-- The original exports no countdown. -/
theorem countdown?_original : m.countdown? = none := by
  have := hi.accepted
  simp only [Rewriter.accepted, Bool.and_eq_true, List.all_eq_true] at this
  rw [Module.countdown?, Option.map_eq_none_iff, List.find?_eq_none]
  intro e he hc
  have hname := this.2 e he
  rw [Bool.and_eq_true, beq_iff_eq] at hc
  rw [hc.1, decodeText_countdownExport] at hname
  simp at hname

/-- The instrumented module exports the added global as its countdown. -/
theorem countdown? : m'.countdown? = some (contextOf m interval).counter := by
  have hnone := hi.countdown?_original
  rw [Module.countdown?, Option.map_eq_none_iff, List.find?_eq_none] at hnone
  rw [Module.countdown?, hi.exports, List.find?_append, List.find?_eq_none.mpr]
  · simp
  · intro e he
    obtain ⟨e₀, he₀, rfl⟩ := List.mem_map.mp he
    have := hnone e₀ he₀
    split <;> simp_all

end Instruments

end

end Rewriter
