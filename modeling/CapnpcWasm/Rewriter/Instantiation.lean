import CapnpcWasm.Rewriter.Worlds
import CapnpcWasm.Wasm.Values

/-!
# The first stores of the two instances

Instantiating the instrumented module gives the image of what instantiating the
original gives: the tables and globals hold thunks where the original holds imports,
the added segment is dropped at once, and the countdown starts at the interval.

The order is that of instantiation.  Constant expressions agree first (`constRun_rename`),
as long as they name what the original has (`ConstIndexed`).  Globals and element segments
are then rewritten expression by expression, and data segments are as they were.  The global
of the countdown and the declarative segment of the thunks come last, after everything the
original indexes.  `instantiate_store` joins these.
-/

namespace Rewriter

open Wasm

/-- The indices of a constant instruction exist, `globals` being how many globals it
can read. -/
def constNames (m : Module) (globals : Nat) : ConstInstr → Prop
  | .global_get x => x < globals
  | .ref_func f => f < m.funcTypes.length
  | _ => True

/-- The constant expressions of a module name what it has; an offset, being a number,
names no function. -/
structure ConstIndexed (m : Module) : Prop where
  globals : ∀ g ∈ m.globals, ∀ f, .ref_func f ∈ g.init → f < m.funcTypes.length
  elems : ∀ e ∈ m.elems, ∀ c ∈ e.init, ∀ i ∈ c, constNames m m.globalTypes.length i
  elemOffsets : ∀ e ∈ m.elems, ∀ t offset, e.mode = .active t offset →
    ∀ i ∈ offset, constNames m m.globalTypes.length i
  dataOffsets : ∀ d ∈ m.datas, ∀ k offset, d.mode = .active k offset →
    ∀ i ∈ offset, constNames m m.globalTypes.length i ∧ ∀ f, i ≠ .ref_func f

/-- The externs of the instrumented instance. -/
def renameExterns (ρ : Nat → Nat) (ext : Externs) : Externs where
  globals := ext.globals.map (Val.rename ρ)
  tables := ext.tables.map (Table.rename ρ)
  mems := ext.mems
  tags := ext.tags

section

variable {m m' : Module} {P : Prims} {maximum interval : Nat}

/-! ## Constant expressions -/

variable (m interval) in
/-- A list of globals and the same list in the instrumented instance, with what is
added to it. -/
abbrev globalsImage (globals extra : List Val) : List Val :=
  globals.map (Val.rename (contextOf m interval).image) ++ extra

/-- What a constant instruction may name. -/
def constOk (m : Module) (globals extra : List Val) (i : ConstInstr) : Prop :=
  (∀ f, i = .ref_func f → f < m.funcTypes.length) ∧
    (extra = [] ∨ ∀ x, i = .global_get x → x < globals.length)

variable {globals extra : List Val}

/-- One constant instruction: `ref.func` names the image, and a global is read from its image. -/
theorem constStep_rename {i : ConstInstr} (hi : constOk m globals extra i) (vs : List Val) :
    constStep P (globalsImage m interval globals extra) (constantInstr (contextOf m interval) i)
        (vs.map (Val.rename (contextOf m interval).image)) =
      (constStep P globals i vs).map (List.map (Val.rename (contextOf m interval).image)) := by
  cases i with
  | i32_const c => rfl
  | global_get x =>
      have hx : (globalsImage m interval globals extra)[x]? =
          globals[x]?.map (Val.rename (contextOf m interval).image) := by
        rcases hi.2 with rfl | hg
        · rw [globalsImage, List.append_nil, List.getElem?_map]
        · rw [globalsImage, List.getElem?_append_left (by simpa using hg x rfl),
            List.getElem?_map]
      simp only [constStep, constantInstr, hx]
      cases globals[x]? <;> rfl
  | ref_null t => rfl
  | ref_func f =>
      have hlt : f < (contextOf m interval).importedFunctions +
          (contextOf m interval).definedFunctions := by
        simpa [Module.funcTypes] using hi.1 f rfl
      simp only [constStep, constantInstr, Context.reference_eq_image _ hlt]
      rfl
  | plain op =>
      simp only [constStep, constantInstr, popNums_rename]
      refine Res.bind_comm fun p => ?_
      cases execPlain P op [] p.1 with
      | trap | stuck => rfl
      | ok q =>
          simp only [bind, Res.bind, Res.map, List.map_append, List.map_reverse,
            Val.map_rename_num]

/-- A constant expression, by induction on it. -/
theorem constRun_rename {e : ConstExpr} (he : ∀ i ∈ e, constOk m globals extra i) :
    ∀ vs : List Val,
      constRun P (globalsImage m interval globals extra) (constant (contextOf m interval) e)
          (vs.map (Val.rename (contextOf m interval).image)) =
        (constRun P globals e vs).map (List.map (Val.rename (contextOf m interval).image)) := by
  induction e with
  | nil => exact fun _ => rfl
  | cons i e ih =>
      intro vs
      rw [constant, List.map_cons, constRun, constRun,
        constStep_rename (he i List.mem_cons_self) vs]
      exact Res.bind_comm fun us => ih (fun j hj => he j (List.mem_cons_of_mem i hj)) us

/-- Its value. -/
theorem evalConst_rename {e : ConstExpr} (he : ∀ i ∈ e, constOk m globals extra i) :
    evalConst P (globalsImage m interval globals extra) (constant (contextOf m interval) e) =
      (evalConst P globals e).map (Val.rename (contextOf m interval).image) := by
  rw [evalConst, evalConst]
  have hrun : constRun P (globalsImage m interval globals extra)
      (constant (contextOf m interval) e) [] =
        (constRun P globals e []).map (List.map (Val.rename (contextOf m interval).image)) :=
    constRun_rename he []
  rw [hrun]
  refine Res.bind_comm fun vs => ?_
  match vs with
  | [] | [_] | _ :: _ :: _ => rfl

theorem evalRef_rename {e : ConstExpr} (he : ∀ i ∈ e, constOk m globals extra i) :
    evalRef P (globalsImage m interval globals extra) (constant (contextOf m interval) e) =
      (evalRef P globals e).map (Ref.rename (contextOf m interval).image) := by
  rw [evalRef, evalRef, evalConst_rename he]
  refine Res.bind_comm fun v => ?_
  cases v <;> rfl

/-- An offset is a number, and numbers are not renumbered. -/
theorem evalOffset_rename {e : ConstExpr} (he : ∀ i ∈ e, constOk m globals extra i) :
    evalOffset P (globalsImage m interval globals extra) (constant (contextOf m interval) e) =
      evalOffset P globals e := by
  rw [evalOffset, evalOffset, evalConst_rename he]
  cases evalConst P globals e with
  | trap | stuck => rfl
  | ok v =>
      cases v with
      | ref r => rfl
      | num x => cases x <;> rfl

/-- The references of an element segment. -/
theorem evalRefs_rename {es : List ConstExpr} (he : ∀ e ∈ es, ∀ i ∈ e, constOk m globals extra i) :
    evalRefs P (globalsImage m interval globals extra)
        (es.map (constant (contextOf m interval))) =
      (evalRefs P globals es).map (List.map (Ref.rename (contextOf m interval).image)) := by
  induction es with
  | nil => rfl
  | cons e es ih =>
      simp only [List.map_cons, evalRefs]
      rw [evalRef_rename (he e List.mem_cons_self)]
      refine Res.bind_comm fun r => ?_
      rw [ih fun e' hm => he e' (List.mem_cons_of_mem e hm)]
      exact Res.bind_comm fun rs => rfl

/-! ## Globals -/

/-- Each global reads those before it, so the induction is over any globals so far. -/
theorem initGlobals_rename {gs : List Global}
    (hg : ∀ g ∈ gs, ∀ f, .ref_func f ∈ g.init → f < m.funcTypes.length) :
    ∀ globals : List Val,
      initGlobals P (gs.map fun g => { g with init := constant (contextOf m interval) g.init })
          (globals.map (Val.rename (contextOf m interval).image)) =
        (initGlobals P gs globals).map (List.map (Val.rename (contextOf m interval).image)) := by
  induction gs with
  | nil => exact fun _ => rfl
  | cons g gs ih =>
      intro globals
      have hok : ∀ i ∈ g.init, constOk m globals [] i := fun i hi =>
        ⟨fun f hf => hg g List.mem_cons_self f (hf ▸ hi), .inl rfl⟩
      have heval : evalConst P (globals.map (Val.rename (contextOf m interval).image))
          (constant (contextOf m interval) g.init) =
            (evalConst P globals g.init).map (Val.rename (contextOf m interval).image) := by
        rw [← evalConst_rename hok, globalsImage, List.append_nil]
      simp only [List.map_cons, initGlobals, heval]
      refine Res.bind_comm fun v => ?_
      have happ : globals.map (Val.rename (contextOf m interval).image) ++
          [v.rename (contextOf m interval).image] =
          (globals ++ [v]).map (Val.rename (contextOf m interval).image) := by simp
      rw [happ]
      exact ih (fun g' hm => hg g' (List.mem_cons_of_mem g hm)) _

theorem initGlobals_append (gs gs' : List Global) (globals : List Val) :
    initGlobals P (gs ++ gs') globals = initGlobals P gs globals >>= initGlobals P gs' := by
  induction gs generalizing globals with
  | nil => rfl
  | cons g gs ih =>
      rw [List.cons_append, initGlobals, initGlobals]
      cases evalConst P globals g.init with
      | trap | stuck => rfl
      | ok v => exact ih _

/-! ## Segments -/

variable (δ : Change) (cd : BitVec 32)

/-- An active element segment writes to a table. -/
theorem writeTable_store (st : Store) (t : Nat) (d : BitVec 32) (rs : List Ref) :
    (δ.store cd st).writeTable t d (rs.map (Ref.rename δ.rename)) =
      (st.writeTable t d rs).map (δ.store cd) := by
  simp only [Store.writeTable, Change.store_tables_get]
  cases st.tables[t]? with
  | none => rfl
  | some table =>
      simp only [Option.map_some, Table.rename, splice_map]
      cases splice table.elems rs d.toNat with
      | none => rfl
      | some elems => exact congrArg Res.ok (Change.store_setTable δ cd st t elems)

/-- An active data segment writes to a memory. -/
theorem writeMem_store (st : Store) (i : Nat) (d : BitVec 32) (bytes : List UInt8) :
    (δ.store cd st).writeMem i d bytes = (st.writeMem i d bytes).map (δ.store cd) := by
  simp only [Store.writeMem, Change.store_mems_get]
  cases st.mems[i]? with
  | none => rfl
  | some mem =>
      simp only [Option.map_some, Change.bytes_lower]
      cases splice mem.bytes bytes d.toNat with
      | none => rfl
      | some bytes => exact congrArg Res.ok (Change.store_setMem δ cd st i bytes)

theorem writeTable_keeps {st st' : Store} {t : Nat} {d : BitVec 32} {rs : List Ref}
    (h : st.writeTable t d rs = .ok st') :
    st'.globals = st.globals ∧ st'.elems = st.elems := by
  simp only [Store.writeTable] at h
  split at h
  · cases h
  · obtain ⟨elems, _, rfl⟩ := Option.map_eq_some_iff.mp (Res.ofTrap_eq_ok.mp h)
    exact ⟨rfl, rfl⟩

theorem writeMem_keeps {st st' : Store} {i : Nat} {d : BitVec 32} {bytes : List UInt8}
    (h : st.writeMem i d bytes = .ok st') : st'.globals = st.globals ∧ st'.elems = st.elems := by
  simp only [Store.writeMem] at h
  split at h
  · cases h
  · obtain ⟨b, _, rfl⟩ := Option.map_eq_some_iff.mp (Res.ofTrap_eq_ok.mp h)
    exact ⟨rfl, rfl⟩

/-- The change, its segments still to come. -/
def Change.bare (δ : Change) : Change := { δ with segments := 0 }

variable {δ cd}

/-- A store with all the globals of the module has each one that an expression names. -/
theorem constOk_of_names {st : Store} (hlen : st.globals.length = m.globalTypes.length)
    {e : ConstExpr} (he : ∀ i ∈ e, constNames m m.globalTypes.length i) (extra : List Val) :
    ∀ i ∈ e, constOk m st.globals extra i := by
  intro i hi
  refine ⟨?_, .inr ?_⟩
  · rintro f rfl
    exact he _ hi
  · rintro x rfl
    rw [hlen]
    exact he _ hi

/-- An element segment, active, passive or declarative. -/
theorem initElem_store {e : Elem} {st : Store}
    (hlen : st.globals.length = m.globalTypes.length)
    (he : ∀ c ∈ e.init, ∀ i ∈ c, constNames m m.globalTypes.length i)
    (ho : ∀ t offset, e.mode = .active t offset →
      ∀ i ∈ offset, constNames m m.globalTypes.length i) :
    initElem P (rewriteElem (contextOf m interval) e)
        ((changeOf m maximum interval).bare.store cd st) =
      (initElem P e st).map ((changeOf m maximum interval).bare.store cd) := by
  have hglobals : ((changeOf m maximum interval).bare.store cd st).globals =
      globalsImage m interval st.globals [.i32 cd] := rfl
  have hpush : ∀ (st : Store) (rs : List Ref),
      { (changeOf m maximum interval).bare.store cd st with
        elems := ((changeOf m maximum interval).bare.store cd st).elems ++
          [rs.map (Ref.rename (contextOf m interval).image)] } =
      (changeOf m maximum interval).bare.store cd { st with elems := st.elems ++ [rs] } := by
    intro st rs
    simp [Change.store, Change.bare, changeOf]
  simp only [initElem, rewriteElem, hglobals]
  rw [evalRefs_rename fun c hc => constOk_of_names hlen (he c hc) [.i32 cd]]
  refine Res.bind_comm fun rs => ?_
  cases hmode : e.mode with
  | passive => exact congrArg Res.ok (hpush st rs)
  | declarative => exact congrArg Res.ok (hpush st [])
  | active t offset =>
      simp only
      rw [evalOffset_rename (constOk_of_names hlen (ho t offset hmode) [.i32 cd])]
      cases evalOffset P st.globals offset with
      | trap | stuck => rfl
      | ok d =>
          simp only [bind, Res.bind]
          have hw := writeTable_store (changeOf m maximum interval).bare cd st t d rs
          rw [show (changeOf m maximum interval).bare.rename = (contextOf m interval).image from
            rfl] at hw
          rw [hw]
          cases st.writeTable t d rs with
          | trap | stuck => rfl
          | ok st' => exact congrArg Res.ok (hpush st' [])

/-- A segment adds itself and touches no global. -/
theorem initElem_globals {e : Elem} {st st' : Store} (h : initElem P e st = .ok st') :
    st'.globals = st.globals ∧ st'.elems.length = st.elems.length + 1 := by
  rw [initElem, Res.bind_eq_ok] at h
  obtain ⟨rs, _, h⟩ := h
  split at h
  · cases h
    exact ⟨rfl, by simp⟩
  · cases h
    exact ⟨rfl, by simp⟩
  · simp only [Res.bind_eq_ok] at h
    obtain ⟨d, _, st₁, hst, h⟩ := h
    cases h
    obtain ⟨hg, he⟩ := writeTable_keeps hst
    exact ⟨hg, by simp [he]⟩

/-- All those of the original. -/
theorem initElems_store {es : List Elem} (he : ∀ e ∈ es, e ∈ m.elems) (hx : ConstIndexed m) :
    ∀ st : Store, st.globals.length = m.globalTypes.length →
      initElems P (es.map (rewriteElem (contextOf m interval)))
          ((changeOf m maximum interval).bare.store cd st) =
        (initElems P es st).map ((changeOf m maximum interval).bare.store cd) := by
  induction es with
  | nil => exact fun _ _ => rfl
  | cons e es ih =>
      intro st hlen
      have hmem := he e List.mem_cons_self
      rw [List.map_cons, initElems, initElems,
        initElem_store hlen (hx.elems e hmem) (hx.elemOffsets e hmem)]
      refine Res.bind_comm' fun st' hst => ?_
      exact ih (fun e' hm => he e' (List.mem_cons_of_mem e hm)) st'
        ((initElem_globals hst).1 ▸ hlen)

theorem initElems_append (es es' : List Elem) (st : Store) :
    initElems P (es ++ es') st = initElems P es st >>= initElems P es' := by
  induction es generalizing st with
  | nil => rfl
  | cons e es ih =>
      rw [List.cons_append, initElems, initElems]
      cases initElem P e st with
      | trap | stuck => rfl
      | ok st' => exact ih st'

theorem initElems_globals {es : List Elem} {st st' : Store} (h : initElems P es st = .ok st') :
    st'.globals = st.globals ∧ st'.elems.length = st.elems.length + es.length := by
  induction es generalizing st with
  | nil => cases h; exact ⟨rfl, rfl⟩
  | cons e es ih =>
      rw [initElems, Res.bind_eq_ok] at h
      obtain ⟨st₁, h₁, h⟩ := h
      obtain ⟨hg, hl⟩ := initElem_globals h₁
      obtain ⟨hg', hl'⟩ := ih h
      refine ⟨hg'.trans hg, ?_⟩
      rw [hl', hl, List.length_cons]
      omega

/-- The added segment declares its thunks and is dropped. -/
theorem initElems_declare (st : Store) :
    initElems P (declareThunks (contextOf m interval))
        ((changeOf m maximum interval).bare.store cd st) =
      .ok ((changeOf m maximum interval).store cd st) := by
  rw [declareThunks]
  split
  · next hempty =>
    have hseg : (changeOf m maximum interval).bare = changeOf m maximum interval := by
      simp [Change.bare, changeOf, declareThunks, hempty]
    rw [hseg]
    rfl
  · next hne =>
    have hrefs : ∀ (globals : List Val) (fs : List Nat),
        evalRefs P globals (fs.map fun f => [.ref_func ((contextOf m interval).reference f)]) =
          .ok (fs.map fun f => .func ((contextOf m interval).reference f)) := by
      intro globals fs
      induction fs with
      | nil => rfl
      | cons f fs ih =>
          simp only [List.map_cons, evalRefs, ih]
          rfl
    simp only [initElems, initElem, hrefs]
    have hseg : (changeOf m maximum interval).segments = 1 := by
      simp [changeOf, declareThunks, hne]
    have helems : ((changeOf m maximum interval).bare.store cd st).elems ++ [[]] =
        ((changeOf m maximum interval).store cd st).elems := by
      simp only [Change.store, hseg, Change.bare, List.append_assoc]
      rfl
    exact congrArg
      (fun e => Res.ok { (changeOf m maximum interval).store cd st with elems := e }) helems

/-- All data segments, whose bytes are the same. -/
theorem initDatas_store {ds : List Data} (hd : ∀ d ∈ ds, d ∈ m.datas) (hx : ConstIndexed m) :
    ∀ st : Store, st.globals.length = m.globalTypes.length →
      initDatas P ds ((changeOf m maximum interval).store cd st) =
        (initDatas P ds st).map ((changeOf m maximum interval).store cd) := by
  induction ds with
  | nil => exact fun _ _ => rfl
  | cons d ds ih =>
      intro st hlen
      have ih' := ih fun d' hm => hd d' (List.mem_cons_of_mem d hm)
      have hglobals : ((changeOf m maximum interval).store cd st).globals =
          globalsImage m interval st.globals [.i32 cd] := rfl
      simp only [initDatas, initData]
      cases hmode : d.mode with
      | passive =>
          exact ih' { st with datas := st.datas ++ [d.bytes] } hlen
      | active k offset =>
          have ho := hx.dataOffsets d (hd d List.mem_cons_self) k offset hmode
          have heval : evalOffset P ((changeOf m maximum interval).store cd st).globals offset =
              evalOffset P st.globals offset := by
            rw [hglobals, ← constant_self (contextOf m interval) fun i hi => (ho i hi).2,
              evalOffset_rename (constOk_of_names hlen (fun i hi => (ho i hi).1) [.i32 cd]),
              constant_self _ fun i hi => (ho i hi).2]
          simp only [heval]
          cases evalOffset P st.globals offset with
          | trap | stuck => rfl
          | ok n =>
              simp only [bind, Res.bind, writeMem_store]
              cases hst : st.writeMem k n d.bytes with
              | trap | stuck => rfl
              | ok st' =>
                  exact ih' { st' with datas := st'.datas ++ [[]] }
                    ((writeMem_keeps hst).1 ▸ hlen)

theorem initDatas_keeps {ds : List Data} {st st' : Store} (h : initDatas P ds st = .ok st') :
    st'.globals = st.globals ∧ st'.elems = st.elems := by
  induction ds generalizing st with
  | nil => cases h; exact ⟨rfl, rfl⟩
  | cons d ds ih =>
      rw [initDatas, Res.bind_eq_ok] at h
      obtain ⟨st₁, h₁, h⟩ := h
      have hrest := ih h
      rw [initData] at h₁
      split at h₁
      · cases h₁
        exact hrest
      · simp only [Res.bind_eq_ok] at h₁
        obtain ⟨n, _, st₂, hst, h₁⟩ := h₁
        cases h₁
        obtain ⟨hg, he⟩ := writeMem_keeps hst
        exact ⟨hrest.1.trans hg, hrest.2.trans he⟩

/-! ## The whole store -/

/-- A fresh table holds `null`, which is renumbered to itself. -/
theorem rename_ofType (ρ : Nat → Nat) (t : TableType) :
    (Table.ofType t).rename ρ = Table.ofType t := by
  simp [Table.ofType, Table.rename]

theorem modify_concat {α : Type} (f : α → α) (xs : List α) (x : α) :
    (xs ++ [x]).modify xs.length f = xs ++ [f x] := by
  induction xs with
  | nil => rfl
  | cons y xs ih =>
      rw [List.cons_append, List.length_cons, List.modify_succ_cons, ih, List.cons_append]

/-- The one defined memory is the one that is bounded. -/
theorem allocate_store (hi : Instruments m m' maximum interval) {ext : Externs}
    (hext : ext.Fits m) (globals : List Val) :
    m'.allocate (renameExterns (contextOf m interval).image ext)
        (globalsImage m interval globals [.i32 cd]) =
      (changeOf m maximum interval).bare.store cd (m.allocate ext globals) := by
  obtain ⟨limits', hb, hmem⟩ := hi.memory
  obtain ⟨limits, hlimits⟩ : ∃ limits, m.memories = [limits] := by
    match hl : m.memories with
    | [] => rw [hl] at hb; cases hb
    | [limits] => exact ⟨limits, rfl⟩
    | _ :: _ :: _ => rw [hl] at hb; cases hb
  have hlower : Mem.ofLimits limits' = (changeOf m maximum interval).lower (Mem.ofLimits limits) := by
    rw [hlimits, boundedMemory] at hb
    simp only [Option.ite_none_right_eq_some, Option.some.injEq] at hb
    obtain ⟨_, rfl⟩ := hb
    rfl
  have hmems : ext.mems ++ [Mem.ofLimits limits'] =
      (ext.mems ++ [Mem.ofLimits limits]).modify m.importedMemories.length
        (changeOf m maximum interval).lower := by
    rw [← hext.mems, modify_concat, hlower]
  simp only [Module.allocate, renameExterns, Change.store, Change.bare, hmem, hlimits, hi.tables,
    hi.tags, List.map_cons, List.map_nil, List.map_append, hmems, List.map_map]
  have htypes : (Table.rename (changeOf m maximum interval).rename ∘ Table.ofType) =
      Table.ofType := funext fun t => rename_ofType _ t
  rw [htypes]
  rfl

/-- Instantiating the instrumented module gives the image of the original's store, its
countdown at the interval. -/
theorem instantiate_store (hi : Instruments m m' maximum interval) (hx : ConstIndexed m)
    {ext : Externs} (hext : ext.Fits m) :
    m'.instantiate P (renameExterns (contextOf m interval).image ext) =
      (m.instantiate P ext).map ((changeOf m maximum interval).store (.ofNat 32 interval)) := by
  rw [Module.instantiate, Module.instantiate, hi.globals, hi.elems, hi.datas, initGlobals_append]
  have hglobals : initGlobals P (m.globals.map fun g =>
      { g with init := constant (contextOf m interval) g.init }) _ = _ :=
    initGlobals_rename hx.globals ext.globals
  rw [show (renameExterns (contextOf m interval).image ext).globals =
    ext.globals.map (Val.rename (contextOf m interval).image) from rfl, hglobals]
  cases hg : initGlobals P m.globals ext.globals with
  | trap | stuck => rfl
  | ok globals =>
      have hlen : globals.length = m.globalTypes.length := by
        rw [initGlobals_length hg, hext.globals]
        simp [Module.globalTypes]
      have hcountdown : (Res.map (List.map (Val.rename (contextOf m interval).image))
            (.ok globals) >>= initGlobals P [⟨⟨.i32, true⟩, [.i32_const (.ofNat 32 interval)]⟩]) =
          .ok (globalsImage m interval globals [.i32 (.ofNat 32 interval)]) := rfl
      have hst : (m.allocate ext globals).globals.length = m.globalTypes.length := hlen
      rw [hcountdown]
      simp only [bind, Res.bind]
      rw [allocate_store hi hext, initElems_append, initElems_store (fun _ he => he) hx _ hst]
      cases he : initElems P m.elems (m.allocate ext globals) with
      | trap | stuck => rfl
      | ok st =>
          have hst' : st.globals.length = m.globalTypes.length :=
            (initElems_globals he).1 ▸ hst
          simp only [Res.map, bind, Res.bind, initElems_declare]
          exact initDatas_store (fun _ hd => hd) hx st hst'

/-- The first store has a global and a segment for each of the module. -/
theorem instantiate_lengths {ext : Externs} (hext : ext.Fits m) {st : Store}
    (h : m.instantiate P ext = .ok st) :
    st.globals.length = m.globalTypes.length ∧ st.elems.length = m.elems.length := by
  simp only [Module.instantiate, Res.bind_eq_ok] at h
  obtain ⟨globals, hg, st₁, he, hd⟩ := h
  obtain ⟨hge, hle⟩ := initElems_globals he
  obtain ⟨hgd, hed⟩ := initDatas_keeps hd
  constructor
  · rw [hgd, hge]
    show globals.length = _
    rw [initGlobals_length hg, hext.globals]
    simp [Module.globalTypes]
  · rw [hed, hle]
    simp [Module.allocate]

end

end Rewriter
