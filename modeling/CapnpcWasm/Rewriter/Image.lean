import CapnpcWasm.Rewriter.Scan

/-!
# The image of a store

An instance of the instrumented module differs from one of the original in six
ways: its functions are renumbered, its memory has a lower maximum, and it has one
more global, possibly one more segment and one more local, and other code.  This file
says what the first five do to a store and to the instructions that stay in their
frame: such an instruction run on the image has the image of the result.

`memory.grow` is the exception.  It agrees only while the memory stays below the
lowered maximum, which is a hypothesis of every later statement.

Each operation of the store has a lemma of one shape: running it on `δ.store cd st` is
running it on `st` and mapping the result (`memoryFill_store`, `tableCopy_store` and the
others).  `execLocal_localState` is then one case per instruction, where `Res.bind_comm`
takes the change through the operands that are popped.
-/

namespace Rewriter

open Wasm

/-- How the instance changes: the renumbering, the index of the bounded memory, its
bound, and how many segments are added. -/
structure Change where
  rename : Nat → Nat
  memory : Nat
  maximum : Nat
  segments : Nat

/-- The locals, globals and segments an instruction names are there in the original. -/
def indexed (locals globals elems : Nat) : Instr → Prop
  | .local_get x | .local_set x | .local_tee x => x < locals
  | .global_get x | .global_set x => x < globals
  | .table_init e _ | .elem_drop e => e < elems
  | _ => True

namespace Change

variable (δ : Change)

/-! ## Stores -/

/-- A memory whose maximum is lowered. -/
def lower (mem : Mem) : Mem := { mem with max := some (min δ.maximum (mem.max.getD 65536)) }

/-- The store of the instrumented instance, its countdown at `countdown`. -/
def store (countdown : BitVec 32) (st : Store) : Store where
  mems := st.mems.modify δ.memory δ.lower
  tables := st.tables.map (Table.rename δ.rename)
  globals := st.globals.map (Val.rename δ.rename) ++ [.i32 countdown]
  elems := st.elems.map (List.map (Ref.rename δ.rename)) ++ List.replicate δ.segments []
  datas := st.datas
  tags := st.tags
  exns := st.exns.map (Exn.rename δ.rename)

/-- What a local instruction sees of it, `extra` being the added local. -/
def localState (countdown : BitVec 32) (extra : List Val) (s : Local) : Local where
  store := δ.store countdown s.store
  locals := s.locals.map (Val.rename δ.rename) ++ extra
  stack := s.stack.map (Val.rename δ.rename)

/-- The countdown tells nothing about the store of the original. -/
theorem store_congr {cd₁ cd₂ : BitVec 32} {st₁ st₂ : Store}
    (h : δ.store cd₁ st₁ = δ.store cd₂ st₂) (cd : BitVec 32) :
    δ.store cd st₁ = δ.store cd st₂ := by
  simp only [store, Store.mk.injEq] at h ⊢
  obtain ⟨hmems, htables, hglobals, helems, hdatas, htags, hexns⟩ := h
  have hinit := (List.append_inj' hglobals rfl).1
  exact ⟨hmems, htables, by rw [hinit], helems, hdatas, htags, hexns⟩

/-! ## Memories -/

/-- A memory of the image is the memory with its maximum lowered, if it is the bounded one. -/
theorem store_mems_get (cd : BitVec 32) (st : Store) (i : Nat) :
    (δ.store cd st).mems[i]? =
      st.mems[i]?.map fun mem => if δ.memory = i then δ.lower mem else mem := by
  simp only [store, List.getElem?_modify]
  split <;> simp_all

/-- The contents are untouched. -/
theorem bytes_lower (i : Nat) (mem : Mem) :
    (if δ.memory = i then δ.lower mem else mem).bytes = mem.bytes := by
  split <;> rfl

theorem pages_lower (i : Nat) (mem : Mem) :
    (if δ.memory = i then δ.lower mem else mem).pages = mem.pages := by
  rw [Mem.pages, bytes_lower, Mem.pages]

@[simp] theorem store_bytes (cd : BitVec 32) (st : Store) : (δ.store cd st).bytes = st.bytes := by
  apply List.ext_getElem?
  intro i
  simp only [Store.bytes, List.getElem?_map, store_mems_get, Option.map_map]
  congr 1
  funext mem
  exact bytes_lower δ i mem

/-- Writing and changing commute, since the maximum is not written. -/
theorem store_setMem (cd : BitVec 32) (st : Store) (i : Nat) (bytes : List UInt8) :
    (δ.store cd st).setMem i bytes = δ.store cd (st.setMem i bytes) := by
  have h : ((st.mems.modify δ.memory δ.lower).modify i fun mem => { mem with bytes }) =
      (st.mems.modify i fun mem => { mem with bytes }).modify δ.memory δ.lower := by
    apply List.ext_getElem?
    intro j
    simp only [List.getElem?_modify, Option.map_eq_map, Option.map_map, Function.comp_def]
    congr 1
    funext mem
    split <;> split <;> rfl
  simp only [Store.setMem, store, h]

theorem store_setBytes (cd : BitVec 32) (st : Store) (new : List (List UInt8)) :
    (δ.store cd st).setBytes new = δ.store cd (st.setBytes new) := by
  have h : (st.mems.modify δ.memory δ.lower).zipWith (fun mem bytes => { mem with bytes })
        (overwrite st.bytes new) =
      (st.mems.zipWith (fun mem bytes => { mem with bytes }) (overwrite st.bytes new)).modify
        δ.memory δ.lower := by
    apply List.ext_getElem?
    intro j
    simp only [List.getElem?_zipWith, List.getElem?_modify]
    cases st.mems[j]? with
    | none => simp
    | some mem =>
        cases (overwrite st.bytes new)[j]? with
        | none => simp
        | some bytes =>
            simp only [Option.map_eq_map, Option.map_some]
            split <;> rfl
  simp only [Store.setBytes, store_bytes]
  simp only [store, h]

/-- The bulk operations look at bytes only, so they trap on the same operands. -/
theorem memoryFill_store (cd : BitVec 32) (st : Store) (i : Nat) (d v n : BitVec 32) :
    (δ.store cd st).memoryFill i d v n = (st.memoryFill i d v n).map (δ.store cd) := by
  simp only [Store.memoryFill, store_mems_get]
  cases st.mems[i]? with
  | none => rfl
  | some mem =>
      simp only [Option.map_some, bytes_lower]
      cases splice mem.bytes (List.replicate n.toNat (UInt8.ofNat v.toNat)) d.toNat with
      | none => rfl
      | some bytes => exact congrArg Res.ok (store_setMem δ cd st i bytes)

theorem memoryCopy_store (cd : BitVec 32) (st : Store) (i j : Nat) (d s n : BitVec 32) :
    (δ.store cd st).memoryCopy i j d s n = (st.memoryCopy i j d s n).map (δ.store cd) := by
  simp only [Store.memoryCopy, store_mems_get]
  cases st.mems[i]? with
  | none => rfl
  | some mem =>
      cases st.mems[j]? with
      | none => rfl
      | some from_ =>
          simp only [Option.map_some, bytes_lower]
          cases (slice from_.bytes s.toNat n.toNat).bind fun new =>
              splice mem.bytes new d.toNat with
          | none => rfl
          | some bytes => exact congrArg Res.ok (store_setMem δ cd st i bytes)

theorem memoryInit_store (cd : BitVec 32) (st : Store) (e i : Nat) (d s n : BitVec 32) :
    (δ.store cd st).memoryInit e i d s n = (st.memoryInit e i d s n).map (δ.store cd) := by
  have hd : (δ.store cd st).datas = st.datas := rfl
  simp only [Store.memoryInit, store_mems_get, hd]
  cases st.mems[i]? with
  | none => rfl
  | some mem =>
      cases st.datas[e]? with
      | none => rfl
      | some data =>
          simp only [Option.map_some, bytes_lower]
          cases (slice data s.toNat n.toNat).bind fun new => splice mem.bytes new d.toNat with
          | none => rfl
          | some bytes => exact congrArg Res.ok (store_setMem δ cd st i bytes)

/-- The bounded memory has at most `maximum` pages. -/
def Below (st : Store) : Prop :=
  ∀ mem, st.mems[δ.memory]? = some mem → mem.pages ≤ δ.maximum

/-- The size after a growth, in pages. -/
theorem pages_grow (bytes : List UInt8) (max : Option Nat) (n : Nat) :
    (Mem.mk (bytes ++ List.replicate (n * pageSize) 0) max).pages =
      (Mem.mk bytes max).pages + n := by
  simp only [Mem.pages, List.length_append, List.length_replicate]
  exact Nat.add_mul_div_right _ _ (by decide)

/-- `memory.grow` agrees when the memory it leaves is below the bound. -/
theorem memoryGrow_store (cd : BitVec 32) (st : Store) (i : Nat) (n : BitVec 32)
    (hb : ∀ st' v, st.memoryGrow i n = .ok (st', v) → δ.Below st') :
    (δ.store cd st).memoryGrow i n =
      (st.memoryGrow i n).map fun p => (δ.store cd p.1, p.2) := by
  simp only [Store.memoryGrow, store_mems_get] at hb ⊢
  cases hm : st.mems[i]? with
  | none => rfl
  | some mem =>
      simp only [hm, Option.map_some, pages_lower, bytes_lower] at hb ⊢
      by_cases hi : δ.memory = i
      -- the bounded memory: below the bound, both maxima allow the growth or neither does
      · by_cases hg : mem.pages + n.toNat ≤ min (mem.max.getD 65536) 65536
        · rw [if_pos hg] at hb ⊢
          have hbelow := hb _ _ rfl ⟨mem.bytes ++ List.replicate (n.toNat * pageSize) 0, mem.max⟩
            (by simp [Store.setMem, hi, hm])
          rw [pages_grow] at hbelow
          change mem.pages + n.toNat ≤ δ.maximum at hbelow
          rw [if_pos hi, if_pos (by simp only [lower, Option.getD_some]; omega)]
          exact congrArg (fun s => Res.ok (s, _)) (store_setMem δ cd st i _)
        · rw [if_neg hg, if_pos hi, if_neg (by simp only [lower, Option.getD_some]; omega)]
          rfl
      -- any other memory has the maximum it had
      · rw [if_neg hi]
        split
        · exact congrArg (fun s => Res.ok (s, _)) (store_setMem δ cd st i _)
        · rfl

/-! ## Tables -/

/-- A table of the image has the renumbered references. -/
theorem store_tables_get (cd : BitVec 32) (st : Store) (t : Nat) :
    (δ.store cd st).tables[t]? = st.tables[t]?.map (Table.rename δ.rename) := by
  simp [store]

/-- Tables are written with renumbered entries. -/
theorem store_setTable (cd : BitVec 32) (st : Store) (t : Nat) (elems : List Ref) :
    (δ.store cd st).setTable t (elems.map (Ref.rename δ.rename)) =
      δ.store cd (st.setTable t elems) := by
  have h : ((st.tables.map (Table.rename δ.rename)).modify t fun table =>
        { table with elems := elems.map (Ref.rename δ.rename) }) =
      (st.tables.modify t fun table => { table with elems }).map (Table.rename δ.rename) := by
    apply List.ext_getElem?
    intro j
    simp only [List.getElem?_modify, List.getElem?_map]
    cases st.tables[j]? with
    | none => simp
    | some table =>
        simp only [Option.map_some, Option.map_eq_map, Option.some.injEq]
        split <;> rfl
  simp only [Store.setTable, store, h]

/-- What is read is renumbered. -/
theorem tableGet_store (cd : BitVec 32) (st : Store) (t : Nat) (i : BitVec 32) :
    (δ.store cd st).tableGet t i = (st.tableGet t i).map (Ref.rename δ.rename) := by
  simp only [Store.tableGet, store_tables_get]
  cases st.tables[t]? with
  | none => rfl
  | some table =>
      simp only [Option.map_some, Table.rename, List.getElem?_map]
      cases table.elems[i.toNat]? <;> rfl

theorem tableFill_store (cd : BitVec 32) (st : Store) (t : Nat) (d : BitVec 32) (r : Ref)
    (n : Nat) :
    (δ.store cd st).tableFill t d (r.rename δ.rename) n =
      (st.tableFill t d r n).map (δ.store cd) := by
  simp only [Store.tableFill, store_tables_get]
  cases st.tables[t]? with
  | none => rfl
  | some table =>
      simp only [Option.map_some, Table.rename, ← List.map_replicate, splice_map]
      cases splice table.elems (List.replicate n r) d.toNat with
      | none => rfl
      | some elems => exact congrArg Res.ok (store_setTable δ cd st t elems)

theorem tableGrow_store (cd : BitVec 32) (st : Store) (t : Nat) (r : Ref) (n : BitVec 32) :
    (δ.store cd st).tableGrow t (r.rename δ.rename) n =
      (st.tableGrow t r n).map fun p => (δ.store cd p.1, p.2) := by
  simp only [Store.tableGrow, store_tables_get]
  cases st.tables[t]? with
  | none => rfl
  | some table =>
      simp only [Option.map_some, Table.rename, List.length_map, ← List.map_replicate,
        ← List.map_append]
      split
      · exact congrArg (fun s => Res.ok (s, _)) (store_setTable δ cd st t _)
      · rfl

theorem tableCopy_store (cd : BitVec 32) (st : Store) (t u : Nat) (d s n : BitVec 32) :
    (δ.store cd st).tableCopy t u d s n = (st.tableCopy t u d s n).map (δ.store cd) := by
  simp only [Store.tableCopy, store_tables_get]
  cases st.tables[t]? with
  | none => rfl
  | some table =>
      cases st.tables[u]? with
      | none => rfl
      | some from_ =>
          simp only [Option.map_some, Table.rename, slice_map]
          cases slice from_.elems s.toNat n.toNat with
          | none => rfl
          | some new =>
              simp only [Option.map_some, Option.bind_some, splice_map]
              cases splice table.elems new d.toNat with
              | none => rfl
              | some elems => exact congrArg Res.ok (store_setTable δ cd st t elems)

/-- A segment of the original is where it was, since the added one comes last. -/
theorem tableInit_store (cd : BitVec 32) (st : Store) {e : Nat} (hlt : e < st.elems.length)
    (t : Nat) (d s n : BitVec 32) :
    (δ.store cd st).tableInit e t d s n = (st.tableInit e t d s n).map (δ.store cd) := by
  have he : (δ.store cd st).elems[e]? = st.elems[e]?.map (List.map (Ref.rename δ.rename)) := by
    simp [store, List.getElem?_append_left, hlt]
  simp only [Store.tableInit, store_tables_get, he]
  cases st.tables[t]? with
  | none => rfl
  | some table =>
      cases st.elems[e]? with
      | none => rfl
      | some elem =>
          simp only [Option.map_some, Table.rename, slice_map]
          cases slice elem s.toNat n.toNat with
          | none => rfl
          | some new =>
              simp only [Option.map_some, Option.bind_some, splice_map]
              cases splice table.elems new d.toNat with
              | none => rfl
              | some elems => exact congrArg Res.ok (store_setTable δ cd st t elems)

/-! ## Instructions that stay in their frame -/

/-- A global of the original is where it was: the countdown comes last. -/
theorem globals_store_get (cd : BitVec 32) (st : Store) {x : Nat} (h : x < st.globals.length) :
    (δ.store cd st).globals[x]? = st.globals[x]?.map (Val.rename δ.rename) := by
  simp [store, List.getElem?_append_left, h]

/-- So is a local: the scratch local comes last. -/
theorem locals_get (extra : List Val) (locals : List Val) {x : Nat} (h : x < locals.length) :
    (locals.map (Val.rename δ.rename) ++ extra)[x]? =
      locals[x]?.map (Val.rename δ.rename) := by
  simp [List.getElem?_append_left, h]

theorem locals_set (extra : List Val) (locals : List Val) {x : Nat} (h : x < locals.length)
    (v : Val) :
    (locals.map (Val.rename δ.rename) ++ extra).set x (v.rename δ.rename) =
      (locals.set x v).map (Val.rename δ.rename) ++ extra := by
  rw [List.set_append_left _ _ (by simpa using h), List.map_set]

theorem Res.ofStuck_map {α β : Type} (f : α → β) (x : Option α) :
    Res.ofStuck (x.map f) = (Res.ofStuck x).map f := by
  cases x <;> rfl

/-- A local instruction run on the changed state has the changed result. -/
theorem execLocal_localState (P : Prims) (cd : BitVec 32) (extra : List Val) (i : Instr)
    (s : Local) 
    (hi : indexed s.locals.length s.store.globals.length s.store.elems.length i)
    (hf : ∀ f, i ≠ .ref_func f) (hb : ∀ s', execLocal P i s = .ok s' → δ.Below s'.store) :
    execLocal P i (δ.localState cd extra s) =
      (execLocal P i s).map (δ.localState cd extra) := by
  obtain ⟨st, locals, stack⟩ := s
  cases i
  case nop => rfl
  case drop =>
    simp only [execLocal, localState, popVal_rename]
    exact Res.bind_comm fun p => rfl
  case select =>
    simp only [execLocal, localState, popI32_rename]
    refine Res.bind_comm fun p => ?_
    simp only [popVal_rename]
    refine Res.bind_comm fun q => ?_
    simp only [popVal_rename]
    refine Res.bind_comm fun r => ?_
    split <;> rfl
  case local_get x =>
    simp only [execLocal, localState, locals_get δ extra locals hi, Res.ofStuck_map, Res.map_map]
    rfl
  case local_set x =>
    simp only [execLocal, localState, popVal_rename]
    refine Res.bind_comm fun p => ?_
    simp only [indexed] at hi
    simp only [locals_set δ extra locals hi, if_pos hi]
    rw [if_pos (by simp; omega)]
    rfl
  case select_typed ts =>
    simp only [execLocal, localState, popI32_rename]
    refine Res.bind_comm fun p => ?_
    simp only [popVal_rename]
    refine Res.bind_comm fun q => ?_
    simp only [popVal_rename]
    refine Res.bind_comm fun r => ?_
    split <;> rfl
  case local_tee x =>
    simp only [execLocal, localState, popVal_rename]
    refine Res.bind_comm fun p => ?_
    simp only [indexed] at hi
    simp only [locals_set δ extra locals hi, if_pos hi]
    rw [if_pos (by simp; omega)]
    rfl
  case global_get x =>
    simp only [execLocal, localState, globals_store_get δ cd st hi, Res.ofStuck_map, Res.map_map]
    rfl
  case global_set x =>
    simp only [execLocal, localState, popVal_rename]
    refine Res.bind_comm fun p => ?_
    simp only [indexed] at hi
    simp only [store, locals_set δ _ st.globals hi, if_pos hi]
    rw [if_pos (by simp; omega)]
    rfl
  case table_get t =>
    simp only [execLocal, localState, popI32_rename]
    refine Res.bind_comm fun p => ?_
    simp only [tableGet_store]
    exact Res.bind_comm fun r => rfl
  case table_set t =>
    simp only [execLocal, localState, popRef_rename]
    refine Res.bind_comm fun p => ?_
    simp only [popI32_rename]
    refine Res.bind_comm fun q => ?_
    simp only [tableFill_store]
    exact Res.bind_comm fun st => rfl
  case table_size t =>
    simp only [execLocal, localState, store_tables_get, Res.ofStuck_map, Res.map_map]
    cases st.tables[t]? with
    | none => rfl
    | some table => simp [Res.ofStuck, Res.map, Table.rename, Local.push, localState]
  case table_grow t =>
    simp only [execLocal, localState, popI32_rename]
    refine Res.bind_comm fun p => ?_
    simp only [popRef_rename]
    refine Res.bind_comm fun q => ?_
    simp only [tableGrow_store]
    exact Res.bind_comm fun r => rfl
  case table_fill t =>
    simp only [execLocal, localState, popI32_rename]
    refine Res.bind_comm fun p => ?_
    simp only [popRef_rename]
    refine Res.bind_comm fun q => ?_
    simp only [popI32_rename]
    refine Res.bind_comm fun r => ?_
    simp only [tableFill_store]
    exact Res.bind_comm fun st => rfl
  case table_copy t u =>
    simp only [execLocal, localState, popBulk_rename]
    refine Res.bind_comm fun p => ?_
    simp only [tableCopy_store]
    exact Res.bind_comm fun st => rfl
  case table_init e t =>
    simp only [execLocal, localState, popBulk_rename]
    refine Res.bind_comm fun p => ?_
    simp only [tableInit_store δ cd st hi]
    exact Res.bind_comm fun st => rfl
  case elem_drop e =>
    have hlt : e < st.elems.length := hi
    have hlen : e < (δ.store cd st).elems.length := by
      simp only [store, List.length_append, List.length_map]
      omega
    have hset : (δ.store cd st).elems.set e [] =
        (st.elems.set e []).map (List.map (Ref.rename δ.rename)) ++
          List.replicate δ.segments [] := by
      simp only [store]
      rw [List.set_append_left _ _ (by simpa using hlt), List.map_set, List.map_nil]
    simp only [execLocal, localState, if_pos hlen, if_pos hlt, hset]
    rfl
  case memory_size k =>
    simp only [execLocal, localState, store_mems_get, Res.ofStuck_map, Res.map_map]
    cases st.mems[k]? with
    | none => rfl
    | some mem => simp [Res.ofStuck, Res.map, pages_lower, Local.push, localState]
  case memory_grow k =>
    simp only [execLocal, localState, popI32_rename]
    refine Res.bind_comm' fun p hp => ?_
    have hgrow : ∀ st' v, st.memoryGrow k p.1 = .ok (st', v) → δ.Below st' := fun st' v hg =>
      hb ⟨st', locals, .i32 v :: p.2⟩ (by simp [execLocal, hp, hg, bind, Res.bind])
    simp only [memoryGrow_store δ cd st k p.1 hgrow]
    exact Res.bind_comm fun r => rfl
  case memory_fill k =>
    simp only [execLocal, localState, popBulk_rename]
    refine Res.bind_comm fun p => ?_
    simp only [memoryFill_store]
    exact Res.bind_comm fun st => rfl
  case memory_copy k l =>
    simp only [execLocal, localState, popBulk_rename]
    refine Res.bind_comm fun p => ?_
    simp only [memoryCopy_store]
    exact Res.bind_comm fun st => rfl
  case memory_init e k =>
    simp only [execLocal, localState, popBulk_rename]
    refine Res.bind_comm fun p => ?_
    simp only [memoryInit_store]
    exact Res.bind_comm fun st => rfl
  case data_drop d =>
    by_cases hd : d < st.datas.length
    · simp [execLocal, localState, store, hd, Res.map]
    · simp [execLocal, localState, store, hd, Res.map]
  case ref_null => rfl
  case ref_is_null =>
    simp only [execLocal, localState, popRef_rename]
    refine Res.bind_comm fun p => ?_
    simp only [Ref.rename_beq_null]
    rfl
  case ref_func f => exact absurd rfl (hf f)
  case ref_eq =>
    simp only [execLocal, localState, popRef_rename]
    refine Res.bind_comm fun p => ?_
    simp only [popRef_rename]
    refine Res.bind_comm fun q => ?_
    simp only [Ref.same_rename]
    cases p.1.same q.1 <;> rfl
  case ref_as_non_null =>
    simp only [execLocal, localState, popRef_rename]
    refine Res.bind_comm fun p => ?_
    simp only [Ref.rename_eq_null]
    split <;> rfl
  case i32_const c => rfl
  case plain op =>
    simp only [execLocal, localState, popNums_rename]
    refine Res.bind_comm fun p => ?_
    simp only [store_bytes]
    cases execPlain P op st.bytes p.1 with
    | trap | stuck => rfl
    | ok q =>
        simp only [bind, Res.bind, Res.map, store_setBytes, localState, List.map_append,
          List.map_reverse, Val.map_rename_num]
  all_goals rfl

end Change

end Rewriter
