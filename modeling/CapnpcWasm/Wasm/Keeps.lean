import CapnpcWasm.Wasm.Steps

/-!
# What local instructions keep

A local instruction writes to at most one memory, table, global, segment or local.
Every reference it leaves in the store, the locals or on the stack was there before,
except the one `ref.func` makes.

The instructions are sequences in `Res`, so the lemmas are inversions: from the result
of an operation on the store, which part of it changed and where what is there now comes
from.  `execLocal_leaves` puts them together by cases on the instruction.  The property
`Q` of references is any: later modules take it to be that no reference is to an import,
or that functions have been renumbered.
-/

namespace Wasm

/-! ## Results -/

/-- A sequence succeeds if both parts do. -/
theorem Res.bind_eq_ok {α β : Type} {x : Res α} {f : α → Res β} {b : β} :
    (x >>= f) = .ok b ↔ ∃ a, x = .ok a ∧ f a = .ok b := by
  cases x with
  | ok a => exact ⟨fun h => ⟨a, rfl, h⟩, fun ⟨_, ha, h⟩ => by cases ha; exact h⟩
  | trap | stuck => exact ⟨fun h => (by cases h), fun ⟨_, ha, _⟩ => by cases ha⟩

/-- A change of the result does not fail. -/
theorem Res.map_eq_ok {α β : Type} {x : Res α} {f : α → β} {b : β} :
    x.map f = .ok b ↔ ∃ a, x = .ok a ∧ f a = b := by
  cases x <;> simp [Res.map]

/-- Whatever the failure is, success is the same. -/
theorem Res.ofTrap_eq_ok {α : Type} {x : Option α} {a : α} : Res.ofTrap x = .ok a ↔ x = some a := by
  cases x <;> simp [Res.ofTrap]

/-- Turning a missing value into `stuck` changes no success. -/
theorem Res.ofStuck_eq_ok {α : Type} {x : Option α} {a : α} :
    Res.ofStuck x = .ok a ↔ x = some a := by
  cases x <;> simp [Res.ofStuck]

/-! ## Lists -/

/-- What a splice leaves was in one of the two. -/
theorem mem_of_splice {α : Type} {old new xs : List α} {n : Nat} (h : splice old new n = some xs)
    {x : α} (hx : x ∈ xs) : x ∈ old ∨ x ∈ new := by
  simp only [splice, Option.ite_none_right_eq_some, Option.some.injEq] at h
  obtain ⟨_, rfl⟩ := h
  rcases List.mem_append.mp hx with hx | hx
  · rcases List.mem_append.mp hx with hx | hx
    · exact .inl (List.mem_of_mem_take hx)
    · exact .inr hx
  · exact .inl (List.mem_of_mem_drop hx)

/-- What is cut out was there. -/
theorem mem_of_slice {α : Type} {old xs : List α} {i n : Nat} (h : slice old i n = some xs)
    {x : α} (hx : x ∈ xs) : x ∈ old := by
  simp only [slice, Option.ite_none_right_eq_some, Option.some.injEq] at h
  obtain ⟨_, rfl⟩ := h
  exact List.mem_of_mem_drop (List.mem_of_mem_take hx)

/-! ## References -/

/-- A value is no reference `Q` fails for. -/
def Val.All (Q : Ref → Prop) : Val → Prop
  | .num _ => True
  | .ref r => Q r

/-- Every reference a store holds has `Q`. -/
structure Store.All (Q : Ref → Prop) (st : Store) : Prop where
  tables : ∀ t ∈ st.tables, ∀ r ∈ t.elems, Q r
  globals : ∀ v ∈ st.globals, v.All Q
  elems : ∀ e ∈ st.elems, ∀ r ∈ e, Q r
  exns : ∀ e ∈ st.exns, ∀ v ∈ e.args, v.All Q

/-- What a local instruction makes of the store. -/
structure Store.Keeps (st st' : Store) : Prop where
  globals : st'.globals.length = st.globals.length
  elems : st'.elems.length = st.elems.length
  tags : st'.tags = st.tags
  exns : st'.exns = st.exns

/-- The order is reflexive. -/
theorem Store.Keeps.refl (st : Store) : st.Keeps st := ⟨rfl, rfl, rfl, rfl⟩

namespace Store

variable {Q : Ref → Prop} {st st' : Store}

/-- Bytes are no references, and a table keeps its place. -/
theorem setMem_keeps (st : Store) (i : Nat) (b : List UInt8) : st.Keeps (st.setMem i b) :=
  ⟨rfl, rfl, rfl, rfl⟩

/-- Only the entries of one table change. -/
theorem setTable_keeps (st : Store) (t : Nat) (elems : List Ref) :
    st.Keeps (st.setTable t elems) := ⟨rfl, rfl, rfl, rfl⟩

/-- Data segments are bytes. -/
theorem setBytes_keeps (st : Store) (b : List (List UInt8)) : st.Keeps (st.setBytes b) :=
  ⟨rfl, rfl, rfl, rfl⟩

/-- A property of all references, after each write. -/
theorem All.setMem (h : st.All Q) (i : Nat) (b : List UInt8) : (st.setMem i b).All Q :=
  ⟨h.tables, h.globals, h.elems, h.exns⟩

/-- Data segments hold none. -/
theorem All.setBytes (h : st.All Q) (b : List (List UInt8)) : (st.setBytes b).All Q :=
  ⟨h.tables, h.globals, h.elems, h.exns⟩

/-- The entries that are written have it. -/
theorem All.setTable (h : st.All Q) (t : Nat) {elems : List Ref} (he : ∀ r ∈ elems, Q r) :
    (st.setTable t elems).All Q := by
  refine ⟨fun table ht r hr => ?_, h.globals, h.elems, h.exns⟩
  obtain ⟨i, hi⟩ := List.getElem?_of_mem ht
  simp only [Store.setTable, List.getElem?_modify] at hi
  cases hget : st.tables[i]? with
  | none => simp [hget] at hi
  | some old =>
      simp only [hget, Option.map_eq_map, Option.map_some, Option.some.injEq] at hi
      split at hi
      · rw [← hi] at hr
        exact he r hr
      · rw [← hi] at hr
        exact h.tables old (List.mem_of_getElem? hget) r hr

/-- It holds of what is read from a table. -/
theorem All.table (h : st.All Q) {t : Nat} {table : Table} (ht : st.tables[t]? = some table) :
    ∀ r ∈ table.elems, Q r := h.tables table (List.mem_of_getElem? ht)

/-- It holds of what is read from a segment. -/
theorem All.elem (h : st.All Q) {e : Nat} {elem : List Ref} (he : st.elems[e]? = some elem) :
    ∀ r ∈ elem, Q r := h.elems elem (List.mem_of_getElem? he)

/-! ## Memories -/

/-- The memories: each operation writes bytes to one. -/
theorem memoryGrow_eq {i : Nat} {n old : BitVec 32} (h : st.memoryGrow i n = .ok (st', old)) :
    st' = st ∨ ∃ b, st' = st.setMem i b := by
  simp only [memoryGrow] at h
  split at h
  · cases h
  · split at h <;> cases h
    · exact .inr ⟨_, rfl⟩
    · exact .inl rfl

/-- `memory.fill`. -/
theorem memoryFill_eq {i : Nat} {d v n : BitVec 32} (h : st.memoryFill i d v n = .ok st') :
    ∃ b, st' = st.setMem i b := by
  simp only [memoryFill] at h
  split at h
  · cases h
  · obtain ⟨b, _, rfl⟩ := Option.map_eq_some_iff.mp (Res.ofTrap_eq_ok.mp h)
    exact ⟨b, rfl⟩

/-- `memory.copy` writes to the first of its two. -/
theorem memoryCopy_eq {i j : Nat} {d s n : BitVec 32} (h : st.memoryCopy i j d s n = .ok st') :
    ∃ b, st' = st.setMem i b := by
  simp only [memoryCopy] at h
  split at h
  · obtain ⟨b, _, rfl⟩ := Option.map_eq_some_iff.mp (Res.ofTrap_eq_ok.mp h)
    exact ⟨b, rfl⟩
  · cases h

/-- `memory.init`. -/
theorem memoryInit_eq {e i : Nat} {d s n : BitVec 32} (h : st.memoryInit e i d s n = .ok st') :
    ∃ b, st' = st.setMem i b := by
  simp only [memoryInit] at h
  split at h
  · obtain ⟨b, _, rfl⟩ := Option.map_eq_some_iff.mp (Res.ofTrap_eq_ok.mp h)
    exact ⟨b, rfl⟩
  · cases h

/-! ## Tables -/

/-- The tables: what is read is in the table, and what is written is there or was given. -/
theorem tableGet_mem {t : Nat} {i : BitVec 32} {r : Ref} (h : st.tableGet t i = .ok r) :
    ∃ table, st.tables[t]? = some table ∧ r ∈ table.elems := by
  simp only [tableGet] at h
  split at h
  · cases h
  · next table ht => exact ⟨table, ht, List.mem_of_getElem? (Res.ofTrap_eq_ok.mp h)⟩

/-- A table write leaves the old entries and the new ones. -/
theorem tableFill_eq {t n : Nat} {d : BitVec 32} {r : Ref} (h : st.tableFill t d r n = .ok st') :
    ∃ table elems, st.tables[t]? = some table ∧ st' = st.setTable t elems ∧
      ∀ x ∈ elems, x ∈ table.elems ∨ x = r := by
  simp only [tableFill] at h
  split at h
  · cases h
  · next table ht =>
    obtain ⟨elems, he, rfl⟩ := Option.map_eq_some_iff.mp (Res.ofTrap_eq_ok.mp h)
    exact ⟨table, elems, ht, rfl, fun x hx => (mem_of_splice he hx).imp_right
      List.eq_of_mem_replicate⟩

/-- `table.grow` gives one reference, or refuses and changes nothing. -/
theorem tableGrow_eq {t : Nat} {r : Ref} {n old : BitVec 32}
    (h : st.tableGrow t r n = .ok (st', old)) :
    st' = st ∨ ∃ table elems, st.tables[t]? = some table ∧ st' = st.setTable t elems ∧
      ∀ x ∈ elems, x ∈ table.elems ∨ x = r := by
  simp only [tableGrow] at h
  split at h
  · cases h
  · next table ht =>
    split at h <;> cases h
    · exact .inr ⟨table, _, ht, rfl, fun x hx => (List.mem_append.mp hx).imp_right
        List.eq_of_mem_replicate⟩
    · exact .inl rfl

/-- `table.copy` writes what is in the second of its two. -/
theorem tableCopy_eq {t u : Nat} {d s n : BitVec 32} (h : st.tableCopy t u d s n = .ok st') :
    ∃ table from_ elems, st.tables[t]? = some table ∧ st.tables[u]? = some from_ ∧
      st' = st.setTable t elems ∧ ∀ x ∈ elems, x ∈ table.elems ∨ x ∈ from_.elems := by
  simp only [tableCopy] at h
  split at h
  · next table from_ ht hu =>
    obtain ⟨elems, he, rfl⟩ := Option.map_eq_some_iff.mp (Res.ofTrap_eq_ok.mp h)
    obtain ⟨new, hn, he⟩ := Option.bind_eq_some_iff.mp he
    exact ⟨table, from_, elems, ht, hu, rfl, fun x hx => (mem_of_splice he hx).imp_right
      (mem_of_slice hn)⟩
  · cases h

/-- `table.init` writes what is in the segment. -/
theorem tableInit_eq {e t : Nat} {d s n : BitVec 32} (h : st.tableInit e t d s n = .ok st') :
    ∃ table elem elems, st.tables[t]? = some table ∧ st.elems[e]? = some elem ∧
      st' = st.setTable t elems ∧ ∀ x ∈ elems, x ∈ table.elems ∨ x ∈ elem := by
  simp only [tableInit] at h
  split at h
  · next table elem ht he' =>
    obtain ⟨elems, he, rfl⟩ := Option.map_eq_some_iff.mp (Res.ofTrap_eq_ok.mp h)
    obtain ⟨new, hn, he⟩ := Option.bind_eq_some_iff.mp he
    exact ⟨table, elem, elems, ht, he', rfl, fun x hx => (mem_of_splice he hx).imp_right
      (mem_of_slice hn)⟩
  · cases h

end Store

/-! ## Operands -/

section

variable {Q : Ref → Prop} {vs ws : List Val}

/-- A value that is popped was on top. -/
theorem popVal_eq {v : Val} (h : popVal vs = .ok (v, ws)) : vs = v :: ws := by
  cases vs <;> cases h
  rfl

/-- An `i32` that is popped was on top. -/
theorem popI32_eq {c : BitVec 32} (h : popI32 vs = .ok (c, ws)) : vs = .i32 c :: ws := by
  match vs with
  | .num (.i32 _) :: _ => cases h; rfl

/-- A reference that is popped was on top. -/
theorem popRef_eq {r : Ref} (h : popRef vs = .ok (r, ws)) : vs = .ref r :: ws := by
  match vs with
  | .ref _ :: _ => cases h; rfl

/-- The three numbers of a bulk instruction, the length on top. -/
theorem popBulk_eq {d s n : BitVec 32} (h : popBulk vs = .ok ((d, s, n), ws)) :
    vs = .i32 n :: .i32 s :: .i32 d :: ws := by
  simp only [popBulk, Res.bind_eq_ok] at h
  obtain ⟨⟨n', vs₁⟩, h₁, ⟨s', vs₂⟩, h₂, ⟨d', vs₃⟩, h₃, h⟩ := h
  cases h
  have h₂ := popI32_eq h₂
  have h₃ := popI32_eq h₃
  simp only at h₂ h₃
  rw [popI32_eq h₁, h₂, h₃]

/-- The operands below were there. -/
theorem popNums_mem {n : Nat} {xs : List Num} (h : popNums n vs = .ok (xs, ws)) :
    ∀ v ∈ ws, v ∈ vs := by
  induction n generalizing vs xs with
  | zero => cases h; exact fun v hv => hv
  | succ n ih =>
      match vs with
      | .num x :: vs =>
          obtain ⟨p, hp, he⟩ := Res.map_eq_ok.mp h
          cases he
          exact fun v hv => List.mem_cons_of_mem _ (ih hp v hv)

end

/-! ## Local instructions -/

/-- The state of a local instruction holds only references with `Q`. -/
structure Local.All (Q : Ref → Prop) (s : Local) : Prop where
  store : s.store.All Q
  locals : ∀ v ∈ s.locals, v.All Q
  stack : ∀ v ∈ s.stack, v.All Q

/-- What a local instruction leaves. -/
structure Local.Leaves (Q : Ref → Prop) (s s' : Local) : Prop where
  store : s.store.Keeps s'.store
  locals : s'.locals.length = s.locals.length
  all : s.All Q → s'.All Q

namespace Local

variable {Q : Ref → Prop} {s : Local} {st : Store} {vs : List Val} {v : Val}

/-- Only the operands change. -/
theorem Leaves.stack (h : s.All Q → ∀ v ∈ vs, v.All Q) :
    Leaves Q s { s with stack := vs } :=
  ⟨.refl _, rfl, fun ha => ⟨ha.store, ha.locals, h ha⟩⟩

/-- The store and the operands change. -/
theorem Leaves.storeStack (hk : s.store.Keeps st) (hs : s.All Q → st.All Q)
    (h : s.All Q → ∀ v ∈ vs, v.All Q) : Leaves Q s { s with store := st, stack := vs } :=
  ⟨hk, rfl, fun ha => ⟨hs ha, ha.locals, h ha⟩⟩

/-- A value is pushed. -/
theorem Leaves.push (h : s.All Q → v.All Q) : Leaves Q s (s.push v) :=
  .stack fun ha w hw => by
    rcases List.mem_cons.mp hw with rfl | hw
    · exact h ha
    · exact ha.stack w hw

end Local

/-- A local is set. -/
theorem Val.all_set {Q : Ref → Prop} {vs : List Val} (h : ∀ v ∈ vs, v.All Q) (x : Nat) {v : Val}
    (hv : v.All Q) : ∀ w ∈ vs.set x v, w.All Q := fun w hw => by
  rcases List.mem_or_eq_of_mem_set hw with hw | rfl
  · exact h w hw
  · exact hv

/-- Values with one more. -/
theorem Val.all_cons {Q : Ref → Prop} {vs : List Val} {v : Val} (hv : v.All Q)
    (h : ∀ v ∈ vs, v.All Q) : ∀ w ∈ v :: vs, w.All Q := fun w hw => by
  rcases List.mem_cons.mp hw with rfl | hw
  · exact hv
  · exact h w hw

/-- A local instruction keeps the shape of the store and the locals, and makes no
reference but `null` and that of `ref.func`. -/
theorem execLocal_leaves {Q : Ref → Prop} {P : Prims} {i : Instr} {s s' : Local}
    (h : execLocal P i s = .ok s') (hnull : Q .null) (hfunc : ∀ f, i = .ref_func f → Q (.func f)) :
    s.Leaves Q s' := by
  cases i <;> simp only [execLocal, Res.bind_eq_ok, Res.map_eq_ok, Res.ofStuck_eq_ok, Prod.exists]
    at h
  case nop => cases h; exact ⟨.refl _, rfl, id⟩
  case drop =>
    obtain ⟨v, vs, hp, h⟩ := h
    cases h
    have hs := popVal_eq hp
    exact .stack fun ha w hw => ha.stack w (hs ▸ List.mem_cons_of_mem _ hw)
  case select | select_typed =>
    obtain ⟨c, vs₁, h₁, b, vs₂, h₂, a, vs₃, h₃, h⟩ := h
    cases h
    have hs := popI32_eq h₁
    rw [popVal_eq h₂, popVal_eq h₃] at hs
    refine .stack fun ha => ?_
    have hst := hs ▸ ha.stack
    refine Val.all_cons ?_ fun w hw => hst w (by simp [hw])
    split
    · exact hst b (by simp)
    · exact hst a (by simp)
  case local_get x =>
    obtain ⟨v, hv, rfl⟩ := h
    exact .push fun ha => ha.locals v (List.mem_of_getElem? hv)
  case local_set x =>
    obtain ⟨v, vs, hp, h⟩ := h
    split at h <;> cases h
    have hs := popVal_eq hp
    exact ⟨.refl _, List.length_set, fun ha => ⟨ha.store,
      Val.all_set ha.locals x (ha.stack v (hs ▸ List.mem_cons_self)),
      fun w hw => ha.stack w (hs ▸ List.mem_cons_of_mem _ hw)⟩⟩
  case local_tee x =>
    obtain ⟨v, vs, hp, h⟩ := h
    split at h <;> cases h
    have hs := popVal_eq hp
    exact ⟨.refl _, List.length_set, fun ha => ⟨ha.store,
      Val.all_set ha.locals x (ha.stack v (hs ▸ List.mem_cons_self)), ha.stack⟩⟩
  case global_get x =>
    obtain ⟨v, hv, rfl⟩ := h
    exact .push fun ha => ha.store.globals v (List.mem_of_getElem? hv)
  case global_set x =>
    obtain ⟨v, vs, hp, h⟩ := h
    split at h <;> cases h
    have hs := popVal_eq hp
    exact .storeStack ⟨List.length_set, rfl, rfl, rfl⟩ (fun ha => ⟨ha.store.tables,
      Val.all_set ha.store.globals x (ha.stack v (hs ▸ List.mem_cons_self)), ha.store.elems,
      ha.store.exns⟩) fun ha w hw => ha.stack w (hs ▸ List.mem_cons_of_mem _ hw)
  case table_get t =>
    obtain ⟨j, vs, hp, r, hr, h⟩ := h
    cases h
    have hs := popI32_eq hp
    obtain ⟨table, ht, hmem⟩ := Store.tableGet_mem hr
    exact .stack fun ha => Val.all_cons (ha.store.table ht r hmem)
      fun w hw => ha.stack w (hs ▸ List.mem_cons_of_mem _ hw)
  case table_set t =>
    obtain ⟨r, vs₁, h₁, j, vs₂, h₂, st, hst, h⟩ := h
    cases h
    have hs := popRef_eq h₁
    rw [popI32_eq h₂] at hs
    obtain ⟨table, elems, ht, rfl, he⟩ := Store.tableFill_eq hst
    refine .storeStack (Store.setTable_keeps _ t elems) (fun ha => ha.store.setTable t ?_)
      fun ha w hw => (hs ▸ ha.stack) w (by simp [hw])
    exact fun x hx => (he x hx).elim (ha.store.table ht x)
      fun hxr => hxr ▸ (hs ▸ ha.stack) (.ref r) (by simp)
  case table_size t =>
    obtain ⟨table, _, rfl⟩ := h
    exact .push fun _ => trivial
  case table_grow t =>
    obtain ⟨n, vs₁, h₁, r, vs₂, h₂, st, old, hst, h⟩ := h
    cases h
    have hs := popI32_eq h₁
    rw [popRef_eq h₂] at hs
    have hrest : s.All Q → ∀ w ∈ Val.i32 old :: vs₂, w.All Q := fun ha =>
      Val.all_cons trivial fun w hw => (hs ▸ ha.stack) w (by simp [hw])
    rcases Store.tableGrow_eq hst with rfl | ⟨table, elems, ht, rfl, he⟩
    · exact .stack hrest
    · exact .storeStack (Store.setTable_keeps _ t elems) (fun ha => ha.store.setTable t
        fun x hx => (he x hx).elim (ha.store.table ht x)
          fun hxr => hxr ▸ (hs ▸ ha.stack) (.ref r) (by simp)) hrest
  case table_fill t =>
    obtain ⟨n, vs₁, h₁, r, vs₂, h₂, j, vs₃, h₃, st, hst, h⟩ := h
    cases h
    have hs := popI32_eq h₁
    rw [popRef_eq h₂, popI32_eq h₃] at hs
    obtain ⟨table, elems, ht, rfl, he⟩ := Store.tableFill_eq hst
    exact .storeStack (Store.setTable_keeps _ t elems) (fun ha => ha.store.setTable t
      fun x hx => (he x hx).elim (ha.store.table ht x)
        fun hxr => hxr ▸ (hs ▸ ha.stack) (.ref r) (by simp))
      fun ha w hw => (hs ▸ ha.stack) w (by simp [hw])
  case table_copy t u =>
    obtain ⟨d, j, n, vs, hp, st, hst, h⟩ := h
    cases h
    have hs := popBulk_eq hp
    obtain ⟨table, from_, elems, ht, hu, rfl, he⟩ := Store.tableCopy_eq hst
    exact .storeStack (Store.setTable_keeps _ t elems) (fun ha => ha.store.setTable t
      fun x hx => (he x hx).elim (ha.store.table ht x) (ha.store.table hu x))
      fun ha w hw => (hs ▸ ha.stack) w (by simp [hw])
  case table_init e t =>
    obtain ⟨d, j, n, vs, hp, st, hst, h⟩ := h
    cases h
    have hs := popBulk_eq hp
    obtain ⟨table, elem, elems, ht, hu, rfl, he⟩ := Store.tableInit_eq hst
    exact .storeStack (Store.setTable_keeps _ t elems) (fun ha => ha.store.setTable t
      fun x hx => (he x hx).elim (ha.store.table ht x) (ha.store.elem hu x))
      fun ha w hw => (hs ▸ ha.stack) w (by simp [hw])
  case elem_drop e =>
    split at h <;> cases h
    refine ⟨⟨rfl, List.length_set, rfl, rfl⟩, rfl, fun ha => ⟨⟨ha.store.tables,
      ha.store.globals, ?_,
      ha.store.exns⟩, ha.locals, ha.stack⟩⟩
    intro x hx r hr
    rcases List.mem_or_eq_of_mem_set hx with hx | rfl
    · exact ha.store.elems x hx r hr
    · cases hr
  case memory_size k =>
    obtain ⟨mem, _, rfl⟩ := h
    exact .push fun _ => trivial
  case memory_grow k =>
    obtain ⟨n, vs, hp, st, old, hst, h⟩ := h
    cases h
    have hs := popI32_eq hp
    have hrest : s.All Q → ∀ w ∈ Val.i32 old :: vs, w.All Q := fun ha =>
      Val.all_cons trivial fun w hw => (hs ▸ ha.stack) w (by simp [hw])
    rcases Store.memoryGrow_eq hst with rfl | ⟨b, rfl⟩
    · exact .stack hrest
    · exact .storeStack (Store.setMem_keeps _ k b) (fun ha => ha.store.setMem k b) hrest
  case memory_fill k =>
    obtain ⟨d, j, n, vs, hp, st, hst, h⟩ := h
    cases h
    have hs := popBulk_eq hp
    obtain ⟨b, rfl⟩ := Store.memoryFill_eq hst
    exact .storeStack (Store.setMem_keeps _ k b) (fun ha => ha.store.setMem k b)
      fun ha w hw => (hs ▸ ha.stack) w (by simp [hw])
  case memory_copy k l =>
    obtain ⟨d, j, n, vs, hp, st, hst, h⟩ := h
    cases h
    have hs := popBulk_eq hp
    obtain ⟨b, rfl⟩ := Store.memoryCopy_eq hst
    exact .storeStack (Store.setMem_keeps _ k b) (fun ha => ha.store.setMem k b)
      fun ha w hw => (hs ▸ ha.stack) w (by simp [hw])
  case memory_init e k =>
    obtain ⟨d, j, n, vs, hp, st, hst, h⟩ := h
    cases h
    have hs := popBulk_eq hp
    obtain ⟨b, rfl⟩ := Store.memoryInit_eq hst
    exact .storeStack (Store.setMem_keeps _ k b) (fun ha => ha.store.setMem k b)
      fun ha w hw => (hs ▸ ha.stack) w (by simp [hw])
  case data_drop d =>
    split at h <;> cases h
    exact ⟨⟨rfl, rfl, rfl, rfl⟩, rfl, fun ha => ⟨⟨ha.store.tables, ha.store.globals, ha.store.elems,
      ha.store.exns⟩, ha.locals, ha.stack⟩⟩
  case ref_null => cases h; exact .push fun _ => hnull
  case ref_is_null =>
    obtain ⟨r, vs, hp, h⟩ := h
    cases h
    have hs := popRef_eq hp
    exact .stack fun ha => Val.all_cons trivial fun w hw => (hs ▸ ha.stack) w (by simp [hw])
  -- the one instruction that makes a reference of its own
  case ref_func f => cases h; exact .push fun _ => hfunc f rfl
  case ref_eq =>
    obtain ⟨a, vs₁, h₁, b, vs₂, h₂, c, _, h⟩ := h
    cases h
    have hs := popRef_eq h₁
    rw [popRef_eq h₂] at hs
    exact .stack fun ha => Val.all_cons trivial fun w hw => (hs ▸ ha.stack) w (by simp [hw])
  case ref_as_non_null =>
    obtain ⟨r, vs, hp, h⟩ := h
    split at h <;> cases h
    exact ⟨.refl _, rfl, id⟩
  case i32_const c => cases h; exact .push fun _ => trivial
  case plain op =>
    obtain ⟨args, vs, hp, mems, out, _, h⟩ := h
    cases h
    refine .storeStack (Store.setBytes_keeps _ mems) (fun ha => ha.store.setBytes mems)
      fun ha w hw => ?_
    rcases List.mem_append.mp hw with hw | hw
    · obtain ⟨x, _, rfl⟩ := List.mem_map.mp (List.mem_reverse.mp hw)
      trivial
    · exact ha.stack w (popNums_mem hp w hw)
  all_goals cases h

end Wasm
