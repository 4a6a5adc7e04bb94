import CapnpcWasm.Wasm.Moves
import CapnpcWasm.Wasm.Instance

/-!
# Where references come from

A step makes no reference but `null`, that of an exception, and those of the functions
`ref.func` names.  So a property of references that those have, and that the host keeps,
holds of every reference in the store and the frames.  No step changes how many globals
there are.

* `Config.Holds` is the property over a whole configuration, and `Leads` says that whatever
  an operation gives has it again.
* `exec_leads` is the case for each instruction, from the cases for jumps (`control_all`),
  exceptions (`throwExn_leads`) and calls (`invoke_leads`).
* `step_leads` is the step, and `instantiate_holds` the first configuration.
-/

namespace Wasm

open Run (Next Steps)

/-! ## Frames and configurations -/

/-- Every reference a frame holds has `Q`. -/
structure Frame.All (Q : Ref → Prop) (fr : Frame) : Prop where
  stack : ∀ v ∈ fr.stack, v.All Q
  locals : ∀ v ∈ fr.locals, v.All Q
  bases : ∀ l ∈ fr.labels, ∀ v ∈ l.base, v.All Q

/-- So does every reference of the store, which has `n` globals. -/
structure Store.Holds (Q : Ref → Prop) (n : Nat) (st : Store) : Prop where
  all : st.All Q
  globals : st.globals.length = n

/-- The store, the frames and what a finished run gives. -/
structure Config.Holds {σ : Type} (Q : Ref → Prop) (n : Nat) (c : Config σ) : Prop where
  store : c.world.store.Holds Q n
  top : c.top.All Q
  callers : ∀ fr ∈ c.callers, fr.All Q

/-- What a host sees or hands back. -/
structure View.All (Q : Ref → Prop) (v : View) : Prop where
  tables : ∀ t ∈ v.tables, ∀ r ∈ t, Q r
  globals : ∀ x ∈ v.globals, x.All Q

/-- What a host may hand back. -/
def Reply.All (Q : Ref → Prop) : Reply → Prop
  | .ret values => ∀ v ∈ values, v.All Q
  | .throw e => ∀ v ∈ e.args, v.All Q
  | .exit => True

/-- The host hands back no reference without `Q` if it is given none. -/
def Host.Keeps {σ : Type} (Q : Ref → Prop) (h : Host σ) : Prop :=
  ∀ s fn args v, (∀ a ∈ args, a.All Q) → v.All Q →
    (h.call s fn args v).view.All Q ∧ (h.call s fn args v).reply.All Q

section

variable {Q : Ref → Prop} {n : Nat} {fr : Frame} {vs : List Val}

/-- The order does not matter. -/
theorem Val.all_reverse (h : ∀ v ∈ vs, v.All Q) : ∀ v ∈ vs.reverse, v.All Q := by
  intro v hv
  exact h v (List.mem_reverse.mp hv)

/-- Two lists of such values. -/
theorem Val.all_append {us : List Val} (h₁ : ∀ v ∈ us, v.All Q) (h₂ : ∀ v ∈ vs, v.All Q) :
    ∀ v ∈ us ++ vs, v.All Q := by
  intro v hv
  rcases List.mem_append.mp hv with hv | hv
  · exact h₁ v hv
  · exact h₂ v hv

/-- A frame with other operands. -/
theorem Frame.All.setStack (h : fr.All Q) (hvs : ∀ v ∈ vs, v.All Q) :
    Frame.All Q { fr with stack := vs } := ⟨hvs, h.locals, h.bases⟩

/-- The code of a frame holds no reference. -/
theorem Frame.All.setCode (h : fr.All Q) (is : List Instr) : Frame.All Q { fr with code := is } :=
  ⟨h.stack, h.locals, h.bases⟩

/-- The operands are among those there were. -/
theorem Frame.All.subset (h : fr.All Q) (hvs : vs ⊆ fr.stack) :
    Frame.All Q { fr with stack := vs } := h.setStack fun v hv => h.stack v (hvs hv)

/-! ## Control inside a frame -/

/-- What a jump hands on, inside the frame or out of it. -/
def Jump.All (Q : Ref → Prop) : Jump → Prop
  | .to fr => fr.All Q
  | .leave values => ∀ v ∈ values, v.All Q
  | .stuck => True

/-- A branch keeps operands and drops others. -/
theorem Frame.All.branch (h : fr.All Q) (label : Nat) : (fr.branch label).All Q := by
  unfold Frame.branch
  split
  · rename_i l hl
    split
    · refine ⟨?_, h.locals, ?_⟩
      · exact Val.all_append (fun v hv => h.stack v (List.mem_of_mem_take hv))
          (h.bases l (List.mem_of_getElem? hl))
      · intro l' hl'
        exact h.bases l' (List.mem_of_mem_drop hl')
    · trivial
  · split
    · exact Val.all_reverse fun v hv => h.stack v (List.mem_of_mem_take hv)
    · trivial

/-- Entering a block moves operands under its label. -/
theorem Frame.All.enter (h : fr.All Q) (t : FuncType) (kind : LabelKind) (arity : Nat)
    (cont after body : List Instr) : (fr.enter t kind arity cont after body).All Q := by
  unfold Frame.enter
  split
  · refine ⟨fun v hv => h.stack v (List.mem_of_mem_take hv), h.locals, ?_⟩
    intro l hl
    rcases List.mem_cons.mp hl with rfl | hl
    · intro v hv
      exact h.stack v (List.mem_of_mem_drop hv)
    · exact h.bases l hl
  · trivial

/-- Leaving a block moves operands back. -/
theorem Frame.All.exitBlock (h : fr.All Q) (next : Label → List Instr) :
    (fr.exitBlock next).All Q := by
  unfold Frame.exitBlock
  split
  · rename_i l ls hl
    refine ⟨Val.all_append h.stack (h.bases l ?_), h.locals, ?_⟩
    · rw [hl]
      exact List.mem_cons_self
    · intro l' hl'
      exact h.bases l' (by rw [hl]; exact List.mem_cons_of_mem _ hl')
  · trivial

/-- The blocks whose type is looked up first. -/
theorem Frame.All.openBlock {m : Module} (h : fr.All Q) (bt : BlockType) (kind : LabelKind) :
    Jump.All Q (match m.blockType? bt, matchEnd 0 fr.code with
      | some t, some after => fr.enter t kind t.results.length after after fr.code
      | _, _ => .stuck) := by
  split
  · exact h.enter ..
  · trivial

/-- Every instruction of control. -/
theorem control_all {m : Module} {i : Instr} {jump : Jump} (hfr : fr.All Q)
    (h : control m i fr = some jump) : jump.All Q := by
  have hpopI32 : ∀ {c vs}, popI32 fr.stack = .ok (c, vs) → Frame.All Q { fr with stack := vs } := by
    intro c vs hp
    exact hfr.subset (popI32_eq hp ▸ List.subset_cons_self _ _)
  have hpopRef : ∀ {r vs}, popRef fr.stack = .ok (r, vs) → Frame.All Q { fr with stack := vs } := by
    intro r vs hp
    exact hfr.subset (popRef_eq hp ▸ List.subset_cons_self _ _)
  cases i <;> cases h
  case block bt => exact hfr.openBlock bt .plain
  case «try» bt => exact hfr.openBlock bt _
  case try_table bt cs => exact hfr.openBlock bt _
  case loop bt =>
    split
    · exact hfr.enter ..
    · trivial
  case «if» bt =>
    split
    · rename_i hp
      have hvs := hpopI32 hp
      dsimp only
      split
      · split
        · exact hvs.enter ..
        · split
          · exact hvs.enter ..
          · exact hvs.setCode _
      · trivial
    · trivial
  case «else» | «catch» | catch_all | delegate => exact hfr.exitBlock _
  case «end» =>
    split
    · exact hfr.branch 0
    · exact hfr.exitBlock _
  case br l => exact hfr.branch l
  case «return» => exact hfr.branch _
  case br_if l =>
    split
    · rename_i hp
      dsimp only
      split
      · exact (hpopI32 hp).branch l
      · exact hpopI32 hp
    · trivial
  case br_table ls l =>
    split
    · rename_i hp
      exact (hpopI32 hp).branch _
    · trivial
  case br_on_null l =>
    split
    · rename_i hp
      split
      · exact (hpopRef hp).branch l
      · exact hfr
    · trivial
  case br_on_non_null l =>
    split
    · rename_i hp
      split
      · exact hpopRef hp
      · exact hfr.branch l
    · trivial

/-! ## Exceptions -/

/-- A handler is given the arguments of the exception and a reference to it. -/
theorem handle_all {tags : List Nat} {address : Nat} {e : Exn} {jump : Jump} (hfr : fr.All Q)
    (hexn : Q (.exn address)) (he : ∀ v ∈ e.args, v.All Q) {ls : List Label} :
    ∀ {skip : Nat}, ls ⊆ fr.labels → fr.handle tags address e skip ls = some jump →
      jump.All Q := by
  induction ls with
  | nil => intro skip _ h; cases skip <;> cases h
  | cons l ls ih =>
      intro skip hls h
      have hrest : ls ⊆ fr.labels := fun x hx => hls (List.mem_cons_of_mem _ hx)
      cases skip with
      | succ skip => exact ih hrest h
      | zero =>
          unfold Frame.handle at h
          split at h
          · exact ih hrest h
          · exact ih hrest h
          · exact ih hrest h
          · split at h
            · rename_i hd _
              cases h
              refine ⟨?_, hfr.locals, ?_⟩
              · show ∀ v ∈ (if hd.tag.isSome then e.args.reverse else []), v.All Q
                split
                · exact Val.all_reverse he
                · intro v hv
                  cases hv
              · intro l' hl'
                rcases List.mem_cons.mp hl' with rfl | hl'
                · exact hfr.bases l (hls List.mem_cons_self)
                · exact hfr.bases l' (hrest hl')
            · exact ih hrest h
          · split at h
            · rename_i c _
              cases h
              have hoperands : ∀ v ∈ c.operands address e, v.All Q := ?_
              · have hclause : Frame.All Q { fr with stack := c.operands address e, labels := ls } :=
                  ⟨hoperands, hfr.locals, fun l' hl' => hfr.bases l' (hrest hl')⟩
                exact hclause.branch _
              cases c with
              | tag x ref label =>
                  cases ref with
                  | false => exact Val.all_reverse he
                  | true => exact Val.all_cons hexn (Val.all_reverse he)
              | all ref label =>
                  cases ref with
                  | false => intro v hv; cases hv
                  | true => exact Val.all_cons hexn (fun v hv => by cases hv)
            · exact ih hrest h

end

section

variable {σ : Type} {Q : Ref → Prop} {n : Nat} {m : Module} {P : Prims} {h : Host σ}
  {w : World σ} {fr : Frame} {frames callers : List Frame} {c d : Config σ}

variable (Q n) in
/-- What a step leads to holds only such references. -/
def Leads : Step σ → Prop
  | .more d => d.Holds Q n
  | .halt r => r.2.store.Holds Q n

/-- A return pushes its values on the caller. -/
theorem resume_leads {values : List Val} (hw : w.store.Holds Q n)
    (hfs : ∀ fr ∈ frames, fr.All Q) (hv : ∀ v ∈ values, v.All Q) :
    Leads Q n (resume w values frames) := by
  cases frames with
  | nil => exact hw
  | cons fr frames =>
      have hfr := hfs fr List.mem_cons_self
      exact ⟨hw, hfr.setStack (Val.all_append (Val.all_reverse hv) hfr.stack),
        fun x hx => hfs x (List.mem_cons_of_mem _ hx)⟩

/-- A jump is followed inside the frame, or out of it. -/
theorem follow_leads {jump : Jump} (hw : w.store.Holds Q n) (hfs : ∀ fr ∈ callers, fr.All Q)
    (hj : jump.All Q) : Leads Q n (jump.follow w callers) := by
  cases jump with
  | «to» fr => exact ⟨hw, hj, hfs⟩
  | leave values => exact resume_leads hw hfs hj
  | stuck => exact hw

/-- An exception goes up the frames until one handles it. -/
theorem unwind_leads {address : Nat} {e : Exn} (hw : w.store.Holds Q n)
    (hfs : ∀ fr ∈ frames, fr.All Q) (hexn : Q (.exn address)) (he : ∀ v ∈ e.args, v.All Q) :
    Leads Q n (unwind w address e frames) := by
  induction frames with
  | nil => exact hw
  | cons fr frames ih =>
      have hrest : ∀ fr ∈ frames, fr.All Q := fun fr h => hfs fr (List.mem_cons_of_mem _ h)
      unfold unwind
      split
      · rename_i jump hj
        exact follow_leads hw hrest
          (handle_all (hfs fr List.mem_cons_self) hexn he (List.Subset.refl _) hj)
      · exact ih hrest

/-- A new exception is stored first, and a handler may be given a reference to it. -/
theorem throwExn_leads {e : Exn} (hw : w.store.Holds Q n) (hexn : ∀ a, Q (.exn a))
    (hfs : ∀ fr ∈ frames, fr.All Q) (he : ∀ v ∈ e.args, v.All Q) :
    Leads Q n (throwExn w e frames) := by
  have hstore : Store.Holds Q n { w.store with exns := w.store.exns ++ [e] } := by
    refine ⟨⟨hw.all.tables, hw.all.globals, hw.all.elems, ?_⟩, hw.globals⟩
    intro x hx
    rcases List.mem_append.mp hx with hx | hx
    · exact hw.all.exns x hx
    · cases List.mem_singleton.mp hx
      exact he
  exact unwind_leads (w := { w with store := { w.store with exns := w.store.exns ++ [e] } })
    hstore hfs (hexn _) he

/-! ## Calls -/

/-- What a host sees is part of the store. -/
theorem view_all {st : Store} (hst : st.All Q) : (m.view st).All Q := by
  constructor
  · intro t ht
    obtain ⟨table, htable, rfl⟩ := List.mem_map.mp ht
    exact hst.tables table htable
  · intro v hv
    exact hst.globals v (List.mem_of_mem_take hv)

/-- What the host leaves in the store. -/
theorem absorb_holds {st : Store} {ans : Answer σ} (hst : st.Holds Q n)
    (hv : ans.view.All Q) : (m.absorb st ans).Holds Q n := by
  constructor
  · refine ⟨?_, ?_, hst.all.elems, hst.all.exns⟩
    · intro t ht r hr
      simp only [Module.absorb, List.mem_iff_getElem?] at ht
      obtain ⟨i, hi⟩ := ht
      rw [List.getElem?_zipWith] at hi
      split at hi
      · rename_i old elems hold hnew
        cases hi
        unfold overwrite at hnew
        split at hnew
        · exact hv.tables elems (List.mem_of_getElem? hnew) r hr
        · rw [List.getElem?_map, hold] at hnew
          cases hnew
          exact hst.all.tables old (List.mem_of_getElem? hold) r hr
      · cases hi
    · have hhidden : ∀ v ∈ st.globals.drop (m.visibleGlobals st), v.All Q :=
        fun v hx => hst.all.globals v (List.mem_of_mem_drop hx)
      refine Val.all_append ?_ ?_
      · unfold overwrite
        split
        · exact hv.globals
        · intro v hx
          exact hst.all.globals v (List.mem_of_mem_take hx)
      · split
        · exact Val.all_set hhidden 0 trivial
        · exact hhidden
  · have hlen := hst.globals
    simp only [Module.absorb, List.length_append, overwrite_length]
    cases ans.countdown <;>
      simp only [List.length_set, ← List.length_append, List.take_append_drop, hlen]

/-- A call of a host function: its reply is what it saw and was given. -/
theorem callHost_leads {fn : HostFn} {type : FuncType} {args : List Val} (hh : h.Keeps Q)
    (hexn : ∀ a, Q (.exn a)) (hw : w.store.Holds Q n) (hfs : ∀ fr ∈ frames, fr.All Q)
    (ha : ∀ v ∈ args, v.All Q) : Leads Q n (callHost m h w fn type args frames) := by
  obtain ⟨hview, hreply⟩ := hh w.host fn args (m.view w.store) ha (view_all hw.all)
  have hst : (m.absorb w.store (h.call w.host fn args (m.view w.store))).Holds Q n :=
    absorb_holds hw hview
  unfold callHost hostCall
  dsimp only
  generalize h.call w.host fn args (m.view w.store) = ans at hview hreply hst
  cases hr : ans.reply with
  | ret values =>
      rw [hr] at hreply
      dsimp only
      split
      · exact resume_leads hst hfs hreply
      · exact hst
  | throw e =>
      rw [hr] at hreply
      exact throwExn_leads hst hexn hfs hreply
  | exit => exact hst

/-- Locals start as zeros and `null`. -/
theorem zeros_all (hnull : Q .null) (f : Func) : ∀ v ∈ f.zeros, v.All Q := by
  intro v hv
  obtain ⟨g, -, hv⟩ := List.mem_flatMap.mp hv
  cases List.eq_of_mem_replicate hv
  cases g.2 with
  | ref nullable heap => exact hnull
  | _ => trivial

/-- Every call, of the module or of the host. -/
theorem invoke_leads {g : Nat} {args : List Val} (hh : h.Keeps Q) (hnull : Q .null)
    (hexn : ∀ a, Q (.exn a)) (hw : w.store.Holds Q n) (hfs : ∀ fr ∈ frames, fr.All Q)
    (ha : ∀ v ∈ args, v.All Q) : Leads Q n (invoke m h w g args frames) := by
  unfold invoke
  split
  · exact hw
  · split
    · exact hw
    · split
      · exact callHost_leads hh hexn hw hfs ha
      · split
        · rename_i f hf
          refine ⟨hw, ⟨?_, Val.all_append ha (zeros_all hnull f), ?_⟩, hfs⟩
          · intro v hv
            cases hv
          · intro l hl
            cases hl
        · exact hw

/-- The frames of a call in progress are those it was made from. -/
theorem Waits.all {i : Instr} (hw : Waits i fr callers frames) (hfr : fr.All Q)
    (hfs : ∀ fr ∈ callers, fr.All Q) : ∀ fr ∈ frames, fr.All Q := by
  obtain ⟨vs, hvs, rfl⟩ := hw
  split
  · exact hfs
  · intro x hx
    rcases List.mem_cons.mp hx with rfl | hx
    · exact hfr.subset hvs
    · exact hfs x hx

/-! ## One step -/

/-- One instruction, by the group it is in. -/
theorem exec_leads {i : Instr} (hh : h.Keeps Q) (hnull : Q .null) (hexn : ∀ a, Q (.exn a))
    (hfunc : ∀ g, i = .ref_func g → Q (.func g)) (hw : w.store.Holds Q n) (hfr : fr.All Q)
    (hfs : ∀ fr ∈ callers, fr.All Q) : Leads Q n (exec m P h i w fr callers) := by
  rcases instr_class i with rfl | hi | hi | hi | hi
  · exact hw
  · obtain ⟨jump, hj, he⟩ := exec_control (m := m) (P := P) (h := h) hi w fr callers
    exact he ▸ follow_leads hw hfs (control_all hfr hj)
  · have hr := exec_raise (m := m) (P := P) (h := h) hi w fr callers
    have hframes : ∀ {vs : List Val}, vs ⊆ fr.stack →
        ∀ x ∈ { fr with stack := vs } :: callers, x.All Q := by
      intro vs hvs x hx
      rcases List.mem_cons.mp hx with rfl | hx
      · exact hfr.subset hvs
      · exact hfs x hx
    have hstored : ∀ {a : Nat} {e : Exn}, w.store.exns[a]? = some e → ∀ v ∈ e.args, v.All Q :=
      fun hget => hw.all.exns _ (List.mem_of_getElem? hget)
    cases i <;> simp only [raise, Option.some.injEq, reduceCtorEq] at hr
    case throw x =>
      rw [← hr]
      split
      · split
        · rename_i hp
          obtain ⟨hargs, vs, hvs, rfl⟩ := popArgs_subset hp
          exact throwExn_leads hw hexn (hframes hvs) fun v hv => hfr.stack v (hargs hv)
        · exact hw
      · exact hw
    case rethrow l =>
      rw [← hr]
      split
      · split
        · rename_i hget
          exact unwind_leads hw (hframes (List.Subset.refl _)) (hexn _) (hstored hget)
        · exact hw
      · exact hw
    case throw_ref =>
      rw [← hr]
      split
      · rename_i hp
        split
        · rename_i hget
          exact unwind_leads hw (hframes (popRef_eq hp ▸ List.subset_cons_self _ _)) (hexn _)
            (hstored hget)
        · exact hw
      · exact hw
      · exact hw
  · have hstack : ∀ {args : List Val}, args ⊆ fr.stack → ∀ v ∈ args, v.All Q :=
      fun ha v hv => hfr.stack v (ha hv)
    cases call_dispatches (exec_call (m := m) (P := P) (h := h) hi w fr callers) with
    | own _ ha hwaits hs =>
        exact hs ▸ invoke_leads hh hnull hexn hw (hwaits.all hfr hfs) (hstack ha)
    | «foreign» ha hwaits hs =>
        exact hs ▸ callHost_leads hh hexn hw (hwaits.all hfr hfs) (hstack ha)
    | ends he =>
        rw [he]
        exact hw
  · rw [exec_local hi]
    cases he : execLocal P i ⟨w.store, fr.locals, fr.stack⟩ with
    | ok s =>
        have hl := execLocal_leaves he hnull hfunc
        have hall := hl.all ⟨hw.all, hfr.locals, hfr.stack⟩
        exact ⟨⟨hall.store, hl.store.globals.trans hw.globals⟩,
          ⟨hall.stack, hall.locals, hfr.bases⟩, hfs⟩
    | trap | stuck => exact hw

/-- A step keeps every reference within `Q`. -/
theorem step_leads (hh : h.Keeps Q) (hnull : Q .null) (hexn : ∀ a, Q (.exn a))
    (hfunc : ∀ f ∈ m.funcs, ∀ i ∈ f.body, ∀ g, i = .ref_func g → Q (.func g)) (hin : c.In m)
    (hc : c.Holds Q n) : Leads Q n (step m P h c) := by
  obtain ⟨f, -, hf, hw⟩ := hin.1
  unfold step
  split
  · exact hc.store
  · rename_i i is hcode
    have hmem : i ∈ f.body := hw.code.subset (by rw [hcode]; exact List.mem_cons_self)
    exact exec_leads hh hnull hexn (hfunc f (List.mem_of_getElem? hf) i hmem) hc.store
      (hc.top.setCode is) hc.callers

end

/-! ## The first store -/

section

variable {Q : Ref → Prop} {P : Prims} {globals : List Val} {st st' : Store}

/-- A constant expression takes its references from the globals and from `ref.func`. -/
theorem constRun_all (hnull : Q .null) (hg : ∀ v ∈ globals, v.All Q) {e : ConstExpr} :
    ∀ {vs us : List Val}, (∀ i ∈ e, ∀ g, i = .ref_func g → Q (.func g)) → (∀ v ∈ vs, v.All Q) →
      constRun P globals e vs = .ok us → ∀ v ∈ us, v.All Q := by
  induction e with
  | nil => intro vs us _ hvs h; cases h; exact hvs
  | cons i e ih =>
      intro vs us hfunc hvs h
      obtain ⟨ws, hi, h⟩ := Res.bind_eq_ok.mp h
      refine ih (fun j hj => hfunc j (List.mem_cons_of_mem _ hj)) ?_ h
      cases i with
      | i32_const c => cases hi; exact Val.all_cons trivial hvs
      | global_get x =>
          obtain ⟨v, hv, rfl⟩ := Res.map_eq_ok.mp hi
          exact Val.all_cons (hg v (List.mem_of_getElem? (Res.ofStuck_eq_ok.mp hv))) hvs
      | ref_null t => cases hi; exact Val.all_cons hnull hvs
      | ref_func g => cases hi; exact Val.all_cons (hfunc _ List.mem_cons_self g rfl) hvs
      | plain op =>
          obtain ⟨⟨args, vs'⟩, hp, hi⟩ := Res.bind_eq_ok.mp hi
          obtain ⟨⟨mems, out⟩, -, hi⟩ := Res.bind_eq_ok.mp hi
          cases hi
          refine Val.all_append ?_ fun v hv => hvs v (popNums_mem hp v hv)
          refine Val.all_reverse ?_
          intro v hv
          obtain ⟨x, -, rfl⟩ := List.mem_map.mp hv
          trivial

/-- The value of a constant expression. -/
theorem evalConst_all (hnull : Q .null) (hg : ∀ v ∈ globals, v.All Q) {e : ConstExpr} {v : Val}
    (hfunc : ∀ i ∈ e, ∀ g, i = .ref_func g → Q (.func g)) (h : evalConst P globals e = .ok v) :
    v.All Q := by
  obtain ⟨vs, hrun, h⟩ := Res.bind_eq_ok.mp h
  have hvs := constRun_all hnull hg hfunc (fun v hv => by cases hv) hrun
  split at h
  · cases h
    exact hvs _ List.mem_cons_self
  · cases h

/-- The expressions of an element segment. -/
theorem evalRefs_all (hnull : Q .null) (hg : ∀ v ∈ globals, v.All Q) {es : List ConstExpr} :
    ∀ {rs : List Ref}, (∀ e ∈ es, ∀ i ∈ e, ∀ g, i = .ref_func g → Q (.func g)) →
      evalRefs P globals es = .ok rs → ∀ r ∈ rs, Q r := by
  induction es with
  | nil => intro rs _ h r hr; cases h; cases hr
  | cons e es ih =>
      intro rs hfunc h
      obtain ⟨r, hr, h⟩ := Res.bind_eq_ok.mp h
      obtain ⟨rs', hrs, h⟩ := Res.bind_eq_ok.mp h
      cases h
      obtain ⟨v, hv, hr⟩ := Res.bind_eq_ok.mp hr
      have hall := evalConst_all hnull hg (hfunc e List.mem_cons_self) hv
      intro x hx
      rcases List.mem_cons.mp hx with rfl | hx
      · cases v with
        | ref r => cases hr; exact hall
        | num n => cases hr
      · exact ih (fun e he => hfunc e (List.mem_cons_of_mem _ he)) hrs x hx

/-- Every global is added once. -/
theorem initGlobals_length {gs : List Global} {globals out : List Val}
    (h : initGlobals P gs globals = .ok out) : out.length = globals.length + gs.length := by
  induction gs generalizing globals with
  | nil => cases h; rfl
  | cons g gs ih =>
      obtain ⟨v, -, h⟩ := Res.bind_eq_ok.mp h
      rw [ih h, List.length_append, List.length_singleton, List.length_cons]
      omega

/-- Each global may read those before it. -/
theorem initGlobals_all (hnull : Q .null) {gs : List Global} :
    ∀ {globals vs : List Val}, (∀ g ∈ gs, ∀ i ∈ g.init, ∀ f, i = .ref_func f → Q (.func f)) →
      (∀ v ∈ globals, v.All Q) → initGlobals P gs globals = .ok vs → ∀ v ∈ vs, v.All Q := by
  induction gs with
  | nil => intro globals vs _ hg h; cases h; exact hg
  | cons g gs ih =>
      intro globals vs hfunc hg h
      obtain ⟨v, hv, h⟩ := Res.bind_eq_ok.mp h
      have hall := evalConst_all hnull hg (hfunc g List.mem_cons_self) hv
      exact ih (fun g hg => hfunc g (List.mem_cons_of_mem _ hg))
        (Val.all_append hg (Val.all_cons hall fun v hv => by cases hv)) h

/-- An active segment is written to its table, and a passive one is kept. -/
theorem initElem_holds {n : Nat} (hnull : Q .null) {e : Elem}
    (hfunc : ∀ c ∈ e.init, ∀ i ∈ c, ∀ g, i = .ref_func g → Q (.func g)) (hst : st.Holds Q n)
    (h : initElem P e st = .ok st') : st'.Holds Q n := by
  obtain ⟨rs, hrs, h⟩ := Res.bind_eq_ok.mp h
  have hall := evalRefs_all hnull hst.all.globals hfunc hrs
  have hadd : ∀ {st : Store} {rs : List Ref}, st.Holds Q n → (∀ r ∈ rs, Q r) →
      Store.Holds Q n { st with elems := st.elems ++ [rs] } := by
    intro st rs hst hrs
    refine ⟨⟨hst.all.tables, hst.all.globals, ?_, hst.all.exns⟩, hst.globals⟩
    intro x hx
    rcases List.mem_append.mp hx with hx | hx
    · exact hst.all.elems x hx
    · cases List.mem_singleton.mp hx
      exact hrs
  have hnone : ∀ r ∈ ([] : List Ref), Q r := fun r hr => by cases hr
  split at h
  · cases h
    exact hadd hst hall
  · cases h
    exact hadd hst hnone
  · rename_i t offset _
    obtain ⟨d, -, h⟩ := Res.bind_eq_ok.mp h
    obtain ⟨st₁, hwrite, h⟩ := Res.bind_eq_ok.mp h
    cases h
    refine hadd ?_ hnone
    unfold Store.writeTable at hwrite
    split at hwrite
    · cases hwrite
    · rename_i table ht
      obtain ⟨elems, he, rfl⟩ := Option.map_eq_some_iff.mp (Res.ofTrap_eq_ok.mp hwrite)
      refine ⟨hst.all.setTable t ?_, hst.globals⟩
      intro r hr
      exact (mem_of_splice he hr).elim (hst.all.table ht r) (hall r)

/-- Element segments, one after the other. -/
theorem initElems_holds {n : Nat} (hnull : Q .null) {es : List Elem} :
    ∀ {st : Store}, (∀ e ∈ es, ∀ c ∈ e.init, ∀ i ∈ c, ∀ g, i = .ref_func g → Q (.func g)) →
      st.Holds Q n → initElems P es st = .ok st' → st'.Holds Q n := by
  induction es with
  | nil => intro st _ hst h; cases h; exact hst
  | cons e es ih =>
      intro st hfunc hst h
      obtain ⟨st₁, he, h⟩ := Res.bind_eq_ok.mp h
      exact ih (fun e he => hfunc e (List.mem_cons_of_mem _ he))
        (initElem_holds hnull (hfunc e List.mem_cons_self) hst he) h

/-- Data segments hold no references. -/
theorem initDatas_holds {n : Nat} {ds : List Data} :
    ∀ {st : Store}, st.Holds Q n → initDatas P ds st = .ok st' → st'.Holds Q n := by
  induction ds with
  | nil => intro st hst h; cases h; exact hst
  | cons d ds ih =>
      intro st hst h
      obtain ⟨st₁, hd, h⟩ := Res.bind_eq_ok.mp h
      refine ih ?_ h
      unfold initData at hd
      split at hd
      · cases hd
        exact ⟨⟨hst.all.tables, hst.all.globals, hst.all.elems, hst.all.exns⟩, hst.globals⟩
      · rename_i i offset _
        obtain ⟨k, -, hd⟩ := Res.bind_eq_ok.mp hd
        obtain ⟨st₂, hwrite, hd⟩ := Res.bind_eq_ok.mp hd
        cases hd
        unfold Store.writeMem at hwrite
        split at hwrite
        · cases hwrite
        · obtain ⟨bytes, -, rfl⟩ := Option.map_eq_some_iff.mp (Res.ofTrap_eq_ok.mp hwrite)
          have hmem := hst.all.setMem i bytes
          exact ⟨⟨hmem.tables, hmem.globals, hmem.elems, hmem.exns⟩, hst.globals⟩

/-- The store of a module without imports but functions starts with the references its
constant expressions make. -/
theorem instantiate_holds {m : Module} (hnull : Q .null)
    (hglobals : ∀ g ∈ m.globals, ∀ i ∈ g.init, ∀ f, i = .ref_func f → Q (.func f))
    (helems : ∀ e ∈ m.elems, ∀ c ∈ e.init, ∀ i ∈ c, ∀ g, i = .ref_func g → Q (.func g))
    (h : m.instantiate P ⟨[], [], [], []⟩ = .ok st) : st.Holds Q m.globals.length := by
  obtain ⟨globals, hg, h⟩ := Res.bind_eq_ok.mp h
  obtain ⟨st₁, he, hd⟩ := Res.bind_eq_ok.mp h
  have hall := initGlobals_all hnull hglobals (fun v hv => by cases hv) hg
  refine initDatas_holds (initElems_holds hnull helems ⟨⟨?_, hall, ?_, ?_⟩, ?_⟩ he) hd
  · intro t ht r hr
    obtain ⟨type, -, rfl⟩ := List.mem_map.mp ht
    cases List.eq_of_mem_replicate hr
    exact hnull
  · intro e he
    cases he
  · intro e he
    cases he
  · rw [Module.allocate, initGlobals_length hg, List.length_nil, Nat.zero_add]

end

end Wasm
