import CapnpcWasm.Rewriter.Unchecked
import CapnpcWasm.Wasm.Values

/-!
# A stop is final

The instrumented instance holds no reference to an import: every one that is used as a
value is that of a thunk.  So code reaches an import only by a direct call, and behind
that stands a check, or `unreachable` behind `proc_exit`.  Once the host has set the
countdown to zero during such a call and answers the next poll with one, the check traps.
-/

namespace Rewriter

open Wasm
open Run (Next Steps Halts)

/-! ## No reference to an import -/

/-- A reference to none of the first `imports` functions. -/
def NotImport (imports : Nat) (r : Ref) : Prop := ∀ g, r = .func g → imports ≤ g

section

variable {m m' : Module} {maximum interval : Nat} (hi : Instruments m m' maximum interval)

include hi

/-- A function used as a value is none of the imports, where there is code to call it. -/
theorem reference_notImport (hfuncs : m.funcs ≠ []) {f : Nat}
    (hf : f ∈ (contextOf m interval).thunkImports ∨ f ∈ references m) :
    NotImport m'.importedFunctions.length (.func ((contextOf m interval).reference f)) := by
  intro g hg
  cases hg
  rw [hi.length_importedFunctions]
  unfold Context.reference
  split
  · rename_i hle
    rw [contextOf_importedFunctions] at hle
    omega
  · rename_i hlt
    have hmem : f ∈ (contextOf m interval).thunkImports := by
      rcases hf with hf | hf
      · exact hf
      · have hempty : m.funcs.isEmpty = false := by
          cases hfs : m.funcs with
          | nil => exact absurd hfs hfuncs
          | cons => rfl
        simp only [contextOf, hempty, Bool.false_eq_true, if_false]
        exact mem_escaping.mpr ⟨Nat.not_le.mp hlt, hf⟩
    rw [((Context.thunkOf_eq_some _).mpr ⟨hmem, rfl⟩ :), Option.getD_some,
      contextOf_importedFunctions]
    omega

/-- The references a constant expression of the instrumented module makes. -/
theorem constant_notImport (hfuncs : m.funcs ≠ []) {e : ConstExpr}
    (he : ∀ f ∈ constantRefs e, f ∈ references m) :
    ∀ i ∈ constant (contextOf m interval) e, ∀ g, i = .ref_func g →
      NotImport m'.importedFunctions.length (.func g) := by
  intro i hmem g hg
  obtain ⟨j, hj, rfl⟩ := List.mem_map.mp hmem
  cases j with
  | ref_func f =>
      cases hg
      exact reference_notImport hi hfuncs (.inr (he f (List.mem_filterMap.mpr ⟨_, hj, rfl⟩)))
  | _ => cases hg

theorem globals_notImport (hfuncs : m.funcs ≠ []) : ∀ g ∈ m'.globals, ∀ i ∈ g.init,
    ∀ f, i = .ref_func f → NotImport m'.importedFunctions.length (.func f) := by
  intro g hg
  rw [hi.globals] at hg
  rcases List.mem_append.mp hg with hg | hg
  · obtain ⟨g₀, hg₀, rfl⟩ := List.mem_map.mp hg
    refine constant_notImport hi hfuncs fun f hf => ?_
    exact List.mem_append_left _ (List.mem_append_left _ (List.mem_flatMap.mpr ⟨g₀, hg₀, hf⟩))
  · cases List.mem_singleton.mp hg
    intro i hmem f hf
    cases List.mem_singleton.mp hmem
    cases hf

theorem elems_notImport (hfuncs : m.funcs ≠ []) : ∀ e ∈ m'.elems, ∀ c ∈ e.init, ∀ i ∈ c,
    ∀ f, i = .ref_func f → NotImport m'.importedFunctions.length (.func f) := by
  intro e he c hc
  rw [hi.elems] at he
  rcases List.mem_append.mp he with he | he
  · obtain ⟨e₀, he₀, rfl⟩ := List.mem_map.mp he
    obtain ⟨c₀, hc₀, rfl⟩ := List.mem_map.mp hc
    refine constant_notImport hi hfuncs fun f hf => ?_
    exact List.mem_append_right _ (List.mem_flatMap.mpr
      ⟨e₀, he₀, List.mem_append_right _ (List.mem_flatMap.mpr ⟨c₀, hc₀, hf⟩)⟩)
  · unfold declareThunks at he
    split at he
    · cases he
    · cases List.mem_singleton.mp he
      obtain ⟨f, hf, rfl⟩ := List.mem_map.mp hc
      intro i hmem g hg
      cases List.mem_singleton.mp hmem
      cases hg
      exact reference_notImport hi hfuncs (.inl hf)

/-- `ref.func` makes no reference to an import. -/
theorem code_notImport : ∀ f ∈ m'.funcs, ∀ i ∈ f.body, ∀ g, i = .ref_func g →
    NotImport m'.importedFunctions.length (.func g) := by
  intro f hf i hmem g hg x hx
  cases hx
  subst hg
  obtain ⟨js, hplaced⟩ := (hi.checked hf).placed.mem hmem
  rw [hi.length_importedFunctions]
  exact hplaced

end

/-! ## The lives of an instance -/

section

variable {σ : Type} {m m' : Module} {P : Prims} {h : Host σ} {maximum interval : Nat}

/-- The worlds an instance without imports but functions comes to: it is instantiated,
then called from outside, with no reference to an import, any number of times. -/
inductive Lives (m : Module) (P : Prims) (h : Host σ) : World σ → Prop where
  | start {st : Store} (s : σ) : m.instantiate P ⟨[], [], [], []⟩ = .ok st →
      Lives m P h ⟨st, s, []⟩
  | call {w w' : World σ} {f : Nat} {args : List Val} {o : Outcome} : Lives m P h w →
      (∀ v ∈ args, v.All (NotImport m.importedFunctions.length)) →
      Ends m P h (invoke m h w f args []) (o, w') → Lives m P h w'

theorem notImport_null (n : Nat) : NotImport n .null := by
  intro g hg
  cases hg

theorem notImport_exn (n a : Nat) : NotImport n (.exn a) := by
  intro g hg
  cases hg

/-- What holds of every configuration of a call. -/
theorem call_holds (hi : Instruments m m' maximum interval) {k n : Nat}
    (hh : h.Keeps (NotImport m'.importedFunctions.length)) {w : World σ} {f : Nat}
    {args : List Val} {c₀ c : Config σ}
    (hw : w.store.Holds (NotImport m'.importedFunctions.length) k)
    (ha : ∀ v ∈ args, v.All (NotImport m'.importedFunctions.length))
    (hstart : invoke m' h w f args [] = .more c₀) (hrun : Steps (step m' P h) n c₀ c) :
    c.In m' ∧ c.Holds (NotImport m'.importedFunctions.length) k := by
  have hnone : ∀ fr ∈ ([] : List Frame), fr.All (NotImport m'.importedFunctions.length) :=
    fun fr hfr => by cases hfr
  have hfirst := invoke_leads (m := m') (g := f) hh (notImport_null _) (notImport_exn _) hw hnone ha
  rw [hstart] at hfirst
  have hkeep : ∀ c d : Config σ, c.In m' ∧ c.Holds (NotImport m'.importedFunctions.length) k →
      step m' P h c = .more d → d.In m' ∧ d.Holds (NotImport m'.importedFunctions.length) k := ?_
  · exact Steps.invariant hkeep hrun ⟨invoke_in hstart, hfirst⟩
  rintro c d ⟨hin, hc⟩ hs
  obtain ⟨-, -, -, -, hd⟩ := step_moves hin hs
  have hlead := step_leads (P := P) hh (notImport_null _) (notImport_exn _) (code_notImport hi) hin hc
  rw [hs] at hlead
  exact ⟨hd, hlead⟩

/-- No store an instance comes to holds a reference to an import. -/
theorem Lives.holds (hi : Instruments m m' maximum interval) (hfuncs : m.funcs ≠ [])
    (hh : h.Keeps (NotImport m'.importedFunctions.length)) {w : World σ} (hw : Lives m' P h w) :
    w.store.Holds (NotImport m'.importedFunctions.length) m'.globals.length := by
  induction hw with
  | start s hst =>
      exact instantiate_holds (notImport_null _) (globals_notImport hi hfuncs)
        (elems_notImport hi hfuncs) hst
  | @call w w' f args o _ ha hends ih =>
      have hnone : ∀ fr ∈ ([] : List Frame), fr.All (NotImport m'.importedFunctions.length) :=
        fun fr hfr => by cases hfr
      have hfirst := invoke_leads (m := m') (g := f) hh (notImport_null _) (notImport_exn _) ih hnone ha
      cases hs : invoke m' h w f args [] with
      | halt r =>
          rw [hs] at hends hfirst
          cases hends
          exact hfirst
      | more c₀ =>
          rw [hs] at hends
          obtain ⟨n, c, hrun, hhalt⟩ := hends
          obtain ⟨hin, hc⟩ := call_holds hi hh ih ha hs hrun
          have hlead := step_leads (P := P) hh (notImport_null _) (notImport_exn _)
            (code_notImport hi) hin hc
          rw [hhalt] at hlead
          exact hlead

/-! ## After an import -/

/-- A check at zero that is not answered zero runs no instruction behind itself. -/
theorem check_stops {ctx : Context} {w w' : World σ} {fn n : Nat} {is : List Instr}
    {vs xs : List Val} {ls : List Label} {cs : List Frame} (hp : Polls m ctx) {v : BitVec 32}
    (hv : v ≠ 0) (hc : w.store.globals[ctx.counter]? = some (.i32 0))
    (hcall : hostCall m h w ctx.interrupt [] = (w', .ret [.i32 v])) {k : Nat} {e : Config σ}
    (hrun : Steps (step m P h) k ⟨w, ⟨fn, ctx.check ++ is, vs, ls, xs, n⟩, cs⟩ e) :
    ∃ j, j ≤ 5 ∧ e.top.code = ctx.check.drop j ++ is ∧ e.callers = cs := by
  rcases hrun.of_more (step_global_get hc) with rfl | ⟨_, hrun⟩
  · exact ⟨0, by decide, rfl, rfl⟩
  rcases hrun.of_more step_i32_eqz with rfl | ⟨_, hrun⟩
  · exact ⟨1, by decide, rfl, rfl⟩
  rcases hrun.of_more (step_if_then (by decide) rfl) with rfl | ⟨_, hrun⟩
  · exact ⟨2, by decide, rfl, rfl⟩
  rcases hrun.of_more (step_interrupt hp hcall) with rfl | ⟨_, hrun⟩
  · exact ⟨3, by decide, rfl, rfl⟩
  rcases hrun.of_more (step_if_then hv rfl) with rfl | ⟨_, hrun⟩
  · exact ⟨4, by decide, rfl, rfl⟩
  rw [hrun.of_halt step_unreachable]
  exact ⟨5, by decide, rfl, rfl⟩

/-- What the host sets the countdown to. -/
theorem absorb_countdown (hi : Instruments m m' maximum interval) {st : Store} {ans : Answer σ}
    {v : BitVec 32} (hlen : st.globals.length = (contextOf m interval).counter + 1)
    (hset : ans.countdown = some v) :
    (m'.absorb st ans).globals[(contextOf m interval).counter]? = some (.i32 v) := by
  have hvis : m'.visibleGlobals st = (contextOf m interval).counter := by
    rw [Module.visibleGlobals, hi.countdown?, Option.getD_some]
  have htake : (st.globals.take (contextOf m interval).counter).length =
      (contextOf m interval).counter := by
    rw [List.length_take, hlen]
    omega
  simp only [Module.absorb, hvis, hset]
  rw [List.getElem?_append_right (Nat.le_of_eq (by rw [overwrite_length, htake])), overwrite_length, htake,
    Nat.sub_self, List.getElem?_set_self]
  rw [List.length_drop, hlen]
  omega

/-- A direct call of an import is followed by what stops it. -/
theorem call_placed (hi : Instruments m m' maximum interval) {c : Config σ} {g : Nat} {i : Instr}
    {is : List Instr} (hin : c.In m')
    (hc : c.Holds (NotImport m'.importedFunctions.length) m'.globals.length)
    (hg : g < m.importedFunctions.length) (hcode : c.top.code = i :: is)
    (hcalls : Calls c.world.store c.top.stack i g) :
    i = .call g ∧ ∃ js, is = (contextOf m interval).afterImport g ++ js := by
  obtain ⟨f, -, hf, hw⟩ := hin.1
  have hplaced : Placed (contextOf m interval) i is :=
    (hi.checked (List.mem_of_getElem? hf)).placed.suffix (hcode ▸ hw.code)
  have himport : ¬ NotImport m'.importedFunctions.length (.func g) := by
    intro hnot
    have := hnot g rfl
    rw [hi.length_importedFunctions] at this
    omega
  cases i with
  | call f =>
      cases hcalls
      exact ⟨rfl, hplaced hg⟩
  | return_call f =>
      cases hcalls
      have hlt : m.importedFunctions.length < g := hplaced
      omega
  | call_indirect type t | return_call_indirect type t =>
      obtain ⟨table, htable, hmem⟩ := hcalls
      exact absurd (hc.store.all.tables table htable _ hmem) himport
  | call_ref type | return_call_ref type => exact absurd (hc.top.stack _ hcalls) himport
  | _ => exact hcalls.elim

/-- A stop is final.  Once the host, in a call of an import that returns, has set the
countdown to zero and will answer the next poll with one, the instance traps, and before
that it executes nothing but the check that follows the call, or `unreachable`. -/
theorem stop_is_final {w : World σ} {f n g : Nat} {name : ImportName} {args₀ args vs : List Val}
    {c₀ c d : Config σ} (hm : instrument m maximum interval = some m')
    (himports : ∀ im ∈ m.imports, ∃ type, im.desc = .func type)
    (hh : h.Keeps (NotImport m'.importedFunctions.length)) (hw : Lives m' P h w)
    (hargs : ∀ v ∈ args₀, v.All (NotImport m'.importedFunctions.length))
    (hstart : invoke m' h w f args₀ [] = .more c₀) (hrun : Steps (step m' P h) n c₀ c)
    (hstep : step m' P h c = .more d) (hg : g < m.importedFunctions.length)
    (hlog : d.world.log = c.world.log ++ [⟨.imported g name, args⟩])
    (hret : (h.call c.world.host (.imported g name) args (m'.view c.world.store)).reply = .ret vs)
    (hset : (h.call c.world.host (.imported g name) args (m'.view c.world.store)).countdown =
      some 0)
    (hpoll : ∀ v, (h.call d.world.host (contextOf m interval).interrupt [] v).reply =
      .ret [.i32 1]) :
    ∃ seq rest, (seq = [.unreachable] ∨ seq = (contextOf m interval).check) ∧
      d.top.code = seq ++ rest ∧ (∃ w', Halts (step m' P h) d (.trap, w')) ∧
      ∀ k e, Steps (step m' P h) k d e →
        ∃ j, j < seq.length ∧ e.top.code = seq.drop j ++ rest ∧ e.callers = d.callers := by
  have hi := Instruments.of_instrument hm
  have hfuncs : m.funcs ≠ [] := by
    -- the running function is one of the module
    obtain ⟨f', -, hf', -⟩ := (invoke_in hstart).1
    intro hnil
    have hlen := hi.length_funcs
    have hthunks : (contextOf m interval).thunkImports = [] := by simp [contextOf, hnil]
    rw [hnil, hthunks] at hlen
    rw [List.length_eq_zero_iff.mp hlen] at hf'
    cases hf'
  obtain ⟨hin, hc⟩ := call_holds hi hh (hw.holds hi hfuncs hh) hargs hstart hrun
  obtain ⟨i, is, frames, type, hcode, hcalls, hwaits, hcall⟩ := step_calls hstep hlog
  obtain ⟨rfl, rest, hrest⟩ := call_placed hi hin hc hg hcode hcalls
  obtain ⟨stack, -, hframes⟩ := hwaits
  have hglobals : m.importedGlobals = [] := by
    refine List.filterMap_eq_nil_iff.mpr fun im him => ?_
    obtain ⟨type, htype⟩ := himports im him
    rw [htype]
    rfl
  have hlen : c.world.store.globals.length = (contextOf m interval).counter + 1 := by
    rw [hc.store.globals, hi.globals, contextOf_counter, hglobals]
    simp
  have hcountdown := absorb_countdown hi hlen hset
  -- the frame of the call goes on behind it
  obtain ⟨w₁, hw₁, hd⟩ : ∃ w₁, w₁.store.globals[(contextOf m interval).counter]? = some (.i32 0) ∧
      d = ⟨w₁, { c.top with code := is, stack := vs.reverse ++ stack }, c.callers⟩ := by
    unfold callHost hostCall at hcall
    simp only [hret, hframes] at hcall
    split at hcall
    · cases hcall
      exact ⟨_, hcountdown, rfl⟩
    · cases hcall
  subst hd hrest
  refine ⟨(contextOf m interval).afterImport g, rest, ?_, rfl, ?_⟩
  · unfold Context.afterImport
    split
    · exact .inl rfl
    · exact .inr rfl
  unfold Context.afterImport
  split
  · refine ⟨⟨w₁, .now step_unreachable⟩, fun k e he => ?_⟩
    rw [he.of_halt step_unreachable]
    exact ⟨0, Nat.one_pos, rfl, rfl⟩
  · obtain ⟨w₂, hask⟩ : ∃ w₂, hostCall m' h w₁ (contextOf m interval).interrupt [] =
        (w₂, .ret [.i32 1]) := ⟨_, Prod.ext rfl (hpoll _)⟩
    refine ⟨⟨w₂, check_stopped hi.polls (by decide) hw₁ hask⟩, fun k e he => ?_⟩
    obtain ⟨j, hj, hcode', hcallers⟩ := check_stops hi.polls (by decide) hw₁ hask he
    refine ⟨j, Nat.lt_of_le_of_lt hj ?_, hcode', hcallers⟩
    show 5 < 14
    decide

end

/-- A host that stops the run when the import is called. -/
def stopHost : Host Bool where
  call s fn _ v :=
    match fn, s with
    | .imported 0 _, _ => ⟨true, v, some 0, .ret [.i32 0]⟩
    | _, true => ⟨true, v, none, .ret [.i32 1]⟩
    | _, false => ⟨false, v, none, .ret [.i32 0]⟩
  foreignHas _ _ := false

theorem stopHost_keeps (Q : Ref → Prop) : stopHost.Keeps Q := by
  intro s fn args v _ hv
  have hnum : ∀ c, Reply.All Q (.ret [.i32 c]) := by
    intro c x hx
    cases List.mem_singleton.mp hx
    trivial
  unfold stopHost
  dsimp only
  split
  · exact ⟨hv, hnum 0⟩
  · exact ⟨hv, hnum 1⟩
  · exact ⟨hv, hnum 0⟩

theorem stop_is_final_sample :
    let w : World Bool := ⟨recurStore, false, []⟩
    let c : Config Bool := ⟨w.setGlobal 0 (.i32 999),
      ⟨2, .call 0 :: (recurContext.check ++ recurRest), [], [], [], 0⟩, []⟩
    ∃ d w', Steps (step recurInstrumented samplePrims stopHost) 7 ⟨w, recurStart, []⟩ c ∧
      step recurInstrumented samplePrims stopHost c = .more d ∧
      Halts (step recurInstrumented samplePrims stopHost) d (.trap, w') := by
  intro w c
  have hcountdown : w.store.globals[recurContext.counter]? = some (.i32 1000) := rfl
  have hrun : Steps (step recurInstrumented samplePrims stopHost) 7 ⟨w, recurStart, []⟩ c :=
    check_tick hcountdown (by decide)
  have hcall : step recurInstrumented samplePrims stopHost c =
      callHost recurInstrumented stopHost c.world (.imported 0 ⟨[101], [109]⟩) ⟨[], [.i32]⟩ []
        (⟨2, recurContext.check ++ recurRest, [], [], [], 0⟩ :: []) :=
    exec_call_import (P := samplePrims) (t := 0) rfl rfl popArgs_none
  obtain ⟨d, hd, hlog, hhost⟩ : ∃ d, step recurInstrumented samplePrims stopHost c = .more d ∧
      d.world.log = c.world.log ++ [⟨.imported 0 ⟨[101], [109]⟩, []⟩] ∧ d.world.host = true := by
    rw [hcall]
    exact ⟨_, rfl, rfl, rfl⟩
  have himports : ∀ im ∈ recur.imports, ∃ type, im.desc = .func type := by
    intro im him
    cases List.mem_singleton.mp him
    exact ⟨0, rfl⟩
  have hargs : ∀ v ∈ ([] : List Val), v.All (NotImport recurInstrumented.importedFunctions.length) :=
    fun v hv => by cases hv
  have hstart : invoke recurInstrumented stopHost w 2 [] [] = .more ⟨w, recurStart, []⟩ := rfl
  obtain ⟨seq, rest, -, -, ⟨w', hhalt⟩, -⟩ := stop_is_final recur_instrumented himports
    (stopHost_keeps _) (Lives.start false rfl) hargs hstart hrun hd Nat.one_pos hlog rfl rfl
    (fun v => by rw [hhost]; rfl)
  exact ⟨d, w', hrun, hd, hhalt⟩

end Rewriter
