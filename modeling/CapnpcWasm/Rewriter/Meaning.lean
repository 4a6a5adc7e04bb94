import CapnpcWasm.Rewriter.Simulation
import CapnpcWasm.Rewriter.Instantiation
import CapnpcWasm.Rewriter.Validity

/-!
# Instrumentation preserves meaning

The two instances start in related stores, and a call of the same export with the
same arguments ends the same way in both: one ends if and only if the other does,
with the same values or the same trap, the same calls of the original imports, and the
same memories, tables and globals.
-/

namespace Rewriter

open Wasm
open Run (Next Steps Halts Matches Follows Simulates)

/-! ## Valid modules name what they have -/

section

variable {P : Prims} {m : Module} {limit : Nat}

/-- An instruction of a sequence that checks has a stack of frames it checks in. -/
theorem check_of_checks {C : Env} {is : List Instr} {cs ds : List Ctrl}
    (h : C.checks P is cs = some ds) : ∀ i ∈ is, ∃ cs' ds', C.check P i cs' = some ds' := by
  induction is generalizing cs with
  | nil => nofun
  | cons j is ih =>
      obtain ⟨es, hj, his⟩ := Option.bind_eq_some_iff.mp h
      intro i hi
      rcases List.mem_cons.mp hi with rfl | hi
      · exact ⟨cs, es, hj⟩
      · exact ih his i hi

/-- A typed instruction that checks has a type. -/
theorem sig_of_check {C : Env} {i : Instr} {c : Ctrl} {outer ds : List Ctrl}
    (htyped : C.checkIn P i c outer = C.checkTyped P i c outer)
    (hl : C.leaves i (c :: outer) = none) (h : C.check P i (c :: outer) = some ds) :
    ∃ t, C.sig P i = some t := by
  simp only [Env.check, htyped, Env.checkTyped, hl] at h
  obtain ⟨t, ht, -⟩ := Option.bind_eq_some_iff.mp h
  exact ⟨t, ht⟩

theorem leaves_of_check {C : Env} {i : Instr} {c : Ctrl} {outer ds : List Ctrl}
    (htyped : C.checkIn P i c outer = C.checkTyped P i c outer) (hs : C.sig P i = none)
    (h : C.check P i (c :: outer) = some ds) : ∃ ts, C.leaves i (c :: outer) = some ts := by
  cases hl : C.leaves i (c :: outer) with
  | some ts => exact ⟨ts, rfl⟩
  | none =>
      obtain ⟨t, ht⟩ := sig_of_check htyped hl h
      rw [hs] at ht
      cases ht

theorem lt_of_getElem? {α : Type} {xs : List α} {i : Nat} {a : α} (h : xs[i]? = some a) :
    i < xs.length := (List.getElem?_eq_some_iff.mp h).1

theorem indexed_of_check {t : FuncType} {groups : List (Nat × ValType)} {i : Instr}
    {cs ds : List Ctrl} (h : (m.env t groups).check P i cs = some ds) :
    indexed (t.params.length + declaredLocals groups) m.globalTypes.length m.elems.length i := by
  have hlocals : (m.env t groups).locals.length = t.params.length + declaredLocals groups := by
    simp [Module.env, localTypes_length]
  cases cs with
  | nil => cases h
  | cons c outer =>
      cases i with
      | local_get x | local_set x | local_tee x =>
          obtain ⟨u, hu, -⟩ := Option.bind_eq_some_iff.mp h
          exact hlocals ▸ lt_of_getElem? hu
      | global_get x =>
          obtain ⟨ft, hft⟩ := sig_of_check (i := .global_get x) rfl rfl h
          obtain ⟨g, hg, -⟩ := Option.map_eq_some_iff.mp hft
          exact lt_of_getElem? hg
      | global_set x =>
          obtain ⟨ft, hft⟩ := sig_of_check (i := .global_set x) rfl rfl h
          obtain ⟨g, hg, -⟩ := Option.bind_eq_some_iff.mp hft
          exact lt_of_getElem? hg
      | table_init e u =>
          obtain ⟨ft, hft⟩ := sig_of_check (i := .table_init e u) rfl rfl h
          obtain ⟨g, hg, -⟩ := Option.bind_eq_some_iff.mp hft
          simpa [Module.env, indexed] using lt_of_getElem? hg
      | elem_drop e =>
          obtain ⟨ft, hft⟩ := sig_of_check (i := .elem_drop e) rfl rfl h
          obtain ⟨g, hg, -⟩ := Option.map_eq_some_iff.mp hft
          simpa [Module.env, indexed] using lt_of_getElem? hg
      | _ => trivial

theorem namesType_of_blockType {C : Env} (hC : C.types = m.types) {bt : BlockType} {t : FuncType}
    (h : C.blockType bt = some t) : namesType m bt := by
  cases bt with
  | type i => exact show i < m.types.length from hC ▸ lt_of_getElem? h
  | _ => trivial

theorem names_of_check {t : FuncType} {groups : List (Nat × ValType)} {i : Instr}
    {cs ds : List Ctrl} (h : (m.env t groups).check P i cs = some ds) :
    names m t.results.length i := by
  cases cs with
  | nil => cases h
  | cons c outer =>
      cases i with
      | call f =>
          obtain ⟨ft, hft⟩ := sig_of_check (i := .call f) rfl rfl h
          obtain ⟨type, htype, -⟩ := Option.bind_eq_some_iff.mp hft
          exact lt_of_getElem? htype
      | ref_func f =>
          obtain ⟨ft, hft⟩ := sig_of_check (i := .ref_func f) rfl rfl h
          obtain ⟨type, htype, -⟩ := Option.bind_eq_some_iff.mp hft
          exact lt_of_getElem? htype
      | return_call f =>
          obtain ⟨ts, hts⟩ := leaves_of_check (i := .return_call f) rfl rfl h
          obtain ⟨ft, hft, hts⟩ := Option.bind_eq_some_iff.mp hts
          obtain ⟨hm, -⟩ := Option.ite_none_right_eq_some.mp hts
          obtain ⟨type, htype, -⟩ := Option.bind_eq_some_iff.mp hft
          refine ⟨lt_of_getElem? htype, fun u hu => ?_⟩
          cases hu.symm.trans hft
          simp only [matchesAll, Bool.and_eq_true, beq_iff_eq] at hm
          exact hm.1
      | call_indirect type u =>
          obtain ⟨ft, hft⟩ := sig_of_check (i := .call_indirect type u) rfl rfl h
          obtain ⟨u, hu, -⟩ := Option.bind_eq_some_iff.mp hft
          exact lt_of_getElem? hu
      | call_ref type =>
          obtain ⟨ft, hft⟩ := sig_of_check (i := .call_ref type) rfl rfl h
          obtain ⟨u, hu, -⟩ := Option.bind_eq_some_iff.mp hft
          exact lt_of_getElem? hu
      | return_call_indirect type u =>
          obtain ⟨ts, hts⟩ := leaves_of_check (i := .return_call_indirect type u) rfl rfl h
          obtain ⟨u, hu, -⟩ := Option.bind_eq_some_iff.mp hts
          exact lt_of_getElem? hu
      | return_call_ref type =>
          obtain ⟨ts, hts⟩ := leaves_of_check (i := .return_call_ref type) rfl rfl h
          obtain ⟨u, hu, -⟩ := Option.bind_eq_some_iff.mp hts
          exact lt_of_getElem? hu
      | block bt | loop bt | «try» bt =>
          obtain ⟨u, hu, -⟩ := Option.bind_eq_some_iff.mp h
          exact namesType_of_blockType rfl hu
      | «if» bt =>
          obtain ⟨_, -, h⟩ := Option.bind_eq_some_iff.mp h
          obtain ⟨u, hu, -⟩ := Option.bind_eq_some_iff.mp h
          exact namesType_of_blockType rfl hu
      | try_table bt clauses =>
          obtain ⟨u, hu, -⟩ := Option.bind_eq_some_iff.mp h
          exact namesType_of_blockType rfl hu
      | throw x =>
          obtain ⟨ts, hts⟩ := leaves_of_check (i := .throw x) rfl rfl h
          obtain ⟨u, hu, -⟩ := Option.map_eq_some_iff.mp hts
          obtain ⟨type, htype, hu⟩ := Option.bind_eq_some_iff.mp hu
          obtain ⟨v, hv, -⟩ := Option.bind_eq_some_iff.mp hu
          intro type' htype'
          cases htype'.symm.trans htype
          exact lt_of_getElem? hv
      | _ => trivial

/-- The code of a valid module names what the module has. -/
theorem wellIndexed_of_valid (hv : m.Valid P limit) : WellIndexed m := by
  intro f hf t ht i hi
  have hok := hv.funcs
  rw [List.all_eq_true] at hok
  have hf := hok f hf
  simp only [Module.funcOk, ht, Bool.and_eq_true, beq_iff_eq] at hf
  obtain ⟨cs, ds, hcheck⟩ := check_of_checks hf.2 i hi
  exact ⟨indexed_of_check hcheck, names_of_check hcheck⟩

/-- The instructions of a constant expression that has a type. -/
theorem constNames_of_constOk {globals : List GlobalType} {e : ConstExpr} {t : ValType}
    (h : m.constOk P globals e t = true) : ∀ i ∈ e, constNames m globals.length i := by
  have htypes : ∀ {e : ConstExpr} {ts us : List ValType}, m.constTypes P globals e ts = some us →
      ∀ i ∈ e, constNames m globals.length i := by
    intro e
    induction e with
    | nil => nofun
    | cons j e ih =>
        intro ts us h i hi
        obtain ⟨ft, hft, h⟩ := Option.bind_eq_some_iff.mp h
        obtain ⟨-, h⟩ := Option.ite_none_right_eq_some.mp h
        rcases List.mem_cons.mp hi with rfl | hi
        · cases i with
          | global_get x =>
              obtain ⟨g, hg, -⟩ := Option.bind_eq_some_iff.mp hft
              exact lt_of_getElem? hg
          | ref_func f =>
              obtain ⟨type, htype, -⟩ := Option.map_eq_some_iff.mp hft
              exact lt_of_getElem? htype
          | _ => trivial
        · exact ih h i hi
  simp only [Module.constOk] at h
  cases hts : m.constTypes P globals e [] with
  | none => simp [hts] at h
  | some us => exact htypes hts

/-- So do its constant expressions. -/
theorem constIndexed_of_valid (hv : m.Valid P limit) : ConstIndexed m := by
  have helems := hv.elems
  have hdatas := hv.datas
  rw [List.all_eq_true] at helems hdatas
  constructor
  · intro g hg f hf
    obtain ⟨i, hi⟩ := List.getElem?_of_mem hg
    have hok := hv.globals i g hi
    rw [Bool.and_eq_true] at hok
    exact constNames_of_constOk hok.2 _ hf
  · intro e he c hc
    have hok := helems e he
    simp only [Module.elemOk, Bool.and_eq_true, List.all_eq_true] at hok
    exact constNames_of_constOk (hok.1.2 c hc)
  · intro e he u offset hmode
    have hok := helems e he
    simp only [Module.elemOk, hmode, Bool.and_eq_true] at hok
    exact constNames_of_constOk hok.2.2
  · intro d hd k offset hmode i hi
    have hok := hdatas d hd
    simp only [Module.dataOk, hmode, Bool.and_eq_true] at hok
    exact ⟨constNames_of_constOk hok.2 i hi, fun f hf => offset_no_ref hok.2 (hf ▸ hi)⟩

end

section

variable {σ : Type} {S : σ → σ → Prop} {m m' : Module} {P : Prims} {h : Host σ}
  {maximum interval : Nat} {w w' : World σ}

/-! ## Calls from outside -/

/-- Where a call of the original leads, the call of the instrumented instance does. -/
theorem entry_led (hi : Instruments m m' maximum interval)
    (hq : QuietHost S h (contextOf m interval)) (hx : WellIndexed m)
    (hw : WorldRel S m maximum interval w w') {f : Nat} (hf : f < m.funcTypes.length)
    (args : List Val) :
    Led S m m' P h maximum interval (invoke m h w f args [])
      (invoke m' h w' ((contextOf m interval).shift f)
        (args.map (Val.rename (contextOf m interval).image)) []) := by
  by_cases hge : m.importedFunctions.length ≤ f
  · rw [Context.shift_of_le _ hge]
    exact invoke_defined hi hx hq hw .nil hge (by simpa [Module.funcTypes] using hf) args
  · have hlt := Nat.not_le.mp hge
    rw [Context.shift_of_lt _ hlt, invoke, invoke, hi.funcType?_of_funcTypes
      (hi.funcTypes_import hlt)]
    cases m.funcType? f with
    | none => exact led_stuck hw
    | some type =>
        simp only [List.length_map]
        split
        · exact led_stuck hw
        · rw [hi.importedFunctions, List.getElem?_append_left hlt, List.getElem?_eq_getElem hlt]
          exact callHost_led hi hq hw (imported_ne hlt _) type args
            fun w₁ w₁' vs hw₁ _ _ => resume_led hw₁ .nil vs

/-! ## The calls a run has made -/

theorem step_log_le (c : Config σ) :
    c.world.log.length ≤ (step m P h c).world.log.length := by
  rcases step_log (m := m) (P := P) (h := h) c with hlog | ⟨call, hlog⟩
  · rw [hlog]
  · rw [hlog, List.length_append]
    omega

/-- A run forgets no call. -/
theorem steps_log_le {n : Nat} {c d : Config σ} (hrun : Steps (step m P h) n c d) :
    c.world.log.length ≤ d.world.log.length := by
  have hstep : ∀ d e, c.world.log.length ≤ d.world.log.length → step m P h d = .more e →
      c.world.log.length ≤ e.world.log.length := by
    intro d e hd hs
    have hle := step_log_le (m := m) (P := P) (h := h) d
    rw [hs] at hle
    exact Nat.le_trans hd hle
  exact hrun.invariant hstep (Nat.le_refl _)

/-- What a step has logged is still there when the run ends. -/
theorem halts_log_le {c : Config σ} {r : Outcome × World σ} (hr : Halts (step m P h) c r) :
    (step m P h c).world.log.length ≤ r.2.log.length := by
  obtain ⟨n, d, hrun, hd⟩ := hr
  cases hrun with
  | refl => rw [hd]; rfl
  | head hs hrun =>
      have hlast := step_log_le (m := m) (P := P) (h := h) d
      rw [hd] at hlast
      rw [hs]
      exact Nat.le_trans (steps_log_le hrun) hlast

/-! ## How two calls compare -/

variable (m maximum interval) in
/-- The same calls of the original imports, and the same memories, tables and globals. -/
structure SameEffects (w w' : World σ) : Prop where
  store : ∃ countdown, w'.store = (changeOf m maximum interval).store countdown w.store
  log : w'.log.filter (fun c => c.fn ≠ (contextOf m interval).interrupt) =
    w.log.map (HostCall.rename (contextOf m interval).image)

variable (m maximum interval) in
/-- The same values or the same trap, with the same effects. -/
structure SameResult (r r' : Outcome × World σ) : Prop where
  outcome : r'.1 = Outcome.rename (contextOf m interval).image r.1
  effects : SameEffects m maximum interval r.2 r'.2

/-- Related results are the same, and leave worlds the next call starts alike in. -/
theorem ResultRel.same {r r' : Outcome × World σ} (hr : ResultRel S m maximum interval r r') :
    SameResult m maximum interval r r' := ⟨hr.outcome, hr.world.store, hr.world.log⟩

variable (m m' P h) in
/-- Of two calls one ends if and only if the other does, with results related by `Rel`. -/
def EndAlike (Rel : Outcome × World σ → Outcome × World σ → Prop) (s s' : Step σ) : Prop :=
  (∀ r, Ends m P h s r → ∃ r', Ends m' P h s' r' ∧ Rel r r') ∧
    ∀ r', Ends m' P h s' r' → ∃ r, Ends m P h s r ∧ Rel r r'

variable (m maximum interval) in
/-- Two worlds of the original that are one to the instrumented instance. -/
def Alike (w₁ w₂ : World σ) : Prop :=
  (changeOf m maximum interval).store 0 w₁.store = (changeOf m maximum interval).store 0 w₂.store ∧
    w₁.log.map (HostCall.rename (contextOf m interval).image) =
      w₂.log.map (HostCall.rename (contextOf m interval).image)

theorem SameEffects.alike {w₁ w₂ w' : World σ} (h₁ : SameEffects m maximum interval w₁ w')
    (h₂ : SameEffects m maximum interval w₂ w') : Alike m maximum interval w₁ w₂ := by
  obtain ⟨cd₁, hs₁⟩ := h₁.store
  obtain ⟨cd₂, hs₂⟩ := h₂.store
  exact ⟨Change.store_congr _ (hs₁.symm.trans hs₂) 0, h₁.log.symm.trans h₂.log⟩

theorem Alike.effects {w₁ w₂ w' : World σ} (ha : Alike m maximum interval w₁ w₂)
    (h₁ : SameEffects m maximum interval w₁ w') : SameEffects m maximum interval w₂ w' := by
  obtain ⟨cd, hs⟩ := h₁.store
  exact ⟨⟨cd, hs.trans (Change.store_congr _ ha.1 cd)⟩, h₁.log.trans ha.2⟩

variable (m P h maximum interval) in
/-- Where the call `s` of the original is misread, it traps from there on, and what the
misread call left is what the trap leaves. -/
def Spared (s : Step σ) : Prop :=
  Stays m P h s fun c => Misreads m P h interval c →
    ∃ w₁, Ends m P h s (.trap, w₁) ∧ Alike m maximum interval (step m P h c).world w₁

/-! ## Calls as they are read -/

variable (m P h interval) in
/-- A call from outside ends with a result, in the original as the rewriter reads it. -/
def EndsRead (s : Step σ) (r : Outcome × World σ) : Prop :=
  match s with
  | .halt r' => r' = r
  | .more c => Halts (readStep m P h interval) c r

theorem endsRead_iff {s : Step σ} (hno : Stays m P h s fun c => ¬ Misreads m P h interval c)
    (r : Outcome × World σ) : EndsRead m P h interval s r ↔ Ends m P h s r := by
  cases s with
  | halt r' => exact Iff.rfl
  | more c => exact Halts.cut_iff fun n d hd => hno c rfl n d hd

/-- As it is read, a call ends in a trap right after it is first misread. -/
theorem endsRead_misreads {c d : Config σ} {n : Nat} (hrun : Steps (step m P h) n c d)
    (hd : Misreads m P h interval d) :
    ∃ k e, k ≤ n ∧ Steps (step m P h) k c e ∧ Misreads m P h interval e ∧
      EndsRead m P h interval (.more c) (.trap, (step m P h e).world) :=
  Halts.of_stops hrun hd

/-- A call of the original as it is read and the call of the instrumented instance end
alike. -/
theorem ends_read {s s' : Step σ}
    (hsim : Simulates (readStep m P h interval) (step m' P h)
      (fun c => (changeOf m maximum interval).Below c.world.store)
      (ConfigRel S m maximum interval) (ResultRel S m maximum interval))
    (hled : Led S m m' P h maximum interval s s')
    (hb : Stays m P h s fun c => (changeOf m maximum interval).Below c.world.store) :
    (∀ r, EndsRead m P h interval s r →
        ∃ r', Ends m' P h s' r' ∧ ResultRel S m maximum interval r r') ∧
      ∀ r', Ends m' P h s' r' →
        ∃ r, EndsRead m P h interval s r ∧ ResultRel S m maximum interval r r' := by
  cases hled with
  | @more n d d' e' hn hr =>
      have hgood : ∀ k e, Steps (readStep m P h interval) k d e → 0 < k →
          (changeOf m maximum interval).Below e.world.store :=
        fun k e he _ => hb d rfl k e he.of_cut
      constructor
      · intro r hr₁
        obtain ⟨r', hr', hrel⟩ := hsim.halts hr hgood hr₁
        exact ⟨r', hr'.of_steps hn, hrel⟩
      · intro r' hr'
        exact hsim.halts_back hr hgood (Halts.after hn hr')
  | @halt r r' hr =>
      exact ⟨fun r₁ h₁ => ⟨r', rfl, h₁ ▸ hr⟩, fun r₁ h₁ => ⟨r, rfl, h₁ ▸ hr⟩⟩
  | @late r r' d' hd hr =>
      exact ⟨fun r₁ h₁ => ⟨r', hd, h₁ ▸ hr⟩, fun r₁ h₁ => ⟨r, rfl, Halts.unique hd h₁ ▸ hr⟩⟩

/-- A call that is never misread ends as the call of the instrumented instance does. -/
theorem ends_related {s s' : Step σ}
    (hread : (∀ r, EndsRead m P h interval s r →
        ∃ r', Ends m' P h s' r' ∧ ResultRel S m maximum interval r r') ∧
      ∀ r', Ends m' P h s' r' →
        ∃ r, EndsRead m P h interval s r ∧ ResultRel S m maximum interval r r')
    (hno : Stays m P h s fun c => ¬ Misreads m P h interval c) :
    EndAlike m m' P h (ResultRel S m maximum interval) s s' := by
  constructor
  · exact fun r hr => hread.1 r ((endsRead_iff hno r).mpr hr)
  · intro r' hr'
    obtain ⟨r, hr, hrel⟩ := hread.2 r' hr'
    exact ⟨r, (endsRead_iff hno r).mp hr, hrel⟩

theorem EndAlike.mono {Rel Rel' : Outcome × World σ → Outcome × World σ → Prop}
    {s s' : Step σ} (hrel : ∀ r r', Rel r r' → Rel' r r') (h₁ : EndAlike m m' P h Rel s s') :
    EndAlike m m' P h Rel' s s' := by
  constructor
  · intro r hr
    obtain ⟨r', hr', hrr⟩ := h₁.1 r hr
    exact ⟨r', hr', hrel r r' hrr⟩
  · intro r' hr'
    obtain ⟨r, hr, hrr⟩ := h₁.2 r' hr'
    exact ⟨r, hr, hrel r r' hrr⟩

theorem ends_unique {s : Step σ} {r₁ r₂ : Outcome × World σ} (h₁ : Ends m P h s r₁)
    (h₂ : Ends m P h s r₂) : r₁ = r₂ := by
  cases s with
  | halt r => exact h₁.symm.trans h₂
  | more c => exact Halts.unique h₁ h₂

/-- The two calls come to the same exactly where the original is spared. -/
theorem endAlike_iff_spared {s s' : Step σ}
    (hread : (∀ r, EndsRead m P h interval s r →
        ∃ r', Ends m' P h s' r' ∧ ResultRel S m maximum interval r r') ∧
      ∀ r', Ends m' P h s' r' →
        ∃ r, EndsRead m P h interval s r ∧ ResultRel S m maximum interval r r') :
    EndAlike m m' P h (SameResult m maximum interval) s s' ↔
      Spared m P h maximum interval s := by
  constructor
  · rintro hsame c rfl n d hd hmis
    obtain ⟨k, e, hk, he, hmise, hend⟩ := endsRead_misreads hd hmis
    obtain ⟨r', hr', hrel⟩ := hread.1 _ hend
    obtain ⟨⟨o, w₁⟩, hr, hout, heff⟩ := hsame.2 r' hr'
    have htrap : o = .trap := by
      rw [hrel.outcome] at hout
      cases o <;> first | rfl | cases hout
    subst htrap
    have halike := hrel.same.effects.alike heff
    rcases Nat.lt_or_eq_of_le hk with hlt | rfl
    · -- a later misread call would be one more in the log
      exfalso
      have hlen : (step m P h e).world.log.length = w₁.log.length := by
        simpa using congrArg List.length halike.2
      obtain ⟨f, name, args, -, -, -, hlog, -⟩ := hmis
      have hd₁ : (step m P h d).world.log.length = d.world.log.length + 1 := by
        rw [hlog, List.length_append, List.length_singleton]
      have hlast : (step m P h d).world.log.length ≤ w₁.log.length :=
        halts_log_le (Halts.after hd hr)
      have hrest := he.split hd hk
      obtain ⟨j, hj⟩ : ∃ j, n - k = j + 1 := ⟨n - k - 1, by omega⟩
      rw [hj] at hrest
      cases hrest with
      | head hs hrest =>
          have hle := steps_log_le hrest
          rw [hs] at hlen
          simp only [Step.world] at hlen
          omega
    · cases hd.unique he
      exact ⟨w₁, hr, halike⟩
  · intro hspared
    by_cases hmis : ∃ c n d, s = .more c ∧ Steps (step m P h) n c d ∧ Misreads m P h interval d
    · obtain ⟨c, n, d, rfl, hd, hmis⟩ := hmis
      obtain ⟨k, e, -, he, hmise, hend⟩ := endsRead_misreads hd hmis
      obtain ⟨r', hr', hrel⟩ := hread.1 _ hend
      obtain ⟨w₁, hw₁, halike⟩ := hspared c rfl k e he hmise
      have hsame : SameResult m maximum interval (.trap, w₁) r' :=
        ⟨hrel.outcome, halike.effects hrel.same.effects⟩
      exact ⟨fun r hr => ⟨r', hr', ends_unique hw₁ hr ▸ hsame⟩,
        fun r₁' hr₁' => ⟨_, hw₁, ends_unique hr' hr₁' ▸ hsame⟩⟩
    · refine EndAlike.mono (fun _ _ hr => hr.same) (ends_related hread ?_)
      exact fun c hc n d hd hd' => hmis ⟨c, n, d, hc, hd, hd'⟩

/-! ## The instrumented instance -/

/-- An export keeps its name and its kind. -/
theorem exported?_shift (hi : Instruments m m' maximum interval) (name : List UInt8) :
    m'.exported? name = (m.exported? name).map (contextOf m interval).shift := by
  have hkeep : ∀ e : Export, (if e.kind = .func then
      { e with index := (contextOf m interval).shift e.index } else e).name = e.name ∧
      (if e.kind = .func then
        { e with index := (contextOf m interval).shift e.index } else e).kind = e.kind := by
    intro e
    split <;> exact ⟨rfl, rfl⟩
  simp only [Module.exported?, hi.exports, List.find?_append, List.find?_map, Function.comp_def,
    hkeep]
  cases he : m.exports.find? fun e => e.name == name && e.kind == .func with
  | none => simp
  | some e =>
      have hk := List.find?_some he
      simp only [Bool.and_eq_true, beq_iff_eq] at hk
      simp [hk.2]

variable (S m m' P h maximum interval) in
/-- A call of `f` in the original and one of `f'` in the instrumented instance, with the
same arguments, come to the same exactly where the original is spared: one ends if the
other does, with the same values or the same trap, after the same calls of the original
imports, in the same store.  Where it is never misread they also leave worlds that are
alike for the next call. -/
def CallsAgree (w w' : World σ) (f f' : Nat) : Prop :=
  ∀ args, Stays m P h (invoke m h w f args [])
      (fun c => (changeOf m maximum interval).Below c.world.store) →
    let s := invoke m h w f args []
    let s' := invoke m' h w' f' (args.map (Val.rename (contextOf m interval).image)) []
    (EndAlike m m' P h (SameResult m maximum interval) s s' ↔ Spared m P h maximum interval s) ∧
      (Stays m P h s (fun c => ¬ Misreads m P h interval c) →
        EndAlike m m' P h (ResultRel S m maximum interval) s s')

/-- Instrumentation preserves the meaning of what is not misread: the instances start
alike, and in worlds that are alike every export and the start function do the same
exactly where the original is spared. -/
theorem instrument_preserves_meaning {limit : Nat} (hm : instrument m maximum interval = some m')
    (hv : m.Valid P limit) (hq : QuietHost S h (contextOf m interval)) :
    (∀ ext : Externs, ext.Fits m →
      m'.instantiate P (renameExterns (contextOf m interval).image ext) =
          (m.instantiate P ext).map ((changeOf m maximum interval).store (.ofNat 32 interval)) ∧
        ∀ st, m.instantiate P ext = .ok st → ∀ s s', S s s' →
          WorldRel S m maximum interval ⟨st, s, []⟩
            ⟨(changeOf m maximum interval).store (.ofNat 32 interval) st, s', []⟩) ∧
    ∀ w w', WorldRel S m maximum interval w w' →
      (∀ name f, m.exported? name = some f → ∃ f', m'.exported? name = some f' ∧
        CallsAgree S m m' P h maximum interval w w' f f') ∧
      (∀ f, m.start = some f → ∃ f', m'.start = some f' ∧
        CallsAgree S m m' P h maximum interval w w' f f') := by
  have hi := Instruments.of_instrument hm
  have hx := wellIndexed_of_valid hv
  have hagree : ∀ w w', WorldRel S m maximum interval w w' → ∀ f, f < m.funcTypes.length →
      CallsAgree S m m' P h maximum interval w w' f ((contextOf m interval).shift f) := by
    intro w w' hw f hf args hb
    have hread := ends_read (simulates hi hq hx) (entry_led hi hq hx hw hf args) hb
    exact ⟨endAlike_iff_spared hread, ends_related hread⟩
  refine ⟨fun ext hext => ⟨instantiate_store hi (constIndexed_of_valid hv) hext, ?_⟩, ?_⟩
  · intro st hst s s' hs
    obtain ⟨hg, he⟩ := instantiate_lengths hext hst
    exact ⟨⟨_, rfl⟩, hs, rfl, hg, he⟩
  · refine fun w w' hw => ⟨fun name f hf => ?_, fun f hf => ?_⟩
    · refine ⟨_, by rw [exported?_shift hi, hf, Option.map_some], hagree w w' hw f ?_⟩
      obtain ⟨e, he, rfl⟩ := Option.map_eq_some_iff.mp hf
      have hok := hv.exports
      rw [List.all_eq_true] at hok
      have hlt := hok e (List.mem_of_find?_eq_some he)
      have hk := List.find?_some he
      simp only [Bool.and_eq_true, beq_iff_eq] at hk
      simpa [Module.exportOk, hk.2] using hlt
    · refine ⟨_, by rw [hi.start, hf, Option.map_some], hagree w w' hw f ?_⟩
      obtain ⟨type, htype, -⟩ := Option.bind_eq_some_iff.mp (hv.start f hf)
      exact lt_of_getElem? htype

end

/-! ## The sample -/

theorem sampleHost_quiet (ctx : Context) : QuietHost (fun _ _ => True) sampleHost ctx where
  handles _ _ fn args v _ _ := by
    refine ⟨rfl, ?_, trivial⟩
    cases fn with
    | «foreign» f => rfl
    | imported f name =>
        simp only [sampleHost]
        split
        · rfl
        · split <;> rfl
  returns _ fn _ _ _ := by
    cases fn with
    | «foreign» f => simp [sampleHost]
    | imported f name =>
        simp only [sampleHost]
        split
        · nofun
        · split <;> nofun
  exits _ _ _ _ := by simp [sampleHost]
  passes _ _ v _ := by
    refine ⟨?_, rfl, trivial⟩
    have hne : interruptImport ≠ procExit := by decide +kernel
    simp [sampleHost, Context.interrupt, hne]

/-- Its only function, called from outside. -/
def sampleStart : Config Unit where
  world := sampleWorld
  top := { fn := 1, code := (sample.funcs.map (·.body)).flatten, stack := [], labels := [],
           locals := [.num (.i64 0)], arity := 1 }
  callers := []

theorem sample_result :
    (Run.resultIn (step sample samplePrims sampleHost) 20 sampleStart).map (·.1) =
      some .trap := by decide +kernel

/-- A run that keeps the memory of the samples stays below any maximum. -/
theorem stays_below {m : Module} {c : Config Unit} {n interval : Nat} {r : Outcome × World Unit}
    (hr : Run.resultIn (step m samplePrims sampleHost) n c = some r)
    (hmems : ∀ d ∈ Run.trace (step m samplePrims sampleHost) n c,
      d.world.store.mems = [⟨[], none⟩]) :
    Stays m samplePrims sampleHost (.more c)
      (fun d => (changeOf m 16 interval).Below d.world.store) := by
  intro c₁ hc k d hd mem hget
  cases hc
  rw [hmems d (Run.mem_trace hr hd)] at hget
  obtain ⟨i, hi⟩ : ∃ i, (changeOf m 16 interval).memory = i := ⟨_, rfl⟩
  rw [hi] at hget
  cases i with
  | zero =>
      cases hget
      exact Nat.zero_le _
  | succ i => cases hget

theorem instrument_preserves_meaning_sample :
    let m' := (instrument sample 16 1000).get sample_instrumented
    let w' : World Unit := ⟨(changeOf sample 16 1000).store 1000 sampleStore, (), []⟩
    ∃ f w₁ r', m'.exported? [114] = some f ∧
      Ends sample samplePrims sampleHost (invoke sample sampleHost sampleWorld 1 [] [])
        (.trap, w₁) ∧
      Ends m' samplePrims sampleHost (invoke m' sampleHost w' f [] []) r' ∧
      ResultRel (fun _ _ => True) sample 16 1000 (.trap, w₁) r' := by
  intro m' w'
  obtain ⟨-, hcalls⟩ := instrument_preserves_meaning (Option.some_get _).symm
    sample_valid (sampleHost_quiet (contextOf sample 1000))
  obtain ⟨f, hf, hagree⟩ := (hcalls sampleWorld w' ⟨⟨1000, rfl⟩, trivial, rfl, rfl, rfl⟩).1 [114] 1
    (by decide +kernel)
  have hstart : invoke sample sampleHost sampleWorld 1 [] [] = .more sampleStart := by rfl
  obtain ⟨⟨o, w₁⟩, hr, rfl⟩ := Option.map_eq_some_iff.mp sample_result
  have hstays : Stays sample samplePrims sampleHost (invoke sample sampleHost sampleWorld 1 [] [])
      (fun c => (changeOf sample 16 1000).Below c.world.store) := by
    rw [hstart]
    exact stays_below hr (by decide +kernel)
  have hno : Stays sample samplePrims sampleHost (invoke sample sampleHost sampleWorld 1 [] [])
      (fun c => ¬ Misreads sample samplePrims sampleHost 1000 c) := by
    rintro c - n d - ⟨f, name, args, hexit, -⟩
    have hnone : exitFunction sample = none := by decide +kernel
    rw [hnone] at hexit
    cases hexit
  have hends : Ends sample samplePrims sampleHost (invoke sample sampleHost sampleWorld 1 [] [])
      (.trap, w₁) := by
    rw [hstart]
    exact Run.Halts.of_resultIn hr
  obtain ⟨r', hr', hrel⟩ := ((hagree [] hstays).2 hno).1 _ hends
  exact ⟨f, w₁, r', hf, hends, hr', hrel⟩

/-! ## A module that is misread -/

/-- `proc_exit` behind a byte order mark: another import. -/
def markedExit : ImportName := ⟨0xef :: 0xbb :: 0xbf :: procExit.module, procExit.field⟩

/-- It calls that import and goes on. -/
def marked : Module where
  types := [⟨[], []⟩, ⟨[], [.i32]⟩]
  imports := [⟨markedExit, .func 0⟩]
  funcs := [{ type := 1, locals := [], body := [.call 0, .i32_const 42, .end] }]
  memories := [⟨0, none⟩]
  exports := [⟨[114], .func, 1⟩]

def markedInstrumented : Module where
  types := [⟨[], []⟩, ⟨[], [.i32]⟩, ⟨[], [.i32]⟩]
  imports := [⟨markedExit, .func 0⟩, ⟨interruptImport, .func 2⟩]
  funcs := [{ type := 1, locals := [], body := [.call 0, .unreachable, .i32_const 42, .end] }]
  memories := [⟨0, some 16⟩]
  globals := [⟨⟨.i32, true⟩, [.i32_const 1000]⟩]
  exports := [⟨[114], .func, 2⟩, ⟨countdownExport, .global, 0⟩]

theorem marked_valid : marked.Valid samplePrims maxLocals where
  types i t h := by
    match i with
    | 0 | 1 => cases h; decide
    | i + 2 => cases h
  imports := by decide
  funcs := by decide
  tables := by decide
  memories := by decide
  tags := by decide
  globals _ _ h := by cases h
  exports := by decide
  names := by decide
  start _ h := by cases h
  elems := by decide
  datas := by decide

theorem marked_instrumented : instrument marked 16 1000 = some markedInstrumented := by
  decide +kernel

/-- The first world, and the one the instrumented instance starts in. -/
def markedWorld : World Unit where
  store := { mems := [⟨[], none⟩], tables := [], globals := [], elems := [], datas := [],
             tags := [], exns := [] }
  host := ()
  log := []

def markedWorld' : World Unit :=
  { markedWorld with store := (changeOf marked 16 1000).store 1000 markedWorld.store }

/-- The function of `marked`, called from outside. -/
def markedStart : Config Unit where
  world := markedWorld
  top := { fn := 1, code := (marked.funcs.map (·.body)).flatten, stack := [], labels := [],
           locals := [], arity := 1 }
  callers := []

def markedStart' : Config Unit where
  world := markedWorld'
  top := { fn := 2, code := (markedInstrumented.funcs.map (·.body)).flatten, stack := [],
           labels := [], locals := [], arity := 1 }
  callers := []

theorem marked_result :
    (Run.resultIn (step marked samplePrims sampleHost) 9 markedStart).map (·.1) =
      some (.values [.i32 42]) := by decide +kernel

theorem marked_result' :
    (Run.resultIn (step markedInstrumented samplePrims sampleHost) 9 markedStart').map (·.1) =
      some .trap := by decide +kernel

/-- The import returns, so the original ends with a value; the instrumented module traps
where the import has returned. -/
theorem marked_misread :
    instrument marked 16 1000 = some markedInstrumented ∧ marked.Valid samplePrims maxLocals ∧
      QuietHost (fun _ _ => True) sampleHost (contextOf marked 1000) ∧
      WorldRel (fun _ _ => True) marked 16 1000 markedWorld markedWorld' ∧
      marked.exported? [114] = some 1 ∧ markedInstrumented.exported? [114] = some 2 ∧
      Stays marked samplePrims sampleHost (invoke marked sampleHost markedWorld 1 [] [])
        (fun c => (changeOf marked 16 1000).Below c.world.store) ∧
      ¬ EndAlike marked markedInstrumented samplePrims sampleHost (SameResult marked 16 1000)
        (invoke marked sampleHost markedWorld 1 [] [])
        (invoke markedInstrumented sampleHost markedWorld' 2 [] []) := by
  have hstart : invoke marked sampleHost markedWorld 1 [] [] = .more markedStart := by rfl
  have hstart' : invoke markedInstrumented sampleHost markedWorld' 2 [] [] =
      .more markedStart' := by rfl
  obtain ⟨⟨o, w₁⟩, hr, rfl⟩ := Option.map_eq_some_iff.mp marked_result
  obtain ⟨⟨o', w₁'⟩, hr', rfl⟩ := Option.map_eq_some_iff.mp marked_result'
  refine ⟨marked_instrumented, marked_valid, sampleHost_quiet _, ⟨⟨1000, rfl⟩, trivial, rfl, rfl,
    rfl⟩, by decide +kernel, by decide +kernel, ?_, ?_⟩
  · rw [hstart]
    exact stays_below hr (by decide +kernel)
  · rw [hstart, hstart']
    intro halike
    obtain ⟨r', hends', hsame⟩ := halike.1 _ (Run.Halts.of_resultIn hr)
    cases Halts.unique (Run.Halts.of_resultIn hr') hends'
    cases hsame.outcome

end Rewriter
