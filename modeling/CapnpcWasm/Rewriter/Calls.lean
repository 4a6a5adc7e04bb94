import CapnpcWasm.Rewriter.Worlds
import CapnpcWasm.Wasm.Moves

/-!
# Calls of the two instances

What a return, a branch, an exception or a call of the original leads to, the
instrumented instance leads to as well (`Led`).  A defined function is entered
through its check.  A call of an import checks afterwards, and a call of an import
through a reference runs its thunk.

One call leads elsewhere.  The rewriter lets nothing follow a call of `proc_exit`, and
it knows `proc_exit` by how the names read.  Another import whose names read the same
may return, and the instrumented instance traps when it does.  `asRead` is the step of
an original in which that import ends the run as well.
-/

namespace Rewriter

open Wasm
open Run (Next Steps Halts Matches Follows)

/-- The code of every function names only what the module has. -/
def WellIndexed (m : Module) : Prop :=
  ∀ f ∈ m.funcs, ∀ t, m.types[f.type]? = some t → ∀ i ∈ f.body,
    indexed (t.params.length + declaredLocals f.locals) m.globalTypes.length m.elems.length i ∧
      names m t.results.length i

/-- The outcome of the instrumented instance. -/
def Outcome.rename (ρ : Nat → Nat) : Outcome → Outcome
  | .values vs => .values (vs.map (Val.rename ρ))
  | o => o

section

variable {σ : Type} {S : σ → σ → Prop} {m m' : Module} {P : Prims} {h : Host σ} {maximum interval : Nat}

variable (S m maximum interval) in
/-- Related configurations. -/
structure ConfigRel (c c' : Config σ) : Prop where
  world : WorldRel S m maximum interval c.world c'.world
  top : ∃ p, FrameRel m (contextOf m interval) p c.top c'.top
  callers : List.Forall₂ (FrameRel m (contextOf m interval) none) c.callers c'.callers

variable (S m maximum interval) in
/-- Related results: the same outcome in related worlds. -/
structure ResultRel (r r' : Outcome × World σ) : Prop where
  outcome : r'.1 = Outcome.rename (contextOf m interval).image r.1
  world : WorldRel S m maximum interval r.2 r'.2

variable (S m m' P h maximum interval) in
/-- The step `s'` of the instrumented instance leads to what the step `s` is. -/
abbrev Led (s s' : Step σ) : Prop :=
  Matches (step m' P h) (ConfigRel S m maximum interval) (ResultRel S m maximum interval) s s'

variable {w w' : World σ} {cs cs' : List Frame}

theorem led_stuck (hw : WorldRel S m maximum interval w w') :
    Led S m m' P h maximum interval (.halt (.stuck, w)) (.halt (.stuck, w')) := .halt ⟨rfl, hw⟩

theorem led_trap (hw : WorldRel S m maximum interval w w') :
    Led S m m' P h maximum interval (.halt (.trap, w)) (.halt (.trap, w')) := .halt ⟨rfl, hw⟩

/-! ## Imports mistaken for `proc_exit` -/

/-- The import the rewriter follows up at the code `code`: the one a direct call names,
or any that has a thunk. -/
def Context.Sees (ctx : Context) (code : List Instr) (f : Nat) : Prop :=
  match code with
  | .call g :: _ | .return_call g :: _ => g = f
  | _ => (ctx.thunkOf f).isSome

/-- The step goes on, or ends the run with values. -/
def Returns : Step σ → Prop
  | .more _ => True
  | .halt r => ∃ vs, r.1 = .values vs

/-- The step `s` from the world `w` called an import that reads as `proc_exit` and is
another, where `sees` follows it up, and the import returned. -/
def Misread (m : Module) (sees : Nat → Prop) (w : World σ) (s : Step σ) : Prop :=
  ∃ f name args, exitFunction m = some f ∧ name ≠ procExit ∧ sees f ∧
    s.world.log = w.log ++ [⟨.imported f name, args⟩] ∧ Returns s

open Classical in
/-- The step, except that such a call ends the run in a trap. -/
noncomputable def asRead (m : Module) (sees : Nat → Prop) (w : World σ) (s : Step σ) : Step σ :=
  if Misread m sees w s then .halt (.trap, s.world) else s

section

variable {sees : Nat → Prop} {s : Step σ}

theorem asRead_of_misread (hs : Misread m sees w s) :
    asRead m sees w s = .halt (.trap, s.world) := if_pos hs

theorem asRead_of_not (hs : ¬ Misread m sees w s) : asRead m sees w s = s := if_neg hs

/-- Only a call is misread. -/
theorem asRead_of_log (hs : s.world.log = w.log) : asRead m sees w s = s := by
  refine asRead_of_not ?_
  rintro ⟨f, name, args, -, -, -, hlog, -⟩
  simp [hs] at hlog

theorem asRead_stuck (hw : WorldRel S m maximum interval w w') :
    Led S m m' P h maximum interval (asRead m sees w (.halt (.stuck, w))) (.halt (.stuck, w')) := by
  have hlog : asRead m sees w (.halt (.stuck, w)) = .halt (.stuck, w) := asRead_of_log rfl
  rw [hlog]
  exact led_stuck hw

theorem asRead_trap (hw : WorldRel S m maximum interval w w') :
    Led S m m' P h maximum interval (asRead m sees w (.halt (.trap, w))) (.halt (.trap, w')) := by
  have hlog : asRead m sees w (.halt (.trap, w)) = .halt (.trap, w) := asRead_of_log rfl
  rw [hlog]
  exact led_trap hw

/-- The call that is misread is the one the step logs. -/
theorem asRead_callHost {fn : HostFn} {type : FuncType} {args : List Val}
    (hfn : ∀ f name, fn = .imported f name → exitFunction m = some f → sees f →
      name = procExit) :
    asRead m sees w (callHost m h w fn type args cs) = callHost m h w fn type args cs := by
  refine asRead_of_not ?_
  rintro ⟨f, name, args', hexit, hne, hsees, hlog, -⟩
  rw [callHost_log] at hlog
  cases List.append_cancel_left hlog
  exact hne (hfn f name rfl hexit hsees)

end

/-! ## Returns and jumps -/

theorem FrameRel.push {ctx : Context} {p : Option (BitVec 32)} {fr fr' : Frame}
    (hf : FrameRel m ctx p fr fr') (vs : List Val) :
    FrameRel m ctx p { fr with stack := vs ++ fr.stack }
      { fr' with stack := vs.map (Val.rename ctx.image) ++ fr'.stack } := by
  obtain ⟨s, extra, hfit, he, rfl⟩ := hf
  exact ⟨s, extra, ⟨hfit.code, hfit.labels, hfit.locals, hfit.arity⟩, he, by
    simp [Context.frame]⟩

theorem resume_led (hw : WorldRel S m maximum interval w w')
    (hc : List.Forall₂ (FrameRel m (contextOf m interval) none) cs cs') (vs : List Val) :
    Led S m m' P h maximum interval (resume w vs cs)
      (resume w' (vs.map (Val.rename (contextOf m interval).image)) cs') := by
  cases hc with
  | nil => exact .halt ⟨rfl, hw⟩
  | cons hf hc =>
      refine .more (.refl _) ⟨hw, ⟨none, ?_⟩, hc⟩
      rw [← List.map_reverse]
      exact hf.push vs.reverse

theorem Jump.before_nil (j : Jump) : Jump.before [] j = j := by
  cases j <;> rfl

/-- A jump that has a passing sequence before its target. -/
theorem follow_led {seq : List Instr} (hs : Passes S m m' P h maximum interval seq)
    (hw : WorldRel S m maximum interval w w')
    (hc : List.Forall₂ (FrameRel m (contextOf m interval) none) cs cs') {j j' : Jump}
    (hj : JumpRel m (contextOf m interval) j j') :
    Led S m m' P h maximum interval (j.follow w cs) ((Jump.before seq j').follow w' cs') := by
  cases hj with
  | «to» hf =>
      obtain ⟨k, w₁', hk, hw₁⟩ := hs hw _ _ _ _ _ _ _
      exact .more hk ⟨hw₁, ⟨none, hf⟩, hc⟩
  | leave vs => exact resume_led hw hc vs
  | stuck => exact led_stuck hw

theorem jump_led (hw : WorldRel S m maximum interval w w')
    (hc : List.Forall₂ (FrameRel m (contextOf m interval) none) cs cs') {j j' : Jump}
    (hj : JumpRel m (contextOf m interval) j j') :
    Led S m m' P h maximum interval (j.follow w cs) (j'.follow w' cs') := by
  rw [← Jump.before_nil j']
  exact follow_led (passes_nil P) hw hc hj

/-! ## Exceptions -/

theorem tags_eq (hw : WorldRel S m maximum interval w w') : w'.store.tags = w.store.tags := by
  obtain ⟨cd, hstore⟩ := hw.store
  rw [hstore]
  rfl

theorem exns_eq (hw : WorldRel S m maximum interval w w') :
    w'.store.exns = w.store.exns.map (Exn.rename (contextOf m interval).image) := by
  obtain ⟨cd, hstore⟩ := hw.store
  rw [hstore]
  rfl

theorem unwind_led (hw : WorldRel S m maximum interval w w') (address : Nat) (e : Exn)
    (hc : List.Forall₂ (FrameRel m (contextOf m interval) none) cs cs') :
    Led S m m' P h maximum interval (unwind w address e cs)
      (unwind w' address (e.rename (contextOf m interval).image) cs') := by
  induction hc with
  | nil => exact .halt ⟨rfl, hw⟩
  | @cons fr fr' cs cs' hf hc ih =>
      obtain ⟨s, extra, hfit, he, rfl⟩ := hf
      rw [unwind, unwind, tags_eq hw]
      rcases handle_rel (contextOf m interval) hfit he w.store.tags address e fr.labels 0
        hfit.labels with ⟨hn, hn'⟩ | ⟨j, j', hj, hj', hrel⟩
      · rw [hn, Context.frame] at *
        simp only at hn' ⊢
        rw [hn']
        exact ih
      · rw [hj, Context.frame] at *
        simp only at hj' ⊢
        rw [hj']
        exact jump_led hw hc hrel

theorem throwExn_led (hw : WorldRel S m maximum interval w w') (e : Exn)
    (hc : List.Forall₂ (FrameRel m (contextOf m interval) none) cs cs') :
    Led S m m' P h maximum interval (throwExn w e cs)
      (throwExn w' (e.rename (contextOf m interval).image) cs') := by
  have hlen : w'.store.exns.length = w.store.exns.length := by rw [exns_eq hw, List.length_map]
  rw [throwExn, throwExn, hlen]
  have hw₁ : WorldRel S m maximum interval
      { w with store := { w.store with exns := w.store.exns ++ [e] } }
      { w' with store := { w'.store with
        exns := w'.store.exns ++ [e.rename (contextOf m interval).image] } } := by
    obtain ⟨cd, hstore⟩ := hw.store
    exact ⟨⟨cd, by simp [hstore, Change.store, changeOf]⟩, hw.host, hw.log, hw.globals, hw.elems⟩
  exact unwind_led hw₁ _ e hc

/-! ## Host calls -/

variable (hi : Instruments m m' maximum interval) (hq : QuietHost S h (contextOf m interval))

include hi hq

/-- What a host call comes to in the two worlds: values for the frames that wait, or an
end of the run. -/
theorem callHost_rel (hw : WorldRel S m maximum interval w w') {fn : HostFn}
    (hfn : fn ≠ (contextOf m interval).interrupt) (type : FuncType) (args : List Val) :
    (∃ w₁ w₁' vs, WorldRel S m maximum interval w₁ w₁' ∧ vs.length = type.results.length ∧
      (h.call w.host fn args (m.view w.store)).reply ≠ .exit ∧
      (∀ cs, callHost m h w fn type args cs = resume w₁ vs cs) ∧
      ∀ cs', callHost m' h w' fn type (args.map (Val.rename (contextOf m interval).image)) cs' =
        resume w₁' (vs.map (Val.rename (contextOf m interval).image)) cs') ∨
    ∃ o w₁ w₁', WorldRel S m maximum interval w₁ w₁' ∧ (o = .stuck ∨ o = .exited) ∧
      (∀ cs, callHost m h w fn type args cs = .halt (o, w₁)) ∧
      ∀ cs', callHost m' h w' fn type (args.map (Val.rename (contextOf m interval).image)) cs' =
        .halt (o, w₁') := by
  obtain ⟨hreply, hw₁⟩ := hostCall_rel hi hq hw hfn args
  have hr : (hostCall m h w fn args).2 = (h.call w.host fn args (m.view w.store)).reply := rfl
  simp only [callHost]
  generalize hostCall m' h w' fn _ = res' at *
  generalize hostCall m h w fn args = res at *
  obtain ⟨w₁, r⟩ := res
  obtain ⟨w₁', r'⟩ := res'
  simp only at hr hreply hw₁ ⊢
  subst hreply
  cases r with
  | ret vs =>
      simp only [Reply.rename, List.length_map]
      by_cases hlen : vs.length = type.results.length
      · simp only [if_pos hlen]
        have hne : (h.call w.host fn args (m.view w.store)).reply ≠ .exit := by
          rw [← hr]
          intro hx
          cases hx
        exact .inl ⟨w₁, w₁', vs, hw₁, hlen, hne, fun _ => rfl, fun _ => rfl⟩
      · simp only [if_neg hlen]
        exact .inr ⟨.stuck, w₁, w₁', hw₁, .inl rfl, fun _ => rfl, fun _ => rfl⟩
  | throw e => exact absurd hr.symm (hq.returns _ _ _ _ _)
  | exit => exact .inr ⟨.exited, w₁, w₁', hw₁, .inr rfl, fun _ => rfl, fun _ => rfl⟩

/-- A host call, given what its return leads to. -/
theorem callHost_led (hw : WorldRel S m maximum interval w w') {fn : HostFn}
    (hfn : fn ≠ (contextOf m interval).interrupt) (type : FuncType) (args : List Val)
    (hres : ∀ w₁ w₁' vs, WorldRel S m maximum interval w₁ w₁' →
      vs.length = type.results.length →
      (h.call w.host fn args (m.view w.store)).reply ≠ .exit →
      Led S m m' P h maximum interval (resume w₁ vs cs)
        (resume w₁' (vs.map (Val.rename (contextOf m interval).image)) cs')) :
    Led S m m' P h maximum interval (callHost m h w fn type args cs)
      (callHost m' h w' fn type (args.map (Val.rename (contextOf m interval).image)) cs') := by
  rcases callHost_rel hi hq hw hfn type args with
    ⟨w₁, w₁', vs, hw₁, hlen, hexit, hcall, hcall'⟩ | ⟨o, w₁, w₁', hw₁, ho, hcall, hcall'⟩
  · rw [hcall, hcall']
    exact hres w₁ w₁' vs hw₁ hlen hexit
  · rw [hcall, hcall']
    exact .halt ⟨by rcases ho with rfl | rfl <;> rfl, hw₁⟩

/-- A call that is misread traps in the instrumented instance as soon as it returns. -/
theorem misread_led (hw : WorldRel S m maximum interval w w') {f : Nat} {name : ImportName}
    (hfn : HostFn.imported f name ≠ (contextOf m interval).interrupt) (type : FuncType)
    (args : List Val) {sees : Nat → Prop} (hexit : exitFunction m = some f)
    (hname : name ≠ procExit) (hsees : sees f) (gr : Frame) :
    Led S m m' P h maximum interval
      (asRead m sees w (callHost m h w (.imported f name) type args cs))
      (callHost m' h w' (.imported f name) type
        (args.map (Val.rename (contextOf m interval).image))
        ({ gr with code := .unreachable :: gr.code } :: cs')) := by
  have hlog := @callHost_log σ m h w cs (.imported f name) type args
  rcases callHost_rel hi hq hw hfn type args with
    ⟨w₁, w₁', vs, hw₁, hlen, -, hcall, hcall'⟩ | ⟨o, w₁, w₁', hw₁, ho, hcall, hcall'⟩
  · rw [hcall] at hlog
    rw [hcall, hcall', asRead_of_misread ⟨f, name, args, hexit, hname, hsees, hlog, ?_⟩,
      resume_world]
    · exact .late (.now rfl) ⟨rfl, hw₁⟩
    · cases cs with
      | nil => exact ⟨vs, rfl⟩
      | cons fr cs => trivial
  · rw [hcall, hcall', asRead_of_not]
    · exact .halt ⟨by rcases ho with rfl | rfl <;> rfl, hw₁⟩
    · rintro ⟨_, _, _, -, -, -, -, vs, hvs⟩
      rcases ho with rfl | rfl <;> cases hvs

omit hi hq in
theorem imported_ne {f : Nat} (hf : f < m.importedFunctions.length) (name : ImportName) :
    HostFn.imported f name ≠ (contextOf m interval).interrupt := by
  intro hx
  rw [Context.interrupt, HostFn.imported.injEq] at hx
  exact absurd hx.1 (Nat.ne_of_lt hf)

/-- A call of an import from a frame that checks afterwards, given where the code
after the check leads. -/
theorem import_led (hw : WorldRel S m maximum interval w w') {f t : Nat} {name : ImportName}
    (hf : m.importedFunctions[f]? = some (name, t)) (type : FuncType) (args : List Val)
    {sees : Nat → Prop} (hsees : sees f) (gr : Frame)
    (hres : ∀ w₁ w₁' vs, WorldRel S m maximum interval w₁ w₁' →
      vs.length = type.results.length → exitFunction m ≠ some f →
      Led S m m' P h maximum interval (resume w₁ vs cs) (.more ⟨w₁', { gr with
        stack := (vs.map (Val.rename (contextOf m interval).image)).reverse ++ gr.stack }, cs'⟩)) :
    Led S m m' P h maximum interval
      (asRead m sees w (callHost m h w (.imported f name) type args cs))
      (callHost m' h w' (.imported f name) type
        (args.map (Val.rename (contextOf m interval).image))
        ({ gr with code := (contextOf m interval).afterImport f ++ gr.code } :: cs')) := by
  have hlt : f < m.importedFunctions.length := (List.getElem?_eq_some_iff.mp hf).1
  rw [Context.afterImport, contextOf_exitFunction]
  by_cases hexit : exitFunction m = some f
  · by_cases hname : name = procExit
    · -- the true `proc_exit` does not return
      subst hname
      rw [asRead_callHost fun g name' hfn _ _ => by cases hfn; rfl]
      refine callHost_led hi hq hw (imported_ne hlt _) type args ?_
      exact fun _ _ _ _ _ hreply => absurd (hq.exits ..) hreply
    · rw [if_pos hexit]
      exact misread_led hi hq hw (imported_ne hlt name) type args hexit hname hsees gr
  · rw [if_neg hexit, asRead_callHost fun g name' hfn hexit' _ => by cases hfn; exact absurd hexit' hexit]
    refine callHost_led hi hq hw (imported_ne hlt name) type args ?_
    intro w₁ w₁' vs hw₁ hlen _
    obtain ⟨k, w₂', hk, hw₂⟩ := passes_check hi P hq hw₁ gr.fn gr.code
      ((vs.map (Val.rename (contextOf m interval).image)).reverse ++ gr.stack) gr.labels gr.locals
      gr.arity cs'
    exact .later hk (hres w₁ w₂' vs hw₂ hlen hexit)

/-! ## Entering functions -/

omit hi hq in
/-- Where a charge is inserted the function has a place for the size. -/
theorem charged_every {q : Bool} :
    ∀ {p : Option (BitVec 32)} {is : List Instr}, (charged p is = true → q = true) →
      Every (fun p i => (charge? p i).isSome = true → q = true) p is
  | _, [], _ => trivial
  | p, i :: is, hc =>
      ⟨fun hi => hc (by simp [charged, hi]),
        charged_every fun hi => hc (by simp [charged, hi])⟩

omit hi hq in
theorem every_of_forall {Q : Instr → Prop} {is : List Instr} (hQ : ∀ i ∈ is, Q i) :
    ∀ p, Every (fun _ => Q) p is := by
  induction is with
  | nil => exact fun _ => trivial
  | cons i is ih =>
      exact fun p => ⟨hQ i List.mem_cons_self,
        ih (fun j hj => hQ j (List.mem_cons_of_mem i hj)) _⟩

omit hi hq in
theorem Every.and {Q R : Option (BitVec 32) → Instr → Prop} {is : List Instr} :
    ∀ {p : Option (BitVec 32)}, Every Q p is → Every R p is →
      Every (fun p i => Q p i ∧ R p i) p is := by
  induction is with
  | nil => exact fun _ _ => trivial
  | cons i is ih => exact fun hQ hR => ⟨⟨hQ.1, hR.1⟩, ih hQ.2 hR.2⟩

omit hi hq in
theorem zeros_length (f : Func) : f.zeros.length = declaredLocals f.locals := by
  simp [Func.zeros, declaredLocals, List.length_flatMap]

omit hi hq in
/-- The body of a function fits. -/
theorem body_fits (hx : WellIndexed m) {f : Func} (hf : f ∈ m.funcs) {t : FuncType}
    (ht : m.types[f.type]? = some t) :
    Every (Fits m ⟨t.params.length + declaredLocals f.locals, t.results.length,
      charged none f.body⟩) none f.body :=
  ((every_of_forall (hx f hf t ht) none).and (charged_every id)).mono
    fun _ _ hi => ⟨hi.1.1, hi.1.2, hi.2⟩

omit hi hq in
/-- A call of a defined function logs nothing. -/
theorem invoke_defined_log {fn : Nat} (hge : m.importedFunctions.length ≤ fn) {args : List Val} :
    (invoke m h w fn args cs).world.log = w.log := by
  rcases @invoke_log _ m h w cs fn args with hlog | ⟨name, type, hcall⟩
  · exact hlog
  · unfold invoke
    rw [List.getElem?_eq_none hge]
    repeat' split
    all_goals first | rfl | contradiction

omit hq in
/-- A defined function is entered through its check, if it has one. -/
theorem invoke_defined (hx : WellIndexed m) (hq : QuietHost S h (contextOf m interval))
    (hw : WorldRel S m maximum interval w w')
    (hc : List.Forall₂ (FrameRel m (contextOf m interval) none) cs cs') {fn : Nat}
    (hge : m.importedFunctions.length ≤ fn)
    (hlt : fn < m.importedFunctions.length + m.funcs.length) (args : List Val) :
    Led S m m' P h maximum interval (invoke m h w fn args cs)
      (invoke m' h w' (fn + 1) (args.map (Val.rename (contextOf m interval).image)) cs') := by
  obtain ⟨k, rfl⟩ := Nat.exists_eq_add_of_le hge
  have hk : k < m.funcs.length := by omega
  have hget : m.funcs[k]? = some m.funcs[k] := List.getElem?_eq_getElem hk
  generalize hf : m.funcs[k] = f at hget
  obtain ⟨t, ht⟩ : ∃ t, m.types[f.type]? = some t :=
    ⟨_, List.getElem?_eq_getElem (hi.funcType_lt hget)⟩
  have htype : m.funcType? (m.importedFunctions.length + k) = some t := by
    rw [Module.funcType?, Module.funcTypes, List.getElem?_append_right (by simp)]
    simp [hget, ht]
  have himage : (contextOf m interval).image (m.importedFunctions.length + k) =
      m.importedFunctions.length + k + 1 := Context.image_defined _ hge hlt
  have htype' : m'.funcType? (m.importedFunctions.length + k + 1) = some t := by
    rw [← himage, hi.funcType?_of_funcTypes (hi.funcTypes_image _), htype]
  obtain ⟨f', hbody, hget'⟩ := hi.funcs_get hget
  obtain ⟨rfl, -, -⟩ := functionBody_eq hbody
  have hparams : paramCount m f.type = t.params.length := by simp [paramCount, ht]
  rw [invoke, invoke, htype, htype']
  simp only [List.length_map]
  split
  · exact led_stuck hw
  · next hlen =>
    have himp : m.importedFunctions[m.importedFunctions.length + k]? = none :=
      List.getElem?_eq_none (by omega)
    have himp' : m'.importedFunctions[m.importedFunctions.length + k + 1]? = none := by
      rw [hi.importedFunctions]
      exact List.getElem?_eq_none (by simp)
    have hidx : m.importedFunctions.length + k + 1 - m'.importedFunctions.length = k := by
      rw [hi.importedFunctions, List.length_append, List.length_singleton]
      omega
    simp only [himp, himp', hidx, Nat.add_sub_cancel_left, hget, hget']
    have hentry : Passes S m m' P h maximum interval
        (if f.body.any (contextOf m interval).callsGuest then (contextOf m interval).check
          else []) := by
      split
      · exact passes_check hi P hq
      · exact passes_nil P
    obtain ⟨n, w₁', hn, hw₁⟩ := hentry hw _ _ _ _ _ _ _
    refine .more hn ⟨hw₁, ⟨none, ⟨t.params.length + declaredLocals f.locals, t.results.length,
      charged none f.body⟩, if charged none f.body then [.i32 0] else [],
      ⟨body_fits hx (List.mem_of_getElem? hget) ht, ?_, ?_, rfl⟩, ?_, ?_⟩, hc⟩
    · exact fun l hl => by cases hl
    · simp only [ne_eq, Decidable.not_not] at hlen
      simp [Func.frame, zeros_length, hlen]
    · intro hs
      simp only at hs
      simp [hs]
    · simp only [Context.frame, Func.frame, hparams, List.map_nil, List.map_append,
        Func.rename_zeros, List.append_assoc]
      congr 2
      simp only [Func.zeros]
      split <;> simp [ValType.default]

/-! ## Thunks -/

omit hi hq in
/-- Pushing the parameters from some point on. -/
theorem push_steps {fn n : Nat} {is : List Instr} {ls : List Label} {w' : World σ}
    (post : List Val) : ∀ before : List Val,
    Steps (step m' P h) post.length
      ⟨w', ⟨fn, (List.range' before.length post.length).map .local_get ++ is, before.reverse, ls,
        before ++ post, n⟩, cs'⟩
      ⟨w', ⟨fn, is, (before ++ post).reverse, ls, before ++ post, n⟩, cs'⟩ := by
  induction post with
  | nil =>
      intro before
      rw [List.append_nil]
      exact .refl _
  | cons v post ih =>
      intro before
      have hrest := ih (before ++ [v])
      simp only [List.append_assoc, List.singleton_append, List.length_append,
        List.length_singleton, List.reverse_append, List.reverse_singleton] at hrest
      rw [List.length_cons, List.range'_succ]
      refine .head (step_local_get (v := v) (by simp)) ?_
      rw [List.reverse_append]
      exact hrest

omit hi hq in
/-- A thunk pushes its parameters. -/
theorem forward_steps {fn n : Nat} {is : List Instr} {w' : World σ} (args : List Val) :
    Steps (step m' P h) args.length
      ⟨w', ⟨fn, (List.range args.length).map .local_get ++ is, [], [], args, n⟩, cs'⟩
      ⟨w', ⟨fn, is, args.reverse, [], args, n⟩, cs'⟩ := by
  rw [List.range_eq_range']
  exact push_steps args []

/-- A call through a thunk is the call of its import. -/
theorem invoke_thunk (hw : WorldRel S m maximum interval w w')
    (hc : List.Forall₂ (FrameRel m (contextOf m interval) none) cs cs') {f t : Nat}
    (ht : (contextOf m interval).thunkOf f = some t) {sees : Nat → Prop} (hsees : sees f)
    (args : List Val) :
    Led S m m' P h maximum interval (asRead m sees w (invoke m h w f args cs))
      (invoke m' h w' t (args.map (Val.rename (contextOf m interval).image)) cs') := by
  obtain ⟨hmem, htidx⟩ := (Context.thunkOf_eq_some _).mp ht
  have hlt := lt_of_mem_thunkImports hmem
  have himage := Context.image_thunk _ (f := f) hlt ht
  have hftype : m'.funcType? t = m.funcType? f := by
    rw [← himage, hi.funcType?_of_funcTypes (hi.funcTypes_image f)]
  obtain ⟨name, u, hf⟩ : ∃ name u, m.importedFunctions[f]? = some (name, u) :=
    ⟨_, _, List.getElem?_eq_getElem hlt⟩
  have hu : m.funcTypes[f]? = some u := by
    rw [Module.funcTypes, List.getElem?_append_left (by simpa), List.getElem?_map, hf,
      Option.map_some]
  rw [invoke, invoke, hftype]
  cases htype : m.funcType? f with
  | none => exact asRead_stuck hw
  | some type =>
      have hparams : paramCount m u = type.params.length := by
        rw [Module.funcType?, hu] at htype
        rw [paramCount, show m.types[u]? = some type from htype]
        rfl
      have hfimp : m'.importedFunctions[f]? = some (name, u) := by
        rw [hi.importedFunctions, List.getElem?_append_left hlt, hf]
      have hfim : m'.funcType? f = some type := by
        rw [hi.funcType?_of_funcTypes (hi.funcTypes_import hlt), htype]
      have himp' : m'.importedFunctions[t]? = none := by
        rw [hi.importedFunctions, htidx]
        exact List.getElem?_eq_none (by simp; omega)
      have hidx : t - m'.importedFunctions.length =
          m.funcs.length + (contextOf m interval).thunkImports.idxOf f := by
        rw [hi.importedFunctions, htidx, List.length_append, List.length_singleton]
        simp only [contextOf_importedFunctions, contextOf_definedFunctions]
        omega
      simp only [List.length_map, hf, himp', hidx, hi.funcs_thunk hmem, hu, Option.getD_some,
        hparams]
      split
      · exact asRead_stuck hw
      · next hlen =>
        have hlen : args.length = type.params.length := Decidable.not_not.mp hlen
        -- The thunk pushes its parameters and calls the import.
        simp only [Func.frame, thunkBody, Func.zeros, List.flatMap_nil, List.append_nil]
        rw [← hlen, ← List.length_map (Val.rename (contextOf m interval).image)]
        refine .before (forward_steps _) ?_
        rw [step_cons, exec_call_import hfimp hfim (popArgs_all (by simp [hlen]))]
        refine import_led hi hq hw hf type args hsees ⟨t, [.end], [], [], _, _⟩ ?_
        -- After the check the thunk returns what the import returned.
        intro w₁ w₁' vs hw₁ hvs _
        refine .before (.refl _) ?_
        rw [List.append_nil, step_last_end (by simp [hvs]), List.take_of_length_le (by simp [hvs]),
          List.reverse_reverse]
        exact resume_led hw₁ hc vs

/-- A call through any reference. -/
theorem invoke_image (hx : WellIndexed m) (hw : WorldRel S m maximum interval w w')
    (hc : List.Forall₂ (FrameRel m (contextOf m interval) none) cs cs') (fn : Nat)
    {sees : Nat → Prop}
    (hsees : fn < m.importedFunctions.length →
      (sees fn ↔ ((contextOf m interval).thunkOf fn).isSome))
    (args : List Val) :
    Led S m m' P h maximum interval (asRead m sees w (invoke m h w fn args cs))
      (invoke m' h w' ((contextOf m interval).image fn)
        (args.map (Val.rename (contextOf m interval).image)) cs') := by
  by_cases hin : fn < m.importedFunctions.length + m.funcs.length
  · by_cases hge : m.importedFunctions.length ≤ fn
    · rw [Context.image_defined _ hge hin]
      rw [asRead_of_log (invoke_defined_log hge)]
      exact invoke_defined hi hx hq hw hc hge hin args
    · have hlt := Nat.not_le.mp hge
      cases ht : (contextOf m interval).thunkOf fn with
      | some t =>
          rw [Context.image_thunk _ hlt ht]
          exact invoke_thunk hi hq hw hc ht ((hsees hlt).mpr (by rw [ht]; rfl)) args
      | none =>
          rw [Context.image_import _ hlt ht, invoke, invoke,
            hi.funcType?_of_funcTypes (hi.funcTypes_import hlt)]
          cases m.funcType? fn with
          | none => exact asRead_stuck hw
          | some type =>
              simp only [List.length_map]
              split
              · exact asRead_stuck hw
              · rw [hi.importedFunctions, List.getElem?_append_left hlt,
                  List.getElem?_eq_getElem hlt]
                -- without a thunk nothing follows the call
                have hunseen : ¬ sees fn := fun hs => by simpa [ht] using (hsees hlt).mp hs
                rw [asRead_callHost fun g name hfn _ hs => by
                  cases hfn; exact absurd hs hunseen]
                exact callHost_led hi hq hw (imported_ne hlt _) type args
                  fun w₁ w₁' vs hw₁ _ _ => resume_led hw₁ hc vs
  · have hout := Nat.not_lt.mp hin
    have hnone : m.funcTypes[fn]? = none := by
      rw [List.getElem?_eq_none_iff]
      simp only [Module.funcTypes, List.length_append, List.length_map]
      omega
    have htype : m.funcType? fn = none := by rw [Module.funcType?, hnone]; rfl
    rw [invoke, invoke, hi.funcType?_of_funcTypes (hi.funcTypes_image fn), htype]
    exact asRead_stuck hw

/-! ## Call instructions -/

variable {fr fr' : Frame}

omit hi hq in
theorem FrameRel.setStack {ctx : Context} {p : Option (BitVec 32)} (hf : FrameRel m ctx p fr fr')
    (vs : List Val) :
    FrameRel m ctx p { fr with stack := vs } { fr' with stack := vs.map (Val.rename ctx.image) } :=
  by
  obtain ⟨s, extra, hfit, he, rfl⟩ := hf
  exact ⟨s, extra, ⟨hfit.code, hfit.labels, hfit.locals, hfit.arity⟩, he, rfl⟩

omit hi hq in
theorem FrameRel.stack {ctx : Context} {p : Option (BitVec 32)} (hf : FrameRel m ctx p fr fr') :
    fr'.stack = fr.stack.map (Val.rename ctx.image) := by
  obtain ⟨s, extra, _, _, rfl⟩ := hf
  rfl

omit hi hq in
/-- Related frames have related arguments. -/
theorem FrameRel.popArgs {ctx : Context} {p : Option (BitVec 32)} (hf : FrameRel m ctx p fr fr')
    (n : Nat) :
    (fr.popArgs n = none ∧ fr'.popArgs n = none) ∨
      ∃ args, fr.popArgs n = some (args, { fr with stack := fr.stack.drop n }) ∧
        fr'.popArgs n = some (args.map (Val.rename ctx.image),
          { fr' with stack := (fr.stack.drop n).map (Val.rename ctx.image) }) := by
  rw [Frame.popArgs, Frame.popArgs, hf.stack, List.length_map]
  split
  · exact .inr ⟨_, rfl, by rw [List.map_reverse, List.map_take, List.map_drop]⟩
  · exact .inl ⟨rfl, rfl⟩

/-- A call of a function by its value. -/
theorem callFunction_led (hx : WellIndexed m) (hw : WorldRel S m maximum interval w w')
    (hf : FrameRel m (contextOf m interval) none fr fr')
    (hc : List.Forall₂ (FrameRel m (contextOf m interval) none) cs cs') (tail : Bool) (fn : Nat)
    {sees : Nat → Prop} (hsees : fn < m.importedFunctions.length →
      (sees fn ↔ ((contextOf m interval).thunkOf fn).isSome)) :
    Led S m m' P h maximum interval (asRead m sees w (callFunction m h w fr cs tail fn))
      (callFunction m' h w' fr' cs' tail ((contextOf m interval).image fn)) := by
  rw [callFunction, callFunction, hi.funcType?_of_funcTypes (hi.funcTypes_image fn)]
  cases m.funcType? fn with
  | none => exact asRead_stuck hw
  | some type =>
      rcases hf.popArgs type.params.length with ⟨hn, hn'⟩ | ⟨args, ha, ha'⟩
      · simp only [hn, hn']
        exact asRead_stuck hw
      · simp only [ha, ha']
        refine invoke_image hi hq hx hw ?_ fn hsees args
        cases tail with
        | true => exact hc
        | false => exact .cons (hf.setStack _) hc

theorem callReference_led (hx : WellIndexed m) (hw : WorldRel S m maximum interval w w')
    (hf : FrameRel m (contextOf m interval) none fr fr')
    (hc : List.Forall₂ (FrameRel m (contextOf m interval) none) cs cs') (tail : Bool) {type : Nat}
    (htype : type < m.types.length) {ok ok' : Nat → Bool}
    (hok : ∀ fn, ok' ((contextOf m interval).image fn) = ok fn) (r : Ref) :
    Led S m m' P h maximum interval
      (asRead m (fun f => ((contextOf m interval).thunkOf f).isSome) w
        (callReference m h w fr cs tail type ok r))
      (callReference m' h w' fr' cs' tail type ok' (r.rename (contextOf m interval).image)) := by
  cases r with
  | null => exact asRead_trap hw
  | func fn =>
      simp only [Ref.rename_func, callReference, hok]
      split
      · exact callFunction_led hi hq hx hw hf hc tail fn fun _ => Iff.rfl
      · exact asRead_trap hw
  | «foreign» n =>
      simp only [Ref.rename_foreign, callReference, hi.types_get htype]
      cases m.types[type]? with
      | none => exact asRead_stuck hw
      | some t =>
          simp only
          split
          · rcases hf.popArgs t.params.length with ⟨hn, hn'⟩ | ⟨args, ha, ha'⟩
            · simp only [hn, hn']
              exact asRead_stuck hw
            · simp only [ha, ha']
              rw [asRead_callHost fun _ _ hfn => by cases hfn]
              refine callHost_led hi hq hw (by intro hx; cases hx) t args fun w₁ w₁' vs hw₁ _ _ =>
                resume_led hw₁ ?_ vs
              cases tail with
              | true => exact hc
              | false => exact .cons (hf.setStack _) hc
          · exact asRead_trap hw
  | exn a => exact asRead_stuck hw
  | host n => exact asRead_stuck hw

theorem callIndirect_led (hx : WellIndexed m) (hw : WorldRel S m maximum interval w w')
    (hf : FrameRel m (contextOf m interval) none fr fr')
    (hc : List.Forall₂ (FrameRel m (contextOf m interval) none) cs cs') (tail : Bool) {type : Nat}
    (htype : type < m.types.length) (t : Nat) :
    Led S m m' P h maximum interval
      (asRead m (fun f => ((contextOf m interval).thunkOf f).isSome) w
        (callIndirect m h w fr cs tail type t))
      (callIndirect m' h w' fr' cs' tail type t) := by
  obtain ⟨cd, hstore⟩ := hw.store
  have hok : ∀ fn, ((m'.funcTypes[(contextOf m interval).image fn]?.map
      fun u => m'.sameType u type).getD false) =
      ((m.funcTypes[fn]?.map fun u => m.sameType u type).getD false) := by
    intro fn
    rw [hi.funcTypes_image]
    cases hu : m.funcTypes[fn]? with
    | none => rfl
    | some u => simp only [Option.map_some, hi.sameType (hi.funcTypes_lt hu) htype]
  simp only [callIndirect, hf.stack, popI32_rename, hstore]
  cases popI32 fr.stack with
  | trap => exact asRead_trap hw
  | stuck => exact asRead_stuck hw
  | ok q =>
      simp only [Res.map, bind, Res.bind, Change.tableGet_store]
      cases w.store.tableGet t q.1 with
      | trap => exact asRead_trap hw
      | stuck => exact asRead_stuck hw
      | ok r => exact callReference_led hi hq hx hw (hf.setStack q.2) hc tail htype hok r

theorem callRef_led (hx : WellIndexed m) (hw : WorldRel S m maximum interval w w')
    (hf : FrameRel m (contextOf m interval) none fr fr')
    (hc : List.Forall₂ (FrameRel m (contextOf m interval) none) cs cs') (tail : Bool) {type : Nat}
    (htype : type < m.types.length) :
    Led S m m' P h maximum interval
      (asRead m (fun f => ((contextOf m interval).thunkOf f).isSome) w
        (callRef m h w fr cs tail type))
      (callRef m' h w' fr' cs' tail type) := by
  have hok : ∀ fn : Nat, (fun _ : Nat => true) ((contextOf m interval).image fn) =
      (fun _ : Nat => true) fn := fun _ => rfl
  simp only [callRef, hf.stack, popRef_rename]
  cases popRef fr.stack with
  | trap | stuck => exact asRead_stuck hw
  | ok q => exact callReference_led hi hq hx hw (hf.setStack q.2) hc tail htype hok q.1

end

end Rewriter
