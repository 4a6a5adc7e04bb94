import CapnpcWasm.Rewriter.Placement
import CapnpcWasm.Rewriter.Validity
import CapnpcWasm.Wasm.Instance
import CapnpcWasm.Rewriter.Worlds

/-!
# How long code runs without a check

Between two checks a frame only moves ahead in its code, and it enters no function but
those that call none.  So what it can still do is bounded by the length of its code, and
a stretch without a check is bounded in the frames it uses up.  Without a check only
returns and exceptions repeat: the frames of a deep recursion can all be left in a row.
-/

namespace Rewriter

open Wasm
open Run (Next Steps Halts)

section

variable {σ : Type} {m m' : Module} {P : Prims} {h : Host σ} {maximum interval : Nat}
  {c d : Config σ}

/-! ## What a frame can still do -/

/-- The next instruction is the first of a check. -/
def AtCheck (ctx : Context) (c : Config σ) : Prop := ∃ is, c.top.code = ctx.check ++ is

/-- The length of the longest body. -/
def longest (m : Module) : Nat := (m.funcs.map (·.body.length)).foldr max 0

/-- Whether a function calls none of the instance. -/
def leaf (ctx : Context) (m : Module) (fn : Nat) : Bool :=
  match m.funcs[fn - m.importedFunctions.length]? with
  | some f => f.body.all (quiet ctx)
  | none => false

/-- How many instructions a frame can still run without a check, with the functions it
calls. -/
def weight (ctx : Context) (m : Module) (fr : Frame) : Nat :=
  if leaf ctx m fr.fn then fr.code.length else (longest m + 1) * fr.code.length

/-- The same for the running frame and the callers above the first `depth`. -/
def potential (ctx : Context) (m : Module) (depth : Nat) (c : Config σ) : Nat :=
  weight ctx m c.top + ((c.callers.take (c.callers.length - depth)).map (weight ctx m)).sum

/-- How many instructions one frame runs without a check. -/
def checkBound (m : Module) : Nat := (longest m + 1) * longest m + 2

theorem length_le_longest {f : Func} (hf : f ∈ m.funcs) : f.body.length ≤ longest m := by
  unfold longest
  generalize m.funcs = fs at hf
  induction fs with
  | nil => cases hf
  | cons g fs ih =>
      rw [List.map_cons, List.foldr_cons]
      rcases List.mem_cons.mp hf with rfl | hf
      · exact Nat.le_max_left _ _
      · exact Nat.le_trans (ih hf) (Nat.le_max_right _ _)

theorem code_le_longest {fr : Frame} (hin : fr.In m) : fr.code.length ≤ longest m := by
  obtain ⟨f, -, hf, hw⟩ := hin
  exact Nat.le_trans hw.code.length_le (length_le_longest (List.mem_of_getElem? hf))

theorem weight_le (ctx : Context) {fr : Frame} (hin : fr.In m) :
    weight ctx m fr ≤ (longest m + 1) * longest m := by
  have hle := code_le_longest hin
  unfold weight
  split
  · exact Nat.le_trans hle (Nat.le_mul_of_pos_left _ (Nat.succ_pos _))
  · exact Nat.mul_le_mul_left _ hle

theorem weight_mono {ctx : Context} {fr fr' : Frame} (hfn : fr'.fn = fr.fn)
    (hle : fr'.code.length ≤ fr.code.length) : weight ctx m fr' ≤ weight ctx m fr := by
  unfold weight
  rw [hfn]
  split
  · exact hle
  · exact Nat.mul_le_mul_left _ hle

/-- An instruction costs at least one. -/
theorem weight_past {ctx : Context} {fr fr' : Frame} {i : Instr} (hfn : fr'.fn = fr.fn)
    (hcode : fr.code = i :: fr'.code) : weight ctx m fr' < weight ctx m fr := by
  unfold weight
  rw [hfn, hcode]
  split
  · exact Nat.lt_succ_self _
  · rw [List.length_cons, Nat.mul_succ]
    omega

/-- In a function that calls others it pays for the longest body. -/
theorem weight_call {ctx : Context} {fr fr' : Frame} {i : Instr} (hfn : fr'.fn = fr.fn)
    (hcode : fr.code = i :: fr'.code) (hleaf : leaf ctx m fr.fn = false) :
    weight ctx m fr' + longest m < weight ctx m fr := by
  unfold weight
  rw [hfn, hcode]
  simp only [hleaf, Bool.false_eq_true, if_false, List.length_cons, Nat.mul_succ]
  omega

theorem potential_le {ctx : Context} {depth : Nat} (hin : c.In m) :
    potential ctx m depth c + 2 ≤ checkBound m * (c.callers.length - depth + 1) := by
  have hsum : ∀ frs : List Frame, (∀ fr ∈ frs, fr.In m) →
      (frs.map (weight ctx m)).sum ≤ (longest m + 1) * longest m * frs.length := by
    intro frs
    induction frs with
    | nil => exact fun _ => Nat.le_refl _
    | cons fr frs ih =>
        intro hfrs
        have hfr := weight_le ctx (hfrs fr List.mem_cons_self)
        have hrest := ih fun fr h => hfrs fr (List.mem_cons_of_mem _ h)
        rw [List.map_cons, List.sum_cons, List.length_cons, Nat.mul_succ]
        omega
  have htop := weight_le ctx hin.1
  have hcallers := hsum (c.callers.take (c.callers.length - depth))
    fun fr h => hin.2 fr (List.mem_of_mem_take h)
  rw [List.length_take, Nat.min_eq_left (Nat.sub_le _ _)] at hcallers
  unfold potential checkBound
  generalize hL : (longest m + 1) * longest m = L at htop hcallers ⊢
  generalize c.callers.length - depth = n at hcallers ⊢
  calc weight ctx m c.top + ((c.callers.take n).map (weight ctx m)).sum + 2
      ≤ L + L * n + 2 := by omega
    _ ≤ (L + 2) * (n + 1) := by
      rw [Nat.add_mul, Nat.mul_succ, Nat.mul_succ]
      omega

/-! ## One step -/

/-- A function the instrumented instance enters begins with a check or calls nothing. -/
theorem starts_checked (hi : Instruments m m' maximum interval) {g : Nat}
    (hs : Starts m' g d) :
    AtCheck (contextOf m interval) d ∨
      leaf (contextOf m interval) m' d.top.fn = true ∧ d.top.code.length ≤ longest m' := by
  obtain ⟨f, type, args, hle, hf, hd⟩ := hs
  have hmem := List.mem_of_getElem? hf
  rcases (hi.checked hmem).entry with ⟨is, hbody⟩ | hquiet
  · exact .inl ⟨is, by rw [hd]; exact hbody⟩
  · refine .inr ⟨?_, ?_⟩
    · simp only [hd, Func.frame, leaf, hf, List.all_eq_true]
      exact hquiet
    · rw [hd]
      exact length_le_longest hmem

/-- A frame that calls a function of the instance runs one that does. -/
theorem caller_not_leaf (hi : Instruments m m' maximum interval) {g : Nat} {i : Instr}
    {is : List Instr} {st : Store} {stack : List Val} (hin : c.top.In m')
    (hcode : c.top.code = i :: is) (hg : Calls st stack i g)
    (hle : m'.importedFunctions.length ≤ g) :
    leaf (contextOf m interval) m' c.top.fn = false := by
  obtain ⟨f, -, hf, hw⟩ := hin
  have hmem : i ∈ f.body := hw.code.subset (by rw [hcode]; exact List.mem_cons_self)
  have hlen := hi.length_importedFunctions
  have hquiet : quiet (contextOf m interval) i = false := by
    cases i with
    | call f | return_call f =>
        have hfg : f = g := hg
        show decide (f ≤ m.importedFunctions.length) = false
        exact decide_eq_false (by omega)
    | call_indirect t u | return_call_indirect t u | call_ref t | return_call_ref t => rfl
    | _ => exact hg.elim
  simp only [leaf, hf]
  rw [Bool.eq_false_iff]
  intro hall
  rw [List.all_eq_true] at hall
  exact absurd (hall i hmem) (by simp [hquiet])

/-- A step uses up what it runs, unless it comes to a check, goes back to a loop or
leaves a frame that is to stay. -/
theorem step_potential (hi : Instruments m m' maximum interval) {depth : Nat} (hin : c.In m')
    (hdepth : depth ≤ c.callers.length) (hs : step m' P h c = .more d) :
    AtCheck (contextOf m interval) d ∨ d.callers.length < depth ∨
      (∃ bt is, d.top.code = .loop bt :: is) ∨
      potential (contextOf m interval) m' depth d <
        potential (contextOf m interval) m' depth c := by
  obtain ⟨i, is, hcode, hm, -⟩ := step_moves hin hs
  have hpast : ∀ fr : Frame, fr.fn = c.top.fn → fr.code = is →
      weight (contextOf m interval) m' fr < weight (contextOf m interval) m' c.top :=
    fun fr hfn his => weight_past hfn (his ▸ hcode)
  rcases hm with ⟨left, fr, hf, -, hfn, hle | hloop⟩ | ⟨g, hst, hg, vs, -, hw⟩
  · have htop : weight (contextOf m interval) m' d.top ≤ weight (contextOf m interval) m' fr :=
      weight_mono hfn hle
    cases left with
    | nil =>
        have hfr := hpast fr (by rw [← (List.cons.inj hf).1]) (by rw [← (List.cons.inj hf).1])
        have hcallers : c.callers = d.callers := (List.cons.inj hf).2
        refine .inr (.inr (.inr ?_))
        unfold potential
        rw [hcallers]
        omega
    | cons fr₀ left =>
        have hcallers : c.callers = left ++ fr :: d.callers := (List.cons.inj hf).2
        by_cases hd : d.callers.length < depth
        · exact .inr (.inl hd)
        · -- the frames left and the one that goes on are all paid for
          have hlen : c.callers.length - depth =
              (left ++ [fr]).length + (d.callers.length - depth) := by
            rw [hcallers]
            simp only [List.length_append, List.length_cons, List.length_nil]
            omega
          have htake : c.callers.take (c.callers.length - depth) =
              left ++ [fr] ++ d.callers.take (d.callers.length - depth) := by
            rw [hlen, ← List.take_length_add_append, List.append_assoc, List.singleton_append,
              hcallers]
          have hfirst := hpast { c.top with code := is } rfl rfl
          refine .inr (.inr (.inr ?_))
          unfold potential
          rw [htake]
          simp only [List.map_append, List.sum_append, List.map_cons, List.map_nil, List.sum_cons,
            List.sum_nil]
          omega
  · exact .inr (.inr (.inl hloop))
  · rcases starts_checked hi hst with hcheck | ⟨hleaf, hlen⟩
    · exact .inl hcheck
    · obtain ⟨_, _, _, hge, _, _⟩ := id hst
      have hcall : ∀ fr : Frame, fr.fn = c.top.fn → fr.code = is →
          weight (contextOf m interval) m' fr + longest m' <
            weight (contextOf m interval) m' c.top :=
        fun fr hfn his => weight_call hfn (his ▸ hcode) (caller_not_leaf hi hin.1 hcode hg hge)
      have htop : weight (contextOf m interval) m' d.top ≤ longest m' := by
        unfold weight
        rw [if_pos hleaf]
        exact hlen
      refine .inr (.inr (.inr ?_))
      unfold potential
      rw [hw]
      split
      · have := hcall { c.top with code := is } rfl rfl
        omega
      · have := hcall { c.top with code := is, stack := vs } rfl rfl
        rw [List.length_cons, Nat.succ_sub hdepth, List.take_succ_cons, List.map_cons,
          List.sum_cons]
        dsimp only at this ⊢
        omega

/-- Behind a loop header stands a check. -/
theorem loop_check (hi : Instruments m m' maximum interval) {bt : BlockType} {is : List Instr}
    (hin : c.In m') (hcode : c.top.code = .loop bt :: is) (hs : step m' P h c = .more d) :
    AtCheck (contextOf m interval) d := by
  obtain ⟨f, -, hf, hw⟩ := hin.1
  have hplaced : Placed (contextOf m interval) (.loop bt) is :=
    (hi.checked (List.mem_of_getElem? hf)).placed.suffix (hcode ▸ hw.code)
  obtain ⟨js, hjs⟩ := hplaced
  refine ⟨js, ?_⟩
  rw [← hjs]
  simp only [step, hcode, exec, reduceCtorEq, if_false, Wasm.control] at hs
  split at hs
  · simp only [Frame.enter] at hs
    split at hs <;> cases hs
    rfl
  · cases hs

/-! ## Runs -/

/-- What the frames can still do bounds a run without a check. -/
theorem unchecked_le (hi : Instruments m m' maximum interval) {depth k : Nat} (hin : c.In m')
    (hrun : Steps (step m' P h) k c d)
    (hno : ∀ j x, j < k → Steps (step m' P h) j c x →
      ¬ AtCheck (contextOf m interval) x ∧ depth ≤ x.callers.length) :
    k ≤ potential (contextOf m interval) m' depth c + 2 := by
  induction hrun with
  | refl => exact Nat.zero_le _
  | @head n c c₁ d hs hrest ih =>
      obtain ⟨i, is, -, -, hin₁⟩ := step_moves hin hs
      cases n with
      | zero => omega
      | succ n =>
          obtain ⟨hno₁, hdepth₁⟩ := hno 1 c₁ (by omega) (.one hs)
          obtain ⟨-, hdepth⟩ := hno 0 c (by omega) (.refl c)
          rcases step_potential hi hin hdepth hs with hc | hlt | ⟨bt, is, hloop⟩ | hlt
          · exact absurd hc hno₁
          · omega
          · cases hrest with
            | @head _ _ c₂ _ hs₂ hrest =>
                cases n with
                | zero => omega
                | succ n =>
                    -- the third instruction would be that of a check
                    have h₂ := hno 2 c₂ (by omega) (.head hs (.one hs₂))
                    exact absurd (loop_check hi hin₁ hloop hs₂) h₂.1
          · have := ih hin₁ fun j x hj hx => hno (j + 1) x (by omega) (.head hs hx)
            omega

/-- In every execution of the instrumented module, a stretch without a check is bounded by
the frames it leaves: those of the callers above the first `depth`, which stay, and its
own. -/
theorem unchecked_stretch_bounded {w : World σ} {f n depth k : Nat} {args : List Val}
    {c₀ : Config σ} (hm : instrument m maximum interval = some m')
    (hstart : invoke m' h w f args [] = .more c₀) (hreach : Steps (step m' P h) n c₀ c)
    (hrun : Steps (step m' P h) k c d)
    (hno : ∀ j x, j < k → Steps (step m' P h) j c x →
      ¬ AtCheck (contextOf m interval) x ∧ depth ≤ x.callers.length) :
    k ≤ checkBound m' * (c.callers.length - depth + 1) := by
  have hi := Instruments.of_instrument hm
  have hin : c.In m' := Steps.invariant
    (fun c d hc hs => by
      obtain ⟨-, -, -, -, hd⟩ := step_moves hc hs
      exact hd) hreach (invoke_in hstart)
  exact Nat.le_trans (unchecked_le hi hin hrun hno) (potential_le hin)

end

/-! ## A recursion that unwinds -/

/-- A function that asks an import whether to call itself, and has work left after the
call. -/
def recur : Module where
  types := [⟨[], [.i32]⟩, ⟨[], []⟩]
  imports := [⟨⟨[101], [109]⟩, .func 0⟩]
  funcs := [{
    type := 1
    locals := []
    body := [.call 0, .if .empty, .call 1, .nop, .end, .end] }]
  memories := [⟨0, none⟩]
  exports := [⟨[114], .func, 1⟩]

abbrev recurContext : Context := contextOf recur 1000

/-- Its function after the rewrite. -/
def recurBody : List Instr :=
  recurContext.check ++ .call 0 ::
    (recurContext.check ++ [.if .empty, .call 2, .nop, .end, .end])

def recurInstrumented : Module where
  types := [⟨[], [.i32]⟩, ⟨[], []⟩, ⟨[], [.i32]⟩]
  imports := [⟨⟨[101], [109]⟩, .func 0⟩, ⟨interruptImport, .func 2⟩]
  funcs := [{ type := 1, locals := [], body := recurBody }]
  memories := [⟨0, some 16⟩]
  globals := [⟨⟨.i32, true⟩, [.i32_const 1000]⟩]
  exports := [⟨[114], .func, 2⟩, ⟨countdownExport, .global, 0⟩]

theorem recur_valid : recur.Valid samplePrims maxLocals where
  types i t h := by
    match i with
    | 0 | 1 => cases h; decide
    | i + 2 => cases h
  imports := by decide
  funcs := by decide
  tables := by decide
  memories := by decide
  tags := by decide
  globals _ _ h := by cases h
  exports := by decide
  names := by decide
  start _ h := by cases h
  elems := by decide
  datas := by decide

theorem recur_instrumented : instrument recur 16 1000 = some recurInstrumented := by
  decide +kernel

/-- A host that answers the import with one as often as its state says, and a poll with
zero. -/
def levelHost : Host Nat where
  call n fn _ v :=
    match fn, n with
    | .imported 0 _, n + 1 => ⟨n, v, none, .ret [.i32 1]⟩
    | _, n => ⟨n, v, none, .ret [.i32 0]⟩
  foreignHas _ _ := false

/-- The first store. -/
def recurStore : Store where
  mems := [⟨[], some 16⟩]
  tables := []
  globals := [.i32 1000]
  elems := []
  datas := []
  tags := []
  exns := []

/-- A world in which the function will call itself `n` times more. -/
structure Level (n : Nat) (w : World Nat) : Prop where
  host : w.host = n
  countdown : ∃ c, w.store.globals[recurContext.counter]? = some (.i32 c)

/-- The function at its start. -/
def recurStart : Frame := ⟨2, recurBody, [], [], [], 0⟩

/-- The function while it waits for itself. -/
def recurWaiting : Frame :=
  ⟨2, [.nop, .end, .end], [], [⟨.plain, 0, [], [.end], [.end]⟩], [], 0⟩

/-- The function at its end. -/
def recurEnd : Frame := ⟨2, [.end], [], [], [], 0⟩

section

variable {w : World Nat} {n : Nat} {cs : List Frame}

theorem level_check (hw : Level n w) (is : List Instr) (vs : List Val) (cs : List Frame) :
    ∃ k w', Steps (step recurInstrumented samplePrims levelHost) k
      ⟨w, ⟨2, recurContext.check ++ is, vs, [], [], 0⟩, cs⟩ ⟨w', ⟨2, is, vs, [], [], 0⟩, cs⟩ ∧
      Level n w' := by
  obtain ⟨hhost, c, hc⟩ := hw
  have hlen : recurContext.counter < w.store.globals.length := (List.getElem?_eq_some_iff.mp hc).1
  by_cases hz : c = 0
  · subst hz
    have hcall : hostCall recurInstrumented levelHost w recurContext.interrupt [] =
        (⟨w.store, w.host, w.log ++ [⟨recurContext.interrupt, []⟩]⟩, .ret [.i32 0]) := by
      rw [hostCall]
      exact Prod.ext (congrArg (World.mk · _ _) (absorb_view ..)) rfl
    have hp : Polls recurInstrumented recurContext :=
      (Instruments.of_instrument recur_instrumented).polls
    exact ⟨_, _, check_answered hp hc hcall hlen, hhost, _, setGlobal_get hlen⟩
  · exact ⟨_, _, check_tick hc hz, hhost, _, setGlobal_get hlen⟩

/-- The import is asked, and answers by the level. -/
theorem level_ask (hw : Level n w) (is : List Instr) (cs : List Frame) :
    ∃ w', step recurInstrumented samplePrims levelHost
        ⟨w, ⟨2, .call 0 :: is, [], [], [], 0⟩, cs⟩ =
      .more ⟨w', ⟨2, is, [.i32 (if n = 0 then 0 else 1)], [], [], 0⟩, cs⟩ ∧ Level (n - 1) w' := by
  obtain ⟨st, s, log⟩ := w
  obtain ⟨rfl, c, hc⟩ := hw
  have hkept : ∀ (s : Nat) r, (recurInstrumented.absorb st
      ⟨s, recurInstrumented.view st, none, r⟩).globals[recurContext.counter]? = some (.i32 c) :=
    fun s r => by rw [absorb_view]; exact hc
  have hstep : step recurInstrumented samplePrims levelHost
      ⟨⟨st, s, log⟩, ⟨2, .call 0 :: is, [], [], [], 0⟩, cs⟩ =
      callHost recurInstrumented levelHost ⟨st, s, log⟩ (.imported 0 ⟨[101], [109]⟩) ⟨[], [.i32]⟩ []
        (⟨2, is, [], [], [], 0⟩ :: cs) :=
    exec_call_import (P := samplePrims) (t := 0) rfl rfl popArgs_none
  rw [hstep]
  cases s with
  | zero => exact ⟨_, rfl, rfl, c, hkept _ _⟩
  | succ s => exact ⟨_, rfl, rfl, c, hkept _ _⟩

/-- What the function does after the answer. -/
def recurRest : List Instr := [.if .empty, .call 2, .nop, .end, .end]

theorem level_answer (hw : Level n w) (cs : List Frame) :
    ∃ k w', Steps (step recurInstrumented samplePrims levelHost) k ⟨w, recurStart, cs⟩
      ⟨w', ⟨2, recurRest, [.i32 (if n = 0 then 0 else 1)], [], [], 0⟩, cs⟩ ∧
      Level (n - 1) w' := by
  obtain ⟨k, w₁, hrun₁, hw₁⟩ := level_check hw (.call 0 :: (recurContext.check ++ recurRest)) [] cs
  obtain ⟨w₂, hask, hw₂⟩ := level_ask hw₁ (recurContext.check ++ recurRest) cs
  obtain ⟨j, w₃, hrun₃, hw₃⟩ := level_check hw₂ recurRest [.i32 (if n = 0 then 0 else 1)] cs
  exact ⟨_, w₃, hrun₁.trans (.head hask hrun₃), hw₃⟩

/-- A call goes one level down. -/
theorem level_down (hw : Level (n + 1) w) (cs : List Frame) :
    ∃ k w', Steps (step recurInstrumented samplePrims levelHost) k ⟨w, recurStart, cs⟩
      ⟨w', recurStart, recurWaiting :: cs⟩ ∧ Level n w' := by
  obtain ⟨k, w', hrun, hw'⟩ := level_answer hw cs
  rw [if_neg (Nat.succ_ne_zero n)] at hrun
  exact ⟨_, w', hrun.trans (.head (step_if_then (by decide) rfl) (.one rfl)), hw'⟩

/-- At the last level it returns. -/
theorem level_bottom (hw : Level 0 w) (cs : List Frame) :
    ∃ k w', Steps (step recurInstrumented samplePrims levelHost) k ⟨w, recurStart, cs⟩
      ⟨w', recurEnd, cs⟩ := by
  obtain ⟨k, w', hrun, -⟩ := level_answer hw cs
  exact ⟨_, w', hrun.trans (.one (step_if_skip rfl rfl))⟩

/-- As many levels as the host asks for. -/
theorem level_deep (hw : Level n w) (cs : List Frame) :
    ∃ k w', Steps (step recurInstrumented samplePrims levelHost) k ⟨w, recurStart, cs⟩
      ⟨w', recurEnd, List.replicate n recurWaiting ++ cs⟩ := by
  induction n generalizing w cs with
  | zero => exact level_bottom hw cs
  | succ n ih =>
      obtain ⟨k, w₁, hrun, hw₁⟩ := level_down hw cs
      obtain ⟨j, w₂, hrun₂⟩ := ih hw₁ (recurWaiting :: cs)
      refine ⟨k + j, w₂, hrun.trans ?_⟩
      rwa [List.replicate_succ', List.append_assoc, List.singleton_append]

/-! ## The way back -/

/-- The recursion on its way back, `n` callers before the first. -/
inductive Unwinding : Nat → Config Nat → Prop where
  | «end» (w : World Nat) (n : Nat) :
      Unwinding n ⟨w, recurEnd, List.replicate n recurWaiting⟩
  | work (w : World Nat) (n : Nat) :
      Unwinding n ⟨w, recurWaiting, List.replicate n recurWaiting⟩
  | worked (w : World Nat) (n : Nat) :
      Unwinding n ⟨w, { recurWaiting with code := [.end, .end] }, List.replicate n recurWaiting⟩

variable {c : Config Nat}

theorem Unwinding.not_atCheck (hc : Unwinding n c) : ¬ AtCheck recurContext c := by
  rintro ⟨is, his⟩
  cases hc <;> cases his

theorem Unwinding.step (hc : Unwinding (n + 1) c) :
    ∃ d, Wasm.step recurInstrumented samplePrims levelHost c = .more d ∧
      (Unwinding (n + 1) d ∨ Unwinding n d) := by
  cases hc with
  | «end» w => exact ⟨_, rfl, .inr (.work w n)⟩
  | work w => exact ⟨_, rfl, .inl (.worked w (n + 1))⟩
  | worked w => exact ⟨_, rfl, .inl (.end w (n + 1))⟩

/-- The way back is as long as the way there. -/
theorem Unwinding.long {k : Nat} : ∀ {n c}, Unwinding n c → k ≤ n →
    ∃ d, Steps (Wasm.step recurInstrumented samplePrims levelHost) k c d ∧
      ∀ j x, j < k → Steps (Wasm.step recurInstrumented samplePrims levelHost) j c x →
        ¬ AtCheck recurContext x := by
  induction k with
  | zero => exact fun {n c} _ _ => ⟨c, .refl c, fun j x hj => absurd hj (Nat.not_lt_zero j)⟩
  | succ k ih =>
      intro n c hc hk
      obtain ⟨n, rfl⟩ : ∃ n', n = n' + 1 := ⟨n - 1, by omega⟩
      obtain ⟨d, hs, hd⟩ := hc.step
      obtain ⟨e, hrun, hno⟩ : ∃ e, Steps (Wasm.step recurInstrumented samplePrims levelHost) k d e ∧
          ∀ j x, j < k → Steps (Wasm.step recurInstrumented samplePrims levelHost) j d x →
            ¬ AtCheck recurContext x := by
        rcases hd with hd | hd
        · exact ih hd (by omega)
        · exact ih hd (by omega)
      refine ⟨e, .head hs hrun, fun j x hj hx => ?_⟩
      cases hx with
      | refl => exact hc.not_atCheck
      | head hs' hx =>
          rw [hs] at hs'
          cases hs'
          exact hno _ x (by omega) hx

end

/-- No number of instructions is enough for a check: a deep recursion unwinds without
one. -/
theorem unwinding_is_unchecked :
    recur.Valid samplePrims maxLocals ∧ instrument recur 16 1000 = some recurInstrumented ∧
      recurInstrumented.instantiate samplePrims ⟨[], [], [], []⟩ = .ok recurStore ∧
      ¬ ∃ K, ∀ s c₀ n c d,
        invoke recurInstrumented levelHost ⟨recurStore, s, []⟩ 2 [] [] = .more c₀ →
        Steps (step recurInstrumented samplePrims levelHost) n c₀ c →
        Steps (step recurInstrumented samplePrims levelHost) K c d →
        ∃ j x, j < K ∧ Steps (step recurInstrumented samplePrims levelHost) j c x ∧
          AtCheck recurContext x := by
  refine ⟨recur_valid, recur_instrumented, rfl, ?_⟩
  rintro ⟨K, hK⟩
  have hlevel : Level K ⟨recurStore, K, []⟩ := ⟨rfl, 1000, rfl⟩
  obtain ⟨n, w, hrun⟩ := level_deep hlevel []
  rw [List.append_nil] at hrun
  obtain ⟨d, hd, hno⟩ := (Unwinding.end w K).long (Nat.le_refl K)
  obtain ⟨j, x, hj, hx, hcheck⟩ := hK K _ n _ d rfl hrun hd
  exact hno j x hj hx hcheck

/-- Five instructions of the way back from five levels, and their bound. -/
theorem unchecked_stretch_bounded_sample :
    ∃ n c d, Steps (step recurInstrumented samplePrims levelHost) n
        ⟨⟨recurStore, 5, []⟩, recurStart, []⟩ c ∧
      Steps (step recurInstrumented samplePrims levelHost) 5 c d ∧
      5 ≤ checkBound recurInstrumented * (c.callers.length - 0 + 1) := by
  have hlevel : Level 5 ⟨recurStore, 5, []⟩ := ⟨rfl, 1000, rfl⟩
  obtain ⟨n, w, hrun⟩ := level_deep hlevel []
  rw [List.append_nil] at hrun
  obtain ⟨d, hd, hno⟩ := (Unwinding.end w 5).long (Nat.le_refl 5)
  have hstart : invoke recurInstrumented levelHost ⟨recurStore, 5, []⟩ 2 [] [] =
      .more ⟨⟨recurStore, 5, []⟩, recurStart, []⟩ := rfl
  exact ⟨n, _, d, hrun, hd, unchecked_stretch_bounded recur_instrumented hstart hrun hd
    fun j x hj hx => ⟨hno j x hj hx, Nat.zero_le _⟩⟩

end Rewriter
