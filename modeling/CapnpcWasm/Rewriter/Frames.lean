import CapnpcWasm.Rewriter.Image
import CapnpcWasm.Rewriter.Sequences

/-!
# Frames of the instrumented instance

A frame of the original and the frame that runs its rewritten function: the same
labels at rewritten code, renumbered operands and locals, one more local where the
function is charged.  Branching, entering and leaving blocks and finding a handler
take related frames to related frames.

What the original's code must satisfy is said instruction by instruction, with the
constant just before it, since that constant decides whether a charge is inserted
(`Every`).
-/

namespace Rewriter

open Wasm

/-! ## Properties of code -/

/-- Every instruction has `Q`, given the constant just before it.  `p` is the
constant before the first. -/
def Every (Q : Option (BitVec 32) → Instr → Prop) : Option (BitVec 32) → List Instr → Prop
  | _, [] => True
  | p, i :: is => Q p i ∧ Every Q (constantOf i) is

section

variable {Q : Option (BitVec 32) → Instr → Prop} {p : Option (BitVec 32)} {is js : List Instr}

theorem Every.tail {i : Instr} (h : Every Q p (i :: is)) : Every Q (constantOf i) is := h.2

theorem Every.mono {Q' : Option (BitVec 32) → Instr → Prop} (hQ : ∀ p i, Q p i → Q' p i)
    (h : Every Q p is) : Every Q' p is := by
  induction is generalizing p with
  | nil => trivial
  | cons i is ih => exact ⟨hQ _ _ h.1, ih h.2⟩

/-- No constant stands before the code after a delimiter. -/
theorem constantOf_delimiter {i : Instr} (h : isDelimiter i = true) : constantOf i = none := by
  cases i <;> first | rfl | cases h

theorem Every.matchEnd {d : Nat} (h : Every Q p is) (hm : matchEnd d is = some js) :
    Every Q none js := by
  induction is generalizing p d with
  | nil => cases hm
  | cons i is ih =>
      unfold Wasm.matchEnd at hm
      split at hm
      · exact ih h.2 hm
      · split at hm
        · rename_i hc
          split at hm
          · cases hm
            rw [← constantOf_delimiter (i := i) (by cases i <;> first | rfl | cases hc)]
            exact h.2
          · exact ih h.2 hm
        · exact ih h.2 hm

theorem Every.matchElse {d : Nat} (h : Every Q p is) (hm : matchElse d is = some js) :
    Every Q none js := by
  induction is generalizing p d with
  | nil => cases hm
  | cons i is ih =>
      unfold Wasm.matchElse at hm
      split at hm
      · exact ih h.2 hm
      · split at hm
        · split at hm
          · cases hm
          · exact ih h.2 hm
        · split at hm
          · cases hm
            exact h.2
          · exact ih h.2 hm

theorem Every.handlers {d : Nat} (h : Every Q p is) {hd : Handler}
    (hm : hd ∈ Wasm.handlers d is) : Every Q none hd.code := by
  induction is generalizing p d with
  | nil => cases hm
  | cons i is ih =>
      unfold Wasm.handlers at hm
      split at hm
      · exact ih h.2 hm
      · split at hm
        · split at hm
          · cases hm
          · exact ih h.2 hm
        · split at hm
          · rcases List.mem_cons.mp hm with rfl | hm
            · exact h.2
            · exact ih (p := none) h.2 hm
          · rcases List.mem_cons.mp hm with rfl | hm
            · exact h.2
            · exact ih (p := none) h.2 hm
          · exact ih h.2 hm

end

/-! ## What the original must satisfy -/

/-- What a function has for its code. -/
structure Site where
  /-- How many parameters and locals it has: the index of the added local. -/
  scratch : Nat
  /-- How many values it returns. -/
  results : Nat
  /-- Whether it gets the added local. -/
  slot : Bool

/-- A block type names one of the original's types. -/
def namesType (m : Module) : BlockType → Prop
  | .type index => index < m.types.length
  | _ => True

/-- The indices an instruction names exist in the original.  A tail call returns as
many values as its function. -/
def names (m : Module) (results : Nat) : Instr → Prop
  | .call f | .ref_func f => f < m.funcTypes.length
  | .return_call f => f < m.funcTypes.length ∧
      ∀ t, m.funcType? f = some t → t.results.length = results
  | .call_indirect type _ | .return_call_indirect type _ => type < m.types.length
  | .call_ref type | .return_call_ref type => type < m.types.length
  | .block bt | .loop bt | .if bt | .try bt | .try_table bt _ => namesType m bt
  | .throw x => ∀ type, m.tagTypes[x]? = some type → type < m.types.length
  | _ => True

/-- An instruction fits its function. -/
structure Fits (m : Module) (s : Site) (p : Option (BitVec 32)) (i : Instr) : Prop where
  indexed : indexed s.scratch m.globalTypes.length m.elems.length i
  names : names m s.results i
  slot : (charge? p i).isSome = true → s.slot = true

/-- The code a label keeps fits. -/
structure LabelFits (m : Module) (s : Site) (l : Label) : Prop where
  cont : Every (Fits m s) none l.cont
  after : Every (Fits m s) none l.after
  handlers : ∀ hs d, l.kind = .guarded hs d → ∀ h ∈ hs, Every (Fits m s) none h.code

/-- The frame of a function with the site `s`, the constant `p` before its code. -/
structure FrameFits (m : Module) (s : Site) (p : Option (BitVec 32)) (fr : Frame) : Prop where
  code : Every (Fits m s) p fr.code
  labels : ∀ l ∈ fr.labels, LabelFits m s l
  locals : fr.locals.length = s.scratch
  arity : fr.arity = s.results

/-! ## The image of a frame -/

namespace Context

variable (ctx : Context) (scratch : Nat)

def handler (h : Handler) : Handler := ⟨h.tag, rewriteCode ctx scratch none h.code⟩

def kind : LabelKind → LabelKind
  | .guarded hs d => .guarded (hs.map (ctx.handler scratch)) d
  | k => k

def label (l : Label) : Label where
  kind := ctx.kind scratch l.kind
  arity := l.arity
  base := l.base.map (Val.rename ctx.image)
  cont := rewriteCode ctx scratch none l.cont
  after := rewriteCode ctx scratch none l.after

/-- The frame of the rewritten function, its added local in `extra`. -/
def frame (p : Option (BitVec 32)) (extra : List Val) (fr : Frame) : Frame where
  fn := fr.fn + 1
  code := rewriteCode ctx scratch p fr.code
  stack := fr.stack.map (Val.rename ctx.image)
  labels := fr.labels.map (ctx.label scratch)
  locals := fr.locals.map (Val.rename ctx.image) ++ extra
  arity := fr.arity

end Context

/-- The frame `fr'` runs the rewritten code of `fr`. -/
def FrameRel (m : Module) (ctx : Context) (p : Option (BitVec 32)) (fr fr' : Frame) : Prop :=
  ∃ (s : Site) (extra : List Val), FrameFits m s p fr ∧ (s.slot = true → extra ≠ []) ∧
    fr' = ctx.frame s.scratch p extra fr

/-- Put a sequence before the code a jump leads to. -/
def Jump.before (seq : List Instr) : Jump → Jump
  | .to fr => .to { fr with code := seq ++ fr.code }
  | j => j

/-- Jumps that lead to related frames or leave with related values. -/
inductive JumpRel (m : Module) (ctx : Context) : Jump → Jump → Prop where
  | to {fr fr' : Frame} : FrameRel m ctx none fr fr' → JumpRel m ctx (.to fr) (.to fr')
  | leave (vs : List Val) : JumpRel m ctx (.leave vs) (.leave (vs.map (Val.rename ctx.image)))
  | stuck : JumpRel m ctx .stuck .stuck

section

variable {m : Module} {ctx : Context} {s : Site} {p : Option (BitVec 32)} {extra : List Val}
  {fr : Frame}

/-! ## Branches and blocks -/

theorem branch_rel (hf : FrameFits m s p fr) (he : s.slot = true → extra ≠ []) (label : Nat) :
    JumpRel m ctx (fr.branch label) ((ctx.frame s.scratch p extra fr).branch label) := by
  simp only [Frame.branch, Context.frame, List.getElem?_map, List.length_map]
  cases hl : fr.labels[label]? with
  | some l =>
      simp only [Option.map_some, Context.label]
      split
      · refine .to ⟨s, extra, ⟨?_, ?_, hf.locals, hf.arity⟩, he, ?_⟩
        · exact (hf.labels l (List.mem_of_getElem? hl)).cont
        · exact fun l hl => hf.labels l (List.mem_of_mem_drop hl)
        · simp [Context.frame, List.map_drop, List.map_take]
      · exact .stuck
  | none =>
      simp only [Option.map_none]
      split
      · rw [← List.map_take, ← List.map_reverse]
        exact .leave _
      · exact .stuck

theorem enter_rel (hf : FrameFits m s p fr) (he : s.slot = true → extra ≠ []) {type : FuncType}
    {kind : LabelKind} {arity : Nat} {cont after body : List Instr}
    (hl : LabelFits m s ⟨kind, arity, fr.stack.drop type.params.length, cont, after⟩)
    (hb : Every (Fits m s) none body) :
    JumpRel m ctx (fr.enter type kind arity cont after body)
      ((ctx.frame s.scratch p extra fr).enter type (ctx.kind s.scratch kind) arity
        (rewriteCode ctx s.scratch none cont) (rewriteCode ctx s.scratch none after)
        (rewriteCode ctx s.scratch none body)) := by
  simp only [Frame.enter, Context.frame, List.length_map]
  split
  · refine .to ⟨s, extra, ⟨hb, ?_, hf.locals, hf.arity⟩, he, ?_⟩
    · intro l hm
      rcases List.mem_cons.mp hm with rfl | hm
      · exact hl
      · exact hf.labels l hm
    · simp [Context.frame, Context.label, List.map_drop, List.map_take]
  · exact .stuck

theorem exitBlock_rel (hf : FrameFits m s p fr) (he : s.slot = true → extra ≠ [])
    {next next' : Label → List Instr}
    (hn : ∀ l ∈ fr.labels, Every (Fits m s) none (next l) ∧
      next' (ctx.label s.scratch l) = rewriteCode ctx s.scratch none (next l)) :
    JumpRel m ctx (fr.exitBlock next) ((ctx.frame s.scratch p extra fr).exitBlock next') := by
  simp only [Frame.exitBlock, Context.frame]
  cases hl : fr.labels with
  | nil => exact .stuck
  | cons l ls =>
      obtain ⟨hcode, hnext⟩ := hn l (by simp [hl])
      refine .to ⟨s, extra, ⟨hcode, ?_, hf.locals, hf.arity⟩, he, ?_⟩
      · exact fun k hk => hf.labels k (by simp [hl, hk])
      · rw [hnext]
        simp [Context.frame, Context.label]

/-! ## Handlers -/

@[simp] theorem Context.label_kind (l : Label) :
    (ctx.label s.scratch l).kind = ctx.kind s.scratch l.kind := rfl

theorem Catch.catches_rename (ρ : Nat → Nat) (c : Catch) (tags : List Nat) (e : Exn) :
    c.catches tags (e.rename ρ) = c.catches tags e := by
  cases c <;> rfl

theorem Catch.operands_rename (ρ : Nat → Nat) (c : Catch) (address : Nat) (e : Exn) :
    c.operands address (e.rename ρ) = (c.operands address e).map (Val.rename ρ) := by
  cases c with
  | tag x ref l => cases ref <;> simp [Catch.operands, Exn.rename]
  | all ref l => cases ref <;> simp [Catch.operands]

theorem find_handler (ρ : Nat → Nat) (scratch : Nat) (tags : List Nat) (e : Exn)
    (hs : List Handler) :
    (hs.map (ctx.handler scratch)).find? (·.catches tags (e.rename ρ)) =
      (hs.find? (·.catches tags e)).map (ctx.handler scratch) := by
  rw [List.find?_map]
  rfl

/-- A frame handles an exception where its image does. -/
theorem handle_rel (ctx : Context) (hf : FrameFits m s p fr) (he : s.slot = true → extra ≠ []) (tags : List Nat)
    (address : Nat) (e : Exn) (ls : List Label) :
    ∀ skip, (∀ l ∈ ls, LabelFits m s l) →
      (fr.handle tags address e skip ls = none ∧
        (ctx.frame s.scratch p extra fr).handle tags address (e.rename ctx.image) skip
          (ls.map (ctx.label s.scratch)) = none) ∨
      ∃ j j', fr.handle tags address e skip ls = some j ∧
        (ctx.frame s.scratch p extra fr).handle tags address (e.rename ctx.image) skip
          (ls.map (ctx.label s.scratch)) = some j' ∧ JumpRel m ctx j j' := by
  induction ls with
  | nil => intro skip _; exact .inl ⟨by rw [Frame.handle], by rw [List.map_nil, Frame.handle]⟩
  | cons l ls ih =>
      intro skip hls
      have hrest : ∀ k ∈ ls, LabelFits m s k := fun k hk => hls k (List.mem_cons_of_mem l hk)
      cases skip with
      | succ skip =>
          simp only [List.map_cons, Frame.handle]
          exact ih skip hrest
      | zero =>
          simp only [List.map_cons, Frame.handle, Context.label_kind]
          cases hk : l.kind with
          | plain => simpa only [Context.kind] using ih 0 hrest
          | catching a => simpa only [Context.kind] using ih 0 hrest
          | guarded hs d =>
              cases d with
              | some label => simpa only [Context.kind] using ih label hrest
              | none =>
                  simp only [Context.kind, find_handler]
                  cases hfind : hs.find? (·.catches tags e) with
                  | none => simpa only [Option.map_none] using ih 0 hrest
                  | some hd =>
                      refine .inr ⟨_, _, rfl, rfl, .to ⟨s, extra, ⟨?_, ?_, hf.locals, hf.arity⟩,
                        he, ?_⟩⟩
                      · exact (hls l List.mem_cons_self).handlers hs none hk hd
                          (List.mem_of_find?_eq_some hfind)
                      · intro k hk'
                        rcases List.mem_cons.mp hk' with rfl | hk'
                        · exact ⟨(hls l List.mem_cons_self).cont, (hls l List.mem_cons_self).after,
                            fun _ _ h => by cases h⟩
                        · exact hrest k hk'
                      · simp only [Context.frame, Context.handler, Context.label, Context.kind,
                          List.map_cons, Exn.rename]
                        rcases hd with ⟨_ | x, code⟩ <;> simp
          | clauses cs =>
              simp only [Context.kind]
              simp only [Catch.catches_rename]
              cases hfind : cs.find? (·.catches tags e) with
              | none => exact ih 0 hrest
              | some c =>
                  refine .inr ⟨_, _, rfl, rfl, ?_⟩
                  rw [Catch.operands_rename]
                  have hfit : FrameFits m s p
                      { fr with stack := c.operands address e, labels := ls } :=
                    ⟨hf.code, hrest, hf.locals, hf.arity⟩
                  exact branch_rel hfit he c.label

/-! ## Control -/

section

variable {m' : Module} {maximum interval : Nat} (hi : Instruments m m' maximum interval)

theorem namesType_lt {bt : BlockType} (h : namesType m bt) :
    ∀ index, bt = .type index → index < m.types.length := by
  rintro index rfl
  exact h

include hi in
/-- Entering a block of any kind but `loop`. -/
theorem block_rel (kind : LabelKind) {bt : BlockType} (hbt : namesType m bt)
    (hf : FrameFits m s none fr) (he : s.slot = true → extra ≠ [])
    (hk : ∀ hs d, kind = .guarded hs d → ∀ h ∈ hs, Every (Fits m s) none h.code) :
    JumpRel m ctx
      (match m.blockType? bt, matchEnd 0 fr.code with
        | some t, some after => fr.enter t kind t.results.length after after fr.code
        | _, _ => .stuck)
      (match m'.blockType? bt, matchEnd 0 (rewriteCode ctx s.scratch none fr.code) with
        | some t, some after => (ctx.frame s.scratch none extra fr).enter t
            (ctx.kind s.scratch kind) t.results.length after after
            (rewriteCode ctx s.scratch none fr.code)
        | _, _ => .stuck) := by
  rw [hi.blockType? (namesType_lt hbt), matchEnd_rewriteCode]
  cases m.blockType? bt with
  | none => exact .stuck
  | some t =>
      cases hm : matchEnd 0 fr.code with
      | none => exact .stuck
      | some after =>
          have hafter := hf.code.matchEnd hm
          exact enter_rel hf he ⟨hafter, hafter, hk⟩ hf.code

include hi in
variable (ctx) in
theorem loop_rel {bt : BlockType} {q : Option (BitVec 32)} (hfit : Fits m s q (.loop bt))
    (hf : FrameFits m s none fr) (he : s.slot = true → extra ≠ []) :
    ∃ j j', control m (.loop bt) fr = some j ∧
      control m' (.loop bt) { ctx.frame s.scratch none extra fr with
        code := ctx.check ++ rewriteCode ctx s.scratch none fr.code } =
          some (Jump.before ctx.check j') ∧
      JumpRel m ctx j j' := by
  have hseq : .loop bt :: (ctx.check ++ rewriteCode ctx s.scratch none fr.code) =
      rewriteCode ctx s.scratch none (.loop bt :: fr.code) := rfl
  simp only [Wasm.control, hi.blockType? (namesType_lt hfit.names), (check_balanced ctx).matchEnd,
    matchEnd_rewriteCode, hseq]
  cases m.blockType? bt with
  | none => exact ⟨_, .stuck, rfl, rfl, .stuck⟩
  | some t =>
      cases hm : matchEnd 0 fr.code with
      | none => exact ⟨_, .stuck, rfl, rfl, .stuck⟩
      | some after =>
          have hcont : Every (Fits m s) none (.loop bt :: fr.code) :=
            ⟨⟨hfit.indexed, hfit.names, fun h => by cases h⟩, hf.code⟩
          refine ⟨_, _, rfl, ?_, enter_rel hf he
            ⟨hcont, hf.code.matchEnd hm, fun _ _ h => by cases h⟩ hf.code⟩
          simp only [Option.map_some, Frame.enter, Context.frame, Context.kind, List.length_map]
          split <;> rfl

include hi in
variable (ctx) in
/-- A control instruction, `loop` excepted, leads to related jumps. -/
theorem control_rel {i : Instr} {q : Option (BitVec 32)} (hc : isControl i = true)
    (hloop : ∀ bt, i ≠ .loop bt) (hfit : Fits m s q i) (hf : FrameFits m s none fr)
    (he : s.slot = true → extra ≠ []) :
    ∃ j j', control m i fr = some j ∧
      control m' i (ctx.frame s.scratch none extra fr) = some j' ∧ JumpRel m ctx j j' := by
  have hpop : ∀ vs : List Val, FrameFits m s none { fr with stack := vs } := fun vs =>
    ⟨hf.code, hf.labels, hf.locals, hf.arity⟩
  cases i <;> cases hc
  case loop bt => exact absurd rfl (hloop bt)
  case block bt =>
    exact ⟨_, _, rfl, rfl, block_rel hi _ hfit.names hf he fun _ _ h => by cases h⟩
  case «try» bt =>
    refine ⟨_, _, rfl, rfl, ?_⟩
    have hh : handlers 0 (rewriteCode ctx s.scratch none fr.code) =
        (handlers 0 fr.code).map (ctx.handler s.scratch) := handlers_rewriteCode ..
    simp only [Context.frame]
    rw [hh, delegated_rewriteCode]
    exact block_rel hi (.guarded (handlers 0 fr.code) (delegated 0 fr.code)) hfit.names hf he
      (by rintro hs d h; cases h; exact fun hd hm => hf.code.handlers hm)
  case try_table bt cs =>
    exact ⟨_, _, rfl, rfl, block_rel hi _ hfit.names hf he fun _ _ h => by cases h⟩
  case «if» bt =>
    refine ⟨_, _, rfl, rfl, ?_⟩
    simp only [Context.frame, popI32_rename]
    cases hp : popI32 fr.stack with
    | trap | stuck => exact .stuck
    | ok q =>
        simp only [Res.map, hi.blockType? (namesType_lt hfit.names), matchEnd_rewriteCode,
          matchElse_rewriteCode]
        cases m.blockType? bt with
        | none => exact .stuck
        | some t =>
            cases hm : matchEnd 0 fr.code with
            | none => exact .stuck
            | some after =>
                have hafter := hf.code.matchEnd hm
                have hl : ∀ n vs, LabelFits m s ⟨.plain, n, vs, after, after⟩ := fun n vs =>
                  ⟨hafter, hafter, fun _ _ h => by cases h⟩
                simp only [Option.map_some]
                split
                · exact enter_rel (hpop q.2) he (hl _ _) hf.code
                · cases hn : matchElse 0 fr.code with
                  | none =>
                      exact .to ⟨s, extra, ⟨hafter, hf.labels, hf.locals, hf.arity⟩, he, rfl⟩
                  | some body =>
                      exact enter_rel (hpop q.2) he (hl _ _) (hf.code.matchElse hn)
  case «else» =>
    exact ⟨_, _, rfl, rfl, exitBlock_rel hf he fun l hl => ⟨(hf.labels l hl).after, rfl⟩⟩
  case «catch» x =>
    exact ⟨_, _, rfl, rfl, exitBlock_rel hf he fun l hl => ⟨(hf.labels l hl).after, rfl⟩⟩
  case catch_all =>
    exact ⟨_, _, rfl, rfl, exitBlock_rel hf he fun l hl => ⟨(hf.labels l hl).after, rfl⟩⟩
  case delegate l =>
    exact ⟨_, _, rfl, rfl, exitBlock_rel hf he fun l _ => ⟨hf.code, rfl⟩⟩
  case «end» =>
    refine ⟨_, _, rfl, rfl, ?_⟩
    have hempty : (ctx.frame s.scratch none extra fr).labels.isEmpty = fr.labels.isEmpty := by
      simp [Context.frame]
    rw [hempty]
    split
    · exact branch_rel hf he 0
    · exact exitBlock_rel hf he fun l _ => ⟨hf.code, rfl⟩
  case br l => exact ⟨_, _, rfl, rfl, branch_rel hf he l⟩
  case br_if l =>
    refine ⟨_, _, rfl, rfl, ?_⟩
    simp only [Context.frame, popI32_rename]
    cases hp : popI32 fr.stack with
    | trap | stuck => exact .stuck
    | ok q =>
        simp only [Res.map]
        split
        · exact branch_rel (hpop q.2) he l
        · exact .to ⟨s, extra, hpop q.2, he, rfl⟩
  case br_table ls l =>
    refine ⟨_, _, rfl, rfl, ?_⟩
    simp only [Context.frame, popI32_rename]
    cases hp : popI32 fr.stack with
    | trap | stuck => exact .stuck
    | ok q => exact branch_rel (hpop q.2) he _
  case br_on_null l =>
    refine ⟨_, _, rfl, rfl, ?_⟩
    simp only [Context.frame, popRef_rename]
    cases hp : popRef fr.stack with
    | trap | stuck => exact .stuck
    | ok q =>
        simp only [Res.map, Ref.rename_eq_null]
        split
        · exact branch_rel (hpop q.2) he l
        · exact .to ⟨s, extra, hf, he, rfl⟩
  case br_on_non_null l =>
    refine ⟨_, _, rfl, rfl, ?_⟩
    simp only [Context.frame, popRef_rename]
    cases hp : popRef fr.stack with
    | trap | stuck => exact .stuck
    | ok q =>
        simp only [Res.map, Ref.rename_eq_null]
        split
        · exact .to ⟨s, extra, hpop q.2, he, rfl⟩
        · exact branch_rel hf he l
  case «return» =>
    refine ⟨_, _, rfl, rfl, ?_⟩
    have hlen : (ctx.frame s.scratch none extra fr).labels.length = fr.labels.length := by
      simp [Context.frame]
    rw [hlen]
    exact branch_rel hf he _

end

end

end Rewriter
