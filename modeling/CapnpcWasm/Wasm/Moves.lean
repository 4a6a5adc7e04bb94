import CapnpcWasm.Wasm.Keeps

/-!
# Where a step leads

The code a frame still has to run is always a suffix of a function's body, and every
label continues at a later suffix, except a `loop`, which a branch re-enters at its
header.  So a step shortens the code of a frame, re-enters a loop, leaves frames or
enters a function.  This file states that once, for all steps.
-/

namespace Wasm

open Run (Next Steps)

/-! ## Scans lead to suffixes -/

theorem matchEnd_suffix {d : Nat} {is js : List Instr} (h : matchEnd d is = some js) :
    js <:+ is ∧ js.length < is.length := by
  induction is generalizing d with
  | nil => cases h
  | cons i is ih =>
      unfold matchEnd at h
      have hrec : ∀ {d}, matchEnd d is = some js → js <:+ i :: is ∧ js.length < (i :: is).length :=
        fun h => ⟨(ih h).1.trans (List.suffix_cons i is), Nat.lt_succ_of_lt (ih h).2⟩
      split at h
      · exact hrec h
      · split at h
        · split at h
          · cases h
            exact ⟨List.suffix_cons i _, Nat.lt_succ_self _⟩
          · exact hrec h
        · exact hrec h

/-- The end of an outer block is found from the end of the inner one. -/
theorem matchEnd_succ (d : Nat) (is : List Instr) :
    matchEnd (d + 1) is = (matchEnd d is).bind (matchEnd 0) := by
  induction is generalizing d with
  | nil => rfl
  | cons i is ih =>
      simp only [matchEnd]
      split
      · exact ih (d + 1)
      · split
        · cases d with
          | zero => rfl
          | succ d => exact ih d
        · exact ih d

theorem handlers_succ {d : Nat} {is js : List Instr} (h : matchEnd d is = some js) :
    handlers (d + 1) is = handlers 0 js := by
  induction is generalizing d with
  | nil => cases h
  | cons i is ih =>
      simp only [matchEnd] at h
      simp only [handlers]
      split at h <;> rename_i ho
      · rw [if_pos ho]
        exact ih h
      · rw [if_neg ho]
        split at h <;> rename_i hc
        · rw [if_pos hc]
          cases d with
          | zero => cases h; rfl
          | succ d => exact ih h
        · rw [if_neg hc]
          exact ih h

theorem matchElse_suffix {d : Nat} {is es : List Instr} (h : matchElse d is = some es) :
    es <:+ is ∧ matchEnd d is = matchEnd 0 es := by
  induction is generalizing d with
  | nil => cases h
  | cons i is ih =>
      simp only [matchElse] at h
      simp only [matchEnd]
      have hrec : ∀ {d}, matchElse d is = some es → es <:+ i :: is ∧ matchEnd d is = matchEnd 0 es :=
        fun h => ⟨(ih h).1.trans (List.suffix_cons i is), (ih h).2⟩
      split at h <;> rename_i ho
      · rw [if_pos ho]
        exact hrec h
      · rw [if_neg ho]
        split at h <;> rename_i hc
        · rw [if_pos hc]
          cases d with
          | zero => cases h
          | succ d => exact hrec h
        · rw [if_neg hc]
          split at h
          · cases h
            exact ⟨List.suffix_cons _ _, rfl⟩
          · exact hrec h

/-- A handler's code is inside the block that holds it. -/
theorem mem_handlers {d : Nat} {is : List Instr} {hd : Handler} (h : hd ∈ handlers d is) :
    hd.code <:+ is ∧ hd.code.length < is.length ∧ matchEnd d is = matchEnd 0 hd.code := by
  induction is generalizing d with
  | nil => cases h
  | cons i is ih =>
      have hrec : ∀ {d}, hd ∈ handlers d is →
          hd.code <:+ i :: is ∧ hd.code.length < (i :: is).length ∧
            matchEnd d is = matchEnd 0 hd.code := fun h => by
        obtain ⟨hs, hl, he⟩ := ih h
        exact ⟨hs.trans (List.suffix_cons i is), Nat.lt_succ_of_lt hl, he⟩
      have hnow : hd.code = is → hd.code <:+ i :: is ∧ hd.code.length < (i :: is).length ∧
          matchEnd 0 is = matchEnd 0 hd.code := fun h => by
        rw [h]
        exact ⟨List.suffix_cons i is, Nat.lt_succ_self _, rfl⟩
      simp only [handlers] at h
      simp only [matchEnd]
      split at h <;> rename_i ho
      · rw [if_pos ho]
        exact hrec h
      · rw [if_neg ho]
        split at h <;> rename_i hc
        · rw [if_pos hc]
          cases d with
          | zero => cases h
          | succ d => exact hrec h
        · rw [if_neg hc]
          split at h
          · rcases List.mem_cons.mp h with rfl | h
            · exact hnow rfl
            · exact hrec h
          · rcases List.mem_cons.mp h with rfl | h
            · exact hnow rfl
            · exact hrec h
          · exact hrec h

/-! ## Frames inside a body -/

/-- A branch to the label continues behind its block, or at the header of its loop. -/
def Label.Resumes (body : List Instr) (l : Label) : Prop :=
  l.cont = l.after ∨ ∃ bt is, l.cont = .loop bt :: is ∧ l.cont <:+ body ∧
    matchEnd 0 is = some l.after

/-- Labels around the code, innermost first. -/
inductive Nested (body : List Instr) : List Instr → List Label → Prop where
  | nil (code : List Instr) : Nested body code []
  | cons {code : List Instr} {l : Label} {ls : List Label} : matchEnd 0 code = some l.after →
      l.Resumes body → (∀ hs d, l.kind = .guarded hs d → ∀ h ∈ hs, h ∈ handlers 0 code) →
      Nested body l.after ls → Nested body code (l :: ls)

/-- A frame that runs `body`. -/
structure Frame.Within (body : List Instr) (fr : Frame) : Prop where
  code : fr.code <:+ body
  labels : Nested body fr.code fr.labels

namespace Nested

variable {body code code' : List Instr} {l : Label} {ls : List Label}

/-- Only the delimiters ahead matter. -/
theorem congr (h : Nested body code ls) (he : matchEnd 0 code' = matchEnd 0 code)
    (hh : handlers 0 code' = handlers 0 code) : Nested body code' ls := by
  cases h with
  | nil => exact .nil _
  | cons ha hr hg hn => exact .cons (he ▸ ha) hr (fun hs d hk h hm => hh ▸ hg hs d hk h hm) hn

/-- An instruction that delimits nothing. -/
theorem tail {i : Instr} {is : List Instr} (ho : i.opens = false) (hc : i.closes = false)
    (hh : handlers 0 (i :: is) = handlers 0 is) (h : Nested body (i :: is) ls) :
    Nested body is ls := by
  refine h.congr ?_ hh.symm
  simp [matchEnd, ho, hc]

/-- The labels around a block are those around the code behind it. -/
theorem opened {i : Instr} {is js : List Instr} (ho : i.opens = true)
    (he : matchEnd 0 is = some js) : Nested body (i :: is) ls ↔ Nested body js ls := by
  have hend : matchEnd 0 (i :: is) = matchEnd 0 js := by
    rw [matchEnd, if_pos ho, matchEnd_succ, he, Option.bind_some]
  have hhs : handlers 0 (i :: is) = handlers 0 js := by
    simp only [handlers, ho, if_true, handlers_succ he]
  exact ⟨fun h => h.congr hend.symm hhs.symm, fun h => h.congr hend hhs⟩

/-- A block closes where its label says. -/
theorem closed_after {i : Instr} {is : List Instr} (ho : i.opens = false) (hc : i.closes = true)
    (h : Nested body (i :: is) ls) (hl : l ∈ ls.head?) : is = l.after := by
  cases h with
  | nil => cases hl
  | cons ha _ _ _ =>
      cases hl
      rw [matchEnd, if_neg (by simp [ho]), if_pos hc] at ha
      exact Option.some.inj ha

/-- What holds of a label among others. -/
theorem get {n : Nat} (h : Nested body code ls) (hl : ls[n]? = some l) :
    l.after <:+ code ∧ l.after.length < code.length ∧ l.Resumes body ∧
      Nested body l.after (ls.drop (n + 1)) := by
  induction n generalizing code ls with
  | zero =>
      cases h with
      | nil => cases hl
      | cons ha hr _ hn =>
          cases hl
          obtain ⟨hs, hlt⟩ := matchEnd_suffix ha
          exact ⟨hs, hlt, hr, hn⟩
  | succ n ih =>
      cases h with
      | nil => cases hl
      | cons ha _ _ hn =>
          obtain ⟨hs, hlt⟩ := matchEnd_suffix ha
          obtain ⟨hs', hlt', hr, hn'⟩ := ih hn hl
          exact ⟨hs'.trans hs, Nat.lt_trans hlt' hlt, hr, hn'⟩

end Nested

/-! ## Control inside a frame -/

/-- A frame of `fn` in `body` whose code has at most `n` instructions left, or which
re-enters a loop. -/
structure Frame.Lands (body : List Instr) (fn n : Nat) (fr : Frame) : Prop where
  fn : fr.fn = fn
  within : fr.Within body
  code : fr.code.length ≤ n ∨ ∃ bt is, fr.code = .loop bt :: is

def Jump.Lands (body : List Instr) (fn n : Nat) : Jump → Prop
  | .to fr => fr.Lands body fn n
  | .leave _ | .stuck => True

section

variable {body code : List Instr} {n : Nat} {fr : Frame}

/-- A branch, from where the labels are around `code`. -/
theorem Frame.branch_lands (fr : Frame) (hn : Nested body code fr.labels) (hc : code <:+ body)
    (hle : code.length ≤ n) (label : Nat) : (fr.branch label).Lands body fr.fn n := by
  unfold Frame.branch
  split
  · rename_i l hl
    split
    · obtain ⟨hs, hlt, hr, hn'⟩ := hn.get hl
      rcases hr with hr | ⟨bt, is, hcont, hsuf, hend⟩
      · refine ⟨rfl, ⟨?_, ?_⟩, .inl ?_⟩
        · exact hr ▸ hs.trans hc
        · exact hr ▸ hn'
        · exact hr ▸ Nat.le_trans (Nat.le_of_lt hlt) hle
      · refine ⟨rfl, ⟨hsuf, ?_⟩, .inr ⟨bt, is, hcont⟩⟩
        show Nested body l.cont _
        rw [hcont]
        exact (Nested.opened rfl hend).mpr hn'
    · trivial
  · split <;> trivial

/-- The end of a part of a block. -/
theorem Frame.exitBlock_lands {next : Label → List Instr} (hn : Nested body code fr.labels)
    (hc : code <:+ body) (hle : code.length ≤ n + 1)
    (hnext : ∀ l ∈ fr.labels.head?, next l = l.after) :
    (fr.exitBlock next).Lands body fr.fn n := by
  unfold Frame.exitBlock
  split
  · rename_i l ls hl
    obtain ⟨hs, hlt, -, hn'⟩ := hn.get (n := 0) (l := l) (by rw [hl]; rfl)
    have hnext := hnext l (by rw [hl]; rfl)
    rw [hl] at hn'
    refine ⟨rfl, ⟨?_, ?_⟩, .inl ?_⟩
    · exact hnext ▸ hs.trans hc
    · exact hnext ▸ hn'
    · show (next l).length ≤ n
      rw [hnext]
      omega
  · trivial

/-- A block entered at `js`, where the labels are those around the code behind it. -/
theorem Frame.enter_lands {t : FuncType} {kind : LabelKind} {arity : Nat}
    {cont after js : List Instr} (hn : Nested body after fr.labels)
    (he : matchEnd 0 js = some after) (hs : js <:+ body) (hle : js.length ≤ n)
    (hr : cont = after ∨ ∃ bt is, cont = .loop bt :: is ∧ cont <:+ body ∧
      matchEnd 0 is = some after)
    (hg : ∀ hs d, kind = .guarded hs d → hs = handlers 0 js) :
    (fr.enter t kind arity cont after js).Lands body fr.fn n := by
  unfold Frame.enter
  split
  · exact ⟨rfl, ⟨hs, .cons he hr (fun hs d hk h hm => hg hs d hk ▸ hm) hn⟩, .inl hle⟩
  · trivial

end

section

variable {m : Module} {body : List Instr} {fr : Frame}

/-- A block entered where it begins. -/
theorem Frame.openBlock_lands {n : Nat} {code : List Instr} (bt : BlockType) (kind : LabelKind)
    (hn : ∀ after, matchEnd 0 code = some after → Nested body after fr.labels) (hs : code <:+ body)
    (hle : code.length ≤ n) (hg : ∀ hs d, kind = .guarded hs d → hs = handlers 0 code) :
    Jump.Lands body fr.fn n (match m.blockType? bt, matchEnd 0 code with
      | some t, some after => fr.enter t kind t.results.length after after code
      | _, _ => .stuck) := by
  split
  · rename_i t after _ he
    exact Frame.enter_lands (hn after he) he hs hle (.inl rfl) hg
  · trivial

/-- Control stays ahead in the body or goes back to a loop. -/
theorem control_lands {i : Instr} {jump : Jump}
    (hw : Frame.Within body { fr with code := i :: fr.code }) (h : control m i fr = some jump) :
    jump.Lands body fr.fn fr.code.length := by
  have hcode : fr.code <:+ body := (List.suffix_cons i fr.code).trans hw.code
  have hflat : ∀ stack, i.opens = false → i.closes = false →
      handlers 0 (i :: fr.code) = handlers 0 fr.code →
      Jump.Lands body fr.fn fr.code.length (.to { fr with stack }) :=
    fun stack ho hc hh => ⟨rfl, ⟨hcode, hw.labels.tail ho hc hh⟩, .inl (Nat.le_refl _)⟩
  have hbranch : ∀ stack label, i.opens = false → i.closes = false →
      handlers 0 (i :: fr.code) = handlers 0 fr.code →
      Jump.Lands body fr.fn fr.code.length (Frame.branch { fr with stack } label) :=
    fun stack label ho hc hh => Frame.branch_lands { fr with stack }
      (hw.labels.tail ho hc hh) hcode (Nat.le_refl _) label
  have hopened : i.opens = true → ∀ after, matchEnd 0 fr.code = some after →
      Nested body after fr.labels := fun ho after he => (Nested.opened ho he).mp hw.labels
  cases i <;> cases h
  case block bt =>
    exact Frame.openBlock_lands bt .plain (hopened rfl) hcode (Nat.le_refl _) fun hs d hk => by
      cases hk
  case «try» bt =>
    exact Frame.openBlock_lands bt _ (hopened rfl) hcode (Nat.le_refl _) fun hs d hk => by
      cases hk
      rfl
  case try_table bt cs =>
    exact Frame.openBlock_lands bt _ (hopened rfl) hcode (Nat.le_refl _) fun hs d hk => by
      cases hk
  -- the code of a loop begins where its body does, so a branch to it goes back
  case loop bt =>
    split
    · rename_i t after _ he
      exact Frame.enter_lands ((Nested.opened rfl he).mp hw.labels) he hcode (Nat.le_refl _)
        (.inr ⟨bt, fr.code, rfl, hw.code, he⟩) fun hs d hk => by cases hk
    · trivial
  case «if» bt =>
    split
    · rename_i c vs _
      dsimp only
      split
      · rename_i t after _ he
        have hn := (Nested.opened rfl he).mp hw.labels
        obtain ⟨hs, hlt⟩ := matchEnd_suffix he
        split
        · exact Frame.enter_lands hn he hcode (Nat.le_refl _) (.inl rfl) fun hs d hk => by
            cases hk
        · split
          · rename_i es hes
            obtain ⟨hsuf, heq⟩ := matchElse_suffix hes
            exact Frame.enter_lands hn (heq ▸ he) (hsuf.trans hcode) hsuf.length_le (.inl rfl)
              fun hs d hk => by cases hk
          · exact ⟨rfl, ⟨hs.trans hcode, hn⟩, .inl (Nat.le_of_lt hlt)⟩
      · trivial
    · trivial
  case «else» | «catch» | catch_all =>
    exact Frame.exitBlock_lands hw.labels hw.code (Nat.le_refl _) fun _ _ => rfl
  case «end» =>
    split
    · rename_i hempty
      have hnil : fr.labels = [] := List.isEmpty_iff.mp hempty
      refine Frame.branch_lands fr ?_ hcode (Nat.le_refl _) 0
      rw [hnil]
      exact .nil _
    · refine Frame.exitBlock_lands hw.labels hw.code (Nat.le_refl _) fun l hl => ?_
      exact Nested.closed_after rfl rfl hw.labels hl
  case delegate d =>
    refine Frame.exitBlock_lands hw.labels hw.code (Nat.le_refl _) fun l hl => ?_
    exact Nested.closed_after rfl rfl hw.labels hl
  case br l => exact hbranch fr.stack l rfl rfl rfl
  case «return» => exact hbranch fr.stack _ rfl rfl rfl
  case br_if l =>
    split
    · dsimp only
      split
      · exact hbranch _ l rfl rfl rfl
      · exact hflat _ rfl rfl rfl
    · trivial
  case br_table ls l =>
    split
    · exact hbranch _ _ rfl rfl rfl
    · trivial
  case br_on_null l =>
    split
    · split
      · exact hbranch _ l rfl rfl rfl
      · exact hflat fr.stack rfl rfl rfl
    · trivial
  case br_on_non_null l =>
    split
    · split
      · exact hflat _ rfl rfl rfl
      · exact hbranch fr.stack l rfl rfl rfl
    · trivial

/-- So does a handler that takes an exception. -/
theorem handle_lands {tags : List Nat} {address n : Nat} {e : Exn} {jump : Jump}
    {ls : List Label} : ∀ {skip : Nat} {code : List Instr}, Nested body code ls → code <:+ body →
      code.length ≤ n → fr.handle tags address e skip ls = some jump →
      jump.Lands body fr.fn n := by
  induction ls with
  | nil => intro skip code _ _ _ h; cases skip <;> cases h
  | cons l ls ih =>
      intro skip code hn hc hle h
      cases hn with
      | cons ha hr hg hn =>
          obtain ⟨hs, hlt⟩ := matchEnd_suffix ha
          have hrec : ∀ {skip}, fr.handle tags address e skip ls = some jump →
              jump.Lands body fr.fn n :=
            fun h => ih hn (hs.trans hc) (Nat.le_trans (Nat.le_of_lt hlt) hle) h
          cases skip with
          | succ skip => exact hrec h
          | zero =>
              unfold Frame.handle at h
              split at h
              · exact hrec h
              · exact hrec h
              · exact hrec h
              · rename_i hs' hk
                split at h
                · rename_i hd hfind
                  cases h
                  have hmem := hg hs' none hk hd (List.mem_of_find?_eq_some hfind)
                  obtain ⟨hsuf, hlt', heq⟩ := mem_handlers hmem
                  refine ⟨rfl, ⟨hsuf.trans hc, .cons (heq ▸ ha) hr nofun hn⟩, .inl ?_⟩
                  exact Nat.le_trans (Nat.le_of_lt hlt') hle
                · exact hrec h
              · split at h
                · cases h
                  exact Frame.branch_lands { fr with stack := _, labels := ls } hn
                    (hs.trans hc) (Nat.le_trans (Nat.le_of_lt hlt) hle) _
                · exact hrec h

end

/-! ## Frames of a module -/

/-- A frame that runs a function of the module. -/
def Frame.In (m : Module) (fr : Frame) : Prop :=
  ∃ f, m.importedFunctions.length ≤ fr.fn ∧
    m.funcs[fr.fn - m.importedFunctions.length]? = some f ∧ fr.Within f.body

def Config.In {σ : Type} (m : Module) (c : Config σ) : Prop :=
  c.top.In m ∧ ∀ fr ∈ c.callers, fr.In m

section

variable {σ : Type} {m : Module} {P : Prims} {h : Host σ} {w : World σ} {fr : Frame}
  {frames callers : List Frame} {c d : Config σ}

theorem Frame.In.past {i : Instr} (hi : Frame.In m { fr with code := i :: fr.code })
    (ho : i.opens = false) (hc : i.closes = false)
    (hh : handlers 0 (i :: fr.code) = handlers 0 fr.code) : fr.In m := by
  obtain ⟨f, hle, hf, hw⟩ := hi
  exact ⟨f, hle, hf, (List.suffix_cons i fr.code).trans hw.code, hw.labels.tail ho hc hh⟩

/-- Most instructions are no delimiters. -/
theorem Frame.In.pastFlat {i : Instr} (hi : Frame.In m { fr with code := i :: fr.code })
    (hflat : isRaise i = true ∨ isCall i = true ∨ isLocal i = true) : fr.In m := by
  refine hi.past ?_ ?_ ?_ <;> cases i <;> first | rfl | simp [isRaise, isCall, isLocal] at hflat

theorem Frame.In.stack (hi : fr.In m) (vs : List Val) : Frame.In m { fr with stack := vs } := by
  obtain ⟨f, hle, hf, hw⟩ := hi
  exact ⟨f, hle, hf, hw.code, hw.labels⟩

/-- One of the frames goes on: its code gets no longer, or it re-enters a loop.  The
frames before it are left. -/
def GoesOn (m : Module) (frames : List Frame) (d : Config σ) : Prop :=
  ∃ left fr, frames = left ++ fr :: d.callers ∧ d.top.In m ∧ d.top.fn = fr.fn ∧
    (d.top.code.length ≤ fr.code.length ∨ ∃ bt is, d.top.code = .loop bt :: is)

/-- A function starts. -/
def Starts (m : Module) (g : Nat) (d : Config σ) : Prop :=
  ∃ f type args, m.importedFunctions.length ≤ g ∧
    m.funcs[g - m.importedFunctions.length]? = some f ∧ d.top = f.frame g type args

theorem GoesOn.cons (hg : GoesOn m frames d) : GoesOn m (fr :: frames) d := by
  obtain ⟨left, fr', rfl, hd⟩ := hg
  exact ⟨fr :: left, fr', rfl, hd⟩

theorem resume_goesOn {values : List Val} (hin : ∀ fr ∈ frames, fr.In m)
    (hs : resume w values frames = .more d) : GoesOn m frames d := by
  cases frames with
  | nil => cases hs
  | cons fr frames =>
      cases hs
      exact ⟨[], fr, rfl, (hin fr List.mem_cons_self).stack _, rfl, .inl (Nat.le_refl _)⟩

theorem follow_goesOn {jump : Jump} {f : Func} (hle : m.importedFunctions.length ≤ fr.fn)
    (hf : m.funcs[fr.fn - m.importedFunctions.length]? = some f)
    (hj : jump.Lands f.body fr.fn fr.code.length) (hin : ∀ fr ∈ callers, fr.In m)
    (hs : jump.follow w callers = .more d) : GoesOn m (fr :: callers) d := by
  cases jump with
  | «to» fr' =>
      cases hs
      obtain ⟨hfn, hw, hc⟩ := hj
      exact ⟨[], fr, rfl, ⟨f, hfn ▸ hle, hfn ▸ hf, hw⟩, hfn, hc⟩
  | leave values => exact (resume_goesOn hin hs).cons
  | stuck => cases hs

theorem unwind_goesOn {address : Nat} {e : Exn} (hin : ∀ fr ∈ frames, fr.In m)
    (hs : unwind w address e frames = .more d) : GoesOn m frames d := by
  induction frames with
  | nil => cases hs
  | cons fr frames ih =>
      have hrest : ∀ fr ∈ frames, fr.In m := fun fr h => hin fr (List.mem_cons_of_mem _ h)
      unfold unwind at hs
      split at hs
      · rename_i jump hj
        obtain ⟨f, hle, hf, hw⟩ := hin fr List.mem_cons_self
        exact follow_goesOn hle hf (handle_lands hw.labels hw.code (Nat.le_refl _) hj) hrest hs
      · exact (ih hrest hs).cons

theorem callHost_goesOn {fn : HostFn} {type : FuncType} {args : List Val}
    (hin : ∀ fr ∈ frames, fr.In m) (hs : callHost m h w fn type args frames = .more d) :
    GoesOn m frames d := by
  unfold callHost at hs
  split at hs
  · split at hs
    · exact resume_goesOn hin hs
    · cases hs
  · exact unwind_goesOn hin hs
  · cases hs

theorem invoke_moves {g : Nat} {args : List Val} (hin : ∀ fr ∈ frames, fr.In m)
    (hs : invoke m h w g args frames = .more d) :
    GoesOn m frames d ∨ Starts m g d ∧ d.callers = frames := by
  unfold invoke at hs
  split at hs
  · cases hs
  · rename_i type _
    split at hs
    · cases hs
    · split at hs
      · exact .inl (callHost_goesOn hin hs)
      · rename_i hnone
        split at hs
        · rename_i f hf
          cases hs
          exact .inr ⟨⟨f, type, args, List.getElem?_eq_none_iff.mp hnone, hf, rfl⟩, rfl⟩
        · cases hs

/-- A function that starts runs its body. -/
theorem Starts.inModule {g : Nat} (hs : Starts m g d) : d.top.In m := by
  obtain ⟨f, type, args, hle, hf, hd⟩ := hs
  rw [hd]
  exact ⟨f, hle, hf, List.suffix_rfl, .nil _⟩

/-! ## Calls -/

def isTail : Instr → Bool
  | .return_call _ | .return_call_indirect _ _ | .return_call_ref _ => true
  | _ => false

/-- The functions of the instance an instruction may call: by index, out of a table, or
by a reference on the stack. -/
def Calls (st : Store) (stack : List Val) (i : Instr) (g : Nat) : Prop :=
  match i with
  | .call f | .return_call f => f = g
  | .call_indirect _ _ | .return_call_indirect _ _ => ∃ t ∈ st.tables, .func g ∈ t.elems
  | .call_ref _ | .return_call_ref _ => .ref (.func g) ∈ stack
  | _ => False

theorem Calls.isCall {st : Store} {stack : List Val} {i : Instr} {g : Nat}
    (hg : Calls st stack i g) : isCall i = true := by
  cases i <;> first | rfl | exact hg.elim

/-- The frames a call waits in: the calling one unless it is a tail call, less the
operands. -/
def Waits (i : Instr) (fr : Frame) (callers frames : List Frame) : Prop :=
  ∃ vs, vs ⊆ fr.stack ∧ frames = if isTail i then callers else { fr with stack := vs } :: callers

/-- What a call comes to: a function of the instance, the host, or the end of the run. -/
inductive Dispatches (m : Module) (h : Host σ) (i : Instr) (w : World σ) (fr : Frame)
    (callers : List Frame) (s : Step σ) : Prop where
  | own {g : Nat} {args : List Val} {frames : List Frame} : Calls w.store fr.stack i g →
      args ⊆ fr.stack → Waits i fr callers frames → invoke m h w g args frames = s →
      Dispatches m h i w fr callers s
  | «foreign» {n : Nat} {type : FuncType} {args : List Val} {frames : List Frame} :
      args ⊆ fr.stack → Waits i fr callers frames →
      callHost m h w (.foreign n) type args frames = s → Dispatches m h i w fr callers s
  | ends {o : Outcome} : s = .halt (o, w) → Dispatches m h i w fr callers s

theorem popArgs_subset {n : Nat} {args : List Val} {fr' : Frame}
    (hp : fr.popArgs n = some (args, fr')) :
    args ⊆ fr.stack ∧ ∃ vs, vs ⊆ fr.stack ∧ fr' = { fr with stack := vs } := by
  unfold Frame.popArgs at hp
  split at hp
  · cases hp
    exact ⟨fun v hv => List.mem_of_mem_take (List.mem_reverse.mp hv),
      _, fun v hv => List.mem_of_mem_drop hv, rfl⟩
  · cases hp

theorem callFunction_dispatches {i : Instr} {g : Nat} {stack : List Val} {vs : List Val}
    (hvs : vs ⊆ stack) (hg : Calls w.store stack i g) :
    Dispatches m h i w { fr with stack } callers
      (callFunction m h w { fr with stack := vs } callers (isTail i) g) := by
  unfold callFunction
  split
  · exact .ends rfl
  · split
    · exact .ends rfl
    · rename_i args fr' hp
      obtain ⟨hargs, vs', hvs', rfl⟩ := popArgs_subset hp
      exact .own hg (List.Subset.trans hargs hvs) ⟨vs', List.Subset.trans hvs' hvs, rfl⟩ rfl

theorem callReference_dispatches {i : Instr} {type : Nat} {ok : Nat → Bool} {r : Ref}
    {stack vs : List Val} (hvs : vs ⊆ stack) (hg : ∀ g, r = .func g → Calls w.store stack i g) :
    Dispatches m h i w { fr with stack } callers
      (callReference m h w { fr with stack := vs } callers (isTail i) type ok r) := by
  cases r with
  | func g =>
      simp only [callReference]
      split
      · exact callFunction_dispatches hvs (hg g rfl)
      · exact .ends rfl
  | «foreign» n =>
      simp only [callReference]
      split
      · exact .ends rfl
      · split
        · split
          · exact .ends rfl
          · rename_i args fr' hp
            obtain ⟨hargs, vs', hvs', rfl⟩ := popArgs_subset hp
            exact .foreign (List.Subset.trans hargs hvs) ⟨vs', List.Subset.trans hvs' hvs, rfl⟩ rfl
        · exact .ends rfl
  | null | exn _ | host _ => exact .ends rfl

theorem callIndirect_dispatches {i : Instr} {type t : Nat}
    (hg : ∀ g, (∃ table ∈ w.store.tables, .func g ∈ table.elems) → Calls w.store fr.stack i g) :
    Dispatches m h i w fr callers (callIndirect m h w fr callers (isTail i) type t) := by
  unfold callIndirect
  dsimp only
  split
  · rename_i r vs hentry
    obtain ⟨⟨j, vs'⟩, hp, hentry⟩ := Res.bind_eq_ok.mp hentry
    obtain ⟨r', hr, hentry⟩ := Res.bind_eq_ok.mp hentry
    cases hentry
    have hst := popI32_eq hp
    obtain ⟨table, ht, hmem⟩ := Store.tableGet_mem hr
    exact callReference_dispatches (hst ▸ List.subset_cons_self _ _)
      fun g hr => hg g ⟨table, List.mem_of_getElem? ht, hr ▸ hmem⟩
  · exact .ends rfl
  · exact .ends rfl

theorem callRef_dispatches {i : Instr} {type : Nat}
    (hg : ∀ g, .ref (.func g) ∈ fr.stack → Calls w.store fr.stack i g) :
    Dispatches m h i w fr callers (callRef m h w fr callers (isTail i) type) := by
  unfold callRef
  split
  · rename_i r vs hp
    have hst := popRef_eq hp
    refine callReference_dispatches (hst ▸ List.subset_cons_self _ _) fun g hr => hg g ?_
    rw [hst, hr]
    exact List.mem_cons_self
  · exact .ends rfl

/-- Every call dispatches. -/
theorem call_dispatches {i : Instr} {s : Step σ} (hs : call m h i w fr callers = some s) :
    Dispatches m h i w fr callers s := by
  cases i <;> simp only [call, Option.some.injEq, reduceCtorEq] at hs
  case call f | return_call f =>
    exact hs ▸ callFunction_dispatches (List.Subset.refl fr.stack) rfl
  case call_indirect type t | return_call_indirect type t =>
    exact hs ▸ callIndirect_dispatches fun g hg => hg
  case call_ref type | return_call_ref type => exact hs ▸ callRef_dispatches fun g hg => hg

/-! ## One step -/

/-- The frames that go on wait for one of those behind them. -/
theorem GoesOn.callers_subset (hg : GoesOn m (fr :: callers) d) : d.callers ⊆ callers := by
  obtain ⟨left, fr', hf, -⟩ := hg
  cases left with
  | nil =>
      cases hf
      exact List.Subset.refl _
  | cons fr₀ left =>
      cases hf
      exact fun x hx => List.mem_append_right _ (List.mem_cons_of_mem _ hx)

/-- The operands of the first frame do not matter. -/
theorem GoesOn.setStack {vs : List Val} (hg : GoesOn m ({ fr with stack := vs } :: callers) d) :
    GoesOn m (fr :: callers) d := by
  obtain ⟨left, fr', hf, hd⟩ := hg
  cases left with
  | nil =>
      cases hf
      exact ⟨[], fr, rfl, hd⟩
  | cons fr₀ left =>
      cases hf
      exact ⟨fr :: left, fr', rfl, hd⟩

theorem Waits.goesOn {i : Instr} (hw : Waits i fr callers frames) (hg : GoesOn m frames d) :
    GoesOn m (fr :: callers) d := by
  obtain ⟨vs, -, rfl⟩ := hw
  split at hg
  · exact hg.cons
  · exact hg.setStack

theorem Waits.inModule {i : Instr} (hw : Waits i fr callers frames) (hfr : fr.In m)
    (hin : ∀ fr ∈ callers, fr.In m) : ∀ fr ∈ frames, fr.In m := by
  obtain ⟨vs, -, rfl⟩ := hw
  split
  · exact hin
  · intro x hx
    rcases List.mem_cons.mp hx with rfl | hx
    · exact hfr.stack vs
    · exact hin x hx

/-- Where a step leads: on in one of the frames, or to the start of a function the
instruction calls. -/
def Moves (m : Module) (i : Instr) (fr : Frame) (callers : List Frame) (st : Store)
    (d : Config σ) : Prop :=
  GoesOn m (fr :: callers) d ∨
    ∃ g, Starts m g d ∧ Calls st fr.stack i g ∧ Waits i fr callers d.callers

theorem exec_moves {i : Instr} (fr : Frame) (hfr : Frame.In m { fr with code := i :: fr.code })
    (hin : ∀ fr ∈ callers, fr.In m) (hs : exec m P h i w fr callers = .more d) :
    Moves m i fr callers w.store d := by
  rcases instr_class i with rfl | hi | hi | hi | hi
  · cases hs
  · obtain ⟨jump, hj, he⟩ := exec_control (m := m) (P := P) (h := h) hi w fr callers
    obtain ⟨f, hle, hf, hw⟩ := hfr
    exact .inl (follow_goesOn hle hf (control_lands hw hj) hin (he ▸ hs))
  · have hpast : fr.In m := hfr.pastFlat (.inl hi)
    have hunwind : ∀ {w' : World σ} {vs : List Val} {address : Nat} {e : Exn},
        unwind w' address e ({ fr with stack := vs } :: callers) = .more d →
        Moves m i fr callers w.store d := fun hs =>
      .inl (GoesOn.setStack (unwind_goesOn (fun x hx => by
        rcases List.mem_cons.mp hx with rfl | hx
        · exact hpast.stack _
        · exact hin x hx) hs))
    have hr := exec_raise (m := m) (P := P) (h := h) hi w fr callers
    rw [hs] at hr
    cases i <;> simp only [raise, Option.some.injEq, reduceCtorEq] at hr
    case throw x =>
      split at hr
      · split at hr
        · rename_i hp
          obtain ⟨-, vs, -, rfl⟩ := popArgs_subset hp
          exact hunwind hr
        · cases hr
      · cases hr
    case rethrow l =>
      split at hr
      · split at hr
        · exact hunwind hr
        · cases hr
      · cases hr
    case throw_ref =>
      split at hr
      · split at hr
        · exact hunwind hr
        · cases hr
      · cases hr
      · cases hr
  · have hpast : fr.In m := hfr.pastFlat (.inr (.inl hi))
    have hc := exec_call (m := m) (P := P) (h := h) hi w fr callers
    rw [hs] at hc
    cases call_dispatches hc with
    | own hg _ hw hs =>
        rcases invoke_moves (hw.inModule hpast hin) hs with hgo | ⟨hst, hd⟩
        · exact .inl (hw.goesOn hgo)
        · exact .inr ⟨_, hst, hg, hd ▸ hw⟩
    | «foreign» _ hw hs => exact .inl (hw.goesOn (callHost_goesOn (hw.inModule hpast hin) hs))
    | ends he => cases he
  · have hpast : fr.In m := hfr.pastFlat (.inr (.inr hi))
    rw [exec_local hi] at hs
    generalize execLocal P i ⟨w.store, fr.locals, fr.stack⟩ = r at hs
    cases r <;> cases hs
    obtain ⟨f, hle, hf, hw⟩ := hpast
    exact .inl ⟨[], fr, rfl, ⟨f, hle, hf, hw.code, hw.labels⟩, rfl, .inl (Nat.le_refl _)⟩

/-- What a step does to the frames. -/
theorem step_moves (hin : c.In m) (hs : step m P h c = .more d) :
    ∃ i is, c.top.code = i :: is ∧
      Moves m i { c.top with code := is } c.callers c.world.store d ∧ d.In m := by
  obtain ⟨w, fr, callers⟩ := c
  obtain ⟨htop, hcallers⟩ := hin
  unfold step at hs
  split at hs
  · cases hs
  · rename_i i is hcode
    dsimp only at hcode htop hcallers hs ⊢
    have hfr : Frame.In m { fr with code := i :: is } := by rwa [← hcode]
    have hm := exec_moves { fr with code := is } hfr hcallers hs
    refine ⟨i, is, hcode, hm, ?_⟩
    rcases hm with hg | ⟨g, hst, hg, hw⟩
    · obtain ⟨left, fr', hf, htop', -⟩ := id hg
      exact ⟨htop', fun x hx => hcallers x (GoesOn.callers_subset hg hx)⟩
    · have hpast : Frame.In m { fr with code := is } :=
        Frame.In.pastFlat hfr (.inr (.inl hg.isCall))
      exact ⟨hst.inModule, hw.inModule hpast hcallers⟩

/-- A call from outside starts in the module. -/
theorem invoke_in {f : Nat} {args : List Val} (hs : invoke m h w f args [] = .more c) :
    c.In m := by
  have hnone : ∀ fr ∈ ([] : List Frame), fr.In m := fun fr hfr => by cases hfr
  rcases invoke_moves hnone hs with ⟨left, fr, hf, -⟩ | ⟨hst, hc⟩
  · cases left <;> cases hf
  · refine ⟨hst.inModule, ?_⟩
    rw [hc]
    exact hnone

/-! ## Calls of the host -/

/-- The world a step leaves. -/
def Step.world : Step σ → World σ
  | .more d => d.world
  | .halt r => r.2

@[simp] theorem resume_world (values : List Val) : (resume w values frames).world = w := by
  cases frames <;> rfl

@[simp] theorem follow_world (jump : Jump) : (jump.follow w callers).world = w := by
  cases jump with
  | «to» fr => rfl
  | leave values => exact resume_world values
  | stuck => rfl

@[simp] theorem unwind_world (address : Nat) (e : Exn) :
    (unwind w address e frames).world = w := by
  induction frames with
  | nil => rfl
  | cons fr frames ih =>
      unfold unwind
      split
      · exact follow_world _
      · exact ih

/-- A host call is logged, whatever it comes to. -/
theorem callHost_log (fn : HostFn) (type : FuncType) (args : List Val) :
    (callHost m h w fn type args frames).world.log = w.log ++ [⟨fn, args⟩] := by
  unfold callHost hostCall
  dsimp only
  split
  · rename_i heq
    split
    · rw [resume_world, ← (Prod.mk.inj heq).1]
    · rw [← (Prod.mk.inj heq).1]
      rfl
  · rename_i heq
    rw [throwExn, unwind_world, ← (Prod.mk.inj heq).1]
  · rename_i heq
    rw [← (Prod.mk.inj heq).1]
    rfl

/-- Only calls are logged. -/
theorem exec_log {i : Instr} (hi : isCall i = false) (w : World σ) (fr : Frame)
    (callers : List Frame) : (exec m P h i w fr callers).world.log = w.log := by
  rcases instr_class i with rfl | hctl | hraise | hcall | hloc
  · rfl
  · obtain ⟨jump, -, he⟩ := exec_control (m := m) (P := P) (h := h) hctl w fr callers
    rw [he, follow_world]
  · have hr := exec_raise (m := m) (P := P) (h := h) hraise w fr callers
    generalize exec m P h i w fr callers = s at hr
    cases i <;> simp only [raise, Option.some.injEq, reduceCtorEq] at hr
    case throw x =>
      subst hr
      split
      · split
        · rw [throwExn, unwind_world]
        · rfl
      · rfl
    case rethrow l =>
      subst hr
      split
      · split
        · rw [unwind_world]
        · rfl
      · rfl
    case throw_ref =>
      subst hr
      split
      · split
        · rw [unwind_world]
        · rfl
      · rfl
      · rfl
  · rw [hi] at hcall
    cases hcall
  · rw [exec_local hloc]
    cases execLocal P i ⟨w.store, fr.locals, fr.stack⟩ <;> rfl

/-- A call logs the import it reaches, a foreign function, or nothing. -/
theorem invoke_log {g : Nat} {args : List Val} :
    (invoke m h w g args frames).world.log = w.log ∨
      ∃ name type, invoke m h w g args frames =
        callHost m h w (.imported g name) type args frames := by
  unfold invoke
  split
  · exact .inl rfl
  · split
    · exact .inl rfl
    · split
      · exact .inr ⟨_, _, rfl⟩
      · split
        · exact .inl rfl
        · exact .inl rfl

/-- A step that calls an import is a call instruction which reaches it. -/
theorem step_calls {g : Nat} {name : ImportName} {args : List Val} {s : Step σ}
    (hs : step m P h c = s) (hlog : s.world.log = c.world.log ++ [⟨.imported g name, args⟩]) :
    ∃ i is frames type, c.top.code = i :: is ∧ Calls c.world.store c.top.stack i g ∧
      Waits i { c.top with code := is } c.callers frames ∧
      callHost m h c.world (.imported g name) type args frames = s := by
  have hsame : s.world.log ≠ c.world.log := by simp [hlog]
  unfold step at hs
  split at hs
  · subst hs
    exact absurd rfl hsame
  · rename_i i is hcode
    refine ⟨i, is, ?_⟩
    cases hi : isCall i with
    | false =>
        subst hs
        exact absurd (exec_log hi _ _ _) hsame
    | true =>
        cases call_dispatches (hs ▸ exec_call (m := m) (P := P) (h := h) hi _ _ _) with
        | @own g' args' frames hg _ hw hown =>
            rcases @invoke_log _ m h c.world frames g' args' with hnone | ⟨name', type, hcall⟩
            · exact absurd (hown ▸ hnone) hsame
            · rw [← hown, hcall, callHost_log] at hlog
              cases List.append_cancel_left hlog
              exact ⟨frames, type, hcode, hg, hw, hcall.symm.trans hown⟩
        | «foreign» _ _ hown =>
            rw [← hown, callHost_log] at hlog
            cases List.append_cancel_left hlog
        | ends he =>
            subst he
            exact absurd rfl hsame

/-- A step logs at most one call. -/
theorem step_log (c : Config σ) : (step m P h c).world.log = c.world.log ∨
    ∃ call, (step m P h c).world.log = c.world.log ++ [call] := by
  generalize hs : step m P h c = s
  unfold step at hs
  split at hs
  · exact .inl (hs ▸ rfl)
  · rename_i i is hcode
    cases hi : isCall i with
    | false => exact .inl (hs ▸ exec_log hi _ _ _)
    | true =>
        cases call_dispatches (hs ▸ exec_call (m := m) (P := P) (h := h) hi _ _ _) with
        | own _ _ _ hown =>
            rcases invoke_log with hnone | ⟨name, type, hcall⟩
            · exact .inl (hown ▸ hnone)
            · exact .inr ⟨_, by rw [← hown, hcall, callHost_log]⟩
        | «foreign» _ _ hown => exact .inr ⟨_, by rw [← hown, callHost_log]⟩
        | ends he => exact .inl (he ▸ rfl)

end

end Wasm
