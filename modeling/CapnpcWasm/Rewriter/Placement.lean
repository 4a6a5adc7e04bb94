import CapnpcWasm.Wasm.Moves
import CapnpcWasm.Rewriter.Sequences

/-!
# Where the checks stand

In every body of the instrumented module a check follows each loop header and each
direct call of an import, and either it begins with a check or it calls no function of
the instance.  No instruction tail-calls an import or makes a reference to one.

`Each` is a property of every instruction and the code behind it, which is what "a check
follows" needs.  `rewriteCode_placed` proves it by induction on the code, with one lemma for
what an instruction becomes (`rewriteInstr_placed`), and `Instruments.checked` says it of all
bodies, thunks included.
-/

namespace Rewriter

open Wasm

/-! ## Properties of every instruction and the code behind it -/

/-- Every instruction has `Q` with the code behind it. -/
def Each (Q : Instr → List Instr → Prop) : List Instr → Prop
  | [] => True
  | i :: is => Q i is ∧ Each Q is

namespace Each

variable {Q : Instr → List Instr → Prop} {is js : List Instr}

/-- A property that holds whatever follows. -/
theorem of_mem (h : ∀ i ∈ is, ∀ js, Q i js) : Each Q is := by
  induction is with
  | nil => trivial
  | cons i is ih => exact ⟨h i List.mem_cons_self is, ih fun j hj => h j (List.mem_cons_of_mem _ hj)⟩

/-- Two sequences, where more code behind an instruction does no harm. -/
theorem append (hQ : ∀ i is js, Q i is → Q i (is ++ js)) (h₁ : Each Q is) (h₂ : Each Q js) :
    Each Q (is ++ js) := by
  induction is with
  | nil => exact h₂
  | cons i is ih => exact ⟨hQ i is js h₁.1, ih h₁.2⟩

/-- Wherever an instruction stands, what follows it is the rest. -/
theorem suffix {i : Instr} (h : Each Q js) (hs : i :: is <:+ js) : Q i is := by
  obtain ⟨front, rfl⟩ := hs
  induction front with
  | nil => exact h.1
  | cons j front ih => exact ih h.2

/-- Some rest follows every instruction. -/
theorem mem {i : Instr} (h : Each Q is) (hi : i ∈ is) : ∃ js, Q i js := by
  obtain ⟨front, js, rfl⟩ := List.append_of_mem hi
  exact ⟨js, h.suffix (List.suffix_append front (i :: js))⟩

end Each

/-! ## The injected code -/

/-- What stands behind an instruction of the instrumented module. -/
def Placed (ctx : Context) (i : Instr) (is : List Instr) : Prop :=
  match i with
  | .loop _ => ∃ js, is = ctx.check ++ js
  | .call f => f < ctx.importedFunctions → ∃ js, is = ctx.afterImport f ++ js
  | .return_call f | .ref_func f => ctx.importedFunctions < f
  | _ => True

/-- The instruction calls no function of the instance. -/
def quiet (ctx : Context) : Instr → Bool
  | .call f | .return_call f => f ≤ ctx.importedFunctions
  | .call_indirect _ _ | .return_call_indirect _ _ | .call_ref _ | .return_call_ref _ => false
  | _ => true

section

variable {ctx : Context} {scratch : Nat}

/-- A check that follows still does. -/
theorem Placed.append (i : Instr) (is js : List Instr) (h : Placed ctx i is) :
    Placed ctx i (is ++ js) := by
  cases i with
  | loop bt =>
      obtain ⟨rest, rfl⟩ := h
      exact ⟨rest ++ js, List.append_assoc ..⟩
  | call f =>
      intro hf
      obtain ⟨rest, rfl⟩ := h hf
      exact ⟨rest ++ js, List.append_assoc ..⟩
  | return_call f | ref_func f => exact h
  | _ => trivial

/-- The check itself has no loop and calls the interrupt, which is no import of the original. -/
theorem check_placed : Each (Placed ctx) ctx.check :=
  .of_mem fun i hi js => by
    simp only [Context.check, checkSequence, List.mem_cons, List.not_mem_nil, or_false] at hi
    rcases hi with rfl | rfl | rfl | rfl | rfl | rfl | rfl | rfl | rfl | rfl | rfl | rfl | rfl | rfl
    case inr.inr.inr.inl => exact fun h => absurd h (Nat.lt_irrefl _)
    all_goals trivial

/-- The charge has no loop and makes no other call either. -/
theorem charge_placed (shift : Nat) : Each (Placed ctx) (ctx.charge scratch shift) :=
  .of_mem fun i hi js => by
    cases i with
    | loop bt => simp [Context.charge, chargeSequence] at hi
    | call f =>
        have hf : f = ctx.importedFunctions := by simpa [Context.charge, chargeSequence] using hi
        exact fun h => absurd h (by omega)
    | return_call f | ref_func f => simp [Context.charge, chargeSequence] at hi
    | _ => trivial

/-- What follows an import is a check or a trap. -/
theorem afterImport_placed (f : Nat) : Each (Placed ctx) (ctx.afterImport f) := by
  unfold Context.afterImport
  split
  · exact ⟨trivial, trivial⟩
  · exact check_placed

/-- The check calls the interrupt only. -/
theorem check_quiet : ∀ i ∈ ctx.check, quiet ctx i = true := by
  simp [Context.check, checkSequence, quiet]

theorem afterImport_quiet (f : Nat) : ∀ i ∈ ctx.afterImport f, quiet ctx i = true := by
  unfold Context.afterImport
  split
  · simp [quiet]
  · exact check_quiet

theorem charge_quiet (shift : Nat) : ∀ i ∈ ctx.charge scratch shift, quiet ctx i = true := by
  simp [Context.charge, chargeSequence, quiet]

/-! ## Rewritten code -/

/-- Instructions that become themselves, perhaps after a charge. -/
theorem rewriteInstr_other (scratch : Nat) (p : Option (BitVec 32)) {i : Instr} (hl : ∀ bt, i ≠ .loop bt)
    (hc : ∀ f, i ≠ .call f) (hr : ∀ f, i ≠ .return_call f) (hf : ∀ f, i ≠ .ref_func f) :
    rewriteInstr ctx scratch p i = [i] ∨
      ∃ shift, rewriteInstr ctx scratch p i = ctx.charge scratch shift ++ [i] := by
  unfold rewriteInstr
  split
  · exact absurd rfl (hl _)
  · exact absurd rfl (hc _)
  · exact absurd rfl (hr _)
  · exact absurd rfl (hf _)
  · split
    · exact .inr ⟨_, rfl⟩
    · exact .inl rfl

/-- What instructions of the original become. -/
theorem rewriteInstr_placed (p : Option (BitVec 32)) {i : Instr} (hd : ctx.declared i = true)
    (hthunks : ∀ f t, ctx.thunkOf f = some t → ctx.importedFunctions < t) :
    Each (Placed ctx) (rewriteInstr ctx scratch p i) := by
  have hsingle : ∀ i, (∀ is, Placed ctx i is) → Each (Placed ctx) [i] := fun i h => ⟨h [], trivial⟩
  by_cases hl : ∃ bt, i = .loop bt
  · obtain ⟨bt, rfl⟩ := hl
    exact ⟨⟨[], (List.append_nil _).symm⟩, check_placed⟩
  by_cases hc : ∃ f, i = .call f
  · obtain ⟨f, rfl⟩ := hc
    simp only [rewriteInstr]
    split
    · rename_i hle
      refine hsingle _ fun is h => ?_
      rw [Context.shift_of_le _ hle] at h
      omega
    · exact ⟨fun _ => ⟨[], (List.append_nil _).symm⟩, afterImport_placed f⟩
  by_cases hr : ∃ f, i = .return_call f
  · obtain ⟨f, rfl⟩ := hr
    simp only [rewriteInstr]
    split
    · rename_i hle
      refine hsingle _ fun is => ?_
      show ctx.importedFunctions < ctx.shift f
      rw [Context.shift_of_le _ hle]
      omega
    · split
      · rename_i hexit
        refine ⟨fun _ => ⟨[], ?_⟩, trivial, trivial⟩
        simp [Context.afterImport, hexit]
      · rename_i hexit
        refine ⟨fun _ => ⟨[.return], ?_⟩, check_placed.append Placed.append ⟨trivial, trivial⟩⟩
        simp [Context.afterImport, hexit]
  by_cases hf : ∃ f, i = .ref_func f
  · obtain ⟨f, rfl⟩ := hf
    refine hsingle _ fun is => ?_
    show ctx.importedFunctions < ctx.reference f
    unfold Context.reference
    split
    · omega
    · rename_i hlt
      simp only [Context.declared, Bool.or_eq_true, decide_eq_true_eq, hlt, false_or] at hd
      obtain ⟨t, ht⟩ := Option.isSome_iff_exists.mp hd
      rw [ht]
      exact hthunks f t ht
  push Not at hl hc hr hf
  have hi : Each (Placed ctx) [i] := hsingle i fun is => by
    cases i with
    | loop bt => exact absurd rfl (hl bt)
    | call f => exact absurd rfl (hc f)
    | return_call f => exact absurd rfl (hr f)
    | ref_func f => exact absurd rfl (hf f)
    | _ => trivial
  rcases rewriteInstr_other scratch p hl hc hr hf with h | ⟨shift, h⟩
  · rw [h]
    exact hi
  · rw [h]
    exact (charge_placed shift).append Placed.append hi

/-- Rewritten code, by induction, for every pending operand. -/
theorem rewriteCode_placed {is : List Instr} : ∀ (p : Option (BitVec 32)),
    is.all ctx.declared = true →
    (∀ f t, ctx.thunkOf f = some t → ctx.importedFunctions < t) →
    Each (Placed ctx) (rewriteCode ctx scratch p is) := by
  induction is with
  | nil => exact fun _ _ _ => trivial
  | cons i is ih =>
      intro p hd ht
      simp only [List.all_cons, Bool.and_eq_true] at hd
      exact (rewriteInstr_placed p hd.1 ht).append Placed.append (ih _ hd.2 ht)

/-- What calls no guest code still does not. -/
theorem rewriteInstr_quiet (p : Option (BitVec 32)) {i : Instr}
    (hg : ctx.callsGuest i = false) : ∀ j ∈ rewriteInstr ctx scratch p i, quiet ctx j = true := by
  by_cases hl : ∃ bt, i = .loop bt
  · obtain ⟨bt, rfl⟩ := hl
    exact List.forall_mem_cons.mpr ⟨rfl, check_quiet⟩
  by_cases hc : ∃ f, i = .call f
  · obtain ⟨f, rfl⟩ := hc
    have hlt : ¬ ctx.importedFunctions ≤ f := by simpa [Context.callsGuest] using hg
    simp only [rewriteInstr, if_neg hlt]
    refine List.forall_mem_cons.mpr ⟨?_, afterImport_quiet f⟩
    simp only [quiet, decide_eq_true_eq]
    omega
  by_cases hr : ∃ f, i = .return_call f
  · obtain ⟨f, rfl⟩ := hr
    have hlt : ¬ ctx.importedFunctions ≤ f := by simpa [Context.callsGuest] using hg
    have hcall : quiet ctx (.call f) = true := by
      simp only [quiet, decide_eq_true_eq]
      omega
    simp only [rewriteInstr, if_neg hlt]
    split
    · exact List.forall_mem_cons.mpr ⟨hcall, by simp [quiet]⟩
    · refine List.forall_mem_cons.mpr ⟨hcall, fun j hj => ?_⟩
      rcases List.mem_append.mp hj with hj | hj
      · exact check_quiet j hj
      · cases List.mem_singleton.mp hj
        rfl
  by_cases hf : ∃ f, i = .ref_func f
  · obtain ⟨f, rfl⟩ := hf
    exact List.forall_mem_cons.mpr ⟨rfl, fun j hj => absurd hj List.not_mem_nil⟩
  push Not at hl hc hr hf
  have hi : quiet ctx i = true := by
    cases i with
    | call f => exact absurd rfl (hc f)
    | return_call f => exact absurd rfl (hr f)
    | call_indirect t u | return_call_indirect t u | call_ref t | return_call_ref t => cases hg
    | _ => rfl
  rcases rewriteInstr_other scratch p hl hc hr hf with h | ⟨shift, h⟩
  · rw [h]
    exact List.forall_mem_singleton.mpr hi
  · rw [h]
    intro j hj
    rcases List.mem_append.mp hj with hj | hj
    · exact charge_quiet shift j hj
    · cases List.mem_singleton.mp hj
      exact hi

/-- Code that calls no function of the instance still calls none. -/
theorem rewriteCode_quiet {is : List Instr} : ∀ (p : Option (BitVec 32)),
    is.any ctx.callsGuest = false → ∀ j ∈ rewriteCode ctx scratch p is, quiet ctx j = true := by
  induction is with
  | nil => exact fun _ _ j hj => nomatch hj
  | cons i is ih =>
      intro p hg j hj
      simp only [List.any_cons, Bool.or_eq_false_iff] at hg
      rcases List.mem_append.mp hj with hj | hj
      · exact rewriteInstr_quiet p hg.1 j hj
      · exact ih _ hg.2 j hj

/-! ## Bodies -/

/-- What holds of the body of every function of the instrumented module. -/
structure Checked (ctx : Context) (body : List Instr) : Prop where
  placed : Each (Placed ctx) body
  entry : (∃ is, body = ctx.check ++ is) ∨ ∀ i ∈ body, quiet ctx i = true

/-- A body whose original calls a function of the instance begins with a check. -/
theorem functionBody_checked {params : Nat} {f f' : Func}
    (ht : ∀ f t, ctx.thunkOf f = some t → ctx.importedFunctions < t)
    (h : functionBody ctx params f = some f') : Checked ctx f'.body := by
  obtain ⟨rfl, hd, -⟩ := functionBody_eq h
  constructor
  · dsimp only
    split
    · exact check_placed.append Placed.append (rewriteCode_placed _ hd ht)
    · exact rewriteCode_placed _ hd ht
  · dsimp only
    split
    · exact .inl ⟨_, rfl⟩
    · rename_i hg
      exact .inr (rewriteCode_quiet _ (by simpa using hg))

/-- A thunk makes one direct call, and a check follows. -/
theorem thunkBody_checked {type params f : Nat} (hf : f < ctx.importedFunctions) :
    Checked ctx (thunkBody ctx type params f).body := by
  constructor
  · refine Each.append Placed.append ?_ ⟨fun _ => ⟨[.end], rfl⟩,
      (afterImport_placed f).append Placed.append ⟨trivial, trivial⟩⟩
    refine .of_mem fun i hi js => ?_
    obtain ⟨x, -, rfl⟩ := List.mem_map.mp hi
    trivial
  · refine .inr fun i hi => ?_
    rcases List.mem_append.mp hi with hi | hi
    · obtain ⟨x, -, rfl⟩ := List.mem_map.mp hi
      rfl
    · rcases List.mem_cons.mp hi with rfl | hi
      · simp only [quiet, decide_eq_true_eq]
        omega
      · rcases List.mem_append.mp hi with hi | hi
        · exact afterImport_quiet f i hi
        · cases List.mem_singleton.mp hi
          rfl

end

/-- Every body of the output. -/
theorem Instruments.checked {m m' : Module} {maximum interval : Nat}
    (hi : Instruments m m' maximum interval) {f' : Func} (hf : f' ∈ m'.funcs) :
    Checked (contextOf m interval) f'.body := by
  have ht : ∀ f t, (contextOf m interval).thunkOf f = some t →
      (contextOf m interval).importedFunctions < t := by
    intro f t h
    obtain ⟨-, rfl⟩ := (Context.thunkOf_eq_some _).mp h
    omega
  obtain ⟨funcs, hfuncs, hm⟩ := hi.funcs
  rw [hm] at hf
  rcases List.mem_append.mp hf with hf | hf
  · obtain ⟨i, hi'⟩ := List.getElem?_of_mem hf
    have hget := mapM_getElem? hfuncs i
    rw [hi'] at hget
    obtain ⟨f, -, hf⟩ := Option.bind_eq_some_iff.mp hget.symm
    exact functionBody_checked ht hf
  · obtain ⟨f, hmem, rfl⟩ := List.mem_map.mp hf
    exact thunkBody_checked (lt_of_mem_thunkImports hmem)

end Rewriter
