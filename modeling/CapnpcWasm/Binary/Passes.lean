import CapnpcWasm.Binary.Output
import CapnpcWasm.Binary.Refinement

/-!
# Section after section

What holds of the state between two sections, in every run of the rewriter: thunks are
numbered behind the functions, the functions are known before anything needs a thunk, and the
output is sections one after the other.  The code section is therefore rewritten as its
instructions are.

* `State.Keeps` is what every section but two leaves alone, proved section by section.
  `State.Imports` and `functionSection_ok` say what those two do.
* `State.Placed` is the invariant between sections, with what the order of sections gives:
  while it is at most that of the function section, no function is known.
* `Reached` is a state that the section loop reaches, and `Reached.placed` its induction.
* `reached_code_refines` applies the refinement of the code section there.
-/

namespace Binary

open TsSdk Leb

/-! ## Loops -/

/-- A reflexive and transitive relation that every round has, a loop has. -/
theorem times_related {σ : Type} {R : σ → σ → Prop} {round : σ → Reader → Except TypeError (σ × Reader)}
    (hrefl : ∀ s, R s s) (htrans : ∀ s s' s'', R s s' → R s' s'' → R s s'')
    (hround : ∀ s s' r r', round s r = .ok (s', r') → R s s') {count : Nat} {s s' : σ} {r r' : Reader}
    (h : times round count s r = .ok (s', r')) : R s s' := by
  induction count generalizing s r with
  | zero =>
      cases h
      exact hrefl _
  | succ count ih =>
      obtain ⟨⟨s₁, r₁⟩, hfirst, h⟩ := Checks.bind_ok h
      exact htrans _ _ _ (hround _ _ _ _ hfirst) (ih h)

/-! ## Sections of the output -/

/-- The output is the header and sections one after the other, with the function section in its place or
its place still empty. -/
def State.Sections (s : State) : Prop :=
  ∃ entries hole, Output s entries hole ∧ (hole = [] ∨ ∃ payload, hole = Emitted.bytes (3, payload))

section

variable {s s' : State} {entries : List (Option Emitted)} {hole : Bytes}

/-- One more section behind the others. -/
theorem State.Sections.emit (h : s.Sections) (id : UInt8) (payload : Writer) : (s.emit id payload).Sections := by
  obtain ⟨entries, hole, hout, hhole⟩ := h
  exact ⟨_, hole, hout.emit id payload, hhole⟩

/-- Only these two fields count. -/
theorem State.Sections.same (h : s.Sections) (hfunctions : s'.functions = s.functions)
    (houtput : s'.output = s.output) : s'.Sections := by
  obtain ⟨entries, hole, hout, hhole⟩ := h
  exact ⟨entries, hole, hout.same hfunctions houtput, hhole⟩

/-- The place of the function section is reserved. -/
theorem State.Sections.slot (h : s.Sections) (hfunctions : s.functions = none) {bytes : Bytes}
    (houtput : s'.output = s.output.slot.2) (hslot : s'.functions = some ⟨bytes, s.output.slot.1⟩) :
    s'.Sections := by
  obtain ⟨entries, hole, hout, -⟩ := h
  obtain ⟨hnone, -, hcontents⟩ := hout.whole hfunctions
  refine ⟨entries ++ [none], [], ⟨fun hf => ?_, fun f hf => ?_⟩, .inl rfl⟩
  · rw [hslot] at hf
    cases hf
  · rw [hslot] at hf
    obtain rfl := Option.some.inj hf
    refine ⟨entries, [], rfl, hnone, List.not_mem_nil, ?_⟩
    rw [houtput, ← hcontents]
    exact slotAt_slot s.output

/-- The function section is written to its place. -/
theorem State.Sections.fill {f : FunctionSection} (h : s.Sections) (hfunctions : s.functions = some f)
    (payload : Writer) :
    ∃ output, s.output.fill f.slot (framed 3 payload) = some output ∧ { s with output := output }.Sections := by
  obtain ⟨entries, hole, hout, -⟩ := h
  obtain ⟨before, after, hentries, hbefore, hafter, hslot⟩ := hout.parted f hfunctions
  obtain ⟨output, hfill, hfilled⟩ := hslot.fill (framed 3 payload)
  refine ⟨output, hfill, entries, (framed 3 payload).contents, ⟨fun hf => ?_, fun f' hf => ?_⟩,
    .inr ⟨payload.contents, ?_⟩⟩
  · exact absurd (hfunctions.symm.trans hf) (Option.some_ne_none f)
  · obtain rfl := Option.some.inj (hfunctions.symm.trans hf)
    exact ⟨before, after, hentries, hbefore, hafter, hfilled⟩
  · exact contents_framed 3 payload

end

/-! ## Added sections -/

/-- Only sections were added, and the thunk set may be fixed. -/
structure State.Synthesized (s s' : State) : Prop where
  frame : ∃ output result pending elementsSeen sealed_, s' = { s with
    output := output, result := result, pending := pending, elementsSeen := elementsSeen, sealed_ := sealed_ }
  sections : s.Sections → s'.Sections

namespace State.Synthesized

variable {s s' s'' : State} {interval : BitVec 32} {order : Nat}

theorem refl (s : State) : s.Synthesized s := ⟨⟨_, _, _, _, _, rfl⟩, id⟩

theorem trans (h : s.Synthesized s') (h' : s'.Synthesized s'') : s.Synthesized s'' := by
  obtain ⟨⟨output, result, pending, elementsSeen, sealed_, rfl⟩, hsections⟩ := h
  obtain ⟨⟨output', result', pending', elementsSeen', sealed_', rfl⟩, hsections'⟩ := h'
  exact ⟨⟨output', result', pending', elementsSeen', sealed_', rfl⟩, fun h => hsections' (hsections h)⟩

/-- A section with one entry. -/
theorem single (s : State) (pending : Pending) (id : UInt8) (entry : Writer → Writer) :
    s.Synthesized ({ s with pending := pending }.single id entry) :=
  ⟨⟨_, _, _, _, _, rfl⟩, fun h =>
    State.Sections.emit (s := { s with pending := pending }) (h.same rfl rfl) id _⟩

/-- A section that is added or not. -/
theorem ite {c : Prop} [Decidable c] (h : s.Synthesized s') : s.Synthesized (if c then s' else s) := by
  split
  · exact h
  · exact .refl s

/-- The declarative segment of the thunks. -/
theorem sealElements (s : State) : s.Synthesized s.sealElements := by
  rw [State.sealElements]
  exact .ite ⟨⟨_, _, _, _, _, rfl⟩, fun h =>
    State.Sections.emit (s := { s with elementsSeen := true }) (h.same rfl rfl) 9 _⟩

/-- Sealing succeeds: the place of the function section was reserved. -/
theorem seal_ (h : s.Sections) : ∃ s', s.seal_ = .ok s' ∧ s.Synthesized s' ∧ s'.sealed_ = true := by
  rw [State.seal_]
  by_cases hsealed : s.sealed_ = true
  · exact ⟨s, if_pos hsealed, .refl s, hsealed⟩
  · rw [if_neg hsealed]
    have hfirst : s.Synthesized { s with sealed_ := true, result := { s.result with thunks := s.thunks.length } } :=
      ⟨⟨_, _, _, _, _, rfl⟩, fun h => h.same rfl rfl⟩
    have hboth := hfirst.trans (.sealElements _)
    have hkept : ({ s with sealed_ := true, result := { s.result with thunks := s.thunks.length } } :
        State).sealElements.sealed_ = true := by
      rw [State.sealElements]
      split
      all_goals rfl
    generalize ({ s with sealed_ := true, result := { s.result with thunks := s.thunks.length } } :
      State).sealElements = s₁ at hboth hkept
    dsimp only
    cases hf : s₁.functions with
    | none => exact ⟨s₁, rfl, hboth, hkept⟩
    | some f =>
        obtain ⟨output, hfill, hfilled⟩ := (hboth.sections h).fill hf (s₁.functionPayload f)
        dsimp only
        rw [hfill]
        refine ⟨_, rfl, hboth.trans ⟨⟨output, s₁.result, s₁.pending, s₁.elementsSeen, s₁.sealed_, ?_⟩, ?_⟩, hkept⟩
        · rw [hf]
        · exact fun _ => hfilled.same hf.symm rfl

/-- The added sections are always written. -/
theorem before (h : s.Sections) (interval : BitVec 32) (order : Nat) :
    ∃ s', s.synthesizeBefore interval order = .ok s' ∧ s.Synthesized s' ∧ (10 < order → s'.sealed_ = true) := by
  unfold State.synthesizeBefore
  extract_lets p₁ s₁ p₂ s₂ p₃ s₃ p₄ s₄
  have h₁ : s.Synthesized s₁ := .ite (.single s _ 1 _)
  have h₂ : s₁.Synthesized s₂ := .ite (.single s₁ _ 2 _)
  have h₃ : s₂.Synthesized s₃ := .ite (.single s₂ _ 6 _)
  have h₄ : s₃.Synthesized s₄ := .ite (.single s₃ _ 7 _)
  have hall := ((h₁.trans h₂).trans h₃).trans h₄
  by_cases horder : 10 < order
  · obtain ⟨s', hseal, hsynthesized, hsealed⟩ := State.Synthesized.seal_ (hall.sections h)
    rw [if_pos horder]
    exact ⟨s', hseal, hall.trans hsynthesized, fun _ => hsealed⟩
  · rw [if_neg horder]
    exact ⟨s₄, rfl, hall, fun hover => absurd hover horder⟩

end State.Synthesized

/-! ## What a section keeps -/

/-- What a section other than the imports and the function section keeps. -/
structure State.Keeps (s s' : State) : Prop where
  imported : s'.importedFunctions = s.importedFunctions
  defined : s'.definedFunctions = s.definedFunctions
  types : s'.functionTypes = s.functionTypes
  functions : s'.functions = s.functions
  lastOrder : s'.lastOrder = s.lastOrder
  memorySeen : s'.memorySeen = s.memorySeen
  numbered : s.Numbered → s'.Numbered
  /-- Without functions no thunk is needed. -/
  thunks : s.definedFunctions = 0 → s'.thunks = s.thunks
  sections : s.Sections → s'.Sections

namespace State.Keeps

variable {s s' s'' : State} {interval : BitVec 32} {maximum index f : Nat} {r : Reader}

theorem refl (s : State) : s.Keeps s := ⟨rfl, rfl, rfl, rfl, rfl, rfl, id, fun _ => rfl, id⟩

theorem trans (h : s.Keeps s') (h' : s'.Keeps s'') : s.Keeps s'' where
  imported := h'.imported.trans h.imported
  defined := h'.defined.trans h.defined
  types := h'.types.trans h.types
  functions := h'.functions.trans h.functions
  lastOrder := h'.lastOrder.trans h.lastOrder
  memorySeen := h'.memorySeen.trans h.memorySeen
  numbered hs := h'.numbered (h.numbered hs)
  thunks hzero := (h'.thunks (h.defined.trans hzero)).trans (h.thunks hzero)
  sections hs := h'.sections (h.sections hs)

/-- Where nothing of the numbering changes. -/
theorem of_same (himported : s'.importedFunctions = s.importedFunctions)
    (hdefined : s'.definedFunctions = s.definedFunctions) (htypes : s'.functionTypes = s.functionTypes)
    (hfunctions : s'.functions = s.functions) (horder : s'.lastOrder = s.lastOrder)
    (hmemory : s'.memorySeen = s.memorySeen) (hthunks : s'.thunks = s.thunks)
    (houtput : s'.output = s.output) : s.Keeps s' where
  imported := himported
  defined := hdefined
  types := htypes
  functions := hfunctions
  lastOrder := horder
  memorySeen := hmemory
  numbered hs := by
    rw [State.Numbered, himported, hdefined]
    simp only [hthunks]
    exact hs
  thunks _ := hthunks
  sections h := h.same hfunctions houtput

theorem emit (s : State) (number : UInt8) (payload : Writer) : s.Keeps (s.emit number payload) :=
  ⟨rfl, rfl, rfl, rfl, rfl, rfl, id, fun _ => rfl, fun h => h.emit number payload⟩

/-- Added sections change the output and what is pending. -/
theorem of_synthesized (h : s.Synthesized s') : s.Keeps s' := by
  obtain ⟨output, result, pending, elementsSeen, sealed_, rfl⟩ := h.frame
  exact ⟨rfl, rfl, rfl, rfl, rfl, rfl, id, fun _ => rfl, h.sections⟩

/-- A reference may need a thunk, whose number is behind the functions. -/
theorem reference (h : s.reference index = .ok (f, s')) : s.Keeps s' := by
  have hnumbered : s.Numbered → s'.Numbered := fun hs => hs.reference h
  rw [State.reference] at h
  split at h
  · cases h
    exact .refl s
  · split at h
    · cases h
      exact .refl s
    · next hdefined =>
      split at h
      · cases h
        exact .refl s
      · split at h
        · cases h
        · cases h
          exact ⟨rfl, rfl, rfl, rfl, rfl, rfl, hnumbered, fun hzero => absurd hzero hdefined,
            fun hs => hs.same rfl rfl⟩

/-- Sealing writes the place of the function section and fixes the thunks. -/
theorem sealing (hs : s.Sections) (h : s.seal_ = .ok s') : s.Keeps s' := by
  obtain ⟨s₁, hseal, hsynthesized, -⟩ := State.Synthesized.seal_ hs
  obtain rfl := Except.ok.inj (h.symm.trans hseal)
  exact of_synthesized hsynthesized

/-! ### References in sections -/

/-- A constant expression, instruction by instruction. -/
theorem constantRounds {fuel : Nat} {x x' : State × Writer} {r r' : Reader}
    (h : Binary.constantRounds fuel x r = .ok (x', r')) : x.1.Keeps x'.1 := by
  induction fuel generalizing x r with
  | zero => cases h
  | succ fuel ih =>
      obtain ⟨⟨op, r₁⟩, -, h⟩ := Checks.bind_ok h
      dsimp only at h
      split at h
      · cases h
        exact .refl _
      · split at h
        · obtain ⟨⟨index, r₂⟩, -, h⟩ := Checks.bind_ok h
          obtain ⟨⟨f, s₁⟩, hreference, h⟩ := Checks.bind_ok h
          exact (reference hreference).trans (ih h)
        · obtain ⟨r₂, -, h⟩ := Checks.bind_ok h
          have hrest := ih h
          exact hrest

theorem constant {x x' : State × Writer} {r r' : Reader} (h : Binary.constant x r = .ok (x', r')) :
    x.1.Keeps x'.1 := constantRounds h

/-- Rounds that keep it. -/
theorem times {round : State × Writer → Reader → Except TypeError ((State × Writer) × Reader)}
    (hround : ∀ x x' r r', round x r = .ok (x', r') → x.1.Keeps x'.1) {count : Nat} {x x' : State × Writer}
    {r r' : Reader} (h : Binary.times round count x r = .ok (x', r')) : x.1.Keeps x'.1 :=
  @times_related _ (fun x x' => x.1.Keeps x'.1) _ (fun x => .refl x.1) (fun _ _ _ => .trans) hround _ _ _ _ _ h

/-- A global has one such expression. -/
theorem globalEntry {x x' : State × Writer} {r r' : Reader} (h : State.globalEntry x r = .ok (x', r')) :
    x.1.Keeps x'.1 := by
  obtain ⟨r₁, -, h⟩ := Checks.bind_ok h
  obtain ⟨r₂, -, h⟩ := Checks.bind_ok h
  have hrest := constant h
  exact hrest

/-- An export of a function is a reference to it. -/
theorem exportEntry {x x' : State × Writer} {r r' : Reader} (h : State.exportEntry x r = .ok (x', r')) :
    x.1.Keeps x'.1 := by
  obtain ⟨s, payload⟩ := x
  obtain ⟨⟨name, r₁⟩, -, h⟩ := Checks.bind_ok h
  dsimp only at h
  split at h
  · cases h
  · obtain ⟨⟨kind, r₂⟩, -, h⟩ := Checks.bind_ok h
    dsimp only at h
    split at h
    · cases h
    · obtain ⟨⟨index, r₃⟩, -, h⟩ := Checks.bind_ok h
      dsimp only at h
      split at h
      · obtain ⟨⟨f, s₁⟩, hreference, h⟩ := Checks.bind_ok h
        cases h
        exact reference hreference
      · cases h
        exact .refl s

/-- So is an entry of a segment. -/
theorem elementIndex {x x' : State × Writer} {r r' : Reader} (h : State.elementIndex x r = .ok (x', r')) :
    x.1.Keeps x'.1 := by
  obtain ⟨⟨index, r₁⟩, -, h⟩ := Checks.bind_ok h
  obtain ⟨⟨f, s₁⟩, hreference, h⟩ := Checks.bind_ok h
  cases h
  exact reference hreference

/-- An active segment has an offset. -/
theorem elementOffset {flags : Nat} {x x' : State × Writer} {r r' : Reader}
    (h : State.elementOffset flags x r = .ok (x', r')) : x.1.Keeps x'.1 := by
  rw [State.elementOffset] at h
  split at h
  · cases h
    exact .refl _
  · split at h
    · obtain ⟨⟨table, r₁⟩, -, h⟩ := Checks.bind_ok h
      have hrest := constant h
      exact hrest
    · exact constant h

/-- A segment, in each of its eight forms. -/
theorem elementEntry {x x' : State × Writer} {r r' : Reader} (h : State.elementEntry x r = .ok (x', r')) :
    x.1.Keeps x'.1 := by
  obtain ⟨⟨flags, r₁⟩, -, h⟩ := Checks.bind_ok h
  dsimp only at h
  split at h
  · cases h
  · obtain ⟨⟨⟨s₁, segments⟩, r₂⟩, hoffset, h⟩ := Checks.bind_ok h
    refine (elementOffset hoffset).trans ?_
    dsimp only at h
    split at h
    · obtain ⟨⟨segments₁, r₃⟩, -, h⟩ := Checks.bind_ok h
      obtain ⟨⟨length, r₄⟩, -, h⟩ := Checks.bind_ok h
      have hrest := times (fun _ _ _ _ => constant) h
      exact hrest
    · obtain ⟨⟨segments₁, r₃⟩, -, h⟩ := Checks.bind_ok h
      obtain ⟨⟨length, r₄⟩, -, h⟩ := Checks.bind_ok h
      have hrest := times (fun _ _ _ _ => elementIndex) h
      exact hrest

/-! ### Sections -/

/-- The type section has one type more. -/
theorem types_ (h : s.types r = .ok s') : s.Keeps s' := by
  obtain ⟨⟨count, r₁⟩, -, h⟩ := Checks.bind_ok h
  obtain ⟨⟨params, r₂⟩, -, h⟩ := Checks.bind_ok h
  obtain ⟨⟨⟩, -, h⟩ := Checks.bind_ok h
  cases h
  refine trans ?_ (emit _ 1 _)
  exact .of_same rfl rfl rfl rfl rfl rfl rfl rfl

theorem tables (h : s.tables r = .ok s') : s.Keeps s' := by
  obtain ⟨⟨count, r₁⟩, -, h⟩ := Checks.bind_ok h
  obtain ⟨r₂, -, h⟩ := Checks.bind_ok h
  obtain ⟨⟨⟩, -, h⟩ := Checks.bind_ok h
  cases h
  exact emit s 4 _

/-- The memory section is seen, and its memory was bounded. -/
theorem memory (h : s.memory maximum r = .ok s') :
    { s with memorySeen := true }.Keeps s' ∧ ∃ payload, boundedMemory r maximum = .ok payload := by
  obtain ⟨payload, hpayload, h⟩ := Checks.bind_ok h
  cases h
  exact ⟨emit _ 5 _, payload, hpayload⟩

/-- The global section has one global more. -/
theorem globals (h : s.globals interval r = .ok s') : s.Keeps s' := by
  obtain ⟨⟨count, r₁⟩, -, h⟩ := Checks.bind_ok h
  obtain ⟨⟨⟨s₁, payload⟩, r₂⟩, hentries, h⟩ := Checks.bind_ok h
  obtain ⟨⟨⟩, -, h⟩ := Checks.bind_ok h
  cases h
  have hfirst : s.Keeps s₁ := times (fun _ _ _ _ => globalEntry) hentries
  refine trans ?_ (emit _ 6 _)
  exact hfirst.trans (.of_same rfl rfl rfl rfl rfl rfl rfl rfl)

/-- The export section has one export more. -/
theorem exports (h : s.exports r = .ok s') : s.Keeps s' := by
  obtain ⟨⟨count, r₁⟩, -, h⟩ := Checks.bind_ok h
  obtain ⟨⟨⟨s₁, payload⟩, r₂⟩, hentries, h⟩ := Checks.bind_ok h
  obtain ⟨⟨⟩, -, h⟩ := Checks.bind_ok h
  cases h
  have hfirst : s.Keeps s₁ := times (fun _ _ _ _ => exportEntry) hentries
  refine trans ?_ (emit _ 7 _)
  exact hfirst.trans (.of_same rfl rfl rfl rfl rfl rfl rfl rfl)

/-- The start function may be a thunk. -/
theorem start_ (h : s.start_ r = .ok s') : s.Keeps s' := by
  obtain ⟨⟨index, r₁⟩, -, h⟩ := Checks.bind_ok h
  obtain ⟨⟨⟩, -, h⟩ := Checks.bind_ok h
  cases h
  exact emit s 8 _

/-- The element section fixes the thunk set. -/
theorem elements (hs : s.Sections) (h : s.elements r = .ok s') : s.Keeps s' := by
  obtain ⟨⟨count, r₁⟩, -, h⟩ := Checks.bind_ok h
  obtain ⟨⟨⟨s₁, segments⟩, r₂⟩, hentries, h⟩ := Checks.bind_ok h
  obtain ⟨⟨⟩, -, h⟩ := Checks.bind_ok h
  have hfirst : s.Keeps s₁ := times (fun _ _ _ _ => elementEntry) hentries
  have hsecond : s.Keeps { s₁ with elementsSeen := true } :=
    hfirst.trans (.of_same rfl rfl rfl rfl rfl rfl rfl rfl)
  exact hsecond.trans ((emit _ 9 _).trans (sealing ((hsecond.sections hs).emit 9 _) h))

/-- The code section comes after the sealing, so no thunk is added. -/
theorem code (hsealed : s.sealed_ = true) (h : s.code interval r = .ok s') : s.Keeps s' := by
  obtain ⟨size, entries, gs, hsize, hcount, hrest, hgs⟩ := State.code_ok hsealed h
  obtain ⟨payload, hcode, -⟩ := State.code_of hsealed hsize hcount hrest hgs
  obtain ⟨counts, hcounts⟩ := State.counted_foldl (entries.map CodeEntry.text) { s with codeSeen := true }
  obtain rfl := Except.ok.inj (h.symm.trans hcode)
  rw [State.coded, hcounts]
  refine trans ?_ (emit _ 10 _)
  exact .of_same rfl rfl rfl rfl rfl rfl rfl rfl

/-- Custom sections are renumbered, copied or dropped. -/
theorem custom (h : s.custom r = .ok s') : s.Keeps s' := by
  obtain ⟨⟨name, r₁⟩, -, h⟩ := Checks.bind_ok h
  dsimp only at h
  split at h
  · split at h
    · cases h
      refine trans ?_ (emit _ 0 _)
      exact .of_same rfl rfl rfl rfl rfl rfl rfl rfl
    · cases h
      exact .of_same rfl rfl rfl rfl rfl rfl rfl rfl
  · split at h
    · cases h
      exact emit s 0 _
    · cases h
      exact .refl s

end State.Keeps

/-! ## Imports and functions -/

section

variable {s s' : State} {r r' : Reader} {count : Nat}

/-- The imports change what is imported alone. -/
def State.Imports (s s' : State) : Prop :=
  ∃ imported importTypes exitFunction globals, s' = { s with
    importedFunctions := imported, importTypes := importTypes, exitFunction := exitFunction
    importedGlobals := globals }

/-- An import of a function moves the numbers, and no thunk is there yet. -/
theorem imports_entry (h : s.importEntry r = .ok (s', r')) : s.Imports s' := by
  obtain ⟨⟨moduleName, r₁⟩, -, h⟩ := Checks.bind_ok h
  obtain ⟨⟨fieldName, r₂⟩, -, h⟩ := Checks.bind_ok h
  obtain ⟨⟨kind, r₃⟩, -, h⟩ := Checks.bind_ok h
  dsimp only at h
  split at h
  · obtain ⟨⟨type, r₄⟩, -, h⟩ := Checks.bind_ok h
    dsimp only at h
    split at h
    · cases h
    · cases h
      exact ⟨_, _, _, _, rfl⟩
  · obtain ⟨r₄, -, h⟩ := Checks.bind_ok h
    cases h
    exact ⟨_, _, _, _, rfl⟩
  · obtain ⟨r₄, -, h⟩ := Checks.bind_ok h
    cases h
    exact ⟨_, _, _, _, rfl⟩
  · obtain ⟨r₄, -, h⟩ := Checks.bind_ok h
    obtain ⟨r₅, -, h⟩ := Checks.bind_ok h
    cases h
    exact ⟨_, _, _, _, rfl⟩
  · obtain ⟨r₄, -, h⟩ := Checks.bind_ok h
    cases h
    exact ⟨_, _, _, _, rfl⟩
  · cases h

/-- All imports. -/
theorem imports_entries (h : times State.importEntry count s r = .ok (s', r')) : s.Imports s' := by
  have htrans (s s' s'' : State) (hfirst : s.Imports s') (hsecond : s'.Imports s'') : s.Imports s'' := by
    obtain ⟨a, b, c, d, rfl⟩ := hfirst
    obtain ⟨a', b', c', d', rfl⟩ := hsecond
    exact ⟨a', b', c', d', rfl⟩
  exact @times_related _ State.Imports State.importEntry (fun s => ⟨_, _, _, _, rfl⟩) htrans
    (fun _ _ _ _ => imports_entry) _ _ _ _ _ h

/-- The section of the added import follows what the imports change. -/
theorem imports_ok (h : s.imports r = .ok s') :
    ∃ s₁ pending payload, s.Imports s₁ ∧ s' = { s₁ with pending := pending }.emit 2 payload := by
  obtain ⟨⟨count, r₁⟩, -, h⟩ := Checks.bind_ok h
  obtain ⟨⟨s₁, r₂⟩, hentries, h⟩ := Checks.bind_ok h
  obtain ⟨⟨⟩, -, h⟩ := Checks.bind_ok h
  cases h
  exact ⟨s₁, _, _, imports_entries hentries, rfl⟩

/-- One type for each function. -/
theorem functionEntries_ok (h : times State.functionEntry count s r = .ok (s', r')) :
    ∃ types, types.length = count ∧ s' = { s with functionTypes := s.functionTypes ++ types } := by
  induction count generalizing s r with
  | zero =>
      cases h
      exact ⟨[], rfl, by rw [List.append_nil]⟩
  | succ count ih =>
      obtain ⟨⟨s₁, r₁⟩, hentry, h⟩ := Checks.bind_ok h
      obtain ⟨⟨type, r₂⟩, -, hentry⟩ := Checks.bind_ok hentry
      dsimp only at hentry
      split at hentry
      · cases hentry
      · cases hentry
        obtain ⟨types, hlength, rfl⟩ := ih h
        refine ⟨type :: types, congrArg Nat.succ hlength, ?_⟩
        rw [List.append_assoc]
        rfl

/-- The functions of the section, whose place is reserved. -/
theorem functionSection_ok (h : s.functionSection r = .ok s') :
    ∃ (types : List Nat) (bytes : Bytes), s' = { s with
      functionTypes := s.functionTypes ++ types, definedFunctions := types.length
      output := s.output.slot.2, functions := some ⟨bytes, s.output.slot.1⟩ } := by
  obtain ⟨⟨count, r₁⟩, -, h⟩ := Checks.bind_ok h
  obtain ⟨⟨s₁, r₂⟩, hentries, h⟩ := Checks.bind_ok h
  obtain ⟨⟨⟩, -, h⟩ := Checks.bind_ok h
  obtain ⟨types, rfl, rfl⟩ := functionEntries_ok hentries
  cases h
  exact ⟨types, _, rfl⟩

end

/-! ## Between sections -/

/-- What holds between two sections. -/
structure State.Placed (s : State) : Prop where
  numbered : s.Numbered
  /-- Before the function section there are no functions. -/
  undefined : s.lastOrder < 3 → s.definedFunctions = 0 ∧ s.functionTypes = [] ∧ s.functions = none
  unneeded : s.definedFunctions = 0 → s.thunks = []
  types : s.functionTypes.length = s.definedFunctions
  sections : s.Sections

section

variable {s s' : State} {interval : BitVec 32} {maximum order : Nat} {r : Reader} {sec : Section}

/-- Nothing is numbered yet. -/
theorem placed_start : State.start.Placed where
  numbered := numbered_start
  undefined _ := ⟨rfl, rfl, rfl⟩
  unneeded _ := rfl
  types := rfl
  sections := ⟨[], [], output_start, .inl rfl⟩

/-- Most sections keep the invariant as they keep its fields. -/
theorem State.Placed.keeps (hs : s.Placed) (h : s.Keeps s') : s'.Placed where
  numbered := h.numbered hs.numbered
  undefined horder := by
    rw [h.defined, h.types, h.functions]
    exact hs.undefined (h.lastOrder ▸ horder)
  unneeded hzero := by
    rw [h.defined] at hzero
    rw [h.thunks hzero, hs.unneeded hzero]
  types := by rw [h.types, h.defined, hs.types]
  sections := h.sections hs.sections

/-- A later section comes. -/
theorem State.Placed.later (hs : s.Placed) (horder : s.lastOrder < order) :
    { s with lastOrder := order }.Placed where
  numbered := hs.numbered
  undefined h := hs.undefined (horder.trans h)
  unneeded := hs.unneeded
  types := hs.types
  sections := hs.sections.same rfl rfl

theorem State.Placed.seen (hs : s.Placed) : { s with memorySeen := true }.Placed :=
  ⟨hs.numbered, hs.undefined, hs.unneeded, hs.types, hs.sections.same rfl rfl⟩

/-- The imports come first, so they may move every number. -/
theorem State.Placed.imports (hs : s.Placed) (hdefined : s.definedFunctions = 0) (h : s.imports r = .ok s') :
    s'.Placed := by
  obtain ⟨-, pending, payload, ⟨imported, importTypes, exitFunction, globals, rfl⟩, rfl⟩ := imports_ok h
  have hnone : s.thunks = [] := hs.unneeded hdefined
  refine ⟨fun i hi => ?_, hs.undefined, hs.unneeded, hs.types, State.Sections.emit ?_ 2 _⟩
  · change i < s.thunks.length at hi
    rw [hnone] at hi
    exact absurd hi (Nat.not_lt_zero i)
  · exact hs.sections.same rfl rfl

/-- The function section comes once, before any thunk. -/
theorem State.Placed.functionSection (hs : s.Placed) (horder : s.lastOrder = 3)
    (hbefore : s.definedFunctions = 0 ∧ s.functionTypes = [] ∧ s.functions = none)
    (h : s.functionSection r = .ok s') : s'.Placed := by
  obtain ⟨types, bytes, rfl⟩ := functionSection_ok h
  obtain ⟨hdefined, htypes, hfunctions⟩ := hbefore
  have hnone : s.thunks = [] := hs.unneeded hdefined
  refine ⟨fun i hi => ?_, fun hlt => ?_, fun _ => hnone, ?_, hs.sections.slot hfunctions rfl rfl⟩
  · change i < s.thunks.length at hi
    rw [hnone] at hi
    exact absurd hi (Nat.not_lt_zero i)
  · change s.lastOrder < 3 at hlt
    omega
  · show (s.functionTypes ++ types).length = types.length
    rw [htypes, List.nil_append]

/-- What a section finds: the state before it with the added sections. -/
theorem State.Placed.pass (hs : s.Placed) (hid : sec.id ≠ 0) (h : s.pass maximum interval sec = .ok s') :
    ∃ order s₁, sectionOrder sec.id = some order ∧ s.lastOrder < order ∧
      { s with lastOrder := order }.Synthesized s₁ ∧ (10 < order → s₁.sealed_ = true) ∧
      s₁.numbered maximum interval sec.id sec.payload = .ok s' := by
  rw [State.pass, if_neg hid] at h
  cases horder : sectionOrder sec.id with
  | none =>
      rw [horder] at h
      cases h
  | some order =>
      rw [horder] at h
      dsimp only at h
      split at h
      · cases h
      · next hlater =>
        have hlt := Nat.lt_of_not_le hlater
        obtain ⟨s₁, hbefore, hsynthesized, hsealed⟩ :=
          State.Synthesized.before (hs.later hlt).sections interval order
        rw [hbefore, Checks.ok_bind] at h
        exact ⟨order, s₁, rfl, hlt, hsynthesized, hsealed, h⟩

/-- A section that is known, by its id. -/
theorem State.Placed.numbered_ (hs : s.Placed) (horder : sectionOrder sec.id = some s.lastOrder)
    (hbefore : s.lastOrder ≤ 3 → s.definedFunctions = 0 ∧ s.functionTypes = [] ∧ s.functions = none)
    (hsealed : 10 < s.lastOrder → s.sealed_ = true)
    (h : s.numbered maximum interval sec.id sec.payload = .ok s') : s'.Placed := by
  rw [State.numbered] at h
  rw [sectionOrder] at horder
  split at h
  · exact hs.keeps (.types_ h)
  · next hid =>
    rw [hid] at horder
    have hlast : 2 = s.lastOrder := Option.some.inj horder
    exact hs.imports (hbefore (by omega)).1 h
  · next hid =>
    rw [hid] at horder
    have hlast : 3 = s.lastOrder := Option.some.inj horder
    exact hs.functionSection hlast.symm (hbefore (by omega)) h
  · exact hs.keeps (.tables h)
  · exact hs.seen.keeps (State.Keeps.memory h).1
  · exact hs.keeps (.globals h)
  · exact hs.keeps (.exports h)
  · exact hs.keeps (.start_ h)
  · exact hs.keeps (.elements hs.sections h)
  · next hid =>
    rw [hid] at horder
    have hlast : 12 = s.lastOrder := Option.some.inj horder
    exact hs.keeps (.code (hsealed (by omega)) h)
  · cases h
    exact hs.keeps (.emit s _ _)

end

/-! ## Runs -/

/-- A state the loop of `instrument` reaches, whatever the sections are. -/
inductive Reached (maximum interval : Nat) : State → Prop
  | start : Reached maximum interval .start
  | pass {s s' : State} {sec : Section} : Reached maximum interval s →
      s.pass maximum (.ofNat 32 interval) sec = .ok s' → Reached maximum interval s'

section

variable {maximum interval : Nat} {s s' : State} {r : Reader} {sec : Section} {Fs : List Wasm.Func}

/-- The run lemma, by induction on the sections so far. -/
theorem Reached.placed (h : Reached maximum interval s) : s.Placed := by
  induction h with
  | start => exact placed_start
  | @pass s s' sec _ hpass ih =>
      by_cases hid : sec.id = 0
      · rw [State.pass, if_pos hid] at hpass
        exact ih.keeps (.custom hpass)
      · obtain ⟨order, s₁, horder, hlt, hsynthesized, hsealed, hnumbered⟩ := ih.pass hid hpass
        have hkeeps := State.Keeps.of_synthesized hsynthesized
        have hlast : s₁.lastOrder = order := hkeeps.lastOrder
        refine ((ih.later hlt).keeps hkeeps).numbered_ (hlast ▸ horder) (fun hearly => ?_)
          (fun hlate => hsealed (hlast ▸ hlate)) hnumbered
        rw [hkeeps.defined, hkeeps.types, hkeeps.functions]
        exact ih.undefined (by omega)

/-- Every state the loop leaves is reached. -/
theorem Reached.walk (hs : Reached maximum interval s)
    (h : Binary.walk (State.pass maximum (.ofNat 32 interval)) r s = .ok s') : Reached maximum interval s' := by
  induction hn : r.bytes.length - r.position using Nat.strongRecOn generalizing r s with
  | ind n ih =>
      subst hn
      rw [Binary.walk] at h
      split at h
      · split at h
        · cases h
        · next sec r' hsection =>
          obtain ⟨s₁, hpass, h⟩ := Checks.bind_ok h
          have hnext := nextSection_lt hsection
          refine ih _ ?_ (.pass hs hpass) h rfl
          rw [hnext.2]
          omega
      · cases h
        exact hs

/-- Whatever was read before, a code section that spells functions of the declared types is accepted in its
place exactly if they have a rewrite, and what is written for it spells the rewritten functions and the
thunks. -/
theorem reached_code_refines (h : Reached maximum interval s) (hid : sec.id = 10)
    (htypes : Fs.map Wasm.Func.type = s.functionTypes) (hFs : CodeBytes U32 sec.payload.rest Fs) :
    (∀ s', s.pass maximum (.ofNat 32 interval) sec = .ok s' → ∃ Gs payload entries hole,
      s.Rewrites interval Fs Gs ∧ CodeBytes Encodes payload (Gs ++ s.thunkFuncs interval) ∧
        s'.output.contents = header ++ (textWith hole entries ++ Emitted.bytes (10, payload))) ∧
    ((∃ s', s.pass maximum (.ofNat 32 interval) sec = .ok s') ↔
      s.lastOrder < 12 ∧ ∃ Gs, s.Rewrites interval Fs Gs) := by
  have hs := h.placed
  have hcount : Fs.length = s.definedFunctions := by rw [← hs.types, ← htypes, List.length_map]
  have hat (k : Nat) (F : Wasm.Func) (hF : Fs[k]? = some F) : s.functionTypes[k]?.getD 0 = F.type := by
    rw [← htypes, List.getElem?_map, hF]
    rfl
  have horder : sectionOrder sec.id = some 12 := by
    rw [hid]
    rfl
  have hne : sec.id ≠ 0 := by
    rw [hid]
    decide
  by_cases hlt : s.lastOrder < 12
  · obtain ⟨s₁, hbefore, hsynthesized, hsealed⟩ :=
      State.Synthesized.before (hs.later hlt).sections (.ofNat 32 interval) 12
    have hpass : s.pass maximum (.ofNat 32 interval) sec = s₁.code (.ofNat 32 interval) sec.payload := by
      rw [State.pass, if_neg hne, horder]
      dsimp only
      rw [if_neg (Nat.not_le.mpr hlt), hbefore, Checks.ok_bind, State.numbered, hid]
      rfl
    obtain ⟨entries, hole, hout, -⟩ := hsynthesized.sections (hs.later hlt).sections
    have hsealed₁ := hsealed (by decide)
    obtain ⟨output, result, pending, elementsSeen, sealed_, rfl⟩ := hsynthesized.frame
    obtain ⟨hwrites, haccepts⟩ := code_refines hsealed₁ hs.numbered hcount hat hFs
    rw [hpass]
    refine ⟨fun s' h' => ?_, haccepts.trans (and_iff_right hlt).symm⟩
    obtain ⟨counts, Gs, payload, rfl, hGs, hspells⟩ := hwrites s' h'
    refine ⟨Gs, payload.contents, entries, hole, hGs, hspells, ?_⟩
    have hsame : Output { s with
        lastOrder := 12, output := output, result := counts, pending := pending, elementsSeen := elementsSeen
        sealed_ := sealed_, codeSeen := true } entries hole := hout.same rfl rfl
    rw [(hsame.emit 10 payload).contents, textWith_append]
    simp [textWith]
  · have hrefused (s' : State) : s.pass maximum (.ofNat 32 interval) sec ≠ .ok s' := by
      rw [State.pass, if_neg hne, horder]
      dsimp only
      rw [if_pos (Nat.le_of_not_lt hlt)]
      exact Checks.error_ne_ok
    refine ⟨fun s' h' => absurd h' (hrefused s'), iff_of_false ?_ fun h' => hlt h'.1⟩
    rintro ⟨s', h'⟩
    exact hrefused s' h'

end

/-- A module of one type and one function of it. -/
def loopSections : List Section :=
  [⟨8, 1, ⟨[1, 0x60, 0, 0], 0, 4, by decide, by decide⟩⟩, ⟨14, 3, ⟨[1, 0], 0, 2, by decide, by decide⟩⟩]

/-- A state before the code section of the module above. -/
theorem reached_loop : ∃ s, Reached 16 100 s ∧ s.lastOrder < 12 ∧ s.functionTypes = [0] ∧
    ∃ Gs, s.Rewrites 100 [loopFunction] Gs := by
  have hpasses : ∃ s₁ s₂, State.start.pass 16 (.ofNat 32 100) loopSections[0] = .ok s₁ ∧
      s₁.pass 16 (.ofNat 32 100) loopSections[1] = .ok s₂ ∧ s₂.lastOrder < 12 ∧ s₂.functionTypes = [0] ∧
        ∃ Gs, s₂.Rewrites 100 [loopFunction] Gs :=
    ⟨_, _, rfl, rfl, by decide, rfl, [_], .cons rfl .nil⟩
  obtain ⟨s₁, s₂, hfirst, hsecond, hrest⟩ := hpasses
  exact ⟨s₂, .pass (.pass .start hfirst) hsecond, hrest⟩

theorem reached_code_refines_loop : ∃ s s' Gs payload, Reached 16 100 s ∧
    s.pass 16 (.ofNat 32 100) ⟨18, 10, ⟨0x01 :: 0x07 :: loopBytes, 0, 9, by decide, by decide⟩⟩ = .ok s' ∧
    s.Rewrites 100 [loopFunction] Gs ∧ CodeBytes Encodes payload (Gs ++ s.thunkFuncs 100) := by
  obtain ⟨s, hreached, hlast, htypes, hrewrites⟩ := reached_loop
  obtain ⟨hwrites, haccepts⟩ := @reached_code_refines 16 100 s
    ⟨18, 10, ⟨0x01 :: 0x07 :: loopBytes, 0, 9, by decide, by decide⟩⟩ [loopFunction] hreached rfl htypes.symm
    loop_coded
  obtain ⟨s', h⟩ := haccepts.mpr ⟨hlast, hrewrites⟩
  obtain ⟨Gs, payload, -, -, hGs, hspells, -⟩ := hwrites s' h
  exact ⟨s, s', Gs, payload, hreached, h, hGs, hspells⟩

end Binary
