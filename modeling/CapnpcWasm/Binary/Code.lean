import CapnpcWasm.Binary.Functions

/-!
# The code section

The section of the function bodies, each after its size.  The thunks are bodies that stand behind those
of the original.
-/

namespace Binary

open TsSdk Leb

/-- Bytes after their length. -/
def sizedBytes (bytes : Bytes) : Bytes := leb bytes.length ++ bytes

/-- A function body as it stands in the code section. -/
structure CodeEntry where
  size : Bytes
  text : FunctionText
  sized : U32 size text.bytes.length
  valid : text.Valid U32

namespace CodeEntry

def bytes (e : CodeEntry) : Bytes := e.size ++ e.text.bytes

end CodeEntry

namespace State

variable (s : State) (interval : BitVec 32)

/-- How many parameters the defined function with an index among them has. -/
def paramsOf (i : Nat) : Nat := s.paramCounts[s.functionTypes[i]?.getD 0]?.getD 0

def paramsOfImport (index : Nat) : Nat := s.paramCounts[s.importTypes[index]?.getD 0]?.getD 0

/-- The body of a thunk: the parameters, the call, and a check. -/
def thunkText (index : Nat) : FunctionText where
  size := [0]
  count := 0
  groups := []
  declared := 0
  tokens := (List.range (s.paramsOfImport index)).map (indexed 0x20) ++
    callTo false index :: ((if s.exitFunction = some index then [plain 0x00] else s.checks interval) ++
      [plain 0x0b])

/-- What stands for the bodies from an index on. -/
def rewriteFunctions : Nat → List FunctionText → Option (List FunctionText)
  | _, [] => some []
  | i, f :: fs => do
      let g ← s.rewriteFunction interval (s.paramsOf i) f
      let gs ← rewriteFunctions (i + 1) fs
      return g :: gs

end State

section

variable {s s' : State} {interval : BitVec 32} {r r' : Reader} {e : CodeEntry} {entries : List CodeEntry}
  {f g : FunctionText} {fs gs : List FunctionText} {more : Bytes} {payload payload' : Writer} {i i' : Nat}

theorem State.rewriteFunctions_cons : s.rewriteFunctions interval i (f :: fs) = some gs ↔
    ∃ g rest, s.rewriteFunction interval (s.paramsOf i) f = some g ∧
      s.rewriteFunctions interval (i + 1) fs = some rest ∧ gs = g :: rest := by
  rw [State.rewriteFunctions]
  simp only [Option.bind_eq_bind, Option.bind_eq_some_iff, Option.pure_def, Option.some.injEq]
  constructor
  · rintro ⟨g, hg, rest, hrest, rfl⟩
    exact ⟨g, rest, hg, hrest, rfl⟩
  · rintro ⟨g, rest, hg, hrest, rfl⟩
    exact ⟨g, hg, rest, hrest, rfl⟩

/-- The rewrite looks only at what it needs to renumber and to check. -/
theorem State.rewriteFunctions_congr (s s' : State)
    (htoken : ∀ scratch operand t,
      s'.rewriteToken interval scratch operand t = s.rewriteToken interval scratch operand t)
    (hrebuilt : ∀ f out, s'.rebuilt interval f out = s.rebuilt interval f out)
    (hparams : ∀ i, s'.paramsOf i = s.paramsOf i) (i : Nat) (fs : List FunctionText) :
    s'.rewriteFunctions interval i fs = s.rewriteFunctions interval i fs := by
  have hfunction (params : Nat) (f : FunctionText) :
      s'.rewriteFunction interval params f = s.rewriteFunction interval params f := by
    rw [State.rewriteFunction, State.rewriteFunction, State.rewriteTokens_congr (htoken _),
      funext (hrebuilt f)]
  induction fs generalizing i with
  | nil => rfl
  | cons f fs ih => rw [State.rewriteFunctions, State.rewriteFunctions, ih, hfunction, hparams]

theorem State.rewriteFunctions_counted (f : FunctionText) (i : Nat) (fs : List FunctionText) :
    (s.counted f).rewriteFunctions interval i fs = s.rewriteFunctions interval i fs :=
  State.rewriteFunctions_congr s (s.counted f) (fun _ _ _ => rfl) (fun _ _ => rfl) (fun _ => rfl) i fs

theorem codeEntry_of (payload : Writer) (hsealed : s.sealed_ = true) (hrest : r.rest = e.bytes ++ more)
    (hg : s.rewriteFunction interval (s.paramsOf i) e.text = some g) :
    ∃ payload', State.codeEntry interval (spelled (s.checks interval)) (s, payload, i) r =
        .ok ((s.counted e.text, payload', i + 1), r.advance e.bytes.length) ∧
      payload'.contents = payload.contents ++ sizedBytes g.bytes := by
  rw [CodeEntry.bytes, List.append_assoc] at hrest
  have hsize := reads_u32.of e.sized hrest
  have hrest₁ := Reader.rest_advance_append hrest
  have hroom := room_of hrest₁
  have hbody : ((r.advance e.size.length).upto e.text.bytes.length hroom).rest = e.text.bytes := by
    rw [rest_upto, hrest₁, List.take_left]
  obtain ⟨w, hfunction, hw⟩ := State.functionBody_of hsealed e.valid hbody hg
  refine ⟨(payload.u32 w.length).append w, ?_, ?_⟩
  · show r.u32 >>= _ = _
    rw [hsize]
    show dite _ _ _ = _
    rw [dif_neg (Nat.not_lt.mpr hroom)]
    show State.functionBody _ _ _ _ _ >>= _ = _
    rw [hfunction]
    refine congrArg Except.ok (Prod.ext rfl (Reader.eq_of rfl ?_ rfl))
    rw [CodeEntry.bytes, List.length_append, ← Reader.advance_advance, Reader.position_advance hroom]
  · rw [Writer.contents_append, Writer.contents_u32, List.append_assoc, hw, ← Writer.length_contents, hw]
    rfl

theorem codeEntry_ok (hsealed : s.sealed_ = true)
    (h : State.codeEntry interval (spelled (s.checks interval)) (s, payload, i) r = .ok ((s', payload', i'), r')) :
    ∃ (e : CodeEntry) (more : Bytes) (g : FunctionText), r.rest = e.bytes ++ more ∧
      s.rewriteFunction interval (s.paramsOf i) e.text = some g := by
  obtain ⟨⟨size, r₁⟩, hsize, h⟩ := Checks.bind_ok h
  dsimp only at h
  split at h
  · exact absurd h Checks.error_ne_ok
  · next hover =>
    obtain ⟨⟨w, s₁⟩, hfunction, -⟩ := Checks.bind_ok h
    obtain ⟨first, hu32, ⟨more₁, hmore₁⟩, rfl⟩ := (reads_u32 _ _ _).mp hsize
    have hrest₁ := Reader.rest_advance_append hmore₁.symm
    obtain ⟨f, g, hvalid, hrest, hg⟩ := State.functionBody_ok hsealed hfunction
    rw [rest_upto, hrest₁] at hrest
    have hlength : f.bytes.length = size := by
      rw [← hrest, List.length_take, ← hrest₁, Reader.length_rest]
      omega
    refine ⟨⟨first, f, hlength ▸ hu32, hvalid⟩, more₁.drop size, g, ?_, hg⟩
    show r.rest = first ++ f.bytes ++ _
    rw [← hrest, List.append_assoc, List.take_append_drop, hmore₁]

/-- The bodies of the code section, one after the other. -/
theorem codeEntries_of (payload : Writer) (hsealed : s.sealed_ = true) (hrest : r.rest = entries.flatMap CodeEntry.bytes ++ more)
    (hgs : s.rewriteFunctions interval i (entries.map CodeEntry.text) = some gs) :
    ∃ payload', times (State.codeEntry interval (spelled (s.checks interval))) entries.length
        (s, payload, i) r =
        .ok (((entries.map CodeEntry.text).foldl State.counted s, payload', i + entries.length),
          r.advance (entries.flatMap CodeEntry.bytes).length) ∧
      payload'.contents = payload.contents ++ gs.flatMap fun g => sizedBytes g.bytes := by
  induction entries generalizing s r payload i gs with
  | nil =>
      obtain rfl := Option.some.inj hgs
      refine ⟨payload, ?_, (List.append_nil _).symm⟩
      show _ = Except.ok (_, r.advance 0)
      rw [Reader.advance_zero]
      rfl
  | cons e entries ih =>
      obtain ⟨g, rest, hg, hbehind, rfl⟩ := State.rewriteFunctions_cons.mp hgs
      rw [List.flatMap_cons, List.append_assoc] at hrest
      obtain ⟨payload₁, hentry, hpayload₁⟩ := codeEntry_of payload hsealed hrest hg
      rw [← State.rewriteFunctions_counted e.text] at hbehind
      obtain ⟨payload₂, hentries, hpayload₂⟩ := ih (s := s.counted e.text) payload₁ hsealed
        (Reader.rest_advance_append hrest) hbehind
      refine ⟨payload₂, ?_, ?_⟩
      · show State.codeEntry _ _ _ _ >>= _ = _
        rw [hentry]
        refine hentries.trans ?_
        rw [Reader.advance_advance, List.length_cons, Nat.add_comm entries.length, ← Nat.add_assoc,
          List.flatMap_cons, List.length_append]
        rfl
      · rw [hpayload₂, hpayload₁, List.flatMap_cons, List.append_assoc]

theorem codeEntries_ok {count : Nat} (hsealed : s.sealed_ = true)
    (h : times (State.codeEntry interval (spelled (s.checks interval))) count (s, payload, i) r =
      .ok ((s', payload', i'), r')) :
    ∃ (entries : List CodeEntry) (more : Bytes) (gs : List FunctionText), entries.length = count ∧
      r.rest = entries.flatMap CodeEntry.bytes ++ more ∧
      s.rewriteFunctions interval i (entries.map CodeEntry.text) = some gs := by
  induction count generalizing s r payload i with
  | zero => exact ⟨[], r.rest, [], rfl, rfl, rfl⟩
  | succ count ih =>
      obtain ⟨⟨⟨s₁, payload₁, i₁⟩, r₁⟩, hentry, h⟩ := Checks.bind_ok h
      obtain ⟨e, more₁, g, hrest, hg⟩ := codeEntry_ok hsealed hentry
      obtain ⟨payload₂, hentry₂, -⟩ := codeEntry_of payload hsealed hrest hg
      obtain ⟨hstate, rfl⟩ := Prod.mk.inj (Except.ok.inj (hentry.symm.trans hentry₂))
      obtain ⟨rfl, hbehind⟩ := Prod.mk.inj hstate
      obtain ⟨rfl, rfl⟩ := Prod.mk.inj hbehind
      obtain ⟨entries, more, gs, rfl, hrest₂, hgs⟩ := ih (s := s.counted e.text) hsealed h
      rw [Reader.rest_advance_append hrest] at hrest₂
      refine ⟨e :: entries, more, g :: gs, rfl, ?_, ?_⟩
      · rw [hrest, hrest₂, List.flatMap_cons, List.append_assoc]
      · refine State.rewriteFunctions_cons.mpr ⟨g, gs, hg, ?_, rfl⟩
        rw [← hgs]
        exact (State.rewriteFunctions_counted _ _ _).symm

/-! ## Thunks -/

theorem contents_thunkBody (s : State) (interval : BitVec 32) (index : Nat) :
    (s.thunkBody (spelled (s.checks interval)) index).contents = (s.thunkText interval index).bytes := by
  have hparams (w : Writer) (l : List Nat) :
      (l.foldl (fun body i => (body.byte 0x20).u32 i) w).contents =
        w.contents ++ spelled (l.map (indexed 0x20)) := by
    induction l generalizing w with
    | nil => exact (List.append_nil _).symm
    | cons i l ih =>
        rw [List.foldl_cons, ih, List.map_cons, spelled_cons]
        simp [indexed]
  rw [State.thunkBody, Writer.contents_byte]
  by_cases hexit : s.exitFunction = some index
  · rw [if_pos hexit, Writer.contents_byte, Writer.contents_u32, Writer.contents_byte, hparams]
    simp [State.thunkText, State.paramsOfImport, FunctionText.bytes, hexit, spelled_append, spelled_cons, callTo,
      callOp, plain]
  · rw [if_neg hexit, Writer.contents_bytes, Writer.contents_u32, Writer.contents_byte, hparams]
    simp [State.thunkText, State.paramsOfImport, FunctionText.bytes, hexit, spelled_append, spelled_cons, callTo,
      callOp, plain]

/-- The thunks of a state, behind the other bodies. -/
def State.writeThunks (s : State) (check : Bytes) (thunks : List (Nat × Nat)) (payload : Writer) : Writer :=
  thunks.foldl (fun payload thunk =>
    let body := s.thunkBody check thunk.1
    (payload.u32 body.length).append body) payload

theorem contents_writeThunks (check : Bytes) (thunks : List (Nat × Nat)) (s : State) (payload : Writer) :
    (s.writeThunks check thunks payload).contents = payload.contents ++ thunks.flatMap fun thunk => sizedBytes (s.thunkBody check thunk.1).contents := by
  induction thunks generalizing payload with
  | nil => exact (List.append_nil _).symm
  | cons thunk thunks ih =>
      rw [State.writeThunks, List.foldl_cons, ← State.writeThunks, ih, List.flatMap_cons]
      simp [sizedBytes, Writer.length_contents]

/-! ## The section -/

/-- The bodies of the output. -/
def State.bodies (s : State) (interval : BitVec 32) (gs : List FunctionText) : List FunctionText :=
  gs ++ s.thunks.map fun thunk => s.thunkText interval thunk.1

/-- The state behind the bodies. -/
def State.coded (s : State) (fs : List FunctionText) : State :=
  let s := fs.foldl State.counted { s with codeSeen := true }
  { s with result := { s.result with functions := s.result.functions + fs.length } }

theorem State.counted_foldl (fs : List FunctionText) (s : State) :
    ∃ counts, fs.foldl State.counted s = { s with result := counts } := by
  induction fs generalizing s with
  | nil => exact ⟨s.result, rfl⟩
  | cons f fs ih =>
      obtain ⟨counts, hcounts⟩ := ih (s.counted f)
      exact ⟨counts, hcounts⟩

theorem State.length_rewriteFunctions (h : s.rewriteFunctions interval i fs = some gs) :
    gs.length = fs.length := by
  induction fs generalizing i gs with
  | nil =>
      obtain rfl := Option.some.inj h
      rfl
  | cons f fs ih =>
      obtain ⟨g, rest, -, hrest, rfl⟩ := State.rewriteFunctions_cons.mp h
      rw [List.length_cons, List.length_cons, ih hrest]

/-- A section is read to its end. -/
theorem done_iff (r : Reader) (what : String) : done r what = .ok () ↔ r.rest = [] := by
  have hwithin := r.within
  rw [done, Reader.rest_eq_nil]
  by_cases h : r.position = r.end_
  · rw [if_neg (not_not.mpr h)]
    exact iff_of_true rfl h.ge
  · rw [if_pos h]
    refine iff_of_false Checks.error_ne_ok ?_
    omega

theorem State.code_of {size : Bytes} (hsealed : s.sealed_ = true) (hsize : U32 size entries.length)
    (hcount : entries.length = s.definedFunctions) (hrest : r.rest = size ++ entries.flatMap CodeEntry.bytes)
    (hgs : s.rewriteFunctions interval 0 (entries.map CodeEntry.text) = some gs) :
    ∃ payload : Writer, s.code interval r = .ok ((s.coded (entries.map CodeEntry.text)).emit 10 payload) ∧
      payload.contents = leb (s.bodies interval gs).length ++
        (s.bodies interval gs).flatMap fun g => sizedBytes g.bytes := by
  have hread := reads_u32.of hsize hrest
  have hrest₁ := Reader.rest_advance_append hrest
  rw [← List.append_nil (entries.flatMap CodeEntry.bytes)] at hrest₁
  have hgs' : { s with codeSeen := true }.rewriteFunctions interval 0 (entries.map CodeEntry.text) = some gs :=
    (State.rewriteFunctions_congr s { s with codeSeen := true } (fun _ _ _ => rfl) (fun _ _ => rfl)
      (fun _ => rfl) _ _).trans hgs
  obtain ⟨payload, hentries, hpayload⟩ := codeEntries_of (s := { s with codeSeen := true })
    (Writer.empty.u32 (entries.length + s.thunks.length)) hsealed hrest₁ hgs'
  have hchecks : ({ s with codeSeen := true } : State).checks interval = s.checks interval := rfl
  rw [hchecks] at hentries
  have hend : done ((r.advance size.length).advance (entries.flatMap CodeEntry.bytes).length) "code" =
      .ok () := by
    rw [done_iff]
    exact Reader.rest_advance_append hrest₁
  have hcheck : checkSequence s.countdown s.importedFunctions interval = spelled (s.checks interval) :=
    (spelled_check _ _ _).symm
  obtain ⟨counts, hcounts⟩ := State.counted_foldl (entries.map CodeEntry.text) { s with codeSeen := true }
  have hlength : gs.length = entries.length := by
    rw [State.length_rewriteFunctions hgs, List.length_map]
  refine ⟨State.writeThunks ((entries.map CodeEntry.text).foldl State.counted { s with codeSeen := true })
    (spelled (s.checks interval)) s.thunks payload, ?_, ?_⟩
  · rw [State.code, hread, hcheck]
    show (if _ then _ else _) = _
    rw [if_neg (not_not.mpr hcount)]
    show times _ _ _ _ >>= _ = _
    rw [hentries]
    show done _ _ >>= _ = _
    rw [hend, State.coded, List.length_map, hcounts]
    rfl
  · have hthunk (index : Nat) : (({ s with codeSeen := true, result := counts } : State).thunkBody
        (spelled (s.checks interval)) index).contents = (s.thunkText interval index).bytes :=
      contents_thunkBody s interval index
    rw [hcounts, contents_writeThunks, hpayload, Writer.contents_u32, State.bodies, List.length_append, hlength,
      List.length_map, List.flatMap_append, List.flatMap_map, List.append_assoc]
    simp only [hthunk, Writer.contents_empty, List.nil_append]

/-- What the rewriter accepts is a code section whose bodies can be rewritten. -/
theorem State.code_ok (hsealed : s.sealed_ = true) (h : s.code interval r = .ok s') :
    ∃ (size : Bytes) (entries : List CodeEntry) (gs : List FunctionText), U32 size entries.length ∧
      entries.length = s.definedFunctions ∧ r.rest = size ++ entries.flatMap CodeEntry.bytes ∧
      s.rewriteFunctions interval 0 (entries.map CodeEntry.text) = some gs := by
  obtain ⟨⟨count, r₁⟩, hread, h⟩ := Checks.bind_ok h
  dsimp only at h
  split at h
  · exact absurd h Checks.error_ne_ok
  · next hcount =>
    obtain ⟨⟨⟨s₁, payload, i⟩, r₂⟩, hentries, h⟩ := Checks.bind_ok h
    obtain ⟨⟨⟩, hend, -⟩ := Checks.bind_ok h
    have hcheck : checkSequence s.countdown s.importedFunctions interval =
        spelled (({ s with codeSeen := true } : State).checks interval) := (spelled_check _ _ _).symm
    rw [hcheck] at hentries
    obtain ⟨entries, more, gs, hlength, hrest, hgs⟩ :=
      codeEntries_ok (s := { s with codeSeen := true }) hsealed hentries
    obtain ⟨size, hsize, ⟨more₁, hmore₁⟩, rfl⟩ := (reads_u32 _ _ _).mp hread
    obtain ⟨payload', hentries', -⟩ := codeEntries_of (s := { s with codeSeen := true })
      (Writer.empty.u32 (count + s.thunks.length)) hsealed hrest hgs
    rw [hlength] at hentries'
    obtain ⟨-, rfl⟩ := Prod.mk.inj (Except.ok.inj (hentries.symm.trans hentries'))
    have hrest₁ := Reader.rest_advance_append hmore₁.symm
    have hnil : more = [] := by
      rw [← Reader.rest_advance_append hrest]
      exact (done_iff _ _).mp hend
    rw [hnil, List.append_nil, hrest₁] at hrest
    refine ⟨size, entries, gs, hlength ▸ hsize, hlength.trans (not_not.mp hcount), ?_, ?_⟩
    · rw [← hmore₁, hrest]
    · rw [← hgs]
      exact (State.rewriteFunctions_congr s { s with codeSeen := true } (fun _ _ _ => rfl) (fun _ _ => rfl)
        (fun _ => rfl) _ _).symm

/-! ## One reading -/

theorem CodeEntry.unique {e e' : CodeEntry} {more more' : Bytes} (h : e.bytes ++ more = e'.bytes ++ more') :
    e = e' ∧ more = more' := by
  obtain ⟨size, text, hsized, hvalid⟩ := e
  obtain ⟨size', text', hsized', hvalid'⟩ := e'
  simp only [CodeEntry.bytes, List.append_assoc] at h
  obtain ⟨rfl, hlength⟩ := unambiguous_u32 _ _ _ _ _ _ hsized hsized' h
  obtain ⟨htext, hmore⟩ := List.append_inj (List.append_cancel_left h) hlength
  obtain rfl := FunctionText.unique unambiguous_u32 hvalid hvalid' htext
  exact ⟨rfl, hmore⟩

theorem codeEntries_unique {entries' : List CodeEntry} (hlength : entries.length = entries'.length)
    (h : entries.flatMap CodeEntry.bytes = entries'.flatMap CodeEntry.bytes) : entries = entries' := by
  induction entries generalizing entries' with
  | nil => exact (List.length_eq_zero_iff.mp hlength.symm).symm
  | cons e entries ih =>
      cases entries' with
      | nil => cases hlength
      | cons e' entries' =>
          rw [List.flatMap_cons, List.flatMap_cons] at h
          obtain ⟨rfl, hrest⟩ := CodeEntry.unique h
          rw [ih (Nat.succ.inj hlength) hrest]

end

end Binary
