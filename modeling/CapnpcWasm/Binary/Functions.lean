import CapnpcWasm.Binary.Bodies

/-!
# Functions

What `functionBody` accepts is the body of a function whose instructions can be rewritten, and
what it gives is the body with the rewritten instructions.

* `FunctionText` is a body as its text: its size, its groups of locals and its tokens, each
  with the bytes it was spelled by.
* `State.rewriteFunction` is the rewrite of that text, and `State.functionBody_of` and
  `State.functionBody_ok` say that `functionBody` is this rewrite, in both directions.
* `State.rewriteFunction_valid` says that what is written can be read again, and
  `FunctionText.unique` that a body is the text of one function only.
-/

namespace Binary

open TsSdk Leb

/-! ## Rounds -/

/-- A word for every round, each with what the rounds before it left. -/
def Grammar.times {σ : Type} (G : σ → Grammar σ) : Nat → σ → Grammar σ
  | 0, s => Grammar.pure s
  | count + 1, s => (G s).bind (Grammar.times G count)

/-- A counted loop reads a counted repetition. -/
theorem Reads.times {σ : Type} {round : σ → Parser σ} {G : σ → Grammar σ} (h : ∀ s, Reads (round s) (G s))
    (count : Nat) (s : σ) : Reads (times round count s) (Grammar.times G count s) := by
  induction count generalizing s with
  | zero => exact Reads.pure s
  | succ count ih => exact (h s).bind ih

/-! ## Instructions in sequence -/

section

variable {s : State} {interval : BitVec 32} {scratch : Nat} {operand : Option (BitVec 32)}
  {t : Token} {tokens out : List Token}

/-- The rewrite of a sequence depends on that of its tokens only. -/
theorem State.rewriteTokens_congr {s' : State}
    (h : ∀ operand t, s'.rewriteToken interval scratch operand t = s.rewriteToken interval scratch operand t)
    (operand : Option (BitVec 32)) (tokens : List Token) :
    s'.rewriteTokens interval scratch operand tokens = s.rewriteTokens interval scratch operand tokens := by
  induction tokens generalizing operand with
  | nil => rfl
  | cons t tokens ih => rw [State.rewriteTokens, State.rewriteTokens, ih, h]

/-- It goes token by token, with the constant before each. -/
theorem State.rewriteTokens_cons : s.rewriteTokens interval scratch operand (t :: tokens) = some out ↔
    ∃ first rest, s.rewriteToken interval scratch operand t = some first ∧
      s.rewriteTokens interval scratch t.kind.operand tokens = some rest ∧ out = first ++ rest := by
  rw [State.rewriteTokens]
  simp only [Option.bind_eq_bind, Option.bind_eq_some_iff, Option.pure_def, Option.some.injEq]
  constructor
  · rintro ⟨first, hfirst, rest, hrest, rfl⟩
    exact ⟨first, rest, hfirst, hrest, rfl⟩
  · rintro ⟨first, rest, hfirst, hrest, rfl⟩
    exact ⟨first, hfirst, rest, hrest, rfl⟩

end

section

variable {ctx : BodyContext} {b b' b'' : Body} {r r' r'' : Reader} {t : Token} {tokens out first rest : List Token}

/-- No round. -/
theorem Body.Passes.refl (hle : b.from_ ≤ r.position) : b.Passes b r r [] [] where
  from_le := hle
  text := (List.append_nil _).symm
  guest := (Bool.or_false _).symm
  constant := rfl
  charges unit := by simp [units]
  state := rfl

/-- One round and the others. -/
theorem Body.Passes.cons (h : b.Passes b' r r' [t] first) (h' : b'.Passes b'' r' r'' tokens rest) :
    b.Passes b'' r r'' (t :: tokens) (first ++ rest) where
  from_le := h'.from_le
  text := by rw [h'.text, h.text, spelled_append, List.append_assoc]
  guest := by
    rw [h'.guest, h.guest, h.state]
    simp [Bool.or_assoc]
  constant := by
    rw [h'.constant, h.constant]
    rfl
  charges unit := by
    rw [h'.charges, h.charges, h.constant]
    simp [units, operandBehind, or_assoc]
  state := by
    rw [h'.state, h.state, h.constant]
    have hchecked (t : Token) (c : Counts) :
        t.kind.checked { b.state with result := c } = t.kind.checked b.state := rfl
    simp only [Counts.more, units, operandBehind, List.countP_cons, List.countP_nil, List.length_append,
      List.append_nil, hchecked]
    simp [Nat.add_assoc, Nat.add_comm, Nat.add_left_comm]

/-- What the rounds do to the state never unseals it. -/
theorem Body.Passes.sealed_ (h : b.Passes b' r r' tokens out) (hsealed : b.state.sealed_ = true) :
    b'.state.sealed_ = true := by
  rw [h.state]
  exact hsealed

/-- The context of the pass stays the one for the state. -/
theorem Body.Passes.for_ (h : b.Passes b' r r' tokens out) (hctx : ctx.For b.state) : ctx.For b'.state := by
  rw [h.state]
  exact hctx

theorem Body.Passes.rewriteTokens (h : b.Passes b' r r' tokens out) :
    b'.state.rewriteTokens = b.state.rewriteTokens := by
  funext interval scratch operand tokens
  rw [h.state]
  refine State.rewriteTokens_congr (fun _ _ => ?_) _ _
  rfl

/-- At the end of the body the loop stops. -/
theorem whileMore_nil {σ : Type} (round : σ → Reader → Except TypeError (σ × Reader)) (fuel : Nat) (x : σ)
    (hrest : r.rest = []) : whileMore round fuel x r = .ok (x, r) := by
  cases fuel with
  | zero => rfl
  | succ fuel => exact if_neg (Nat.not_lt.mpr (Reader.rest_eq_nil.mp hrest))

/-- Before it, another round is made. -/
theorem whileMore_more {σ : Type} (round : σ → Reader → Except TypeError (σ × Reader)) (fuel : Nat) (x : σ)
    (hrest : r.rest ≠ []) : whileMore round (fuel + 1) x r =
      round x r >>= fun y => whileMore round fuel y.1 y.2 :=
  if_pos (Nat.lt_of_not_le fun hle => hrest (Reader.rest_eq_nil.mpr hle))

/-- The instructions of a body, one after the other. -/
theorem Body.loop_of {fuel : Nat} (hsealed : b.state.sealed_ = true) (hctx : ctx.For b.state)
    (hle : b.from_ ≤ r.position) (hfuel : r.rest.length ≤ fuel) (hrest : r.rest = spelled tokens)
    (hvalid : ∀ t ∈ tokens, t.Valid U32)
    (hout : b.state.rewriteTokens ctx.interval ctx.scratch b.constant tokens = some out) :
    ∃ b', whileMore (Body.instruction ctx) fuel b r = .ok (b', r.advance (spelled tokens).length) ∧
      b.Passes b' r (r.advance (spelled tokens).length) tokens out := by
  induction tokens generalizing b r fuel out with
  | nil =>
      obtain rfl := Option.some.inj hout
      refine ⟨b, ?_, ?_⟩
      · rw [whileMore_nil _ _ _ hrest, spelled_nil, List.length_nil, Reader.advance_zero]
      · rw [spelled_nil, List.length_nil, Reader.advance_zero]
        exact .refl hle
  | cons t tokens ih =>
      obtain ⟨first, rest, hfirst, hbehind, rfl⟩ := State.rewriteTokens_cons.mp hout
      rw [List.forall_mem_cons] at hvalid
      rw [spelled_cons] at hrest
      have hne := hvalid.1.ne_nil
      have hpos := List.length_pos_of_ne_nil hne
      have hmore : r.rest ≠ [] := by
        rw [hrest]
        exact List.append_ne_nil_of_left_ne_nil hne _
      cases fuel with
      | zero => exact absurd (List.length_eq_zero_iff.mp (Nat.le_zero.mp hfuel)) hmore
      | succ fuel =>
          obtain ⟨b', hstep, hpasses⟩ := Body.instruction_of hsealed hctx hle hrest hvalid.1 hfirst
          have hleft := Reader.rest_advance_append hrest
          have hfewer : (r.advance t.bytes.length).rest.length ≤ fuel := by
            rw [hrest, List.length_append] at hfuel
            rw [hleft]
            omega
          have hconstant : b'.constant = t.kind.operand := hpasses.constant
          rw [← hpasses.rewriteTokens, ← hconstant] at hbehind
          obtain ⟨b'', hloop, hrest'⟩ := ih (hpasses.sealed_ hsealed) (hpasses.for_ hctx) hpasses.from_le
            hfewer hleft hvalid.2 hbehind
          rw [Reader.advance_advance, ← List.length_append, ← spelled_cons] at hloop hrest'
          refine ⟨b'', ?_, hpasses.cons hrest'⟩
          rw [whileMore_more _ _ _ hmore, hstep]
          exact hloop

/-- What the loop accepts is a sequence of instructions that can be rewritten. -/
theorem Body.loop_ok {fuel : Nat} (hsealed : b.state.sealed_ = true) (hctx : ctx.For b.state)
    (hle : b.from_ ≤ r.position) (hfuel : r.rest.length ≤ fuel)
    (h : whileMore (Body.instruction ctx) fuel b r = .ok (b', r')) :
    ∃ tokens out, Spells U32 r.rest tokens ∧
      b.state.rewriteTokens ctx.interval ctx.scratch b.constant tokens = some out := by
  induction fuel generalizing b r with
  | zero =>
      exact ⟨[], [], ⟨List.length_eq_zero_iff.mp (Nat.le_zero.mp hfuel), by simp⟩, rfl⟩
  | succ fuel ih =>
      by_cases hmore : r.rest = []
      · exact ⟨[], [], ⟨hmore, by simp⟩, rfl⟩
      rw [whileMore_more _ _ _ hmore] at h
      obtain ⟨⟨b₁, r₁⟩, hstep, h⟩ := Checks.bind_ok h
      obtain ⟨t, more, first, hvalid, hrest, hfirst⟩ := Body.instruction_ok hsealed hstep
      obtain ⟨b₂, hstep₂, hpasses⟩ := Body.instruction_of hsealed hctx hle hrest hvalid hfirst
      obtain ⟨rfl, rfl⟩ := Prod.mk.inj (Except.ok.inj (hstep.symm.trans hstep₂))
      have hleft := Reader.rest_advance_append hrest
      have hpos := List.length_pos_of_ne_nil hvalid.ne_nil
      have hfewer : (r.advance t.bytes.length).rest.length ≤ fuel := by
        rw [hrest, List.length_append] at hfuel
        rw [hleft]
        omega
      obtain ⟨tokens, rest, ⟨hspelled, hall⟩, hbehind⟩ := ih (hpasses.sealed_ hsealed) (hpasses.for_ hctx)
        hpasses.from_le hfewer h
      rw [hleft] at hspelled
      rw [hpasses.rewriteTokens] at hbehind
      have hconstant : b₁.constant = t.kind.operand := hpasses.constant
      rw [hconstant] at hbehind
      refine ⟨t :: tokens, first ++ rest, ⟨?_, List.forall_mem_cons.mpr ⟨hvalid, hall⟩⟩, ?_⟩
      · rw [hrest, hspelled, spelled_cons]
      · exact State.rewriteTokens_cons.mpr ⟨first, rest, hfirst, hbehind, rfl⟩

end

/-! ## Locals -/

/-- A group of locals, with how many are declared before it and up to it. -/
def LocalGroup (U : Grammar Nat) (declared : Nat) : Grammar Nat :=
  U.bind fun count bytes total => ValueType bytes ∧ total = declared + count

/-- As many groups as were counted, which add up their locals. -/
def Locals (U : Grammar Nat) (count : Nat) : Grammar Nat := Grammar.times (LocalGroup U) count 0

section

variable {α β : Type} {p : Reader → Except TypeError Reader} {L : Bytes → Prop} {U V : Grammar Nat}

/-- A scanner and a value that it leads to. -/
theorem Skips.gives (h : Skips p L) (a : α) :
    Reads (fun r => p r >>= fun r' => .ok (a, r')) (fun bytes b => L bytes ∧ b = a) := by
  intro r b r'
  constructor
  · intro hp
    obtain ⟨r₁, hskip, hr⟩ := Checks.bind_ok hp
    obtain ⟨rfl, rfl⟩ := Prod.mk.inj (Except.ok.inj hr)
    obtain ⟨bytes, hL, hstart, hr₁⟩ := (h _ _).mp hskip
    exact ⟨bytes, ⟨hL, rfl⟩, hstart, hr₁⟩
  · rintro ⟨bytes, ⟨hL, rfl⟩, hstart, rfl⟩
    show p r >>= _ = _
    rw [(h r _).mpr ⟨bytes, hL, hstart, rfl⟩]
    rfl

/-- A group is read and its sum checked. -/
theorem reads_localGroup (declared : Nat) : Reads (localGroup declared) (LocalGroup U32 declared) :=
  reads_u32.bind fun count => skips_valueType.gives (declared + count)

/-- All groups. -/
theorem reads_locals (count : Nat) : Reads (times localGroup count 0) (Locals U32 count) :=
  Reads.times reads_localGroup count 0

theorem LocalGroup.mono (hUV : ∀ b n, U b n → V b n) (declared : Nat) :
    ∀ b total, LocalGroup U declared b total → LocalGroup V declared b total := by
  rintro _ total ⟨first, second, count, rfl, hcount, htype⟩
  exact ⟨first, second, count, rfl, hUV _ _ hcount, htype⟩

theorem Grammar.times_mono {σ : Type} {G H : σ → Grammar σ} (hGH : ∀ s b s', G s b s' → H s b s')
    (count : Nat) : ∀ s b s', Grammar.times G count s b s' → Grammar.times H count s b s' := by
  induction count with
  | zero => exact fun _ _ _ h => h
  | succ count ih =>
      rintro s _ s' ⟨first, second, a, rfl, hfirst, hsecond⟩
      exact ⟨first, second, a, rfl, hGH _ _ _ hfirst, ih _ _ _ hsecond⟩

/-- One more round. -/
theorem Grammar.times_succ {σ : Type} {G : σ → Grammar σ} {count : Nat} {s s' s'' : σ} {bytes last : Bytes}
    (h : Grammar.times G count s bytes s') (hlast : G s' last s'') :
    Grammar.times G (count + 1) s (bytes ++ last) s'' := by
  induction count generalizing s bytes with
  | zero =>
      obtain ⟨rfl, rfl⟩ := h
      exact ⟨last, [], s'', (List.append_nil _).symm, hlast, rfl, rfl⟩
  | succ count ih =>
      obtain ⟨first, second, a, rfl, hfirst, hsecond⟩ := h
      exact ⟨first, second ++ last, a, List.append_assoc _ _ _, hfirst, ih hsecond⟩

end

/-! ## Function texts -/

/-- A function body as it is spelled: its groups of locals and its instructions. -/
structure FunctionText where
  /-- How many groups there are, as it is spelled. -/
  size : Bytes
  count : Nat
  groups : Bytes
  declared : Nat
  tokens : List Token

namespace FunctionText

/-- The body as it stands in the section, behind its size. -/
def bytes (f : FunctionText) : Bytes := f.size ++ (f.groups ++ spelled f.tokens)

/-- Each token is spelled as it should be, and so are the groups. -/
structure Valid (U : Grammar Nat) (f : FunctionText) : Prop where
  size : U f.size f.count
  groups : Locals U f.count f.groups f.declared
  tokens : ∀ t ∈ f.tokens, t.Valid U

/-- Whether a charge needs its local. -/
def charged (f : FunctionText) : Bool := !(units none f.tokens).isEmpty

/-- Some instruction calls a function of the instance. -/
def callsGuest (f : FunctionText) (imported : Nat) : Bool := f.tokens.any fun t => t.kind.callsGuest imported

end FunctionText

namespace State

variable (s : State) (interval : BitVec 32) (params : Nat)

/-- A function body with the rewritten instructions, a local for the charges, and a check where guest code
is called. -/
def rebuilt (f : FunctionText) (out : List Token) : FunctionText where
  size := leb (f.count + if f.charged then 1 else 0)
  count := f.count + if f.charged then 1 else 0
  groups := f.groups ++ if f.charged then [1, 0x7f] else []
  declared := f.declared + if f.charged then 1 else 0
  tokens := (if f.callsGuest s.importedFunctions then s.checks interval else []) ++ out

/-- What stands for a function body in the output. -/
def rewriteFunction (f : FunctionText) : Option FunctionText :=
  if f.charged ∧ maxLocals < params + f.declared + 1 then none
  else (s.rewriteTokens interval (params + f.declared) none f.tokens).map (s.rebuilt interval f)

/-- The state with what a function was given. -/
def counted (f : FunctionText) : State :=
  { s with result := { s.result.more (f.tokens.countP fun t => t.kind = .loop)
      (f.tokens.countP fun t => t.kind.checked s) (units none f.tokens).length with
        entryChecks := s.result.entryChecks + if f.callsGuest s.importedFunctions then 1 else 0 } }

end State

section

variable {s s' : State} {interval : BitVec 32} {r : Reader} {f g : FunctionText} {params type : Nat} {w : Writer}
  {out : List Token}

/-- The rewrite fails on a token, or where one local more is too many. -/
theorem State.rewriteFunction_some : s.rewriteFunction interval params f = some g ↔
    ¬(f.charged ∧ maxLocals < params + f.declared + 1) ∧
      ∃ out, s.rewriteTokens interval (params + f.declared) none f.tokens = some out ∧
        s.rebuilt interval f out = g := by
  rw [State.rewriteFunction]
  by_cases h : f.charged ∧ maxLocals < params + f.declared + 1
  · rw [if_pos h]
    exact iff_of_false (by simp) fun hg => hg.1 h
  · rw [if_neg h, Option.map_eq_some_iff]
    exact (and_iff_right h).symm

theorem leb_one : leb 1 = [1] := by
  rw [leb, if_neg (by decide)]
  rfl

/-- The pass over the instructions of a body that was just begun. -/
structure Body.Ends (s : State) (f : FunctionText) (out : List Token) (b : Body) (r : Reader) : Prop where
  text : (b.copyUntil r r.end_).instructions.contents = spelled out
  guest : b.callsGuest = f.callsGuest s.importedFunctions
  charges : b.charges ≠ [] ↔ f.charged = true
  state : b.state = { s with
    result := s.result.more (f.tokens.countP fun t => t.kind = .loop)
      (f.tokens.countP fun t => t.kind.checked s) (units none f.tokens).length }

/-- The rounds up to the end of the body are all of it. -/
theorem Body.Passes.ends {b : Body} {r' : Reader} (hend : r'.rest = [])
    (h : Body.Passes ⟨s, .empty, r.position, false, none, []⟩ b r r' f.tokens out) : b.Ends s f out r' where
  text := by
    have hposition : r'.position = r'.end_ := Nat.le_antisymm r'.within (Reader.rest_eq_nil.mp hend)
    have htext := h.text
    rw [Body.text, Body.text, Reader.slice_self, hposition] at htext
    rw [Body.contents_copyUntil, htext]
    rfl
  guest := h.guest
  charges := by
    have hcharges := h.charges
    rw [FunctionText.charged, Bool.not_eq_true', List.isEmpty_eq_false_iff, not_iff_not,
      List.eq_nil_iff_forall_not_mem, List.eq_nil_iff_forall_not_mem]
    simp [hcharges]
  state := h.state

/-- The rewriter makes of a function body what it should, if it can. -/
theorem State.functionBody_of (hsealed : s.sealed_ = true) (hf : f.Valid U32) (hrest : r.rest = f.bytes)
    (hg : s.rewriteFunction interval (s.paramCounts[type]?.getD 0) f = some g) :
    ∃ w, s.functionBody interval r type (spelled (s.checks interval)) = .ok (w, s.counted f) ∧
      w.contents = g.bytes := by
  obtain ⟨hroom, out, hout, rfl⟩ := State.rewriteFunction_some.mp hg
  rw [FunctionText.bytes] at hrest
  have hcount := reads_u32.of hf.size hrest
  have hrest₁ := Reader.rest_advance_append hrest
  have hgroups := (reads_locals f.count).of hf.groups hrest₁
  have hrest₂ := Reader.rest_advance_append hrest₁
  have hctx : BodyContext.For
    ⟨spelled (s.checks interval), s.paramCounts[type]?.getD 0 + f.declared, interval⟩ s := rfl
  obtain ⟨b, hloop, hpasses⟩ := Body.loop_of
    (b := ⟨s, .empty, ((r.advance f.size.length).advance f.groups.length).position, false, none, []⟩)
    hsealed hctx (Nat.le_refl _) (Reader.length_rest _).le hrest₂ hf.tokens hout
  have hends := hpasses.ends (by rw [Reader.rest_advance, hrest₂, List.drop_length])
  have hslice : (((r.advance f.size.length).advance f.groups.length).advance
      (spelled f.tokens).length).slice (r.advance f.size.length).position
      ((r.advance f.size.length).advance f.groups.length).position = f.groups := by
    rw [Reader.position_prefix (r := r.advance f.size.length) ⟨_, hrest₁.symm⟩]
    exact Reader.slice_advance (r := r.advance f.size.length) ⟨_, hrest₁.symm⟩
  have hguest := hends.guest
  have hcharged := hends.charges
  rw [State.functionBody, hcount]
  show ∃ w, times _ _ _ _ >>= _ = _ ∧ _
  rw [hgroups]
  show ∃ w, whileMore _ _ _ _ >>= _ = _ ∧ _
  rw [hloop]
  refine ⟨_, (if_neg ?_).trans (congrArg Except.ok (Prod.ext rfl ?_)), ?_⟩
  · rw [Body.charges_copyUntil]
    exact fun h => hroom ⟨hcharged.mp h.1, h.2⟩
  · simp only [Body.state_copyUntil, Body.callsGuest_copyUntil]
    rw [hends.state, hguest]
    rfl
  · rw [Writer.contents_append, hends.text]
    simp only [Body.charges_copyUntil, Body.callsGuest_copyUntil]
    rw [hslice, hguest, FunctionText.bytes, State.rebuilt]
    cases hc : f.charged with
    | true =>
        rw [if_pos (hcharged.mpr hc)]
        cases f.callsGuest s.importedFunctions with
        | true => simp [spelled_append, leb_one]
        | false => simp [leb_one]
    | false =>
        have hnone : ¬b.charges ≠ [] := fun h => by rw [hcharged.mp h] at hc; cases hc
        rw [if_neg hnone]
        cases f.callsGuest s.importedFunctions with
        | true => simp [spelled_append]
        | false => simp

/-- What the rewriter accepts is a function body that can be rewritten. -/
theorem State.functionBody_ok (hsealed : s.sealed_ = true)
    (h : s.functionBody interval r type (spelled (s.checks interval)) = .ok (w, s')) :
    ∃ f g, f.Valid U32 ∧ r.rest = f.bytes ∧
      s.rewriteFunction interval (s.paramCounts[type]?.getD 0) f = some g := by
  obtain ⟨⟨count, r₁⟩, hcount, h⟩ := Checks.bind_ok h
  obtain ⟨⟨declared, r₂⟩, hgroups, h⟩ := Checks.bind_ok h
  obtain ⟨⟨b, r₃⟩, hloop, h⟩ := Checks.bind_ok h
  dsimp only at hgroups hloop h
  obtain ⟨size, hsize, ⟨more₁, hmore₁⟩, rfl⟩ := (reads_u32 _ _ _).mp hcount
  have hrest₁ := Reader.rest_advance_append hmore₁.symm
  obtain ⟨groups, hlocals, ⟨more₂, hmore₂⟩, rfl⟩ := (reads_locals count _ _ _).mp hgroups
  have hrest₂ := Reader.rest_advance_append hmore₂.symm
  have hctx : BodyContext.For
    ⟨spelled (s.checks interval), s.paramCounts[type]?.getD 0 + declared, interval⟩ s := rfl
  obtain ⟨tokens, out, ⟨hspelled, hvalid⟩, hout⟩ := Body.loop_ok hsealed hctx (Nat.le_refl _)
    (Reader.length_rest _).le hloop
  let f : FunctionText := ⟨size, count, groups, declared, tokens⟩
  have hrest : r.rest = f.bytes := by
    rw [← hmore₁, ← hrest₁, ← hmore₂, ← hrest₂, hspelled]
    rfl
  have hroom : ¬(f.charged ∧ maxLocals < s.paramCounts[type]?.getD 0 + f.declared + 1) := by
    rintro ⟨hcharged, hover⟩
    obtain ⟨b', hloop', hpasses⟩ := Body.loop_of hsealed hctx (Nat.le_refl _)
      (Reader.length_rest _).le hspelled hvalid hout
    obtain ⟨rfl, rfl⟩ := Prod.mk.inj (Except.ok.inj (hloop.symm.trans hloop'))
    have hends : b.Ends s f out _ := hpasses.ends (by rw [Reader.rest_advance, hspelled, List.drop_length])
    rw [if_pos ⟨by rw [Body.charges_copyUntil]; exact hends.charges.mpr hcharged, hover⟩] at h
    exact absurd h Checks.error_ne_ok
  exact ⟨f, _, ⟨hsize, hlocals, hvalid⟩, hrest, State.rewriteFunction_some.mpr ⟨hroom, out, hout, rfl⟩⟩

end

/-! ## What is written can be read -/

section

variable {s : State} {interval : BitVec 32} {scratch : Nat} {operand : Option (BitVec 32)} {t : Token}
  {tokens out : List Token} {f g : FunctionText} {params : Nat}

/-- The check is spelled with the shortest numbers. -/
theorem valid_checkTokens (counter interrupt : Nat) (interval : BitVec 32) :
    ∀ t ∈ checkTokens counter interrupt interval, t.Valid Encodes := by
  simp only [checkTokens, List.forall_mem_cons, List.not_mem_nil, false_imp_iff,
    implies_true, and_true]
  exact ⟨valid_indexed (by decide) _, valid_plain (by decide), valid_ifEmpty, valid_callTo _ _,
    valid_ifEmpty, valid_plain (by decide), valid_plain (by decide), valid_constOf _,
    valid_indexed (by decide) _, valid_plain (by decide), valid_indexed (by decide) _, valid_constOf _,
    valid_plain (by decide), valid_indexed (by decide) _⟩

/-- The charge is spelled with the shortest numbers. -/
theorem valid_chargeTokens (counter scratch interrupt : Nat) (interval : BitVec 32) (shift : Nat) :
    ∀ t ∈ chargeTokens counter scratch interrupt interval shift, t.Valid Encodes := by
  have hticks : ∀ t ∈ tickTokens scratch shift, t.Valid Encodes := by
    simp only [tickTokens, List.forall_mem_cons, List.not_mem_nil, false_imp_iff,
    implies_true, and_true]
    exact ⟨valid_indexed (by decide) _, valid_constOf _, valid_plain (by decide)⟩
  simp only [chargeTokens, List.forall_mem_append, List.forall_mem_cons, List.not_mem_nil, false_imp_iff,
    implies_true, and_true]
  exact ⟨⟨⟨⟨⟨valid_indexed (by decide) _, valid_constOf _, valid_plain (by decide), valid_ifEmpty⟩, hticks⟩,
    valid_indexed (by decide) _, valid_plain (by decide), valid_ifEmpty, valid_callTo _ _, valid_ifEmpty,
    valid_plain (by decide), valid_plain (by decide), valid_constOf _, valid_indexed (by decide) _,
    valid_plain (by decide), valid_indexed (by decide) _⟩, hticks⟩,
    valid_plain (by decide), valid_indexed (by decide) _, valid_plain (by decide), valid_plain (by decide),
    valid_indexed (by decide) _⟩

/-- What stands for an instruction is instructions. -/
theorem State.rewriteToken_valid (ht : t.Valid Encodes)
    (h : s.rewriteToken interval scratch operand t = some out) : ∀ t ∈ out, t.Valid Encodes := by
  have hcheck := valid_checkTokens s.countdown s.importedFunctions interval
  have hone : ∀ t' ∈ [t], t'.Valid Encodes := List.forall_mem_singleton.mpr ht
  rw [State.rewriteToken] at h
  cases hkind : t.kind with
  | loop =>
      rw [hkind] at h
      obtain rfl := Option.some.inj h
      exact List.forall_mem_cons.mpr ⟨ht, hcheck⟩
  | call tail callee =>
      rw [hkind] at h
      dsimp only at h
      split_ifs at h
      all_goals obtain rfl := Option.some.inj h
      · exact List.forall_mem_singleton.mpr (valid_callTo _ _)
      · exact List.forall_mem_cons.mpr
          ⟨valid_callTo _ _, List.forall_mem_singleton.mpr (valid_plain (by decide))⟩
      · refine List.forall_mem_cons.mpr ⟨valid_callTo _ _, List.forall_mem_append.mpr ⟨hcheck, ?_⟩⟩
        exact List.forall_mem_singleton.mpr (valid_plain (by decide))
      · refine List.forall_mem_cons.mpr ⟨valid_callTo _ _, List.forall_mem_append.mpr ⟨hcheck, ?_⟩⟩
        exact List.forall_mem_nil _
  | refFunc index =>
      rw [hkind] at h
      obtain ⟨f, -, rfl⟩ := Option.map_eq_some_iff.mp h
      exact List.forall_mem_singleton.mpr (valid_refTo _)
  | bulk code =>
      rw [hkind] at h
      dsimp only at h
      obtain rfl := Option.some.inj h
      cases Kind.unit operand (.bulk code) with
      | none => exact hone
      | some unit => exact List.forall_mem_append.mpr ⟨valid_chargeTokens _ _ _ _ _, hone⟩
  | indirect | const | other =>
      rw [hkind] at h
      obtain rfl := Option.some.inj h
      exact hone

/-- Token by token. -/
theorem State.rewriteTokens_valid (htokens : ∀ t ∈ tokens, t.Valid Encodes)
    (h : s.rewriteTokens interval scratch operand tokens = some out) : ∀ t ∈ out, t.Valid Encodes := by
  induction tokens generalizing operand out with
  | nil =>
      obtain rfl := Option.some.inj h
      exact List.forall_mem_nil _
  | cons t tokens ih =>
      rw [List.forall_mem_cons] at htokens
      obtain ⟨first, rest, hfirst, hrest, rfl⟩ := State.rewriteTokens_cons.mp h
      exact List.forall_mem_append.mpr ⟨State.rewriteToken_valid htokens.1 hfirst, ih htokens.2 hrest⟩

/-- What the rewriter reads is spelled in the format. -/
theorem FunctionText.Valid.encodes (h : f.Valid U32) : f.Valid Encodes where
  size := h.size.1
  groups := Grammar.times_mono (LocalGroup.mono fun _ _ h => h.1) f.count 0 _ _ h.groups
  tokens t ht := Instruction.mono (fun _ _ h => h.1) (h.tokens t ht)

/-- What stands for a function body is one. -/
theorem State.rewriteFunction_valid (hf : f.Valid U32)
    (h : s.rewriteFunction interval params f = some g) : g.Valid Encodes := by
  obtain ⟨-, out, hout, rfl⟩ := State.rewriteFunction_some.mp h
  have hencodes := hf.encodes
  have hbody := State.rewriteTokens_valid hencodes.tokens hout
  refine ⟨encodes_leb _, ?_, ?_⟩
  · show Locals Encodes (f.count + _) (f.groups ++ _) (f.declared + _)
    cases f.charged with
    | true =>
        refine Grammar.times_succ hencodes.groups ⟨[1], [0x7f], 1, rfl, ?_, ?_, rfl⟩
        · exact leb_one ▸ encodes_leb 1
        · exact ⟨[0x7f], [], 0x7f, rfl, rfl, rfl⟩
    | false => simpa using hencodes.groups
  · show ∀ t ∈ (if f.callsGuest s.importedFunctions then s.checks interval else []) ++ out, _
    refine List.forall_mem_append.mpr ⟨?_, hbody⟩
    split
    · exact valid_checkTokens _ _ _
    · exact List.forall_mem_nil _

end

/-! ## One reading -/

section

variable {α β σ : Type} {U : Grammar Nat} {f f' : FunctionText}

theorem unambiguous_u32 : Unambiguous U32 := fun x y a b s t hx hy heq =>
  unambiguous_encodes x y a b s t hx.1 hy.1 heq

/-- Two grammars in sequence: the first ends at one place only. -/
theorem Unambiguous.bind {G : Grammar α} {H : α → Grammar β} (hG : Unambiguous G) (hH : ∀ a, Unambiguous (H a)) :
    Unambiguous (G.bind H) := by
  rintro _ _ b b' s t ⟨x, y, a, rfl, hx, hy⟩ ⟨x', y', a', rfl, hx', hy'⟩ heq
  rw [List.append_assoc, List.append_assoc] at heq
  obtain ⟨rfl, rfl⟩ := hG _ _ _ _ _ _ hx hx' heq
  obtain ⟨rfl, rfl⟩ := hH a _ _ _ _ _ _ hy hy' (List.append_cancel_left heq)
  exact ⟨rfl, rfl⟩

/-- Counted repetitions, by induction on the count. -/
theorem Unambiguous.times {G : σ → Grammar σ} (hG : ∀ s, Unambiguous (G s)) (count : Nat) (s : σ) :
    Unambiguous (Grammar.times G count s) := by
  induction count generalizing s with
  | zero =>
      rintro _ _ a b _ _ ⟨rfl, rfl⟩ ⟨rfl, rfl⟩ -
      exact ⟨rfl, rfl⟩
  | succ count ih => exact (hG s).bind ih

theorem unambiguous_locals (hU : Unambiguous U) (count : Nat) : Unambiguous (Locals U count) := by
  refine Unambiguous.times (fun declared => hU.bind fun n => ?_) count 0
  rintro x y a b s t ⟨hx, rfl⟩ ⟨hy, rfl⟩ heq
  exact ⟨prefixFree_valueType _ _ _ _ hx hy heq, rfl⟩

/-- Bytes are the body of one function at most. -/
theorem FunctionText.unique (hU : Unambiguous U) (hf : f.Valid U) (hf' : f'.Valid U)
    (h : f.bytes = f'.bytes) : f = f' := by
  obtain ⟨size, count, groups, declared, tokens⟩ := f
  obtain ⟨size', count', groups', declared', tokens'⟩ := f'
  obtain ⟨rfl, rfl⟩ := hU _ _ _ _ _ _ hf.size hf'.size h
  have hbehind := List.append_cancel_left h
  obtain ⟨rfl, rfl⟩ := unambiguous_locals hU _ _ _ _ _ _ _ hf.groups hf'.groups hbehind
  have htokens := Spells.unique hU ⟨rfl, hf.tokens⟩ ⟨List.append_cancel_left hbehind, hf'.tokens⟩
  obtain rfl : tokens = tokens' := htokens
  rfl

end

end Binary
