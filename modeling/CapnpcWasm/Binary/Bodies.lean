import CapnpcWasm.Binary.Output
import CapnpcWasm.Binary.Rewriting

/-!
# Bodies

`functionBody` copies the bytes it does not change in stretches, so what it has written and what it
has only read belong together: they spell the rewrite of the instructions it has passed.
-/

namespace Binary

open TsSdk Leb

/-! ## Stretches -/

section

variable {r : Reader} {bytes : Bytes} {start : Nat}

theorem Reader.slice_append (hle : start ≤ r.position) (h : bytes <+: r.rest) :
    r.slice start (r.position + bytes.length) = r.slice start r.position ++ bytes := by
  have hnow := Reader.slice_advance h
  rw [Reader.slice, Nat.add_sub_cancel_left] at hnow
  rw [Reader.slice, Reader.slice, Nat.sub_add_comm hle, List.take_add, List.drop_drop,
    Nat.add_sub_cancel' hle, hnow]

theorem Reader.slice_self (r : Reader) (start : Nat) : r.slice start start = [] := by
  rw [Reader.slice, Nat.sub_self, List.take_zero]

end

/-- What a body has written, and what it has only read. -/
def Body.text (b : Body) (r : Reader) : Bytes :=
  b.instructions.contents ++ r.slice b.from_ r.position

theorem Body.contents_copyUntil (b : Body) (r : Reader) (position : Nat) :
    (b.copyUntil r position).instructions.contents =
      b.instructions.contents ++ r.slice b.from_ position := by
  rw [copyUntil]
  split
  · exact Writer.contents_bytes _ _
  · next hle =>
    rw [Reader.slice, Nat.sub_eq_zero_of_le (Nat.le_of_not_lt hle), List.take_zero, List.append_nil]

section

variable (b : Body) (r : Reader) (position : Nat)

@[simp] theorem Body.state_copyUntil : (b.copyUntil r position).state = b.state := by
  rw [copyUntil]
  split <;> rfl

@[simp] theorem Body.callsGuest_copyUntil : (b.copyUntil r position).callsGuest = b.callsGuest := by
  rw [copyUntil]
  split <;> rfl

@[simp] theorem Body.constant_copyUntil : (b.copyUntil r position).constant = b.constant := by
  rw [copyUntil]
  split <;> rfl

@[simp] theorem Body.charges_copyUntil : (b.copyUntil r position).charges = b.charges := by
  rw [copyUntil]
  split <;> rfl

end

/-! ## One instruction -/

theorem spelled_single (t : Token) : spelled [t] = t.bytes := List.append_nil _

/-- The calls of an import that are followed by a check. -/
def Kind.checked (s : State) : Kind → Bool
  | .call _ callee => decide (callee < s.importedFunctions) && decide (s.exitFunction ≠ some callee)
  | _ => false

/-- Counts with so many checks more. -/
def Counts.more (c : Counts) (loops imports bulks : Nat) : Counts :=
  { c with
    loopChecks := c.loopChecks + loops
    importChecks := c.importChecks + imports
    bulkChecks := c.bulkChecks + bulks }

/-- The operand that instructions leave. -/
def operandBehind : Option (BitVec 32) → List Token → Option (BitVec 32)
  | operand, [] => operand
  | _, t :: tokens => operandBehind t.kind.operand tokens

/-- What a pass over instructions does. -/
structure Body.Passes (b b' : Body) (r r' : Reader) (tokens out : List Token) : Prop where
  from_le : b'.from_ ≤ r'.position
  text : b'.text r' = b.text r ++ spelled out
  guest : b'.callsGuest =
    (b.callsGuest || tokens.any fun t => t.kind.callsGuest b.state.importedFunctions)
  constant : b'.constant = operandBehind b.constant tokens
  charges : ∀ unit, unit ∈ b'.charges ↔ unit ∈ b.charges ∨ unit ∈ units b.constant tokens
  state : b'.state = { b.state with
    result := b.state.result.more (tokens.countP fun t => t.kind = .loop)
      (tokens.countP fun t => t.kind.checked b.state) (units b.constant tokens).length }

section

variable {ctx : BodyContext} {b b' : Body} {r r' : Reader} {t : Token} {more : Bytes} {out : List Token}

/-- The bytes of the context are those of the check. -/
def BodyContext.For (ctx : BodyContext) (s : State) : Prop :=
  ctx.check = spelled (s.checks ctx.interval)

theorem BodyContext.For.eq {s : State} (h : ctx.For s) : ctx.check = spelled (s.checks ctx.interval) := h

/-- What is only read stays to be copied. -/
theorem Body.text_read (hle : b.from_ ≤ r.position) (hrest : r.rest = t.bytes ++ more)
    (hinstructions : b'.instructions = b.instructions) (hfrom : b'.from_ = b.from_) :
    b'.text (r.advance t.bytes.length) = b.text r ++ spelled [t] := by
  have hstart : t.bytes <+: r.rest := ⟨more, hrest.symm⟩
  have hslice := Reader.slice_append hle hstart
  rw [Body.text, hinstructions, hfrom, Reader.position_prefix hstart]
  show b.instructions.contents ++ r.slice b.from_ _ = _
  rw [hslice, Body.text, List.append_assoc, spelled_single]

/-- What only reads. -/
theorem Body.passes_read (hle : b.from_ ≤ r.position) (hrest : r.rest = t.bytes ++ more)
    (hunit : t.kind.unit b.constant = none) (hloop : t.kind ≠ .loop)
    (hchecked : t.kind.checked b.state = false) (hinstructions : b'.instructions = b.instructions)
    (hfrom : b'.from_ = b.from_) (hconstant : b'.constant = t.kind.operand)
    (hguest : b'.callsGuest = (b.callsGuest || t.kind.callsGuest b.state.importedFunctions))
    (hcharges : b'.charges = b.charges) (hstate : b'.state = b.state) :
    b.Passes b' r (r.advance t.bytes.length) [t] [t] where
  from_le := by
    rw [hfrom, Reader.position_prefix ⟨more, hrest.symm⟩]
    exact hle.trans (Nat.le_add_right _ _)
  text := Body.text_read hle hrest hinstructions hfrom
  guest := by
    rw [hguest]
    simp
  constant := hconstant
  charges unit := by simp [units, hunit, hcharges]
  state := by
    rw [hstate]
    simp [units, hunit, hloop, hchecked, Counts.more]

/-- What is written after an instruction, all that was read before being copied. -/
theorem Body.text_written (hstart : t.bytes <+: r.rest) {data : Bytes}
    (hinstructions : b'.instructions.contents =
      b.instructions.contents ++ r.slice b.from_ r.position ++ data)
    (hfrom : b'.from_ = r.position + t.bytes.length) :
    b'.text (r.advance t.bytes.length) = b.text r ++ data := by
  rw [Body.text, hinstructions, hfrom, Reader.position_prefix hstart, Reader.slice_self,
    List.append_nil]
  rfl

/-- What a loop, a call or a reference leaves: the bytes before it copied, and something written in
its place. -/
theorem Body.passes_written (hrest : r.rest = t.bytes ++ more) (hunit : t.kind.unit b.constant = none)
    (hcontents : b'.instructions.contents =
      b.instructions.contents ++ r.slice b.from_ r.position ++ spelled out)
    (hfrom : b'.from_ = r.position + t.bytes.length) (hconstant : b'.constant = t.kind.operand)
    (hguest : b'.callsGuest = (b.callsGuest || t.kind.callsGuest b.state.importedFunctions))
    (hcharges : b'.charges = b.charges)
    (hstate : b'.state = { b.state with
      result := b.state.result.more (if t.kind = .loop then 1 else 0)
        (if t.kind.checked b.state then 1 else 0) 0 }) :
    b.Passes b' r (r.advance t.bytes.length) [t] out where
  from_le := by
    rw [hfrom, Reader.position_prefix ⟨more, hrest.symm⟩]
  text := Body.text_written ⟨more, hrest.symm⟩ hcontents hfrom
  guest := by
    rw [hguest]
    simp
  constant := hconstant
  charges unit := by simp [units, hunit, hcharges]
  state := by
    rw [hstate]
    simp [units, hunit, List.countP_cons]

theorem Body.passes_loop (hctx : ctx.For b.state) (hle : b.from_ ≤ r.position)
    (hrest : r.rest = t.bytes ++ more) (hkind : t.kind = .loop) :
    b.Passes (({ { b with constant := none }.copyUntil (r.advance t.bytes.length)
        (r.advance t.bytes.length).position with
          from_ := (r.advance t.bytes.length).position }.write ctx.check).countLoop) r
      (r.advance t.bytes.length) [t] (t :: b.state.checks ctx.interval) := by
  have hstart : t.bytes <+: r.rest := ⟨more, hrest.symm⟩
  have hposition := Reader.position_prefix hstart
  have hcopied := Body.contents_copyUntil { b with constant := none } (r.advance t.bytes.length)
    (r.advance t.bytes.length).position
  apply Body.passes_written hrest
  case hunit => rw [hkind]; rfl
  case hfrom => exact hposition
  case hcontents =>
    show (Writer.bytes _ ctx.check).contents = _
    rw [Writer.contents_bytes, hcopied, hctx, hposition, spelled_cons]
    show _ ++ r.slice b.from_ _ ++ _ = _
    rw [Reader.slice_append hle hstart]
    simp only [List.append_assoc]
  case hconstant => simp [hkind, Body.write, Body.countLoop, Kind.operand]
  case hguest => simp [hkind, Body.write, Body.countLoop, Kind.callsGuest]
  case hcharges => simp [Body.write, Body.countLoop]
  case hstate => simp [hkind, Body.write, Body.countLoop, Kind.checked, Counts.more]

/-- The index behind an opcode. -/
theorem reads_index {op : UInt8} {index : Bytes} {n : Nat} (hrest : r.rest = t.bytes ++ more)
    (hbytes : t.bytes = op :: index) (hindex : U32 index n) :
    (r.advance 1).u32 = .ok (n, r.advance t.bytes.length) := by
  have hbehind : (r.advance 1).rest = index ++ more := by
    rw [Reader.rest_advance, hrest, hbytes]
    rfl
  rw [reads_u32.of hindex hbehind, Reader.advance_advance, hbytes, List.length_cons, Nat.add_comm]

/-- A call of a guest function is renumbered, and a call of an import is followed by a check, or by
`unreachable` where the import does not return. -/
theorem Body.call_of {tail : Bool} {callee : Nat} {index : Bytes} (hctx : ctx.For b.state)
    (hrest : r.rest = t.bytes ++ more) (hbytes : t.bytes = callOp tail :: index)
    (hindex : U32 index callee) (hkind : t.kind = .call tail callee)
    (hout : b.state.rewriteToken ctx.interval ctx.scratch b.constant t = some out) :
    ∃ b', { b with constant := none }.call ctx r.position (callOp tail) (r.advance 1) =
        .ok (b', r.advance t.bytes.length) ∧
      b.Passes b' r (r.advance t.bytes.length) [t] out := by
  have hread := reads_index hrest hbytes hindex
  have hposition := Reader.position_prefix (⟨more, hrest.symm⟩ : t.bytes <+: r.rest)
  have hcopied := Body.contents_copyUntil { b with constant := none } (r.advance t.bytes.length) r.position
  have hunit : t.kind.unit b.constant = none := by rw [hkind]; rfl
  rw [Body.call, hread]
  rw [State.rewriteToken, hkind] at hout
  dsimp only at hout
  by_cases hguest : b.state.importedFunctions ≤ callee
  · rw [if_pos hguest] at hout
    obtain rfl := Option.some.inj hout
    refine ⟨_, if_pos (by simpa using hguest), ?_⟩
    apply Body.passes_written hrest hunit
    case hfrom => exact hposition
    case hcontents =>
      show (Writer.u32 _ _).contents = _
      rw [Writer.contents_u32, Writer.contents_byte, hcopied, spelled_single]
      simp [callTo, Reader.slice, Reader.advance]
    case hconstant => simp [hkind, Kind.operand]
    case hguest => simp [hkind, Kind.callsGuest, hguest]
    case hcharges => simp
    case hstate =>
      have hlocal : ¬callee < b.state.importedFunctions := Nat.not_lt.mpr hguest
      simp [hkind, Kind.checked, hlocal, Counts.more]
  · rw [if_neg hguest] at hout
    have himport : callee < b.state.importedFunctions := Nat.lt_of_not_le hguest
    by_cases hexit : b.state.exitFunction = some callee
    · rw [if_pos hexit] at hout
      obtain rfl := Option.some.inj hout
      refine ⟨_, (if_neg (by simpa using hguest)).trans (if_pos (by simpa using hexit)), ?_⟩
      apply Body.passes_written hrest hunit
      case hfrom => exact hposition
      case hcontents =>
        show (Writer.byte _ _).contents = _
        rw [Writer.contents_byte, Writer.contents_u32, Writer.contents_byte, hcopied]
        simp [spelled, callTo, callOp, plain, Reader.slice, Reader.advance]
      case hconstant => simp [hkind, Kind.operand]
      case hguest => simp [hkind, Kind.callsGuest, hguest]
      case hcharges => simp
      case hstate =>
        have hchecked : t.kind.checked b.state = false := by simp [hkind, Kind.checked, hexit]
        rw [hchecked]
        simp [hkind, Counts.more]
    · rw [if_neg hexit] at hout
      obtain rfl := Option.some.inj hout
      refine ⟨_, (if_neg (by simpa using hguest)).trans (if_neg (by simpa using hexit)), ?_⟩
      apply Body.passes_written hrest hunit
      case hfrom => cases tail <;> exact hposition
      case hcontents =>
        have hwritten : (((({ b with constant := none }.copyUntil (r.advance t.bytes.length)
            r.position).instructions.byte 0x10).u32 callee).bytes ctx.check).contents =
            b.instructions.contents ++ r.slice b.from_ r.position ++ [0x10] ++ leb callee ++
              ctx.check := by
          rw [Writer.contents_bytes, Writer.contents_u32, Writer.contents_byte, hcopied]
          rfl
        cases tail
        · refine hwritten.trans ?_
          simp [hctx.eq, spelled_cons, callTo, callOp]
        · refine ((Writer.contents_byte _ 0x0f).trans (congrArg (· ++ [0x0f]) hwritten)).trans ?_
          simp [hctx.eq, spelled_cons, spelled_append, callTo, callOp, plain]
      case hconstant => cases tail <;> simp [hkind, Kind.operand, callOp, Body.write, Body.countImport]
      case hguest => cases tail <;> simp [hkind, Kind.callsGuest, hguest, callOp, Body.write, Body.countImport]
      case hcharges => cases tail <;> simp [callOp, Body.write, Body.countImport]
      case hstate =>
        cases tail <;>
          simp [hkind, Kind.checked, hexit, himport, Counts.more, callOp, Body.write, Body.countImport]

/-- Once the thunks are fixed, a reference changes nothing. -/
theorem State.reference_sealed {s : State} (hsealed : s.sealed_ = true) (index : Nat) :
    s.reference index =
      (s.referTo index).elim (.error (typeError "undeclared Wasm function reference")) fun f => .ok (f, s) := by
  rw [reference, referTo]
  split
  · rfl
  · split
    · rfl
    · cases hthunk : s.thunks.lookup index with
      | none => rfl
      | some thunk => rfl

theorem Body.refFunc_of {value f : Nat} {index : Bytes} (hsealed : b.state.sealed_ = true)
    (hrest : r.rest = t.bytes ++ more) (hbytes : t.bytes = 0xd2 :: index) (hindex : U32 index value)
    (hkind : t.kind = .refFunc value) (hf : b.state.referTo value = some f) :
    ∃ b', { b with constant := none }.refFunc r.position 0xd2 (r.advance 1) =
        .ok (b', r.advance t.bytes.length) ∧
      b.Passes b' r (r.advance t.bytes.length) [t] [refTo f] := by
  have hread := reads_index hrest hbytes hindex
  have hcopied := Body.contents_copyUntil { b with constant := none } (r.advance t.bytes.length) r.position
  have hreference : b.state.reference value = .ok (f, b.state) := by
    rw [State.reference_sealed hsealed, hf]
    rfl
  rw [Body.refFunc, hread]
  show ∃ b', State.reference (Body.state _) _ >>= _ = _ ∧ _
  simp only [Body.state_copyUntil]
  rw [hreference]
  refine ⟨_, rfl, ?_⟩
  apply Body.passes_written hrest
  case hunit => rw [hkind]; rfl
  case hfrom => exact Reader.position_prefix ⟨more, hrest.symm⟩
  case hcontents =>
    show (Writer.u32 _ _).contents = _
    rw [Writer.contents_u32, Writer.contents_byte, hcopied, spelled_single]
    simp [refTo, Reader.slice, Reader.advance]
  case hconstant => simp [hkind, Kind.operand]
  case hguest => simp [hkind, Kind.callsGuest]
  case hcharges => simp
  case hstate => simp [hkind, Kind.checked, Counts.more]

theorem Body.mem_charges_charge (ctx : BodyContext) (b : Body) (shift unit : Nat) :
    unit ∈ (b.charge ctx shift).charges ↔ unit ∈ b.charges ∨ unit = shift := by
  rw [Body.charge]
  dsimp only [Body.write]
  split
  · next hmem =>
    constructor
    · exact Or.inl
    · rintro (h | rfl)
      · exact h
      · exact hmem
  · simp

/-- What stands for a charged operation: the charge, and the operation with the bytes that follow. -/
theorem Body.passes_charge {code unit : Nat} (hrest : r.rest = t.bytes ++ more)
    (hkind : t.kind = .bulk code) (hunit : t.kind.unit b.constant = some unit) :
    b.Passes (({ { b with constant := none }.copyUntil (r.advance t.bytes.length) r.position with
        from_ := r.position }.charge ctx unit).countBulk) r (r.advance t.bytes.length) [t]
      (chargeTokens b.state.countdown ctx.scratch b.state.importedFunctions ctx.interval unit ++ [t]) where
  from_le := by
    rw [Reader.position_prefix ⟨more, hrest.symm⟩]
    exact Nat.le_add_right _ _
  text := by
    have hstart : t.bytes <+: r.rest := ⟨more, hrest.symm⟩
    have hcopied := Body.contents_copyUntil { b with constant := none } (r.advance t.bytes.length)
      r.position
    have hnow := Reader.slice_advance hstart
    rw [Body.text, Reader.position_prefix hstart]
    show (Writer.bytes _ _).contents ++ r.slice r.position _ = _
    rw [hnow, Writer.contents_bytes, hcopied, spelled_append, spelled_single, spelled_charge,
      ← List.append_assoc, Body.text]
    simp [Reader.slice, Reader.advance]
  guest := by simp [Body.charge, Body.write, Body.countBulk, hkind, Kind.callsGuest]
  constant := by simp [Body.charge, Body.write, Body.countBulk, hkind, operandBehind, Kind.operand]
  charges unit' := by
    refine (Body.mem_charges_charge ctx _ _ _).trans ?_
    simp [units, hunit]
  state := by
    rw [hkind] at hunit
    simp [Body.charge, Body.write, Body.countBulk, hkind, hunit, Kind.checked, Counts.more, units]

/-- A bulk operation is charged, unless its size is known and small. -/
theorem Body.bulk_eq {code : Nat} {first second : Bytes} (hrest : r.rest = t.bytes ++ more)
    (hbytes : t.bytes = 0xfc :: (first ++ second)) (hcode : U32 first code)
    (hsecond : BulkImmediates U32 code second) :
    { b with constant := none }.bulk ctx r.position b.constant (r.advance 1) =
      .ok ((Kind.unit b.constant (.bulk code)).elim { b with constant := none } fun unit =>
        ({ { b with constant := none }.copyUntil (r.advance t.bytes.length) r.position with
          from_ := r.position }.charge ctx unit).countBulk, r.advance t.bytes.length) := by
  have hbehind : (r.advance 1).rest = first ++ (second ++ more) := by
    rw [Reader.rest_advance, hrest, hbytes, ← List.append_assoc]
    rfl
  have hlength : (r.advance 1).advance (first.length + second.length) = r.advance t.bytes.length := by
    rw [Reader.advance_advance, hbytes, List.length_cons, List.length_append, Nat.add_comm]
  have hskip : bulkImmediates code ((r.advance 1).advance first.length) = .ok (r.advance t.bytes.length) := by
    rw [← hlength, ← Reader.advance_advance]
    exact (skips_bulkImmediates code _ _).mpr
      ⟨second, hsecond, ⟨more, (Reader.rest_advance_append hbehind).symm⟩, rfl⟩
  rw [Body.bulk, reads_u32.of hcode hbehind]
  show bulkImmediates _ _ >>= _ = _
  rw [hskip, Kind.unit]
  cases bulkUnit code with
  | none => rfl
  | some unit =>
      cases hsmall : smallSize b.constant unit with
      | true => simp [Option.filter_some, hsmall, bind, Except.bind, pure, Except.pure]
      | false => simp [Option.filter_some, hsmall, bind, Except.bind, pure, Except.pure]

theorem Body.bulk_of {code : Nat} {first second : Bytes} (hle : b.from_ ≤ r.position)
    (hrest : r.rest = t.bytes ++ more) (hbytes : t.bytes = 0xfc :: (first ++ second))
    (hcode : U32 first code) (hsecond : BulkImmediates U32 code second) (hkind : t.kind = .bulk code)
    (hout : b.state.rewriteToken ctx.interval ctx.scratch b.constant t = some out) :
    ∃ b', { b with constant := none }.bulk ctx r.position b.constant (r.advance 1) =
        .ok (b', r.advance t.bytes.length) ∧
      b.Passes b' r (r.advance t.bytes.length) [t] out := by
  rw [State.rewriteToken, hkind] at hout
  dsimp only at hout
  refine ⟨_, Body.bulk_eq hrest hbytes hcode hsecond, ?_⟩
  cases hunit : Kind.unit b.constant (.bulk code) with
  | none =>
      rw [hunit] at hout
      obtain rfl := Option.some.inj hout
      apply Body.passes_read hle hrest
      case hunit => rwa [hkind]
      case hloop => simp [hkind]
      case hchecked => rw [hkind]; rfl
      case hconstant => rw [hkind]; rfl
      case hguest => simp [hkind, Kind.callsGuest]
      all_goals rfl
  | some unit =>
      rw [hunit] at hout
      obtain rfl := Option.some.inj hout
      exact Body.passes_charge hrest hkind (by rw [hkind, hunit])

/-- What a scanner skips behind an opcode. -/
theorem Skips.behind {p : Reader → Except TypeError Reader} {L : Bytes → Prop} {op : UInt8} {rest : Bytes}
    (h : Skips p L) (hrest : r.rest = t.bytes ++ more) (hbytes : t.bytes = op :: rest) (hL : L rest) :
    p (r.advance 1) = .ok (r.advance t.bytes.length) := by
  have hbehind : (r.advance 1).rest = rest ++ more := by
    rw [Reader.rest_advance, hrest, hbytes]
    rfl
  refine (h _ _).mpr ⟨rest, hL, ⟨more, hbehind.symm⟩, ?_⟩
  rw [Reader.advance_advance, hbytes, List.length_cons, Nat.add_comm]

/-- What is done behind an opcode. -/
theorem Body.instruction_cons {op : UInt8} {tail : Bytes} (hcons : r.rest = op :: tail) :
    b.instruction ctx r =
      if op = 0x03 then blockType (r.advance 1) >>= fun r' =>
        .ok (({ { b with constant := none }.copyUntil r' r'.position with
          from_ := r'.position }.write ctx.check).countLoop, r')
      else if op = 0x10 ∨ op = 0x12 then
        { b with constant := none }.call ctx r.position op (r.advance 1)
      else if op = 0xd2 then { b with constant := none }.refFunc r.position op (r.advance 1)
      else if op = 0x11 ∨ op = 0x13 then repeat_ skipU32 2 (r.advance 1) >>= fun r' =>
        .ok ({ b with constant := none, callsGuest := true }, r')
      else if op = 0x14 ∨ op = 0x15 then skipU32 (r.advance 1) >>= fun r' =>
        .ok ({ b with constant := none, callsGuest := true }, r')
      else if op = 0x41 then (r.advance 1).s32 >>= fun x => .ok ({ b with constant := some x.1 }, x.2)
      else if op = 0xfc then { b with constant := none }.bulk ctx r.position b.constant (r.advance 1)
      else immediates op (r.advance 1) >>= fun r' => .ok ({ b with constant := none }, r') := by
  rw [Body.instruction, Reader.byte_cons hcons]
  rfl

/-- The opcodes of kinds with their own treatment. -/
theorem not_special {op : UInt8} (h : op ∉ specialOps) : op ≠ 0x03 ∧ ¬(op = 0x10 ∨ op = 0x12) ∧
    op ≠ 0xd2 ∧ ¬(op = 0x11 ∨ op = 0x13) ∧ ¬(op = 0x14 ∨ op = 0x15) ∧ op ≠ 0x41 ∧ op ≠ 0xfc := by
  simp only [specialOps, List.mem_cons, List.not_mem_nil, or_false, not_or] at h
  tauto

/-- The rewriter makes of an instruction what it should, if it can. -/
theorem Body.instruction_of (hsealed : b.state.sealed_ = true) (hctx : ctx.For b.state)
    (hle : b.from_ ≤ r.position) (hrest : r.rest = t.bytes ++ more) (hvalid : t.Valid U32)
    (hout : b.state.rewriteToken ctx.interval ctx.scratch b.constant t = some out) :
    ∃ b', b.instruction ctx r = .ok (b', r.advance t.bytes.length) ∧
      b.Passes b' r (r.advance t.bytes.length) [t] out := by
  obtain ⟨op, rest, hbytes, hfollows⟩ := hvalid
  have hcons : r.rest = op :: (rest ++ more) := by
    rw [hrest, hbytes]
    rfl
  rw [Body.instruction_cons hcons]
  cases hkind : t.kind with
  | loop =>
      rw [hkind] at hfollows
      obtain ⟨rfl, htype⟩ := hfollows
      rw [State.rewriteToken, hkind] at hout
      obtain rfl := Option.some.inj hout
      rw [if_pos rfl, skips_blockType.behind hrest hbytes htype]
      exact ⟨_, rfl, Body.passes_loop hctx hle hrest hkind⟩
  | call tail callee =>
      rw [hkind] at hfollows
      obtain ⟨rfl, hindex⟩ := hfollows
      rw [if_neg (by cases tail <;> decide), if_pos (by cases tail <;> decide)]
      exact Body.call_of hctx hrest hbytes hindex hkind hout
  | refFunc index =>
      rw [hkind] at hfollows
      obtain ⟨rfl, hindex⟩ := hfollows
      rw [State.rewriteToken, hkind] at hout
      obtain ⟨f, hf, rfl⟩ := Option.map_eq_some_iff.mp hout
      rw [if_neg (by decide), if_neg (by decide), if_pos rfl]
      exact Body.refFunc_of hsealed hrest hbytes hindex hkind hf
  | indirect =>
      rw [State.rewriteToken, hkind] at hout
      obtain rfl := Option.some.inj hout
      refine ⟨{ b with constant := none, callsGuest := true }, ?_, ?_⟩
      · rw [hkind] at hfollows
        rcases hfollows with ⟨hop, htwo⟩ | ⟨hop, hone⟩
        · have hskip := (skips_u32.repeat_ 2).behind hrest hbytes htwo
          rcases hop with rfl | rfl
          all_goals
            rw [if_neg (by decide), if_neg (by decide), if_neg (by decide), if_pos (by decide), hskip]
            rfl
        · have hskip := skips_u32.behind hrest hbytes hone
          rcases hop with rfl | rfl
          all_goals
            rw [if_neg (by decide), if_neg (by decide), if_neg (by decide), if_neg (by decide),
              if_pos (by decide), hskip]
            rfl
      · apply Body.passes_read hle hrest
        case hloop => simp [hkind]
        case hguest => simp [hkind, Kind.callsGuest]
        all_goals first | rfl | (rw [hkind]; rfl)
  | const value =>
      rw [hkind] at hfollows
      obtain ⟨rfl, hvalue⟩ := hfollows
      rw [State.rewriteToken, hkind] at hout
      obtain rfl := Option.some.inj hout
      have hbehind : (r.advance 1).rest = rest ++ more := by
        rw [Reader.rest_advance, hcons]
        rfl
      have hlength : (r.advance 1).advance rest.length = r.advance t.bytes.length := by
        rw [Reader.advance_advance, hbytes, List.length_cons, Nat.add_comm]
      rw [if_neg (by decide), if_neg (by decide), if_neg (by decide), if_neg (by decide),
        if_neg (by decide), if_pos rfl, reads_s32.of hvalue hbehind, hlength]
      refine ⟨_, rfl, ?_⟩
      apply Body.passes_read hle hrest
      case hloop => simp [hkind]
      case hguest => simp [hkind, Kind.callsGuest]
      all_goals first | rfl | (rw [hkind]; rfl)
  | bulk code =>
      rw [hkind] at hfollows
      obtain ⟨rfl, first, second, rfl, hcode, hsecond⟩ := hfollows
      rw [if_neg (by decide), if_neg (by decide), if_neg (by decide), if_neg (by decide),
        if_neg (by decide), if_neg (by decide), if_pos rfl]
      exact Body.bulk_of hle hrest hbytes hcode hsecond hkind hout
  | other =>
      rw [hkind] at hfollows
      obtain ⟨hop, himmediates⟩ := hfollows
      obtain ⟨h03, hcall, hd2, hindirect, href, h41, hfc⟩ := not_special hop
      rw [State.rewriteToken, hkind] at hout
      obtain rfl := Option.some.inj hout
      rw [if_neg h03, if_neg hcall, if_neg hd2, if_neg hindirect, if_neg href, if_neg h41, if_neg hfc,
        (skips_immediates op).behind hrest hbytes himmediates]
      refine ⟨_, rfl, ?_⟩
      apply Body.passes_read hle hrest
      case hloop => simp [hkind]
      case hguest => simp [hkind, Kind.callsGuest]
      all_goals first | rfl | (rw [hkind]; rfl)

/-- Only a reference to an import without a thunk cannot be rewritten. -/
theorem State.rewriteToken_some {s : State} {interval : BitVec 32} {scratch : Nat}
    {operand : Option (BitVec 32)} (h : ∀ index, t.kind = .refFunc index → ∃ f, s.referTo index = some f) :
    ∃ out, s.rewriteToken interval scratch operand t = some out := by
  rw [State.rewriteToken]
  cases hkind : t.kind with
  | loop | indirect | const | bulk | other => exact ⟨_, rfl⟩
  | call tail callee =>
      dsimp only
      split_ifs
      all_goals exact ⟨_, rfl⟩
  | refFunc index =>
      obtain ⟨f, hf⟩ := h index hkind
      refine ⟨[refTo f], ?_⟩
      dsimp only
      rw [hf]
      rfl

/-- What a scanner skipped behind an opcode. -/
theorem Skips.before {p : Reader → Except TypeError Reader} {L : Bytes → Prop} {op : UInt8} {tail : Bytes}
    {r₁ : Reader} (h : Skips p L) (hcons : r.rest = op :: tail) (hp : p (r.advance 1) = .ok r₁) :
    ∃ rest more, L rest ∧ r.rest = op :: rest ++ more := by
  obtain ⟨rest, hL, ⟨more, hmore⟩, -⟩ := (h _ _).mp hp
  refine ⟨rest, more, hL, ?_⟩
  rw [Reader.rest_advance, hcons, List.drop_one, List.tail_cons] at hmore
  rw [hcons, ← hmore]
  rfl

/-- The same of a parser. -/
theorem Reads.before {α : Type} {p : Parser α} {G : Grammar α} {a : α} {op : UInt8} {tail : Bytes}
    {r₁ : Reader} (h : Reads p G) (hcons : r.rest = op :: tail) (hp : p (r.advance 1) = .ok (a, r₁)) :
    ∃ rest more, G rest a ∧ r.rest = op :: rest ++ more := by
  obtain ⟨rest, hG, ⟨more, hmore⟩, -⟩ := (h _ _ _).mp hp
  refine ⟨rest, more, hG, ?_⟩
  rw [Reader.rest_advance, hcons, List.drop_one, List.tail_cons] at hmore
  rw [hcons, ← hmore]
  rfl

theorem Body.refFunc_ok {at_ : Nat} {op : UInt8} (hsealed : b.state.sealed_ = true)
    (h : b.refFunc at_ op r = .ok (b', r')) :
    ∃ index r₁ f, r.u32 = .ok (index, r₁) ∧ b.state.referTo index = some f := by
  obtain ⟨⟨index, r₁⟩, hread, h⟩ := Checks.bind_ok h
  refine ⟨index, r₁, ?_⟩
  obtain ⟨⟨f, s⟩, href, -⟩ := Checks.bind_ok h
  dsimp only at href
  rw [Body.state_copyUntil, State.reference_sealed hsealed] at href
  cases hto : b.state.referTo index with
  | none =>
      rw [hto] at href
      exact absurd href Checks.error_ne_ok
  | some f => exact ⟨f, hread, rfl⟩

theorem Body.bulk_ok {at_ : Nat} {operand : Option (BitVec 32)} (h : b.bulk ctx at_ operand r = .ok (b', r')) :
    ∃ r₁, (r.u32 >>= fun x => bulkImmediates x.1 x.2) = .ok r₁ := by
  obtain ⟨⟨code, r₁⟩, hread, h⟩ := Checks.bind_ok h
  obtain ⟨r₂, hskip, -⟩ := Checks.bind_ok h
  refine ⟨r₂, ?_⟩
  rw [hread]
  exact hskip

/-- What the rewriter accepts is an instruction, and one that it can rewrite. -/
theorem Body.instruction_ok (hsealed : b.state.sealed_ = true) (h : b.instruction ctx r = .ok (b', r')) :
    ∃ t more out, t.Valid U32 ∧ r.rest = t.bytes ++ more ∧
      b.state.rewriteToken ctx.interval ctx.scratch b.constant t = some out := by
  rcases hcons : r.rest with _ | ⟨op, tail⟩
  · rw [Body.instruction, Reader.byte_nil hcons] at h
    exact absurd h Checks.error_ne_ok
  suffices hkind : ∃ kind rest more, Follows U32 op rest kind ∧ op :: tail = op :: rest ++ more ∧
      ∀ index, kind = .refFunc index → ∃ f, b.state.referTo index = some f by
    obtain ⟨kind, rest, more, hfollows, hsplit, href⟩ := hkind
    have hsome : ∃ out, b.state.rewriteToken ctx.interval ctx.scratch b.constant ⟨op :: rest, kind⟩ =
        some out := State.rewriteToken_some href
    obtain ⟨out, hout⟩ := hsome
    exact ⟨⟨op :: rest, kind⟩, more, out, ⟨op, rest, rfl, hfollows⟩, hsplit, hout⟩
  rw [Body.instruction_cons hcons] at h
  rw [← hcons]
  split_ifs at h with h03 hcall hd2 hindirect href h41 hfc
  · subst h03
    obtain ⟨r₁, hskip, -⟩ := Checks.bind_ok h
    obtain ⟨rest, more, hL, hsplit⟩ := skips_blockType.before hcons hskip
    exact ⟨.loop, rest, more, ⟨rfl, hL⟩, hsplit, fun _ h => by cases h⟩
  · obtain ⟨⟨callee, r₁⟩, hread, -⟩ := Checks.bind_ok h
    obtain ⟨rest, more, hG, hsplit⟩ := reads_u32.before hcons hread
    rcases hcall with rfl | rfl
    · exact ⟨.call false callee, rest, more, ⟨rfl, hG⟩, hsplit, fun _ h => by cases h⟩
    · exact ⟨.call true callee, rest, more, ⟨rfl, hG⟩, hsplit, fun _ h => by cases h⟩
  · subst hd2
    obtain ⟨index, r₁, f, hread, hf⟩ := Body.refFunc_ok (b := { b with constant := none }) hsealed h
    obtain ⟨rest, more, hG, hsplit⟩ := reads_u32.before hcons hread
    refine ⟨.refFunc index, rest, more, ⟨rfl, hG⟩, hsplit, fun index' h => ?_⟩
    cases h
    exact ⟨f, hf⟩
  · obtain ⟨r₁, hskip, -⟩ := Checks.bind_ok h
    obtain ⟨rest, more, hL, hsplit⟩ := (skips_u32.repeat_ 2).before hcons hskip
    exact ⟨.indirect, rest, more, .inl ⟨hindirect, hL⟩, hsplit, fun _ h => by cases h⟩
  · obtain ⟨r₁, hskip, -⟩ := Checks.bind_ok h
    obtain ⟨rest, more, hL, hsplit⟩ := skips_u32.before hcons hskip
    exact ⟨.indirect, rest, more, .inr ⟨href, hL⟩, hsplit, fun _ h => by cases h⟩
  · subst h41
    obtain ⟨⟨value, r₁⟩, hread, -⟩ := Checks.bind_ok h
    obtain ⟨rest, more, hG, hsplit⟩ := reads_s32.before hcons hread
    exact ⟨.const value, rest, more, ⟨rfl, hG⟩, hsplit, fun _ h => by cases h⟩
  · subst hfc
    obtain ⟨r₁, hskip⟩ := Body.bulk_ok h
    obtain ⟨rest, more, ⟨first, second, code, hrest, hcode, hsecond⟩, hsplit⟩ :=
      (reads_u32.skips skips_bulkImmediates).before hcons hskip
    exact ⟨.bulk code, rest, more, ⟨rfl, first, second, hrest, hcode, hsecond⟩, hsplit, fun _ h => by cases h⟩
  · obtain ⟨r₁, hskip, -⟩ := Checks.bind_ok h
    obtain ⟨rest, more, hL, hsplit⟩ := (skips_immediates op).before hcons hskip
    refine ⟨.other, rest, more, ⟨?_, hL⟩, hsplit, fun _ h => by cases h⟩
    simp only [specialOps, List.mem_cons, List.not_mem_nil, or_false]
    tauto

end

end Binary
