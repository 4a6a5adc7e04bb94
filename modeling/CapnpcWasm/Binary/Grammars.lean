import CapnpcWasm.Binary.Framing
import CapnpcWasm.TsSdk.Files

/-!
# Grammars

A parser of the rewriter accepts the bytes of a grammar and gives what they spell.  Since no
encoding is the beginning of another, a parser is exactly its grammar, and parsers in sequence
are their grammars in sequence.

`Reads p G` is that equivalence: `p` succeeds with a value and moves past some bytes if and
only if these bytes spell the value in `G` and are next.  The rules `Reads.pure`,
`Reads.bind` and `Reads.map` follow the parsers' own construction.
-/

namespace Binary

open TsSdk Leb

/-- A parser moves the reader, or fails. -/
abbrev Parser (α : Type) := Reader → Except TypeError (α × Reader)

/-- The bytes that spell a value. -/
abbrev Grammar (α : Type) := Bytes → α → Prop

/-- The parser succeeds exactly on readers whose rest begins with bytes of the grammar, and
consumes these bytes. -/
def Reads {α : Type} (p : Parser α) (G : Grammar α) : Prop :=
  ∀ r a r', p r = .ok (a, r') ↔ ∃ bytes, G bytes a ∧ bytes <+: r.rest ∧ r' = r.advance bytes.length

namespace Grammar

variable {α β : Type}

/-- No bytes. -/
def pure (a : α) : Grammar α := fun bytes b => bytes = [] ∧ b = a

/-- Two grammars in sequence, the second by the value of the first. -/
def bind (G : Grammar α) (H : α → Grammar β) : Grammar β := fun bytes b =>
  ∃ first second a, bytes = first ++ second ∧ G first a ∧ H a second b

end Grammar

/-! ## Numbers and names -/

/-- An unsigned encoding of at most five bytes with no bits beyond 32. -/
def U32 : Grammar Nat := fun bytes n => Encodes bytes n ∧ bytes.length ≤ 5 ∧ n < 2 ^ 32

/-- A signed encoding of at most five bytes, modulo `2 ^ 32`. -/
def S32 : Grammar (BitVec 32) := fun bytes value =>
  ∃ z, EncodesSigned bytes z ∧ bytes.length ≤ 5 ∧ value = BitVec.ofInt 32 z

/-- One byte. -/
def Byte : Grammar UInt8 := fun bytes b => bytes = [b]

namespace Reader

/-- The bytes between two positions. -/
def slice (r : Reader) (start end_ : Nat) : Bytes := (r.bytes.drop start).take (end_ - start)

/-- Reads a name for comparison. -/
def name : Parser JsString := fun r => do
  let (length, r) ← r.u32
  let after ← r.skip length
  return (decodeText (r.slice r.position after.position), after)

section

variable {r r' : Reader} {bytes more : Bytes} {α β : Type}

/-- The position counts what was read. -/
theorem position_prefix (h : bytes <+: r.rest) :
    (r.advance bytes.length).position = r.position + bytes.length := by
  refine position_advance ?_
  have hle := h.length_le
  have hlength := r.length_rest
  have hwithin := r.within
  omega

/-- What was consumed is the slice between the two positions. -/
theorem slice_advance (h : bytes <+: r.rest) :
    r.slice r.position (r.position + bytes.length) = bytes := by
  rw [slice, Nat.add_sub_cancel_left]
  obtain ⟨more, hmore⟩ := h
  have hlength := r.length_rest
  rw [← hmore, List.length_append] at hlength
  have hrest : (r.bytes.drop r.position).take (r.end_ - r.position) = r.rest := by
    rw [rest, List.drop_take]
  rw [← Nat.min_eq_left (show bytes.length ≤ r.end_ - r.position by omega), ← List.take_take, hrest,
    ← hmore, List.take_left]

end

end Reader

section

variable {α β : Type} {G : Grammar α} {H : α → Grammar β} {p : Parser α} {q : α → Parser β}
  {r r' : Reader} {bytes more : Bytes} {a : α}

/-- A parser on bytes of its grammar. -/
theorem Reads.of (h : Reads p G) (ha : G bytes a) (hrest : r.rest = bytes ++ more) :
    p r = .ok (a, r.advance bytes.length) :=
  (h _ _ _).mpr ⟨bytes, ha, ⟨more, hrest.symm⟩, rfl⟩

/-- A parser that reads nothing. -/
theorem Reads.pure (a : α) : Reads (fun r => .ok (a, r)) (.pure a) := by
  intro r b r'
  rw [Except.ok.injEq, Prod.mk.injEq]
  constructor
  · rintro ⟨rfl, rfl⟩
    exact ⟨[], ⟨rfl, rfl⟩, List.nil_prefix, r.advance_zero.symm⟩
  · rintro ⟨bytes, ⟨rfl, rfl⟩, -, rfl⟩
    exact ⟨rfl, r.advance_zero.symm⟩

/-- Parsers in sequence. -/
theorem Reads.bind (hp : Reads p G) (hq : ∀ a, Reads (q a) (H a)) :
    Reads (fun r => p r >>= fun x => q x.1 x.2) (G.bind H) := by
  intro r b r'
  constructor
  · intro h
    obtain ⟨⟨a, r₁⟩, hfirst, hsecond⟩ := Checks.bind_ok h
    obtain ⟨first, ha, hstart, rfl⟩ := (hp _ _ _).mp hfirst
    obtain ⟨more, hmore⟩ := hstart
    obtain ⟨second, hb, hnext, rfl⟩ := (hq a _ _ _).mp hsecond
    rw [Reader.rest_advance_append hmore.symm] at hnext
    refine ⟨first ++ second, ⟨first, second, a, rfl, ha, hb⟩, ?_, ?_⟩
    · rw [← hmore]
      exact (List.prefix_append_right_inj first).mpr hnext
    · rw [Reader.advance_advance, List.length_append]
  · rintro ⟨_, ⟨first, second, a, rfl, ha, hb⟩, ⟨more, hmore⟩, rfl⟩
    rw [List.append_assoc] at hmore
    have hrest := Reader.rest_advance_append hmore.symm
    show p r >>= _ = _
    rw [hp.of ha hmore.symm]
    show q a (r.advance first.length) = _
    rw [(hq a).of hb hrest, Reader.advance_advance, List.length_append]

/-- An unsigned number of at most five groups that fits. -/
theorem reads_u32 : Reads Reader.u32 U32 := by
  intro r n r'
  rw [Reader.u32_ok]
  constructor
  · rintro ⟨bytes, hstart, henc, hlength, hn, hr⟩
    exact ⟨bytes, ⟨henc, hlength, hn⟩, hstart, hr⟩
  · rintro ⟨bytes, ⟨henc, hlength, hn⟩, hstart, hr⟩
    exact ⟨bytes, hstart, henc, hlength, hn, hr⟩

theorem reads_byte : Reads Reader.byte Byte := by
  intro r b r'
  rcases hrest : r.rest with _ | ⟨b', more⟩
  · rw [Reader.byte_nil hrest]
    refine iff_of_false Checks.error_ne_ok ?_
    rintro ⟨bytes, rfl, hstart, -⟩
    cases List.prefix_nil.mp hstart
  · rw [Reader.byte_cons hrest, Except.ok.injEq, Prod.mk.injEq]
    constructor
    · rintro ⟨rfl, rfl⟩
      exact ⟨[b'], rfl, ⟨more, rfl⟩, rfl⟩
    · rintro ⟨bytes, rfl, hstart, rfl⟩
      exact ⟨(List.cons_prefix_cons.mp hstart).1.symm, rfl⟩

/-- What the signed loop accepts has the groups of a signed number. -/
theorem s32Loop_encodes {left shift : Nat} {acc value : BitVec 32}
    (h : Reader.s32Loop left shift acc r = .ok (value, r')) :
    ∃ bytes z, EncodesSigned bytes z ∧ bytes <+: r.rest ∧ bytes.length ≤ left := by
  induction left generalizing shift acc r with
  | zero => cases h
  | succ left ih =>
      obtain ⟨⟨b, r₁⟩, hbyte, h⟩ := Checks.bind_ok h
      obtain ⟨_, rfl, ⟨more, hmore⟩, rfl⟩ := (reads_byte _ _ _).mp hbyte
      have hrest := Reader.rest_advance_append hmore.symm
      dsimp only at h
      split at h
      · next hnext =>
        obtain ⟨bytes, z, henc, hstart, hlength⟩ := ih h
        rw [hrest] at hstart
        have hcontinues : continues b = true := by
          rw [← Bool.not_eq_false, ← Reader.continues_eq]
          exact hnext
        refine ⟨b :: bytes, _, .next hcontinues henc, ?_, Nat.succ_le_succ hlength⟩
        rw [← hmore]
        exact List.cons_prefix_cons.mpr ⟨rfl, hstart⟩
      · next hlast =>
        exact ⟨[b], _, .last ((Reader.continues_eq b).mp (not_not.mp hlast)), ⟨more, hmore⟩,
          Nat.succ_le_succ (Nat.zero_le _)⟩

/-- A signed number. -/
theorem reads_s32 : Reads Reader.s32 S32 := by
  intro r value r'
  constructor
  · intro h
    obtain ⟨bytes, z, henc, hstart, hlength⟩ := s32Loop_encodes h
    rw [Reader.s32_ok henc hstart hlength] at h
    cases h
    exact ⟨bytes, ⟨z, henc, hlength, rfl⟩, hstart, rfl⟩
  · rintro ⟨bytes, ⟨z, henc, hlength, rfl⟩, hstart, rfl⟩
    exact Reader.s32_ok henc hstart hlength

/-- A skip that fits, with the bytes it passes over. -/
theorem skip_ok {count : Nat} : r.skip count = .ok r' ↔
    ∃ bytes, bytes.length = count ∧ bytes <+: r.rest ∧ r' = r.advance count := by
  rw [Reader.skip]
  have hlength := r.length_rest
  split
  · next hover =>
    refine iff_of_false Checks.error_ne_ok ?_
    rintro ⟨bytes, rfl, hstart, -⟩
    have hle := hstart.length_le
    have hwithin := r.within
    omega
  · next hfits =>
    rw [Except.ok.injEq]
    constructor
    · rintro rfl
      refine ⟨r.rest.take count, ?_, List.take_prefix _ _, ?_⟩
      · rw [List.length_take]
        omega
      · exact Reader.eq_of rfl (Reader.position_advance (Nat.le_of_not_lt hfits)).symm rfl
    · rintro ⟨bytes, -, -, rfl⟩
      exact Reader.eq_of rfl (Reader.position_advance (Nat.le_of_not_lt hfits)).symm rfl

/-- A value made from what was read. -/
theorem Reads.map {f : α → β} (h : Reads p G) :
    Reads (fun r => p r >>= fun x => .ok (f x.1, x.2)) (fun bytes b => ∃ a, G bytes a ∧ b = f a) := by
  intro r b r'
  constructor
  · intro hmap
    obtain ⟨⟨a, r₁⟩, ha, hb⟩ := Checks.bind_ok hmap
    obtain ⟨rfl, rfl⟩ := Prod.mk.inj (Except.ok.inj hb)
    obtain ⟨bytes, ha, hstart, hr⟩ := (h _ _ _).mp ha
    exact ⟨bytes, ⟨a, ha, rfl⟩, hstart, hr⟩
  · rintro ⟨bytes, ⟨a, ha, rfl⟩, hstart, hr⟩
    show p r >>= _ = _
    rw [(h _ _ _).mpr ⟨bytes, ha, hstart, hr⟩]
    rfl

end

end Binary
