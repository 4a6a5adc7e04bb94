import CapnpcWasm.Lib.Checks
import CapnpcWasm.Lib.Leb
import CapnpcWasm.TsSdk.Validate

/-!
# Reading a module

The `Reader` of `sdk/typescript/rewriter.ts`: bounds-checked reads over one section or body.
What is left to read decides what an operation gives, and how far it goes.
-/

namespace Binary

open TsSdk Leb

abbrev Bytes := List UInt8

/-- Bounds-checked reads over one section or body. -/
structure Reader where
  bytes : Bytes
  position : Nat
  end_ : Nat
  within : position ≤ end_
  fits : end_ ≤ bytes.length

namespace Reader

/-! ## Operations -/

def byte (r : Reader) : Except TypeError (UInt8 × Reader) :=
  if h : r.position < r.end_ then
    have hlt : r.position < r.bytes.length := Nat.lt_of_lt_of_le h r.fits
    .ok (r.bytes[r.position], { r with position := r.position + 1, within := h })
  else .error (typeError "truncated Wasm section")

/-- The loop of `u32`, with the bytes that may still follow. -/
def u32Loop : Nat → Nat → Reader → Except TypeError (Nat × Reader)
  | 0, _, _ => .error (typeError "invalid Wasm u32 encoding")
  | left + 1, value, r => do
      let (byte, r) ← r.byte
      let i := 4 - left
      if i = 4 ∧ 15 < byte.toNat then .error (typeError "invalid Wasm u32 encoding")
      else
        let value := value + (byte &&& 127).toNat * 2 ^ (7 * i)
        if byte &&& 128 = 0 then .ok (value, r) else u32Loop left value r

/-- A u32 of at most five bytes with no bits beyond 32. -/
def u32 (r : Reader) : Except TypeError (Nat × Reader) := u32Loop 5 0 r

/-- The loop of `s32`.  The shift is 35 once five bytes were read. -/
def s32Loop : Nat → Nat → BitVec 32 → Reader → Except TypeError (BitVec 32 × Reader)
  | 0, _, _, _ => .error (typeError "invalid Wasm integer encoding")
  | left + 1, shift, value, r => do
      let (byte, r) ← r.byte
      let value := value ||| (BitVec.ofNat 32 (byte &&& 127).toNat <<< shift)
      let shift := shift + 7
      if byte &&& 128 ≠ 0 then s32Loop left shift value r
      else
        .ok (if shift < 32 ∧ byte &&& 64 ≠ 0 then value ||| (BitVec.allOnes 32 <<< shift) else value,
          r)

/-- A signed i32 of at most five bytes. -/
def s32 (r : Reader) : Except TypeError (BitVec 32 × Reader) := s32Loop 5 0 0 r

/-- Skips an integer of at most so many bytes. -/
def leb : Nat → Reader → Except TypeError Reader
  | 0, _ => .error (typeError "invalid Wasm integer encoding")
  | limit + 1, r => do
      let (byte, r) ← r.byte
      if byte &&& 128 = 0 then .ok r else leb limit r

def skip (r : Reader) (count : Nat) : Except TypeError Reader :=
  if h : r.end_ < r.position + count then .error (typeError "truncated Wasm section")
  else .ok { r with position := r.position + count, within := Nat.le_of_not_lt h }

/-! ## What is left to read -/

/-- The bytes between the position and the end. -/
def rest (r : Reader) : Bytes := (r.bytes.take r.end_).drop r.position

/-- So many bytes further, at most at the end. -/
def advance (r : Reader) (count : Nat) : Reader :=
  { r with position := min (r.position + count) r.end_, within := Nat.min_le_right _ _ }

section

variable {r r' : Reader} {b : UInt8} {bytes more : Bytes} {n value left : Nat}

theorem eq_of (hbytes : r.bytes = r'.bytes) (hposition : r.position = r'.position)
    (hend : r.end_ = r'.end_) : r = r' := by
  cases r
  cases r'
  cases hbytes
  cases hposition
  cases hend
  rfl

@[simp] theorem advance_zero (r : Reader) : r.advance 0 = r :=
  eq_of rfl (Nat.min_eq_left r.within) rfl

/-- Within what is left, a reader goes exactly as far. -/
theorem position_advance {k : Nat} (h : r.position + k ≤ r.end_) :
    (r.advance k).position = r.position + k :=
  Nat.min_eq_left h

theorem advance_advance (k n : Nat) : (r.advance k).advance n = r.advance (k + n) := by
  refine eq_of rfl ?_ rfl
  show min (min (r.position + k) r.end_ + n) r.end_ = min (r.position + (k + n)) r.end_
  omega

theorem length_rest (r : Reader) : r.rest.length = r.end_ - r.position := by
  have hfits := r.fits
  rw [rest, List.length_drop, List.length_take, Nat.min_eq_left hfits]

theorem rest_advance (k : Nat) : (r.advance k).rest = r.rest.drop k := by
  by_cases h : r.position + k ≤ r.end_
  · show (r.bytes.take r.end_).drop (r.advance k).position = _
    rw [position_advance h, rest, List.drop_drop]
  · have hposition : (r.advance k).position = r.end_ := Nat.min_eq_right (Nat.le_of_not_le h)
    have hlong : r.rest.length ≤ k := by
      rw [length_rest]
      omega
    rw [List.drop_of_length_le hlong, List.eq_nil_iff_length_eq_zero, length_rest, hposition]
    exact Nat.sub_self r.end_

theorem rest_advance_append (h : r.rest = bytes ++ more) : (r.advance bytes.length).rest = more := by
  rw [rest_advance, h, List.drop_left]

theorem rest_eq_nil : r.rest = [] ↔ r.end_ ≤ r.position := by
  have hfits := r.fits
  rw [rest, List.drop_eq_nil_iff, List.length_take, Nat.min_eq_left hfits]

theorem byte_nil (h : r.rest = []) : r.byte = .error (typeError "truncated Wasm section") := by
  rw [byte, dif_neg (Nat.not_lt.mpr (rest_eq_nil.mp h))]

theorem byte_cons (h : r.rest = b :: more) : r.byte = .ok (b, r.advance 1) := by
  have hlt : r.position < r.end_ := by
    refine Nat.lt_of_not_le fun hle => ?_
    rw [rest_eq_nil.mpr hle] at h
    cases h
  have hlength : r.position < r.bytes.length := Nat.lt_of_lt_of_le hlt r.fits
  have hb : r.bytes[r.position] = b := by
    have hfirst : r.rest[0]? = some b := by rw [h]; rfl
    rw [rest, List.getElem?_drop, Nat.add_zero, List.getElem?_take, if_pos hlt,
      List.getElem?_eq_getElem hlength] at hfirst
    exact Option.some.inj hfirst
  rw [byte, dif_pos hlt]
  simp only [hb]
  exact congrArg (Except.ok <| Prod.mk b ·) (eq_of rfl (position_advance hlt).symm rfl)

/-! ## Numbers -/

theorem continues_eq (b : UInt8) : b &&& 128 = 0 ↔ continues b = false := by
  rw [continues, bne_eq_false_iff_eq]

/-- One more group before an encoding, and the room it takes. -/
theorem next_group {m left : Nat} (b : UInt8) (hpos : 0 < left) :
    group b + 128 * m < 2 ^ (7 * (left + 1) - 3) ↔ m < 2 ^ (7 * left - 3) := by
  have hgroup := group_lt b
  have hpow : 2 ^ (7 * (left + 1) - 3) = 128 * 2 ^ (7 * left - 3) := by
    rw [show 7 * (left + 1) - 3 = 7 + (7 * left - 3) by omega, Nat.pow_add]
  rw [hpow]
  omega

/-- The loop of `u32` accepts an encoding of what the bytes before it leave room for. -/
theorem u32Loop_ok (hleft : left ≤ 5) : u32Loop left value r = .ok (n, r') ↔
    ∃ bytes m, bytes <+: r.rest ∧ Encodes bytes m ∧ bytes.length ≤ left ∧
      m < 2 ^ (7 * left - 3) ∧ n = value + m * 2 ^ (7 * (5 - left)) ∧
      r' = r.advance bytes.length := by
  induction left generalizing value r with
  | zero =>
      refine iff_of_false nofun ?_
      rintro ⟨bytes, m, -, henc, hlength, -⟩
      exact henc.ne_nil (List.length_eq_zero_iff.mp (Nat.le_zero.mp hlength))
  | succ left ih =>
      rw [u32Loop]
      rcases hrest : r.rest with _ | ⟨b, more⟩
      · rw [byte_nil hrest]
        refine iff_of_false nofun ?_
        rintro ⟨bytes, m, hstart, henc, -⟩
        exact henc.ne_nil (List.prefix_nil.mp hstart)
      rw [byte_cons hrest]
      show (if _ then _ else if _ then _ else _) = _ ↔ _
      have hshift : 5 - (left + 1) = 4 - left := by omega
      rw [hshift]
      by_cases hlast : continues b = false
      · -- The encoding is this byte alone.
        have hb : b.toNat < 128 := by
          rw [Bool.eq_false_iff, ne_eq, continues_iff] at hlast
          omega
        have hgroup : group b = b.toNat := by rw [group_eq, Nat.mod_eq_of_lt hb]
        have hone : (∃ bytes m, bytes <+: b :: more ∧ Encodes bytes m ∧ bytes.length ≤ left + 1 ∧
            m < 2 ^ (7 * (left + 1) - 3) ∧ n = value + m * 2 ^ (7 * (4 - left)) ∧
            r' = r.advance bytes.length) ↔ group b < 2 ^ (7 * (left + 1) - 3) ∧
              n = value + group b * 2 ^ (7 * (4 - left)) ∧ r' = r.advance 1 := by
          constructor
          · rintro ⟨bytes, m, ⟨rest, hstart⟩, henc, -, hm, hn, hr⟩
            obtain ⟨rfl, rfl, -⟩ := henc.append_inj (.last hlast) hstart
            exact ⟨hm, hn, hr⟩
          · rintro ⟨hm, hn, hr⟩
            exact ⟨[b], group b, ⟨more, rfl⟩, .last hlast, Nat.succ_le_succ (Nat.zero_le _), hm, hn, hr⟩
        rw [hone, if_pos ((continues_eq b).mpr hlast)]
        split
        · next hover =>
          refine iff_of_false nofun fun hsome => ?_
          obtain rfl : left = 0 := by omega
          have hsmall : group b < 16 := hsome.1
          omega
        · next hover =>
          have hroom : group b < 2 ^ (7 * (left + 1) - 3) := by
            rcases Nat.eq_zero_or_pos left with rfl | hpos
            · show group b < 16
              omega
            · have hpow : 2 ^ 11 ≤ 2 ^ (7 * (left + 1) - 3) := Nat.pow_le_pow_right (by decide) (by omega)
              omega
          rw [Except.ok.injEq, Prod.mk.injEq, eq_comm, eq_comm (b := r')]
          exact (and_iff_right hroom).symm
      · -- More bytes follow.
        have hnext : continues b = true := by simpa using hlast
        have hbig : ¬(b &&& 128 = 0) := fun hzero => hlast ((continues_eq b).mp hzero)
        rw [if_neg hbig]
        have hcons : (∃ bytes m, bytes <+: b :: more ∧ Encodes bytes m ∧ bytes.length ≤ left + 1 ∧
            m < 2 ^ (7 * (left + 1) - 3) ∧ n = value + m * 2 ^ (7 * (4 - left)) ∧
            r' = r.advance bytes.length) ↔
            ∃ bytes m, bytes <+: more ∧ Encodes bytes m ∧ bytes.length ≤ left ∧
              m < 2 ^ (7 * left - 3) ∧
              n = value + group b * 2 ^ (7 * (4 - left)) + m * 2 ^ (7 * (5 - left)) ∧
              r' = (r.advance 1).advance bytes.length := by
          have hvalue : ∀ m, 0 < left → value + (group b + 128 * m) * 2 ^ (7 * (4 - left)) =
              value + group b * 2 ^ (7 * (4 - left)) + m * 2 ^ (7 * (5 - left)) := by
            intro m hpos
            have hpow : 2 ^ (7 * (5 - left)) = 128 * 2 ^ (7 * (4 - left)) := by
              rw [show 7 * (5 - left) = 7 + 7 * (4 - left) by omega, Nat.pow_add]
            rw [hpow]
            ring
          constructor
          · rintro ⟨bytes, m, hstart, henc, hlength, hm, hn, hr⟩
            cases henc with
            | last hfalse =>
                obtain ⟨rfl, -⟩ := List.cons_prefix_cons.mp hstart
                exact absurd hfalse hlast
            | @next b' tail m henext henc =>
                obtain ⟨rfl, htail⟩ := List.cons_prefix_cons.mp hstart
                have htaillength : tail.length ≤ left := Nat.le_of_succ_le_succ hlength
                have hpos : 0 < left :=
                  Nat.lt_of_lt_of_le (List.length_pos_of_ne_nil henc.ne_nil) htaillength
                refine ⟨tail, m, htail, henc, htaillength, (next_group _ hpos).mp hm, ?_, ?_⟩
                · rw [hn, hvalue m hpos]
                · rw [hr, advance_advance, List.length_cons, Nat.add_comm]
          · rintro ⟨tail, m, htail, henc, hlength, hm, hn, hr⟩
            have hpos : 0 < left :=
              Nat.lt_of_lt_of_le (List.length_pos_of_ne_nil henc.ne_nil) hlength
            refine ⟨b :: tail, _, List.cons_prefix_cons.mpr ⟨rfl, htail⟩, .next hnext henc,
              Nat.succ_le_succ hlength, (next_group _ hpos).mpr hm, ?_, ?_⟩
            · rw [hn, hvalue m hpos]
            · rw [hr, advance_advance, List.length_cons, Nat.add_comm]
        have htail : (r.advance 1).rest = more := by
          rw [rest_advance, hrest]
          rfl
        rw [hcons]
        split
        · next hover =>
          obtain rfl : left = 0 := by omega
          refine iff_of_false nofun ?_
          rintro ⟨bytes, m, -, henc, hlength, -⟩
          exact henc.ne_nil (List.length_eq_zero_iff.mp (Nat.le_zero.mp hlength))
        · have hih := @ih (r.advance 1) (value + group b * 2 ^ (7 * (4 - left))) (by omega)
          rw [htail] at hih
          exact hih

/-- A number is read exactly when the bytes left begin with an encoding of it of at most five
bytes, minimal or not, that has no bits beyond 32. -/
theorem u32_ok : r.u32 = .ok (n, r') ↔
    ∃ bytes, bytes <+: r.rest ∧ Encodes bytes n ∧ bytes.length ≤ 5 ∧ n < 2 ^ 32 ∧
      r' = r.advance bytes.length := by
  rw [u32, u32Loop_ok (Nat.le_refl 5)]
  constructor
  · rintro ⟨bytes, m, hstart, henc, hlength, hm, hn, hr⟩
    obtain rfl : n = m := by omega
    exact ⟨bytes, hstart, henc, hlength, hm, hr⟩
  · rintro ⟨bytes, hstart, henc, hlength, hn, hr⟩
    exact ⟨bytes, n, hstart, henc, hlength, hn, by omega, hr⟩

/-- A group added above the bits read so far. -/
theorem or_group {acc : BitVec 32} {k shift : Nat} (hacc : acc.toNat < 2 ^ shift)
    (hshift : shift = 0 ∨ shift = 7 ∨ shift = 14 ∨ shift = 21 ∨ shift = 28) :
    (acc ||| (BitVec.ofNat 32 k <<< shift)).toNat = (acc.toNat + k * 2 ^ shift) % 2 ^ 32 := by
  have hor : ∀ m, acc.toNat ||| 2 ^ shift * m = acc.toNat + 2 ^ shift * m := by
    intro m
    rw [Nat.or_comm, ← Nat.two_pow_add_eq_or_of_lt hacc, Nat.add_comm]
  have hmod : (k % 2 ^ 32) <<< shift % 2 ^ 32 = 2 ^ shift * (k % 2 ^ (32 - shift)) := by
    rw [Nat.shiftLeft_eq]
    rcases hshift with rfl | rfl | rfl | rfl | rfl
    all_goals omega
  rw [BitVec.toNat_or, BitVec.toNat_shiftLeft, BitVec.toNat_ofNat, hmod, hor]
  rcases hshift with rfl | rfl | rfl | rfl | rfl
  all_goals omega

/-- What the last group makes of the bits read so far. -/
theorem sign_extend {acc value : BitVec 32} {shift : Nat} (b : UInt8) (hacc : acc.toNat < 2 ^ shift)
    (hshift : shift = 0 ∨ shift = 7 ∨ shift = 14 ∨ shift = 21 ∨ shift = 28)
    (hvalue : value = acc ||| (BitVec.ofNat 32 (group b) <<< shift)) :
    (if shift + 7 < 32 ∧ b &&& 64 ≠ 0 then value ||| (BitVec.allOnes 32 <<< (shift + 7)) else value) =
      BitVec.ofInt 32 (acc.toNat + (group b - if negative b then 128 else 0) * 2 ^ shift) := by
  have hgroup := group_lt b
  have hnat : value.toNat = (acc.toNat + group b * 2 ^ shift) % 2 ^ 32 := by
    rw [hvalue]
    exact or_group hacc hshift
  have hnegative : b &&& 64 ≠ 0 ↔ negative b = true := by
    rw [negative, bne_iff_ne]
  refine BitVec.eq_of_toNat_eq ?_
  rw [BitVec.toNat_ofInt]
  split
  · next hsign =>
    have hall : BitVec.allOnes 32 = BitVec.ofNat 32 (2 ^ 32 - 1) := rfl
    have hsmall : value.toNat < 2 ^ (shift + 7) := by
      rw [hnat]
      rcases hshift with rfl | rfl | rfl | rfl | rfl
      all_goals omega
    rw [if_pos (hnegative.mp hsign.2), hall, or_group hsmall (by omega), hnat]
    rcases hshift with rfl | rfl | rfl | rfl | rfl
    all_goals omega
  · next hsign =>
    rw [hnat]
    by_cases hneg : negative b = true
    · obtain rfl : shift = 28 := by
        have hlarge : ¬shift + 7 < 32 := fun hlt => hsign ⟨hlt, hnegative.mpr hneg⟩
        omega
      rw [if_pos hneg]
      omega
    · rw [if_neg hneg]
      rcases hshift with rfl | rfl | rfl | rfl | rfl
      all_goals omega

/-- The loop of `s32` reads what a signed encoding spells above the bits read so far. -/
theorem s32Loop_ok {shift : Nat} {acc : BitVec 32} {z : Int} (henc : EncodesSigned bytes z)
    (hleft : left ≤ 5) (hshift : shift = 7 * (5 - left)) (hacc : acc.toNat < 2 ^ shift)
    (hstart : bytes <+: r.rest) (hlength : bytes.length ≤ left) :
    s32Loop left shift acc r =
      .ok (BitVec.ofInt 32 (acc.toNat + z * 2 ^ shift), r.advance bytes.length) := by
  induction henc generalizing left shift acc r with
  | @last b hlast =>
      obtain ⟨more, hrest⟩ := hstart
      obtain ⟨left, rfl⟩ : ∃ k, left = k + 1 := ⟨left - 1, by simp at hlength; omega⟩
      rw [s32Loop, byte_cons hrest.symm]
      show (if _ then _ else _) = _
      rw [if_neg (not_not.mpr ((continues_eq b).mpr hlast))]
      have hsign := sign_extend b hacc (by omega) rfl
      rw [group] at hsign
      rw [hsign]
      rfl
  | @next b tail z hnext henc ih =>
      obtain ⟨more, hrest⟩ := hstart
      have hpos := List.length_pos_of_ne_nil henc.ne_nil
      rw [List.length_cons] at hlength
      obtain ⟨left, rfl⟩ : ∃ k, left = k + 1 := ⟨left - 1, by omega⟩
      have hgroup := group_lt b
      have hnat := @or_group acc (group b) shift hacc (by omega)
      have hsum : (acc.toNat + group b * 2 ^ shift) % 2 ^ 32 = acc.toNat + group b * 2 ^ shift ∧
          acc.toNat + group b * 2 ^ shift < 2 ^ (shift + 7) := by
        have hcases : shift = 0 ∨ shift = 7 ∨ shift = 14 ∨ shift = 21 := by omega
        rcases hcases with rfl | rfl | rfl | rfl
        all_goals omega
      rw [hsum.1] at hnat
      have htail : (r.advance 1).rest = tail ++ more := by
        rw [rest_advance, ← hrest]
        rfl
      have hih := @ih (r.advance 1) left (shift + 7) (acc ||| (BitVec.ofNat 32 (group b) <<< shift))
        (by omega) (by omega) (by rw [hnat]; exact hsum.2) ⟨more, htail.symm⟩ (by omega)
      rw [s32Loop, byte_cons hrest.symm]
      show (if _ then _ else _) = _
      rw [if_pos fun hzero => by rw [(continues_eq b).mp hzero] at hnext; cases hnext]
      refine hih.trans ?_
      rw [hnat, advance_advance, List.length_cons, Nat.add_comm 1]
      have hvalue : ((acc.toNat + group b * 2 ^ shift : Nat) : Int) + z * 2 ^ (shift + 7) =
          acc.toNat + (group b + 128 * z) * 2 ^ shift := by
        push_cast
        ring
      rw [hvalue]

/-- A signed encoding of at most five bytes is read as the number it spells, modulo `2 ^ 32`. -/
theorem s32_ok {z : Int} (henc : EncodesSigned bytes z) (hstart : bytes <+: r.rest)
    (hlength : bytes.length ≤ 5) : r.s32 = .ok (BitVec.ofInt 32 z, r.advance bytes.length) := by
  have hloop := @s32Loop_ok r bytes 5 0 0 z henc (Nat.le_refl 5) rfl (by decide) hstart hlength
  rw [s32, hloop]
  have hvalue : (((0 : BitVec 32).toNat : Nat) : Int) + z * 2 ^ 0 = z := by simp
  rw [hvalue]

end

end Reader

end Binary
