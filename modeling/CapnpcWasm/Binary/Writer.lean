import CapnpcWasm.Binary.Reader
import CapnpcWasm.Lib.LinearMemory

/-!
# Writing a module

The `Writer` of `sdk/typescript/rewriter.ts`: output as parts and a run of pending bytes, with
its length beside them.  A slot is a part whose contents are known later.

The structure carries that the length is the number of bytes, so every operation proves it
once and `finish` fills an array of exactly the size it needs (`Writer.finish_eq`).  What an
operation writes is `Writer.Adds`, which composes.  The numbers are held to the codec of
`Lib/Leb`: the bytes of `u32` and `s32` are the shortest ones for the value.
-/

namespace Binary

open TsSdk Leb

/-! ## Numbers as bytes -/

/-- `leb(value)`, and what `u32` writes. -/
def leb (value : Nat) : Bytes :=
  let byte := value &&& 127
  if 0 < value / 128 then UInt8.ofNat (byte ||| 128) :: leb (value / 128) else [UInt8.ofNat byte]
termination_by value
decreasing_by omega

section

variable (value : BitVec 32)

/-- An arithmetic shift divides, rounding down. -/
theorem toInt_shift : (value.sshiftRight 7).toInt = value.toInt / 128 := by
  rw [BitVec.toInt_sshiftRight, Int.shiftRight_eq_div_pow]
  rfl

/-- The low seven bits are the remainder of that division. -/
theorem low_toInt : ((value &&& 127).toNat : Int) = value.toInt % 128 := by
  have hand : (value &&& 127).toNat = value.toNat % 128 := by
    rw [BitVec.toNat_and]
    exact Nat.and_two_pow_sub_one_eq_mod _ 7
  rw [hand, BitVec.toInt_eq_toNat_bmod, Int.bmod_def]
  split
  all_goals omega

/-- Bit 6 is the sign of a group. -/
theorem low_sign : (value &&& 127) &&& 64 = 0 ↔ (value &&& 127).toNat < 64 := by
  have hall : ∀ n : Fin 128, (BitVec.ofNat 32 n.val &&& 64 = 0) = (n.val < 64) := by
    intro n
    rw [eq_iff_iff]
    revert n
    decide +kernel
  have hlt : (value &&& 127).toNat < 128 := by
    have hlow := low_toInt value
    omega
  have hlow := hall ⟨(value &&& 127).toNat, hlt⟩
  dsimp only at hlow
  rw [BitVec.ofNat_toNat, BitVec.setWidth_eq] at hlow
  exact iff_of_eq hlow

/-- Bit 7 says that more groups follow. -/
theorem low_high : ((value &&& 127) ||| 128).toNat = (value &&& 127).toNat + 128 := by
  have hlt : (value &&& 127).toNat < 2 ^ 7 := by
    have hlow := low_toInt value
    omega
  have hor := Nat.two_pow_add_eq_or_of_lt hlt 1
  rw [BitVec.toNat_or, Nat.or_comm, Nat.add_comm]
  exact hor.symm

/-- The bits above the lowest seven are the sign alone. -/
def signOnly : Prop :=
  (value.sshiftRight 7 = 0 ∧ (value &&& 127) &&& 64 = 0) ∨
    (value.sshiftRight 7 = BitVec.allOnes 32 ∧ (value &&& 127) &&& 64 ≠ 0)

instance : Decidable (signOnly value) := inferInstanceAs (Decidable (_ ∨ _))

/-- Nothing but the sign is left where the value fits in one group. -/
theorem signOnly_iff : signOnly value ↔ -64 ≤ value.toInt ∧ value.toInt < 64 := by
  have hshift := toInt_shift value
  have hlow := low_toInt value
  have hzero : value.sshiftRight 7 = 0 ↔ value.toInt / 128 = 0 := by
    rw [← hshift, ← BitVec.toInt_inj]
    rfl
  have hones : value.sshiftRight 7 = BitVec.allOnes 32 ↔ value.toInt / 128 = -1 := by
    rw [← hshift, ← BitVec.toInt_inj]
    rfl
  rw [signOnly, hzero, hones, ne_eq, low_sign]
  omega

end

/-- What `s32` writes. -/
def signedLeb (value : BitVec 32) : Bytes :=
  if signOnly value then [UInt8.ofNat (value &&& 127).toNat]
  else UInt8.ofNat ((value &&& 127) ||| 128).toNat :: signedLeb (value.sshiftRight 7)
termination_by value.toInt.natAbs
decreasing_by
  next h =>
    have hsmall := (not_congr (signOnly_iff value)).mp h
    have hshift := toInt_shift value
    omega

/-- The bytes of `leb` are the shortest encoding. -/
theorem leb_eq (value : Nat) : leb value = unsigned value := by
  have hand : value &&& 127 = value % 128 := Nat.and_two_pow_sub_one_eq_mod value 7
  have hor : value % 128 ||| 128 = value % 128 + 128 := by
    have hlt : value % 128 < 2 ^ 7 := Nat.mod_lt _ (by decide)
    have := Nat.two_pow_add_eq_or_of_lt hlt 1
    rw [Nat.or_comm, Nat.add_comm]
    exact this.symm
  rw [leb, unsigned, hand, hor]
  by_cases h : value / 128 = 0
  · rw [dif_pos h, if_neg (by omega)]
  · rw [dif_neg h, if_pos (Nat.pos_of_ne_zero h), leb_eq (value / 128)]
termination_by value
decreasing_by omega

/-- A number is written as a signed encoding of it. -/
theorem encodes_signedLeb (value : BitVec 32) : EncodesSigned (signedLeb value) value.toInt := by
  have hlow := low_toInt value
  have hlt : (value &&& 127).toNat < 128 := by omega
  rw [signedLeb]
  split
  · next h =>
    obtain ⟨hmin, hmax⟩ := (signOnly_iff value).mp h
    obtain ⟨hgroup, hlast⟩ := group_low hlt
    have hvalue : value.toInt = group (UInt8.ofNat (value &&& 127).toNat) -
        if negative (UInt8.ofNat (value &&& 127).toNat) then 128 else 0 := by
      have hsign := negative_iff (UInt8.ofNat (value &&& 127).toNat)
      rw [hgroup] at hsign ⊢
      split
      · next hneg =>
        have := hsign.mp hneg
        omega
      · next hneg =>
        have := (not_congr hsign).mp hneg
        omega
    rw [hvalue]
    exact .last hlast
  · next h =>
    have hsmall := (not_congr (signOnly_iff value)).mp h
    have hshift := toInt_shift value
    rw [low_high]
    obtain ⟨hgroup, hnext⟩ := group_high hlt
    have hrest := encodes_signedLeb (value.sshiftRight 7)
    have hvalue : value.toInt = group (UInt8.ofNat ((value &&& 127).toNat + 128)) +
        128 * (value.sshiftRight 7).toInt := by
      rw [hgroup, hshift]
      omega
    rw [hvalue]
    exact .next hnext hrest
termination_by value.toInt.natAbs
decreasing_by omega

/-- A number that needs so many groups and a sign is written in as many bytes. -/
theorem length_signedLeb {k : Nat} (value : BitVec 32)
    (h : -(64 * 128 ^ k) ≤ value.toInt ∧ value.toInt < 64 * 128 ^ k) :
    (signedLeb value).length ≤ k + 1 := by
  induction k generalizing value with
  | zero =>
      rw [signedLeb, if_pos ((signOnly_iff value).mpr (by simpa using h))]
      rfl
  | succ k ih =>
      rw [signedLeb]
      split
      · exact Nat.succ_le_succ (Nat.zero_le _)
      · refine Nat.succ_le_succ (ih _ ?_)
        have hpow : (128 : Int) ^ (k + 1) = 128 * 128 ^ k := by ring
        rw [toInt_shift]
        rw [hpow] at h
        omega

/-! ## Parts -/

/-- Collects output as references to input ranges plus small encoded runs. -/
structure Writer where
  parts : List Bytes
  pending : Bytes
  length : Nat
  sound : length = parts.flatten.length + pending.length

/-- The parts of a writer are copied into the output, one after the other.  `none` is the
`RangeError` of a part that does not fit. -/
def setParts : List Bytes → Nat → Bytes → Option Bytes
  | [], _, output => some output
  | part :: parts, offset, output => do
      let output ← LinearMemory.store output offset part
      setParts parts (offset + part.length) output

namespace Writer

/-- `new Writer()`. -/
def empty : Writer := ⟨[], [], 0, rfl⟩

/-- The pending bytes become a part. -/
def flush (w : Writer) : Writer :=
  if w.pending = [] then w
  else
    { parts := w.parts ++ [w.pending]
      pending := []
      length := w.length
      sound := by
        rw [w.sound, List.flatten_append, List.length_append, List.flatten_singleton]
        rfl }

@[simp] theorem pending_flush (w : Writer) : w.flush.pending = [] := by
  rw [flush]
  split
  · next h => exact h
  · rfl

@[simp] theorem length_flush (w : Writer) : w.flush.length = w.length := by
  rw [flush]
  split <;> rfl

/-- Flushing moves bytes and adds none. -/
theorem sound_flush (w : Writer) : w.length = w.flush.parts.flatten.length := by
  have hsound := w.flush.sound
  rwa [length_flush, pending_flush] at hsound

/-- One byte, pending. -/
def byte (w : Writer) (value : UInt8) : Writer where
  parts := w.parts
  pending := w.pending ++ [value]
  length := w.length + 1
  sound := by
    rw [w.sound, List.length_append]
    rfl

/-- Bytes become a part of their own. -/
def bytes (w : Writer) (data : Bytes) : Writer :=
  if data = [] then w
  else
    { parts := w.flush.parts ++ [data]
      pending := []
      length := w.length + data.length
      sound := by
        rw [sound_flush, List.flatten_append, List.length_append, List.flatten_singleton]
        rfl }

/-- An unsigned number of 32 bits. -/
def u32 (w : Writer) (value : Nat) : Writer :=
  let low := value &&& 127
  let w := w.byte (UInt8.ofNat (if 0 < value / 128 then low ||| 128 else low))
  if 0 < value / 128 then w.u32 (value / 128) else w
termination_by value
decreasing_by omega

/-- A signed number of 32 bits. -/
def s32 (w : Writer) (value : BitVec 32) : Writer :=
  if signOnly value then w.byte (UInt8.ofNat (value &&& 127).toNat)
  else (w.byte (UInt8.ofNat ((value &&& 127) ||| 128).toNat)).s32 (value.sshiftRight 7)
termination_by value.toInt.natAbs
decreasing_by
  next h =>
    have hsmall := (not_congr (signOnly_iff value)).mp h
    have hshift := toInt_shift value
    omega

/-- The parts of another writer follow. -/
def append (w other : Writer) : Writer where
  parts := w.flush.parts ++ other.flush.parts
  pending := []
  length := w.length + other.length
  sound := by
    rw [sound_flush, sound_flush, List.flatten_append, List.length_append]
    rfl

/-- Reserves a place for output that is only known later. -/
def slot (w : Writer) : Nat × Writer :=
  (w.flush.parts.length,
    { parts := w.flush.parts ++ [[]]
      pending := []
      length := w.length
      sound := by
        rw [sound_flush, List.flatten_append, List.length_append, List.flatten_singleton]
        rfl })

/-- All parts, in an array of the length that was counted. -/
def finish (w : Writer) : Option Bytes := setParts w.flush.parts 0 (List.replicate w.length 0)

end Writer

/-- Another part in one place, stated without subtraction. -/
theorem length_flatten_set {parts : List Bytes} {i : Nat} (h : i < parts.length) (bytes : Bytes) :
    (parts.set i bytes).flatten.length + parts[i].length = parts.flatten.length + bytes.length := by
  induction parts generalizing i with
  | nil => cases h
  | cons part parts ih =>
      cases i with
      | zero =>
          show (bytes ++ parts.flatten).length + part.length =
            (part ++ parts.flatten).length + bytes.length
          rw [List.length_append, List.length_append]
          omega
      | succ i =>
          have hlt : i < parts.length := Nat.lt_of_succ_lt_succ h
          show (part ++ (parts.set i bytes).flatten).length + parts[i].length =
            (part ++ parts.flatten).length + bytes.length
          have hi := ih hlt
          rw [List.length_append, List.length_append]
          omega

namespace Writer

/-- `none` also where no part was reserved under the number. -/
def fill (w : Writer) (slot : Nat) (content : Writer) : Option Writer :=
  match content.finish with
  | none => none
  | some bytes =>
      if h : slot < w.parts.length then
        some
          { parts := w.parts.set slot bytes
            pending := w.pending
            length := w.length + bytes.length - w.parts[slot].length
            sound := by
              have hset := length_flatten_set h bytes
              have hsound := w.sound
              omega }
      else none

/-! ## Contents -/

/-- The parts in order, and what is pending. -/
def contents (w : Writer) : Bytes := w.parts.flatten ++ w.pending

/-- The parts stay, and what is new is written after them. -/
def Adds (w w' : Writer) (data : Bytes) : Prop :=
  ∃ texts : List Bytes, w'.parts = w.parts ++ texts ∧ texts.flatten ++ w'.pending = w.pending ++ data

section

variable {w w' w'' other : Writer} {data data' : Bytes}

/-- What an operation adds stands at the end. -/
theorem Adds.contents (h : Adds w w' data) : w'.contents = w.contents ++ data := by
  obtain ⟨texts, hparts, hdata⟩ := h
  rw [Writer.contents, hparts, List.flatten_append, List.append_assoc, hdata, Writer.contents,
    List.append_assoc]

/-- Two operations add both. -/
theorem Adds.trans (h : Adds w w' data) (h' : Adds w' w'' data') : Adds w w'' (data ++ data') := by
  obtain ⟨texts, hparts, hdata⟩ := h
  obtain ⟨texts', hparts', hdata'⟩ := h'
  refine ⟨texts ++ texts', by rw [hparts', hparts, List.append_assoc], ?_⟩
  rw [List.flatten_append, List.append_assoc, hdata', ← List.append_assoc, hdata, List.append_assoc]

theorem adds_flush (w : Writer) : Adds w w.flush [] := by
  rw [flush]
  split
  · exact ⟨[], (List.append_nil _).symm, (List.append_nil _).symm⟩
  · exact ⟨[w.pending], rfl, by rw [List.flatten_singleton]⟩

/-- The pending bytes as a part, and parts after it. -/
theorem adds_parts {parts : List Bytes} (hparts : w'.parts = w.flush.parts ++ parts)
    (hpending : w'.pending = []) (hdata : parts.flatten = data) : Adds w w' data := by
  have htail : Adds w.flush w' data := ⟨parts, hparts, by rw [hpending, pending_flush, hdata, List.append_nil]; rfl⟩
  exact (adds_flush w).trans htail

theorem adds_byte (w : Writer) (value : UInt8) : Adds w (w.byte value) [value] :=
  ⟨[], (List.append_nil _).symm, rfl⟩

theorem adds_bytes (w : Writer) (data : Bytes) : Adds w (w.bytes data) data := by
  rw [bytes]
  split
  · next h => exact ⟨[], (List.append_nil _).symm, by rw [h, List.append_nil]; rfl⟩
  · exact adds_parts rfl rfl List.flatten_singleton

theorem adds_append (w other : Writer) : Adds w (w.append other) other.contents := by
  have hflush := (adds_flush other).contents
  rw [Writer.contents, pending_flush, List.append_nil, List.append_nil] at hflush
  exact adds_parts rfl rfl hflush

/-- A number is written byte by byte, so the induction is on its groups. -/
theorem adds_u32 (w : Writer) (value : Nat) : Adds w (w.u32 value) (leb value) := by
  rw [u32, leb]
  by_cases h : 0 < value / 128
  · rw [if_pos h, if_pos h, if_pos h]
    exact (adds_byte w _).trans (adds_u32 _ (value / 128))
  · rw [if_neg h, if_neg h, if_neg h]
    exact adds_byte w _
termination_by value
decreasing_by omega

theorem adds_s32 (w : Writer) (value : BitVec 32) : Adds w (w.s32 value) (signedLeb value) := by
  rw [s32, signedLeb]
  by_cases h : signOnly value
  · rw [if_pos h, if_pos h]
    exact adds_byte w _
  · rw [if_neg h, if_neg h]
    exact (adds_byte w _).trans (adds_s32 _ (value.sshiftRight 7))
termination_by value.toInt.natAbs
decreasing_by
  have hsmall := (not_congr (signOnly_iff value)).mp h
  have hshift := toInt_shift value
  omega

theorem length_contents (w : Writer) : w.contents.length = w.length := by
  rw [contents, List.length_append, w.sound]

end

end Writer

/-- Parts are copied one after the other, and the array is exactly as long. -/
theorem setParts_eq {parts : List Bytes} {offset : Nat} {output : Bytes}
    (h : output.length = offset + parts.flatten.length) :
    setParts parts offset output = some (output.take offset ++ parts.flatten) := by
  induction parts generalizing offset output with
  | nil =>
      have hall : output.length ≤ offset := Nat.le_of_eq h
      rw [setParts, List.take_of_length_le hall, List.flatten_nil, List.append_nil]
  | cons part parts ih =>
      rw [List.flatten_cons, List.length_append] at h
      have hfits : offset + part.length ≤ output.length := by omega
      have htake : (output.take offset).length = offset := by
        rw [List.length_take]
        omega
      have hnext := @ih (offset + part.length)
        (output.take offset ++ part ++ output.drop (offset + part.length)) (by
          rw [List.length_append, List.length_append, htake, List.length_drop]
          omega)
      rw [setParts, LinearMemory.store, if_pos hfits]
      refine hnext.trans (congrArg some ?_)
      have hfirst : (output.take offset ++ part).length = offset + part.length := by
        rw [List.length_append, htake]
      rw [← hfirst, List.take_left, List.flatten_cons, List.append_assoc]

/-- The output is the parts in order. -/
theorem Writer.finish_eq (w : Writer) : w.finish = some w.contents := by
  have hflush := (adds_flush w).contents
  rw [contents, pending_flush, List.append_nil, List.append_nil] at hflush
  have hlength : (List.replicate w.length (0 : UInt8)).length = 0 + w.flush.parts.flatten.length := by
    rw [List.length_replicate, sound_flush, Nat.zero_add]
  rw [finish, setParts_eq hlength, hflush, List.take_zero, List.nil_append]

end Binary
