import Mathlib.Tactic.Common
import Mathlib.Tactic.Ring

/-!
# LEB128

A number as groups of seven bits, the lowest first.  Every byte but the last has its high bit
set.  An encoding need not be the shortest one, and none is the beginning of another.
-/

namespace Leb

/-! ## Bytes -/

/-- The seven bits of a group. -/
def group (b : UInt8) : Nat := (b &&& 127).toNat

/-- Another group follows. -/
def continues (b : UInt8) : Bool := b &&& 128 != 0

theorem group_eq (b : UInt8) : group b = b.toNat % 128 := by
  rw [group, UInt8.toNat_and]
  exact Nat.and_two_pow_sub_one_eq_mod b.toNat 7

theorem continues_iff (b : UInt8) : continues b = true ↔ 128 ≤ b.toNat := by
  have hall : ∀ n : Fin 256, (UInt8.ofNat n.val &&& 128 != 0) = decide (128 ≤ n.val) := by
    decide +kernel
  have hb := hall ⟨b.toNat, b.toNat_lt⟩
  dsimp only at hb
  rw [UInt8.ofNat_toNat] at hb
  rw [continues, hb, decide_eq_true_iff]

theorem group_lt (b : UInt8) : group b < 128 := by
  rw [group_eq]
  exact Nat.mod_lt _ (by decide)

/-! ## Unsigned numbers -/

/-- The bytes spell the number, in as many groups as they are. -/
inductive Encodes : List UInt8 → Nat → Prop where
  | last {b : UInt8} : continues b = false → Encodes [b] (group b)
  | next {b : UInt8} {bytes : List UInt8} {n : Nat} : continues b = true → Encodes bytes n →
      Encodes (b :: bytes) (group b + 128 * n)

/-- The shortest encoding of a number. -/
def unsigned (n : Nat) : List UInt8 :=
  if h : n / 128 = 0 then [UInt8.ofNat (n % 128)]
  else UInt8.ofNat (n % 128 + 128) :: unsigned (n / 128)
termination_by n
decreasing_by omega

section

variable {bytes bytes' rest rest' : List UInt8} {n n' k : Nat}

theorem Encodes.ne_nil (h : Encodes bytes n) : bytes ≠ [] := by
  cases h with
  | last _ => exact List.cons_ne_nil _ _
  | next _ _ => exact List.cons_ne_nil _ _

/-- No encoding is the beginning of another one. -/
theorem Encodes.append_inj (h : Encodes bytes n) (h' : Encodes bytes' n')
    (heq : bytes ++ rest = bytes' ++ rest') : bytes = bytes' ∧ n = n' ∧ rest = rest' := by
  induction h generalizing bytes' n' with
  | last hb =>
      cases h' with
      | last hb' =>
          obtain ⟨rfl, rfl⟩ := List.cons.inj heq
          exact ⟨rfl, rfl, rfl⟩
      | next hb' _ =>
          obtain ⟨rfl, -⟩ := List.cons.inj heq
          rw [hb] at hb'
          cases hb'
  | next hb _ ih =>
      cases h' with
      | last hb' =>
          obtain ⟨rfl, -⟩ := List.cons.inj heq
          rw [hb] at hb'
          cases hb'
      | next hb' hrest =>
          obtain ⟨rfl, htail⟩ := List.cons.inj heq
          obtain ⟨rfl, rfl, rfl⟩ := ih hrest htail
          exact ⟨rfl, rfl, rfl⟩

theorem group_low (h : k < 128) : group (.ofNat k) = k ∧ continues (.ofNat k) = false := by
  have hk : (UInt8.ofNat k).toNat = k := by
    rw [UInt8.toNat_ofNat']
    omega
  refine ⟨by rw [group_eq, hk, Nat.mod_eq_of_lt h], ?_⟩
  rw [Bool.eq_false_iff, ne_eq, continues_iff, hk]
  omega

theorem group_high (h : k < 128) :
    group (.ofNat (k + 128)) = k ∧ continues (.ofNat (k + 128)) = true := by
  have hk : (UInt8.ofNat (k + 128)).toNat = k + 128 := by
    rw [UInt8.toNat_ofNat']
    omega
  refine ⟨by rw [group_eq, hk]; omega, ?_⟩
  rw [continues_iff, hk]
  omega

/-- The shortest encoding is one. -/
theorem encodes_unsigned (n : Nat) : Encodes (unsigned n) n := by
  have hlow : n % 128 < 128 := Nat.mod_lt _ (by decide)
  rw [unsigned]
  split
  · next h =>
    obtain ⟨hgroup, hlast⟩ := group_low hlow
    have hn : n = group (.ofNat (n % 128)) := by omega
    conv => rhs; rw [hn]
    exact .last hlast
  · next h =>
    obtain ⟨hgroup, hnext⟩ := group_high hlow
    have hn : n = group (.ofNat (n % 128 + 128)) + 128 * (n / 128) := by omega
    have hrest := encodes_unsigned (n / 128)
    conv => rhs; rw [hn]
    exact .next hnext hrest
termination_by n
decreasing_by omega

theorem length_unsigned_le (hk : 0 < k) (h : n < 128 ^ k) : (unsigned n).length ≤ k := by
  induction k generalizing n with
  | zero => omega
  | succ k ih =>
      rw [unsigned]
      split
      · exact Nat.succ_le_succ (Nat.zero_le _)
      · next hn =>
        have hpos : 0 < k := by
          rcases Nat.eq_zero_or_pos k with rfl | hpos
          · omega
          · exact hpos
        have hdiv : n / 128 < 128 ^ k := by
          rw [Nat.pow_succ, Nat.mul_comm] at h
          exact Nat.div_lt_of_lt_mul h
        exact Nat.succ_le_succ (ih hpos hdiv)

end

/-! ## Signed numbers -/

/-- The sign of a last group. -/
def negative (b : UInt8) : Bool := b &&& 64 != 0

theorem negative_iff (b : UInt8) : negative b = true ↔ 64 ≤ group b := by
  have hall : ∀ n : Fin 256, (UInt8.ofNat n.val &&& 64 != 0) = decide (64 ≤ n.val % 128) := by
    decide +kernel
  have hb := hall ⟨b.toNat, b.toNat_lt⟩
  dsimp only at hb
  rw [UInt8.ofNat_toNat] at hb
  rw [negative, hb, decide_eq_true_iff, group_eq]

/-- The bytes spell the number; its sign is the second highest bit of the last one. -/
inductive EncodesSigned : List UInt8 → Int → Prop where
  | last {b : UInt8} : continues b = false →
      EncodesSigned [b] (group b - if negative b then 128 else 0)
  | next {b : UInt8} {bytes : List UInt8} {z : Int} : continues b = true → EncodesSigned bytes z →
      EncodesSigned (b :: bytes) (group b + 128 * z)

theorem EncodesSigned.ne_nil {bytes : List UInt8} {z : Int} (h : EncodesSigned bytes z) :
    bytes ≠ [] := by
  cases h with
  | last _ => exact List.cons_ne_nil _ _
  | next _ _ => exact List.cons_ne_nil _ _

/-- No signed encoding is the beginning of another one. -/
theorem EncodesSigned.append_inj {bytes bytes' rest rest' : List UInt8} {z z' : Int}
    (h : EncodesSigned bytes z) (h' : EncodesSigned bytes' z') (heq : bytes ++ rest = bytes' ++ rest') :
    bytes = bytes' ∧ z = z' := by
  induction h generalizing bytes' z' with
  | last hb =>
      cases h' with
      | last hb' =>
          obtain ⟨rfl, rfl⟩ := List.cons.inj heq
          exact ⟨rfl, rfl⟩
      | next hb' _ =>
          obtain ⟨rfl, -⟩ := List.cons.inj heq
          rw [hb] at hb'
          cases hb'
  | next hb _ ih =>
      cases h' with
      | last hb' =>
          obtain ⟨rfl, -⟩ := List.cons.inj heq
          rw [hb] at hb'
          cases hb'
      | next hb' hrest =>
          obtain ⟨rfl, htail⟩ := List.cons.inj heq
          obtain ⟨rfl, rfl⟩ := ih hrest htail
          exact ⟨rfl, rfl⟩

end Leb
