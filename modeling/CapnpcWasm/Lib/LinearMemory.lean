import Mathlib.Order.Interval.Finset.Nat
import Mathlib.Tactic.Common
import Mathlib.Tactic.Ring

/-!
# Linear memory

A memory is its bytes.  Every access says which bytes it reads or writes, and fails where one of
them is outside the memory.  What a store leaves alone is read as before.

`Agree ranges m m'` says that two memories differ in some ranges at most.  A sequence of
stores composes it (`Agree.trans`), and a load apart from the ranges does not see them
(`Agree.load`).
-/

namespace LinearMemory

/-- The bytes, from address 0 on. -/
abbrev Memory := List UInt8

/-! ## Accesses -/

/-- Some bytes at an address. -/
def load (m : Memory) (address length : Nat) : Option (List UInt8) :=
  if address + length ≤ m.length then some ((m.drop address).take length) else none

/-- Bytes in place of those at an address. -/
def store (m : Memory) (address : Nat) (bytes : List UInt8) : Option Memory :=
  if address + bytes.length ≤ m.length then
    some (m.take address ++ bytes ++ m.drop (address + bytes.length))
  else none

/-- The number some bytes spell, the lowest byte first. -/
def ofLittleEndian : List UInt8 → Nat
  | [] => 0
  | b :: bytes => b.toNat + 256 * ofLittleEndian bytes

/-- The four lowest bytes of a number, the lowest first. -/
def littleEndian (n : Nat) : List UInt8 :=
  [.ofNat n, .ofNat (n / 256), .ofNat (n / 65536), .ofNat (n / 16777216)]

/-- A number of 32 bits, least significant byte first. -/
def loadWord (m : Memory) (address : Nat) : Option Nat := (load m address 4).map ofLittleEndian

/-- The same, written. -/
def storeWord (m : Memory) (address value : Nat) : Option Memory :=
  store m address (littleEndian value)

/-- No byte is in both ranges. -/
def Apart (a n b k : Nat) : Prop := ∀ i, a ≤ i → i < a + n → b ≤ i → ¬i < b + k

/-- The memories have the same bytes outside the ranges. -/
structure Agree (ranges : List (Nat × Nat)) (m m' : Memory) : Prop where
  length : m'.length = m.length
  same : ∀ i, (∀ r ∈ ranges, r.1 ≤ i → ¬i < r.1 + r.2) → m'[i]? = m[i]?

section

variable {m m' : Memory} {address length b value : Nat} {bytes : List UInt8}
  {ranges : List (Nat × Nat)}

theorem length_littleEndian (n : Nat) : (littleEndian n).length = 4 := rfl

/-- Four bytes hold a number up to its high bits. -/
theorem ofLittleEndian_littleEndian (n : Nat) : ofLittleEndian (littleEndian n) = n % 2 ^ 32 := by
  have hbyte : ∀ k : Nat, (UInt8.ofNat k).toNat = k % 256 := fun k => UInt8.toNat_ofNat'
  simp only [littleEndian, ofLittleEndian, hbyte]
  omega

/-- Being apart is mutual. -/
theorem Apart.symm {a n b k : Nat} (h : Apart a n b k) : Apart b k a n :=
  fun i hb hb' ha ha' => h i ha ha' hb hb'

/-- A part of a range is apart from what the range is. -/
theorem Apart.part {a n b k a' n' : Nat} (h : Apart a n b k) (ha : a ≤ a') (hn : a' + n' ≤ a + n) :
    Apart a' n' b k :=
  fun i hi hi' hb => h i (ha.trans hi) (Nat.lt_of_lt_of_le hi' hn) hb

/-- A load succeeds inside the memory. -/
theorem load_eq_some : load m address length = some bytes ↔
    address + length ≤ m.length ∧ (m.drop address).take length = bytes := by
  rw [load]
  split
  · next h => exact Option.some_inj.trans (and_iff_right h).symm
  · next h => exact iff_of_false nofun fun hload => h hload.1

theorem length_load (h : load m address length = some bytes) : bytes.length = length := by
  obtain ⟨hle, rfl⟩ := load_eq_some.mp h
  rw [List.length_take, List.length_drop]
  omega

/-- A word of memory in range. -/
theorem loadWord_isSome (h : address + 4 ≤ m.length) : ∃ value, loadWord m address = some value := by
  rw [loadWord, load, if_pos h]
  exact ⟨_, rfl⟩

/-- A store succeeds inside the memory. -/
theorem store_isSome (h : address + bytes.length ≤ m.length) : ∃ m', store m address bytes = some m' := by
  rw [store, if_pos h]
  exact ⟨_, rfl⟩

/-- It does not grow the memory. -/
theorem length_store (h : store m address bytes = some m') : m'.length = m.length := by
  rw [store] at h
  split at h
  · cases h
    rw [List.length_append, List.length_append, List.length_take, List.length_drop]
    omega
  · cases h

/-- The bytes of a memory after a store. -/
theorem getElem?_store (h : store m address bytes = some m') (i : Nat) :
    m'[i]? = if address ≤ i ∧ i < address + bytes.length then bytes[i - address]? else m[i]? := by
  rw [store] at h
  split at h
  · next hle =>
    cases h
    have htake : (m.take address).length = address := by
      rw [List.length_take]
      omega
    rw [List.append_assoc, List.getElem?_append, htake]
    by_cases hlow : i < address
    · rw [if_pos hlow, if_neg (by omega), List.getElem?_take, if_pos hlow]
    · rw [if_neg hlow, List.getElem?_append]
      by_cases hhigh : i < address + bytes.length
      · rw [if_pos (by omega), if_pos ⟨by omega, hhigh⟩]
      · rw [if_neg (by omega), if_neg (by omega), List.getElem?_drop]
        exact congrArg (m[·]?) (by omega)
  · cases h

/-- A store changes no byte outside its range. -/
theorem agree_store (h : store m address bytes = some m') :
    Agree [(address, bytes.length)] m m' where
  length := length_store h
  same i hi := by
    rw [getElem?_store h, if_neg]
    rintro ⟨hle, hlt⟩
    exact hi _ (List.mem_singleton_self _) hle hlt

theorem Agree.refl (ranges : List (Nat × Nat)) (m : Memory) : Agree ranges m m := ⟨rfl, fun _ _ => rfl⟩

/-- Two changes are in the ranges of both. -/
theorem Agree.trans {m'' : Memory} {ranges' : List (Nat × Nat)} (h : Agree ranges m m')
    (h' : Agree ranges' m' m'') : Agree (ranges ++ ranges') m m'' where
  length := h'.length.trans h.length
  same i hi := by
    rw [List.forall_mem_append] at hi
    exact (h'.same i hi.2).trans (h.same i hi.1)

/-- Changes within larger ranges. -/
theorem Agree.mono {ranges' : List (Nat × Nat)} (h : Agree ranges m m')
    (hcover : ∀ r ∈ ranges, ∃ r' ∈ ranges', r'.1 ≤ r.1 ∧ r.1 + r.2 ≤ r'.1 + r'.2) :
    Agree ranges' m m' where
  length := h.length
  same i hi := h.same i fun r hr hle hlt => by
    obtain ⟨r', hr', hlow, hhigh⟩ := hcover r hr
    exact hi r' hr' (hlow.trans hle) (Nat.lt_of_lt_of_le hlt hhigh)

/-- What is apart from all changes is read as before. -/
theorem Agree.load (h : Agree ranges m m')
    (hapart : ∀ r ∈ ranges, Apart address length r.1 r.2) :
    load m' address length = load m address length := by
  rw [LinearMemory.load, LinearMemory.load, h.length]
  split
  · refine congrArg some (List.ext_getElem? fun i => ?_)
    rw [List.getElem?_take, List.getElem?_take]
    split
    · next hi =>
      rw [List.getElem?_drop, List.getElem?_drop]
      exact h.same _ fun r hr => hapart r hr _ (Nat.le_add_right _ _) (by omega)
    · rfl
  · rfl

/-- A number apart from them is what it was. -/
theorem Agree.loadWord (h : Agree ranges m m') (hapart : ∀ r ∈ ranges, Apart address 4 r.1 r.2) :
    loadWord m' address = loadWord m address := by
  rw [LinearMemory.loadWord, LinearMemory.loadWord, h.load hapart]

/-- A range is read back after its first bytes were stored. -/
theorem load_store_part {old : List UInt8} (h : store m address bytes = some m')
    (hle : bytes.length ≤ length) (hold : load m address length = some old) :
    load m' address length = some (bytes ++ old.drop bytes.length) := by
  obtain ⟨hin, rfl⟩ := load_eq_some.mp hold
  refine load_eq_some.mpr ⟨(length_store h).symm ▸ hin, List.ext_getElem? fun i => ?_⟩
  rw [List.getElem?_take, List.getElem?_append]
  split
  · next hi =>
    rw [List.getElem?_drop, getElem?_store h]
    by_cases hnew : i < bytes.length
    · rw [if_pos hnew, if_pos ⟨Nat.le_add_right _ _, by omega⟩, Nat.add_sub_cancel_left]
    · rw [if_neg hnew, if_neg (by omega), List.getElem?_drop, List.getElem?_take, if_pos (by omega),
        List.getElem?_drop]
      exact congrArg (m[·]?) (by omega)
  · next hi =>
    rw [if_neg (by omega), List.getElem?_drop, List.getElem?_take, if_neg (by omega)]

/-- A stored range is read back. -/
theorem load_store (h : store m address bytes = some m') :
    load m' address bytes.length = some bytes := by
  have hle : address + bytes.length ≤ m.length := by
    rw [store] at h
    split at h
    · next hle => exact hle
    · cases h
  have hold : load m address bytes.length = some ((m.drop address).take bytes.length) :=
    load_eq_some.mpr ⟨hle, rfl⟩
  have hload := load_store_part h (Nat.le_refl _) hold
  rwa [List.drop_of_length_le (Nat.le_of_eq (length_load hold)), List.append_nil] at hload

theorem storeWord_isSome (h : address + 4 ≤ m.length) (value : Nat) :
    ∃ m', storeWord m address value = some m' ∧ m'.length = m.length := by
  obtain ⟨m', hm'⟩ : ∃ m', store m address (littleEndian value) = some m' := store_isSome h
  exact ⟨m', hm', length_store hm'⟩

/-- What is stored is loaded. -/
theorem loadWord_storeWord (h : storeWord m address value = some m') :
    loadWord m' address = some (value % 2 ^ 32) := by
  have hload : load m' address 4 = some (littleEndian value) := load_store h
  rw [loadWord, hload, Option.map_some, ofLittleEndian_littleEndian]

/-- The words of a memory that ends with them. -/
theorem loadWord_words {before words : List Nat} {rest : Memory} (hstart : m = rest ++
    (before ++ value :: words).flatMap littleEndian)
    (haddress : address = rest.length + 4 * before.length) :
    loadWord m address = some (value % 2 ^ 32) := by
  have hbefore : (before.flatMap littleEndian).length = 4 * before.length := by
    rw [List.length_flatMap]
    simp [length_littleEndian, Nat.mul_comm]
  have hsplit : m = (rest ++ before.flatMap littleEndian) ++
      (littleEndian value ++ words.flatMap littleEndian) := by
    rw [hstart, List.flatMap_append, List.flatMap_cons, List.append_assoc]
  have hlength : (rest ++ before.flatMap littleEndian).length = address := by
    rw [List.length_append, hbefore, haddress]
  have hload : load m address 4 = some (littleEndian value) := by
    refine load_eq_some.mpr ⟨?_, ?_⟩
    · rw [hsplit, List.length_append, hlength, List.length_append, length_littleEndian]
      omega
    · rw [hsplit, ← hlength, List.drop_left]
      show (littleEndian value ++ _).take (littleEndian value).length = _
      exact List.take_left
  rw [loadWord, hload, Option.map_some, ofLittleEndian_littleEndian]

/-- Ranges that share no byte have no more bytes than the memory they are in. -/
theorem sum_le_of_apart {n : Nat} (hin : ∀ r ∈ ranges, r.1 + r.2 ≤ n)
    (hapart : ranges.Pairwise fun r r' => Apart r.1 r.2 r'.1 r'.2) :
    (ranges.map Prod.snd).sum ≤ n := by
  suffices h : ∃ s : Finset Nat, s ⊆ Finset.range n ∧ s.card = (ranges.map Prod.snd).sum ∧
      ∀ i, i ∈ s ↔ ∃ r ∈ ranges, r.1 ≤ i ∧ i < r.1 + r.2 by
    obtain ⟨s, hsub, hcard, -⟩ := h
    rw [← hcard, ← Finset.card_range n]
    exact Finset.card_le_card hsub
  induction ranges with
  | nil => exact ⟨∅, Finset.empty_subset _, rfl, fun i => by simp⟩
  | cons r ranges ih =>
      rw [List.forall_mem_cons] at hin
      obtain ⟨hfirst, hrest⟩ := List.pairwise_cons.mp hapart
      obtain ⟨s, hsub, hcard, hmem⟩ := ih hin.2 hrest
      have hdisjoint : Disjoint (Finset.Ico r.1 (r.1 + r.2)) s := by
        rw [Finset.disjoint_left]
        intro i hi his
        obtain ⟨r', hr', hle, hlt⟩ := (hmem i).mp his
        rw [Finset.mem_Ico] at hi
        exact hfirst r' hr' i hi.1 hi.2 hle hlt
      refine ⟨Finset.Ico r.1 (r.1 + r.2) ∪ s, ?_, ?_, fun i => ?_⟩
      · refine Finset.union_subset (fun i hi => ?_) hsub
        rw [Finset.mem_Ico] at hi
        exact Finset.mem_range.mpr (Nat.lt_of_lt_of_le hi.2 hin.1)
      · rw [Finset.card_union_of_disjoint hdisjoint, hcard, Nat.card_Ico, List.map_cons,
          List.sum_cons, Nat.add_sub_cancel_left]
      · rw [Finset.mem_union, Finset.mem_Ico, hmem]
        exact (List.exists_mem_cons_iff (fun r : Nat × Nat => r.1 ≤ i ∧ i < r.1 + r.2) r ranges).symm

end

end LinearMemory
