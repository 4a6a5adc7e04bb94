import Mathlib.Data.Finset.Card
import Mathlib.Data.Finset.Range
import Mathlib.Tactic.Common
import Mathlib.Tactic.Ring

/-!
# Tables of slots

A table hands out slots by number and keeps a freed slot empty.  The number of held slots is
the size of the set of their numbers, so what an operation does to that set is what it does to
the count.
-/

namespace Slots

variable {D : Type*}

/-- Slots by number; an empty slot is `none`. -/
abbrev Table (D : Type*) := List (Option D)

/-- What a slot holds, if the table has it. -/
def slot (table : Table D) (i : Nat) : Option D := table[i]?.join

/-- How many slots are held. -/
def count (table : Table D) : Nat := table.countP Option.isSome

/-- The numbers of the held slots. -/
def held (table : Table D) : Finset Nat :=
  (Finset.range table.length).filter fun i => (slot table i).isSome

section

variable {table table' : Table D} {i : Nat}

theorem mem_held : i ∈ held table ↔ (slot table i).isSome := by
  rw [held, Finset.mem_filter, Finset.mem_range]
  refine and_iff_right_of_imp fun h => ?_
  by_contra hlt
  rw [slot, List.getElem?_eq_none (Nat.le_of_not_lt hlt)] at h
  cases h

theorem card_held : (held table).card = count table := by
  have hmap : (List.range table.length).map (slot table) = table := by
    refine List.ext_getElem (by simp) fun i hi hi' => ?_
    rw [List.getElem_map, List.getElem_range, slot, List.getElem?_eq_getElem hi']
    rfl
  have hcount : count table =
      ((List.range table.length).filter fun i => (slot table i).isSome).length := by
    rw [← List.countP_eq_length_filter]
    calc count table = ((List.range table.length).map (slot table)).countP Option.isSome := by
          rw [hmap]
          rfl
      _ = _ := List.countP_map
  rw [hcount]
  have hfilter : (fun i => decide ((slot table i).isSome = true)) = fun i => (slot table i).isSome :=
    funext fun i => Bool.decide_eq_true
  show ((List.range table.length).filter _).length = _
  rw [hfilter]

theorem slot_set {j : Nat} {value : Option D} (h : i < table.length) :
    slot (table.set i value) j = if j = i then value else slot table j := by
  rw [slot, List.getElem?_set]
  by_cases hj : j = i
  · rw [if_pos hj.symm, if_pos h, if_pos hj]
    rfl
  · rw [if_neg fun heq => hj heq.symm, if_neg hj]
    rfl

theorem slot_append {j : Nat} {value : Option D} :
    slot (table ++ [value]) j = if j = table.length then value else slot table j := by
  rw [slot, slot, List.getElem?_append]
  by_cases hlt : j < table.length
  · rw [if_pos hlt, if_neg (Nat.ne_of_lt hlt)]
  · rw [if_neg hlt, List.getElem?_singleton, List.getElem?_eq_none (Nat.le_of_not_lt hlt)]
    by_cases hj : j = table.length
    · rw [if_pos (by omega), if_pos hj]
      rfl
    · rw [if_neg (by omega), if_neg hj]

theorem lt_length (h : (slot table i).isSome) : i < table.length := by
  have hmem : i ∈ held table := mem_held.mpr h
  exact Finset.mem_range.mp (Finset.mem_filter.mp hmem).1

/-- Which slots are held decides the count. -/
theorem count_congr (h : ∀ i, (slot table' i).isSome ↔ (slot table i).isSome) :
    count table' = count table := by
  have hheld : held table' = held table :=
    Finset.ext fun i => mem_held.trans ((h i).trans mem_held.symm)
  rw [← card_held, hheld, card_held]

/-- One more slot is held. -/
theorem count_add (hempty : slot table i = none) (hheld : (slot table' i).isSome)
    (hother : ∀ j, j ≠ i → slot table' j = slot table j) : count table' = count table + 1 := by
  have hout : i ∉ held table := fun hmem => by
    rw [mem_held, hempty] at hmem
    cases hmem
  have hinsert : held table' = insert i (held table) := by
    ext j
    rw [Finset.mem_insert, mem_held, mem_held]
    by_cases hj : j = i
    · rw [hj]
      exact iff_of_true hheld (.inl rfl)
    · rw [hother j hj]
      exact (or_iff_right hj).symm
  rw [← card_held, hinsert, Finset.card_insert_of_notMem hout, card_held]

/-- One slot is held no more. -/
theorem count_remove (hheld : (slot table i).isSome) (hempty : slot table' i = none)
    (hother : ∀ j, j ≠ i → ((slot table' j).isSome ↔ (slot table j).isSome)) :
    count table' + 1 = count table := by
  have herase : held table' = (held table).erase i := by
    ext j
    rw [Finset.mem_erase, mem_held, mem_held]
    by_cases hj : j = i
    · rw [hj, hempty]
      exact iff_of_false nofun fun h => h.1 rfl
    · rw [hother j hj]
      exact (and_iff_right hj).symm
  rw [← card_held, herase, Finset.card_erase_add_one (mem_held.mpr hheld), card_held]

/-- No slot is newly held. -/
theorem count_le (h : ∀ i, (slot table' i).isSome → (slot table i).isSome) :
    count table' ≤ count table := by
  rw [← card_held, ← card_held]
  exact Finset.card_le_card fun i hi => mem_held.mpr (h i (mem_held.mp hi))

end

end Slots
