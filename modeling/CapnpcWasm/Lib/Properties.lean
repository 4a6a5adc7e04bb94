import CapnpcWasm.Lib.Text
import Mathlib.Data.List.Nodup
import Mathlib.Tactic.Common
import Mathlib.Tactic.Ring

/-!
# Own properties of an object

The own enumerable properties of a JavaScript object, in the order they are enumerated:
array indices first and ascending, then the other keys in the order they were added.  An
object without a prototype and `Object.defineProperty` treat every key alike.
-/

namespace Properties

/-- A property key, as UTF-16 code units. -/
abbrev Key := List UInt16

variable {A B : Type*}

/-! ## Array indices -/

def isDigit (u : UInt16) : Bool := 48 ≤ u && u ≤ 57

/-- The array index a key spells: digits without a leading zero, below `2 ^ 32 - 1`. -/
def arrayIndex (key : Key) : Option Nat :=
  if key ≠ [] ∧ key.all isDigit ∧ (key.head? = some 48 → key.length = 1) then
    let n := key.foldl (fun n u => n * 10 + (u.toNat - 48)) 0
    if n < 2 ^ 32 - 1 then some n else none
  else none

theorem arrayIndex_cons {u : UInt16} (h : isDigit u = false) (key : Key) :
    arrayIndex (u :: key) = none := by
  rw [arrayIndex, if_neg]
  rintro ⟨-, hall, -⟩
  rw [List.all_cons, h, Bool.false_and] at hall
  cases hall

/-- The first key is enumerated before the second one, or they are no two indices. -/
def Before (k k' : Key) : Prop :=
  match arrayIndex k, arrayIndex k' with
  | some i, some j => i ≤ j
  | none, some _ => False
  | _, none => True

/-! ## Adding properties -/

/-- A new property whose key is an array index. -/
def insertIndex (i : Nat) (property : Key × A) : List (Key × A) → List (Key × A)
  | [] => [property]
  | q :: qs =>
      match arrayIndex q.1 with
      | some j => if i < j then property :: q :: qs else q :: insertIndex i property qs
      | none => property :: q :: qs

/-- `object[key] = value`. -/
def set (object : List (Key × A)) (property : Key × A) : List (Key × A) :=
  if property.1 ∈ object.map Prod.fst then
    object.map fun q => if q.1 = property.1 then property else q
  else
    match arrayIndex property.1 with
    | some i => insertIndex i property object
    | none => object ++ [property]

/-- The object that some properties are added to in order. -/
def extend (object properties : List (Key × A)) : List (Key × A) := properties.foldl set object

/-- The object with some properties, added in order. -/
def ofEntries (properties : List (Key × A)) : List (Key × A) := extend [] properties

/-- The properties of an object in the order they are enumerated. -/
structure Enumerated (object : List (Key × A)) : Prop where
  distinct : (object.map Prod.fst).Nodup
  ordered : (object.map Prod.fst).Pairwise Before

section

variable {object properties : List (Key × A)} {property : Key × A}

theorem Enumerated.nil : Enumerated ([] : List (Key × A)) := ⟨List.nodup_nil, .nil⟩

theorem before_none {k k' : Key} (h : arrayIndex k' = none) : Before k k' := by
  rw [Before, h]
  cases arrayIndex k with
  | none => trivial
  | some i => trivial

theorem mem_insertIndex {i : Nat} {k : Key} :
    k ∈ (insertIndex i property object).map Prod.fst ↔
      k = property.1 ∨ k ∈ object.map Prod.fst := by
  induction object with
  | nil => simp [insertIndex]
  | cons q qs ih =>
      rw [insertIndex]
      split
      · split
        · simp
        · rw [List.map_cons, List.mem_cons, ih, List.map_cons, List.mem_cons]
          exact or_left_comm
      · simp

theorem Enumerated.insertIndex (h : Enumerated object) {i : Nat}
    (hi : arrayIndex property.1 = some i) (hnew : property.1 ∉ object.map Prod.fst) :
    Enumerated (insertIndex i property object) := by
  induction object with
  | nil => exact ⟨by simp [Properties.insertIndex], by simp [Properties.insertIndex]⟩
  | cons q qs ih =>
      obtain ⟨hdistinct, hordered⟩ := h
      rw [List.map_cons, List.nodup_cons] at hdistinct
      rw [List.map_cons, List.pairwise_cons] at hordered
      rw [List.map_cons, List.mem_cons, not_or] at hnew
      have hfront : (∀ k ∈ q.1 :: qs.map Prod.fst, Before property.1 k) →
          Enumerated (property :: q :: qs) := by
        intro hall
        refine ⟨?_, ?_⟩
        · rw [List.map_cons, List.nodup_cons, List.map_cons, List.mem_cons, not_or,
            List.nodup_cons]
          exact ⟨hnew, hdistinct⟩
        · rw [List.map_cons, List.pairwise_cons, List.map_cons, List.pairwise_cons]
          exact ⟨hall, hordered⟩
      rw [Properties.insertIndex]
      split
      · next j hj =>
        split
        · next hlt =>
          refine hfront fun k hk => ?_
          rw [Before, hi]
          rcases List.mem_cons.mp hk with rfl | hk
          · rw [hj]
            exact Nat.le_of_lt hlt
          · have hafter := hordered.1 k hk
            rw [Before, hj] at hafter
            cases hindex : arrayIndex k with
            | none => trivial
            | some l =>
                rw [hindex] at hafter
                exact Nat.le_trans (Nat.le_of_lt hlt) hafter
        · next hle =>
          have hrest := ih ⟨hdistinct.2, hordered.2⟩ hnew.2
          refine ⟨?_, ?_⟩
          · rw [List.map_cons, List.nodup_cons, mem_insertIndex]
            exact ⟨not_or.mpr ⟨fun heq => hnew.1 heq.symm, hdistinct.1⟩, hrest.distinct⟩
          · rw [List.map_cons, List.pairwise_cons]
            refine ⟨fun k hk => ?_, hrest.ordered⟩
            rcases mem_insertIndex.mp hk with rfl | hk
            · rw [Before, hj, hi]
              exact Nat.le_of_not_lt hle
            · exact hordered.1 k hk
      · next hnone =>
        refine hfront fun k hk => ?_
        rcases List.mem_cons.mp hk with rfl | hk
        · exact before_none hnone
        · have hafter := hordered.1 k hk
          rw [Before, hnone] at hafter
          cases hindex : arrayIndex k with
          | none => exact before_none hindex
          | some l =>
              rw [hindex] at hafter
              exact hafter.elim

theorem keys_replace : (object.map fun q => if q.1 = property.1 then property else q).map Prod.fst =
    object.map Prod.fst := by
  rw [List.map_map]
  refine List.map_congr_left fun q _ => ?_
  rw [Function.comp_apply]
  split
  · next heq => exact heq.symm
  · rfl

/-- Setting a property keeps the order. -/
theorem Enumerated.set (h : Enumerated object) : Enumerated (set object property) := by
  rw [Properties.set]
  split
  · exact ⟨by rw [keys_replace]; exact h.distinct, by rw [keys_replace]; exact h.ordered⟩
  · next hnew =>
    split
    · next i hi => exact h.insertIndex hi hnew
    · next hnone =>
      refine ⟨?_, ?_⟩
      · rw [List.map_append, List.map_singleton]
        exact List.nodup_append.mpr ⟨h.distinct, List.nodup_singleton _, fun a ha b hb hab => by
          rw [List.mem_singleton] at hb
          exact hnew (hb ▸ hab ▸ ha)⟩
      · rw [List.map_append, List.map_singleton, List.pairwise_append]
        refine ⟨h.ordered, List.pairwise_singleton _ _, fun k _ k' hk' => ?_⟩
        rw [List.mem_singleton.mp hk']
        exact before_none hnone

theorem Enumerated.extend (h : Enumerated object) (properties : List (Key × A)) :
    Enumerated (extend object properties) := by
  induction properties generalizing object with
  | nil => exact h
  | cons property properties ih => exact ih h.set

theorem enumerated_ofEntries (properties : List (Key × A)) : Enumerated (ofEntries properties) :=
  Enumerated.nil.extend properties

/-! ## Adding them in order -/

theorem insertIndex_last {i : Nat} (hi : arrayIndex property.1 = some i)
    (hlast : ∀ k ∈ object.map Prod.fst, Before k property.1) :
    insertIndex i property object = object ++ [property] := by
  induction object with
  | nil => rfl
  | cons q qs ih =>
      rw [List.map_cons, List.forall_mem_cons] at hlast
      obtain ⟨hq, hqs⟩ := hlast
      rw [Before, hi] at hq
      rw [insertIndex]
      split
      · next j hj =>
        rw [hj] at hq
        rw [if_neg (Nat.not_lt.mpr hq), ih hqs]
        rfl
      · next hnone =>
        rw [hnone] at hq
        exact hq.elim

theorem set_last (h : Enumerated (object ++ [property])) :
    set object property = object ++ [property] := by
  obtain ⟨hdistinct, hordered⟩ := h
  rw [List.map_append, List.map_singleton] at hdistinct hordered
  have hnew : property.1 ∉ object.map Prod.fst := fun hmem =>
    (List.nodup_append.mp hdistinct).2.2 _ hmem _ (List.mem_singleton_self _) rfl
  rw [set, if_neg hnew]
  split
  · next i hi =>
    exact insertIndex_last hi fun k hk =>
      (List.pairwise_append.mp hordered).2.2 k hk _ (List.mem_singleton_self _)
  · rfl

theorem Enumerated.of_append {after : List (Key × A)} (h : Enumerated (object ++ after)) :
    Enumerated object := by
  obtain ⟨hdistinct, hordered⟩ := h
  rw [List.map_append] at hdistinct hordered
  exact ⟨(List.nodup_append.mp hdistinct).1, (List.pairwise_append.mp hordered).1⟩

/-- Adding properties in the order they are enumerated appends them. -/
theorem extend_eq (h : Enumerated (object ++ properties)) :
    extend object properties = object ++ properties := by
  induction properties generalizing object with
  | nil => rw [List.append_nil]; rfl
  | cons property properties ih =>
      have hsplit : object ++ property :: properties = (object ++ [property]) ++ properties := by
        rw [List.append_assoc]
        rfl
      rw [hsplit] at h
      rw [extend, List.foldl_cons, set_last h.of_append, hsplit]
      exact ih h

/-- Copying an object property by property gives the same object. -/
theorem ofEntries_eq (h : Enumerated object) : ofEntries object = object := extend_eq h

/-- Properties with new keys are added, wherever they are enumerated. -/
theorem extend_perm (h : ((object ++ properties).map Prod.fst).Nodup) :
    (extend object properties).Perm (object ++ properties) := by
  have hinsert : ∀ (i : Nat) (property : Key × A) (object : List (Key × A)),
      (insertIndex i property object).Perm (property :: object) := by
    intro i property object
    induction object with
    | nil => exact .refl _
    | cons q qs ih =>
        rw [insertIndex]
        split
        · split
          · exact .refl _
          · exact (ih.cons q).trans (.swap _ _ _)
        · exact .refl _
  induction properties generalizing object with
  | nil =>
      rw [List.append_nil]
      exact .refl _
  | cons property properties ih =>
      have hsplit : object ++ property :: properties = object ++ [property] ++ properties := by simp
      rw [hsplit] at h ⊢
      have hset : (set object property).Perm (object ++ [property]) := by
        have hnew : property.1 ∉ object.map Prod.fst := fun hmem => by
          rw [List.map_append, List.map_append] at h
          exact (List.nodup_append.mp (List.nodup_append.mp h).1).2.2 _ hmem _
            (List.mem_singleton_self _) rfl
        rw [set, if_neg hnew]
        split
        · exact (hinsert _ _ _).trans (List.perm_append_singleton _ _).symm
        · exact .refl _
      have hkeys : ((set object property ++ properties).map Prod.fst).Nodup :=
        ((hset.append_right properties).map Prod.fst).nodup_iff.mpr h
      exact (ih hkeys).trans (hset.append_right properties)

theorem ofEntries_perm (h : (properties.map Prod.fst).Nodup) :
    (ofEntries properties).Perm properties := extend_perm h

/-- Keys that are no array indices are enumerated as they come. -/
theorem enumerated_of_none (hdistinct : (object.map Prod.fst).Nodup)
    (hnone : ∀ k ∈ object.map Prod.fst, arrayIndex k = none) : Enumerated object :=
  ⟨hdistinct, List.Pairwise.imp_of_mem (fun _ hk' _ => before_none (hnone _ hk')) hdistinct⟩

/-- The values of an object play no part in its order. -/
theorem Enumerated.mapValues (h : Enumerated object) (f : A → B) :
    Enumerated (object.map fun q => (q.1, f q.2)) := by
  have hkeys : (object.map fun q => (q.1, f q.2)).map Prod.fst = object.map Prod.fst := by
    rw [List.map_map]
    rfl
  exact ⟨hkeys ▸ h.distinct, hkeys ▸ h.ordered⟩

end

example : ofEntries [([98], 0), ([49, 48], 1), ([48, 49], 2), ([50], 3)] =
    [([50], 3), ([49, 48], 1), ([98], 0), ([48, 49], 2)] := by decide

end Properties
