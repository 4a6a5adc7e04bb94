import Mathlib.Data.List.Induction
import Mathlib.Data.List.Nodup
import Mathlib.Tactic.Ring

/-!
# Places in a tree

A place is the list of names that leads to it from a root.  What is below a place is its children
and what is below them, which is the one fact a walk of a tree rests on.  A tree is the list of its
places with what stands there.
-/

namespace Places

variable {A E : Type*} [DecidableEq A]

/-- The places strictly below a place. -/
def below (places : List (List A)) (p : List A) : List (List A) :=
  places.filter fun q => p <+: q ∧ p ≠ q

/-- The places one name below a place. -/
def children (places : List (List A)) (p : List A) : List (List A) :=
  places.filter fun q => q ≠ [] ∧ q.dropLast = p

/-- Distinct places, each with every place on the way to it. -/
structure Closed (places : List (List A)) : Prop where
  nodup : places.Nodup
  parent : ∀ p name, p ++ [name] ∈ places → p ∈ places

variable {places : List (List A)} {p q : List A}

/-- What is below a place has it as a proper prefix. -/
theorem mem_below : q ∈ below places p ↔ q ∈ places ∧ p <+: q ∧ p ≠ q := by
  rw [below, List.mem_filter, decide_eq_true_iff]

/-- A child has one name more. -/
theorem mem_children : q ∈ children places p ↔ q ∈ places ∧ ∃ name, q = p ++ [name] := by
  rw [children, List.mem_filter, decide_eq_true_iff]
  refine and_congr_right fun _ => ⟨fun ⟨hne, hq⟩ => ⟨q.getLast hne, ?_⟩, ?_⟩
  · rw [← hq, List.dropLast_append_getLast hne]
  · rintro ⟨name, rfl⟩
    exact ⟨by simp, List.dropLast_concat⟩

/-- Everything but the root is below the root. -/
theorem mem_below_root : q ∈ below places [] ↔ q ∈ places ∧ q ≠ [] := by
  rw [mem_below, ne_comm]
  exact and_congr_right fun _ => and_iff_right List.nil_prefix

namespace Closed

variable (h : Closed places)
include h

/-- Places are listed once. -/
theorem nodup_below (p : List A) : (below places p).Nodup := h.nodup.filter _

/-- Children are listed once. -/
theorem nodup_children (p : List A) : (children places p).Nodup := h.nodup.filter _

omit [DecidableEq A] in
/-- Every place on the way to a place is one. -/
theorem of_prefix {rest : List A} (hq : q ++ rest ∈ places) : q ∈ places := by
  induction rest using List.reverseRecOn with
  | nil => rwa [List.append_nil] at hq
  | append_singleton rest name ih =>
      rw [← List.append_assoc] at hq
      exact ih (h.parent _ name hq)

/-- What is below a place is its children and what is below them. -/
theorem below_perm (p : List A) :
    (below places p).Perm (children places p ++ (children places p).flatMap (below places)) := by
  refine (List.perm_ext_iff_of_nodup (h.nodup_below p) ?_).mpr fun q => ?_
  · refine List.nodup_append.mpr ⟨h.nodup_children p, ?_, ?_⟩
    · refine List.nodup_flatMap.mpr ⟨fun q _ => h.nodup_below q, ?_⟩
      refine (h.nodup_children p).imp_of_mem fun {a b} ha hb hne q hqa hqb => ?_
      obtain ⟨-, name, rfl⟩ := mem_children.mp ha
      obtain ⟨-, name', rfl⟩ := mem_children.mp hb
      obtain ⟨-, ⟨rest, rfl⟩, -⟩ := mem_below.mp hqa
      obtain ⟨-, ⟨rest', heq⟩, -⟩ := mem_below.mp hqb
      rw [List.append_assoc, List.append_assoc] at heq
      obtain ⟨rfl, -⟩ := List.cons.inj (List.append_cancel_left heq)
      exact hne rfl
    · rintro a ha b hb rfl
      obtain ⟨c, hc, hac⟩ := List.mem_flatMap.mp hb
      obtain ⟨-, name, rfl⟩ := mem_children.mp ha
      obtain ⟨-, name', rfl⟩ := mem_children.mp hc
      obtain ⟨-, hpre, hne⟩ := mem_below.mp hac
      exact hne (hpre.eq_of_length (by simp))
  · rw [mem_below, List.mem_append, List.mem_flatMap]
    constructor
    · rintro ⟨hmem, ⟨rest, rfl⟩, hne⟩
      obtain ⟨name, rest, rfl⟩ := List.exists_cons_of_ne_nil
        (fun hnil : rest = [] => hne (by rw [hnil, List.append_nil]))
      have hassoc : p ++ name :: rest = p ++ [name] ++ rest := by simp
      rw [hassoc] at hmem ⊢
      have hplace := h.of_prefix hmem
      by_cases hnil : rest = []
      · rw [hnil, List.append_nil]
        exact .inl (mem_children.mpr ⟨hplace, name, rfl⟩)
      · refine .inr ⟨p ++ [name], mem_children.mpr ⟨hplace, name, rfl⟩,
          mem_below.mpr ⟨hmem, List.prefix_append _ _, fun heq => hnil ?_⟩⟩
        exact List.append_cancel_left (heq.symm.trans (List.append_nil _).symm)
    · rintro (hq | ⟨c, hc, hq⟩)
      · obtain ⟨hmem, name, rfl⟩ := mem_children.mp hq
        exact ⟨hmem, List.prefix_append _ _, by simp⟩
      · obtain ⟨-, name, rfl⟩ := mem_children.mp hc
        obtain ⟨hmem, ⟨rest, rfl⟩, -⟩ := mem_below.mp hq
        refine ⟨hmem, ?_, ?_⟩
        · rw [List.append_assoc]
          exact List.prefix_append _ _
        · rw [List.append_assoc]
          intro heq
          have hlength := congrArg List.length heq
          simp at hlength

end Closed

/-! ## What stands at a place -/

section

variable {B : Type*}

/-- Where keys differ, looking up is membership. -/
theorem lookup_eq_some [BEq B] [LawfulBEq B] {entries : List (B × E)} {b : B} {e : E}
    (h : (entries.map Prod.fst).Nodup) : entries.lookup b = some e ↔ (b, e) ∈ entries := by
  induction entries with
  | nil => simp
  | cons entry entries ih =>
      rw [List.map_cons, List.nodup_cons] at h
      rw [List.lookup_cons, List.mem_cons]
      split
      · next heq =>
        obtain rfl : b = entry.1 := beq_iff_eq.mp heq
        constructor
        · intro hsome
          exact .inl (Prod.ext rfl (Option.some.inj hsome).symm)
        · rintro (heq | hmem)
          · rw [← heq]
          · exact absurd (List.mem_map_of_mem hmem) h.1
      · next hne =>
        refine (ih h.2).trans ⟨.inr, fun hmem => hmem.resolve_left fun heq => ?_⟩
        rw [← heq] at hne
        simp at hne

variable [DecidableEq B]

/-- The tree without a place. -/
def remove (tree : List (B × E)) (p : B) : List (B × E) := tree.filter fun found => found.1 ≠ p

/-- What stands at a place, in the stead of anything before. -/
def put (tree : List (B × E)) (p : B) (entry : E) : List (B × E) := (p, entry) :: remove tree p

variable [BEq B] [LawfulBEq B]

/-- Nothing stands there afterwards, and all else does. -/
theorem lookup_remove (tree : List (B × E)) (p q : B) :
    (remove tree p).lookup q = if q = p then none else tree.lookup q := by
  induction tree with
  | nil =>
      rw [remove, List.filter_nil, List.lookup_nil, ite_self]
  | cons found tree ih =>
      rw [remove, List.filter_cons]
      by_cases hfound : found.1 = p
      · rw [if_neg (by simpa using hfound), ← remove, ih]
        split
        · rfl
        · next hne =>
          rw [List.lookup_cons, beq_eq_false_iff_ne.mpr (by rw [hfound]; exact hne)]
      · rw [if_pos (by simpa using hfound), ← remove, List.lookup_cons, ih, List.lookup_cons]
        by_cases hq : q = p
        · rw [if_pos hq, if_pos hq, hq, beq_eq_false_iff_ne.mpr (Ne.symm hfound)]
        · rw [if_neg hq, if_neg hq]

/-- What was put stands there, and all else as before. -/
theorem lookup_put (tree : List (B × E)) (p q : B) (entry : E) :
    (put tree p entry).lookup q = if q = p then some entry else tree.lookup q := by
  rw [put, List.lookup_cons, lookup_remove]
  by_cases hq : q = p
  · rw [hq, beq_self_eq_true]
    exact (if_pos rfl).symm
  · rw [beq_eq_false_iff_ne.mpr hq, if_neg hq, if_neg hq]

end

end Places
