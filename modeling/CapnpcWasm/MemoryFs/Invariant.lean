import CapnpcWasm.MemoryFs.Effects
import Mathlib.Algebra.Order.BigOperators.Group.List
import Mathlib.Algebra.Order.Group.Nat
import Mathlib.Data.List.Perm.Subperm

/-!
# The budgets over whole runs

The invariant of a writable mount: a tree of canonical names under `.`, whose nodes are
charged in `used` whether they are linked or not, and whose entries are counted in
`created`.  It is proved for each of the five effects and holds along every run.  The
recorded limit is the first budget of the run's refusals.

* `Sound` is the invariant, and `Sound.create`, `delete`, `moved`, `store` and `charged` keep
  it, one for each constructor of `Effect`.
* `World.Kept.step` is the step and `kept_of_runs` the run, with the limit among what it says.
* `Sound.snapshot` bounds what a snapshot holds, from distinct nodes of the heap.
* `runs_within_budgets` puts the parts together.
-/

namespace MemoryFs

open Sdk

/-! ## Keys of a map -/

section

variable {A : Type} {B : A → Type} [DecidableEq A] {a : A} {m : AList B}

/-- An insertion adds at most one key. -/
theorem keys_insert_le (a : A) (b : B a) (m : AList B) :
    (m.insert a b).keys.length ≤ m.keys.length + 1 := by
  rw [AList.keys_insert, List.length_cons]
  exact Nat.succ_le_succ List.length_erase_le

/-- A removal adds none. -/
theorem keys_erase_le (a : A) (m : AList B) : (m.erase a).keys.length ≤ m.keys.length := by
  rw [AList.keys_erase]
  exact List.length_erase_le

/-- A removal takes the key that was there. -/
theorem keys_erase_lt (h : a ∈ m) : (m.erase a).keys.length < m.keys.length := by
  rw [AList.keys_erase, List.length_erase_of_mem h]
  exact Nat.sub_one_lt_of_lt (List.length_pos_of_mem h)

end

/-! ## Sums over the heap -/

/-- The bytes of all nodes. -/
def Disk.bytes (d : Disk) : Nat := (d.heap.map fun n => n.data.length).sum

section

variable {d : Disk} {n m : Pointer} {name source target : Name} {mode : FileMode}
  {data : List UInt8} {delta : Int}

/-- A sum over the heap after one node changed, without subtraction. -/
theorem sum_modify {l : List Node} {f : Node → Node} (hn : n < l.length) :
    ((l.modify n f).map fun n => n.data.length).sum + (l.getD n default).data.length =
      (l.map fun n => n.data.length).sum + (f (l.getD n default)).data.length := by
  induction l generalizing n with
  | nil => cases hn
  | cons node l ih =>
      cases n with
      | zero =>
          simp only [List.modify_zero_cons, List.map_cons, List.sum_cons, List.getD_cons_zero]
          omega
      | succ n =>
          have := ih (Nat.lt_of_succ_lt_succ hn)
          simp only [List.modify_succ_cons, List.map_cons, List.sum_cons, List.getD_cons_succ]
          omega

/-- Storing data exchanges the size of one node for another. -/
theorem bytes_store (h : n < d.heap.length) :
    (d.store n data delta).bytes + d.size n = d.bytes + data.length := sum_modify h

/-- A new node adds its own size. -/
@[simp] theorem bytes_add : (d.add name mode data).1.bytes = d.bytes + data.length := by
  simp [Disk.bytes, Disk.add]

/-! ## Names after a change -/

/-- The new name is the new node, and no other name moves. -/
theorem lookup_add : (d.add name mode data).1.lookup target =
    if target = name then some d.heap.length else d.lookup target := by
  split
  · next h =>
    subst h
    exact AList.lookup_insert _
  · next h => exact AList.lookup_insert_ne h

/-- The name is gone, and no other. -/
theorem lookup_delete : (d.delete name).lookup target =
    if target = name then none else d.lookup target := by
  split
  · next h =>
    subst h
    exact AList.lookup_erase _ _
  · next h => exact AList.lookup_erase_ne h

/-- The target has the node, the source has none. -/
theorem lookup_move (x : Name) : (d.move source target n).lookup x =
    if x = target then some n else if x = source then none else d.lookup x := by
  split
  · next h =>
    subst h
    exact AList.lookup_insert _
  · next h =>
    exact (AList.lookup_insert_ne h).trans lookup_delete

/-- The number of names, the root included. -/
def Disk.count (d : Disk) : Nat := d.fs.nodes.keys.length

/-- An added name is at most one more. -/
theorem count_add : (d.add name mode data).1.count ≤ d.count + 1 := keys_insert_le _ _ _

theorem count_delete : (d.delete name).count ≤ d.count := keys_erase_le _ _

/-- A rename inserts the target and erases the source, which was there. -/
theorem count_move (h : d.lookup source = some n) : (d.move source target n).count ≤ d.count := by
  have hmem : source ∈ d.fs.nodes := AList.lookup_isSome.mp (Option.isSome_of_eq_some h)
  exact Nat.le_trans (keys_insert_le _ _ _) (keys_erase_lt hmem)

end

/-! ## The invariant -/

/-- A name a writable mount may hold below its root. -/
structure Disk.Fits (d : Disk) (name : Name) : Prop where
  canonical : Canonical name
  short : name.length ≤ d.fs.limits.pathBytes
  parent : ∃ p, d.lookup (dir name) = some p ∧ d.isDir p

/-- The invariant of a writable mount. -/
structure Sound (d : Disk) : Prop where
  writable : d.fs.readOnly = false
  root : ∃ n, d.lookup dot = some n ∧ d.isDir n
  names : ∀ name n, d.lookup name = some n → name = dot ∨ d.Fits name
  linked : ∀ name n, d.lookup name = some n → n < d.heap.length
  single : ∀ a b n, d.lookup a = some n → d.lookup b = some n → a = b
  used : d.fs.used = d.bytes
  room : d.fs.used ≤ d.fs.limits.outputBytes
  counted : d.count ≤ d.fs.created + 1
  entries : d.fs.created ≤ d.fs.limits.outputEntries

namespace Sound

variable {d d' : Disk} {n : Pointer} {name source target : Name} {mode : FileMode}
  {data : List UInt8} {delta : Int}

/-- A regular file is not the root. -/
theorem ne_dot (h : Sound d) (hn : d.lookup name = some n) (hf : d.isDir n = false) :
    name ≠ dot := by
  rintro rfl
  obtain ⟨m, hm, hd⟩ := h.root
  rw [hn] at hm
  cases hm
  rw [hf] at hd
  cases hd

/-- A name that can be created is not the root. -/
theorem admits_ne_dot (h : Sound d) (ha : d.Admits name) : name ≠ dot := by
  rintro rfl
  obtain ⟨m, hm, _⟩ := h.root
  rw [ha.absent] at hm
  cases hm

/-- Such a name is canonical and its parent is a directory. -/
theorem admits_fits (h : Sound d) (ha : d.Admits name) : d.Fits name where
  canonical := ha.resolved.resolve_left (h.admits_ne_dot ha)
  short := ha.short
  parent := ha.parent

/-- A created file is empty, so only its entry counts. -/
theorem create (h : Sound d) (ha : d.Admits name) : Sound (d.charged.add name mode []).1 := by
  have hne : ∀ x p, d.lookup x = some p → x ≠ name := by
    rintro x p hp rfl
    rw [ha.absent] at hp
    cases hp
  have hold : ∀ x p, d.lookup x = some p →
      (d.charged.add name mode []).1.lookup x = some p := by
    intro x p hp
    rw [lookup_add, if_neg (hne x p hp)]
    exact hp
  have hdir : ∀ x p, d.lookup x = some p →
      (d.charged.add name mode []).1.isDir p = d.isDir p :=
    fun x p hp => isDir_add_of_lt (d := d.charged) (h.linked x p hp)
  have hkeep : ∀ x, (∃ p, d.lookup x = some p ∧ d.isDir p) →
      ∃ p, (d.charged.add name mode []).1.lookup x = some p ∧
        (d.charged.add name mode []).1.isDir p := by
    rintro x ⟨p, hp, hd⟩
    exact ⟨p, hold x p hp, by rw [hdir x p hp, hd]⟩
  refine ⟨h.writable, hkeep dot h.root, ?_, ?_, ?_, ?_, ?_, ?_, ha.charge⟩
  · intro x p hp
    rw [lookup_add] at hp
    split at hp
    · next hx =>
      subst hx
      have hfit := h.admits_fits ha
      exact .inr ⟨hfit.canonical, hfit.short, hkeep _ hfit.parent⟩
    · rcases h.names x p hp with rfl | hfit
      · exact .inl rfl
      · exact .inr ⟨hfit.canonical, hfit.short, hkeep _ hfit.parent⟩
  · intro x p hp
    rw [lookup_add] at hp
    rw [length_add]
    split at hp
    · cases hp
      exact Nat.lt_succ_self _
    · exact Nat.lt_succ_of_lt (h.linked x p hp)
  · intro a b p hpa hpb
    rw [lookup_add] at hpa hpb
    have hlt : ∀ x, d.lookup x = some d.heap.length → False :=
      fun x hx => absurd (h.linked x _ hx) (Nat.lt_irrefl _)
    split at hpa
    · next hxa =>
      split at hpb
      · next hxb => rw [hxa, hxb]
      · cases hpa
        exact (hlt b hpb).elim
    · split at hpb
      · cases hpb
        exact (hlt a hpa).elim
      · exact h.single a b p hpa hpb
  · rw [bytes_add]
    show d.fs.used + (0 : Nat) = _
    rw [h.used]
    rfl
  · show d.fs.used + (0 : Nat) ≤ _
    rw [Int.natCast_zero, Int.add_zero]
    exact h.room
  · have hc : d.charged.count ≤ d.fs.created + 1 := h.counted
    show (d.charged.add name mode []).1.count ≤ d.fs.created + 1 + 1
    exact Nat.le_trans count_add (Nat.succ_le_succ hc)

/-- A deleted file stays charged, as handles may still hold it. -/
theorem delete (h : Sound d) (hn : d.lookup name = some n) (hf : d.isDir n = false) :
    Sound (d.delete name) := by
  -- What is gone is a file, so every parent and the root stay.
  have hkeep : ∀ x, (∃ p, d.lookup x = some p ∧ d.isDir p) →
      ∃ p, (d.delete name).lookup x = some p ∧ (d.delete name).isDir p := by
    rintro x ⟨p, hp, hd⟩
    refine ⟨p, ?_, hd⟩
    rw [lookup_delete, if_neg]
    · exact hp
    · rintro rfl
      rw [hn] at hp
      cases hp
      rw [hf] at hd
      cases hd
  have hold : ∀ x p, (d.delete name).lookup x = some p → d.lookup x = some p := by
    intro x p hp
    rw [lookup_delete] at hp
    split at hp
    · cases hp
    · exact hp
  refine ⟨h.writable, hkeep dot h.root, ?_, fun x p hp => h.linked x p (hold x p hp), ?_, h.used,
    h.room, Nat.le_trans count_delete h.counted, h.entries⟩
  · intro x p hp
    rcases h.names x p (hold x p hp) with rfl | hfit
    · exact .inl rfl
    · exact .inr ⟨hfit.canonical, hfit.short, hkeep _ hfit.parent⟩
  · exact fun a b p ha hb => h.single a b p (hold a p ha) (hold b p hb)

/-- A file moved to a name that is absent or another file's. -/
theorem moved (h : Sound d) (hn : d.lookup source = some n) (hf : d.isDir n = false)
    (hne : source ≠ target) (hold : ∀ m, d.lookup target = some m → d.isDir m = false)
    (hfit : d.Fits target) : Sound (d.move source target n) := by
  have hfile : ∀ x p, d.lookup x = some p → d.isDir p → x ≠ source ∧ x ≠ target := by
    intro x p hp hd
    refine ⟨?_, ?_⟩
    · rintro rfl
      rw [hn] at hp
      cases hp
      rw [hf] at hd
      cases hd
    · rintro rfl
      rw [hold p hp] at hd
      cases hd
  have hkeep : ∀ x, (∃ p, d.lookup x = some p ∧ d.isDir p) →
      ∃ p, (d.move source target n).lookup x = some p ∧ (d.move source target n).isDir p := by
    rintro x ⟨p, hp, hd⟩
    obtain ⟨hs, ht⟩ := hfile x p hp hd
    refine ⟨p, ?_, hd⟩
    rw [lookup_move, if_neg ht, if_neg hs]
    exact hp
  -- The node of a name afterwards is the node of some name before.
  have hback : ∀ x p, (d.move source target n).lookup x = some p →
      (x = target ∧ p = n) ∨ (x ≠ target ∧ x ≠ source ∧ d.lookup x = some p) := by
    intro x p hp
    rw [lookup_move] at hp
    split at hp
    · next hx =>
      cases hp
      exact .inl ⟨hx, rfl⟩
    · next hx =>
      split at hp
      · cases hp
      · next hs => exact .inr ⟨hx, hs, hp⟩
  refine ⟨h.writable, hkeep dot h.root, ?_, ?_, ?_, h.used, h.room,
    Nat.le_trans (count_move hn) h.counted, h.entries⟩
  · intro x p hp
    rcases hback x p hp with ⟨rfl, _⟩ | ⟨_, _, hx⟩
    · exact .inr ⟨hfit.canonical, hfit.short, hkeep _ hfit.parent⟩
    · rcases h.names x p hx with rfl | hfit
      · exact .inl rfl
      · exact .inr ⟨hfit.canonical, hfit.short, hkeep _ hfit.parent⟩
  · intro x p hp
    rcases hback x p hp with ⟨_, rfl⟩ | ⟨_, _, hx⟩
    · exact h.linked source p hn
    · exact h.linked x p hx
  · intro a b p ha hb
    rcases hback a p ha with ⟨rfl, rfl⟩ | ⟨_, has, hxa⟩
    · rcases hback b p hb with ⟨rfl, _⟩ | ⟨_, hbs, hxb⟩
      · rfl
      · exact absurd (h.single b source p hxb hn) hbs
    · rcases hback b p hb with ⟨rfl, rfl⟩ | ⟨_, _, hxb⟩
      · exact absurd (h.single a source p hxa hn) has
      · exact h.single a b p hxa hxb

/-- Data is charged by its difference before it is stored. -/
theorem store (h : Sound d) (hn : n < d.heap.length) (hd : delta = data.length - d.size n)
    (hroom : delta ≤ 0 ∨ d.fs.used + delta ≤ d.fs.limits.outputBytes) :
    Sound (d.store n data delta) := by
  have hkeep : ∀ x, (∃ p, d.lookup x = some p ∧ d.isDir p) →
      ∃ p, (d.store n data delta).lookup x = some p ∧ (d.store n data delta).isDir p := by
    rintro x ⟨p, hp, hdir⟩
    exact ⟨p, hp, by rw [isDir_store, hdir]⟩
  refine ⟨h.writable, hkeep dot h.root, ?_, ?_, h.single, ?_, ?_, h.counted, h.entries⟩
  · intro x p hp
    rcases h.names x p hp with rfl | hfit
    · exact .inl rfl
    · exact .inr ⟨hfit.canonical, hfit.short, hkeep _ hfit.parent⟩
  · intro x p hp
    rw [length_store]
    exact h.linked x p hp
  · have : (d.store n data delta).bytes + d.size n = _ := bytes_store hn
    have hu := h.used
    show d.fs.used + delta = _
    omega
  · have := h.room
    show d.fs.used + delta ≤ d.fs.limits.outputBytes
    omega

/-- An entry is charged before its name is added. -/
theorem charged (h : Sound d) (hc : d.fs.created < d.fs.limits.outputEntries) :
    Sound d.charged :=
  ⟨h.writable, h.root, fun x p hp => (h.names x p hp).imp id fun hf => ⟨hf.1, hf.2, hf.3⟩,
    h.linked, h.single, h.used, h.room, Nat.le_succ_of_le h.counted, hc⟩

/-- Each of the five. -/
theorem effect (h : Sound d) (he : Effect d d') : Sound d' := by
  cases he with
  | create ha => exact h.create ha
  | delete hn hf => exact h.delete hn hf
  | @replace source target n old hn hf ho hof hne =>
      refine h.moved hn hf hne ?_ ?_
      · intro m hm
        rw [ho] at hm
        cases hm
        exact hof
      · exact (h.names target old ho).resolve_left (h.ne_dot ho hof)
  | @move source target n hn hf ha =>
      have hfit := h.admits_fits ha
      refine (h.charged ha.charge).moved hn hf ?_ ?_ ⟨hfit.1, hfit.2, hfit.3⟩
      · rintro rfl
        rw [ha.absent] at hn
        cases hn
      · intro m hm
        have : d.lookup target = some m := hm
        rw [ha.absent] at this
        cases this
  | store hn _ hd hroom => exact h.store hn hd hroom

theorem effects (h : Sound d) (he : Effects d d') : Sound d' := by
  induction he with
  | refl => exact h
  | tail _ he ih => exact ih.effect he

/-- A recorded refusal changes no file. -/
theorem notes (h : Sound d) (r : Option Limit) : Sound (d.notes r) := by
  cases r with
  | none => exact h
  | some b => exact ⟨h.writable, h.root,
      fun x p hp => (h.names x p hp).imp id fun hf => ⟨hf.1, hf.2, hf.3⟩,
      h.linked, h.single, h.used, h.room, h.counted, h.entries⟩

end Sound

/-! ## Runs -/

/-- The invariant of a mount in use. -/
structure World.Kept (w : World) : Prop where
  sound : Sound w.toDisk
  held : w.Held

/-- An effect records no limit. -/
theorem Effect.limit {d d' : Disk} (h : Effect d d') : d'.fs.limit = d.fs.limit := by
  cases h with
  | create _ => rfl
  | delete _ _ => rfl
  | replace _ _ _ _ _ => rfl
  | move _ _ _ => rfl
  | store _ _ _ _ => rfl

theorem Effects.limit {d d' : Disk} (h : Effects d d') : d'.fs.limit = d.fs.limit := by
  induction h with
  | refl => rfl
  | tail _ he ih => rw [he.limit, ih]

/-- The first refusal is kept and later ones are dropped. -/
theorem notes_limit (d : Disk) (r : Option Limit) : (d.notes r).fs.limit = d.fs.limit.or r := by
  cases r with
  | none => rw [Option.or_none, Disk.notes_none]
  | some b => rfl

section

variable {w w' : World} {event : Event} {events : List Event} {device : Nat} {limits : Limits}

/-- One event of a run, as effects on its disk. -/
theorem World.Kept.acts (hk : w.Kept) (h : Does w event w') :
    Acts w.toDisk w'.toDisk w.fs.limits event.1 event.2 ∧ w'.Held :=
  step_acts h hk.sound.writable hk.sound.linked hk.held

/-- The step lemma: the invariant over one event. -/
theorem World.Kept.step (hk : w.Kept) (h : Does w event w') : w'.Kept := by
  obtain ⟨ha, hh⟩ := hk.acts h
  obtain ⟨d, b, he, hd, _⟩ := ha.effects
  refine ⟨?_, hh⟩
  rw [hd]
  exact (hk.sound.effects he).notes _

/-- A step keeps the limits, and records its refusal where none was recorded. -/
theorem World.Kept.limit (hk : w.Kept) (h : Does w event w') :
    w'.fs.limits = w.fs.limits ∧ w'.fs.limit = w.fs.limit.or (refusal w.fs.limits event) := by
  obtain ⟨d, b, he, hd, hb⟩ := (hk.acts h).1.effects
  rw [hd, hb hk.sound.room]
  refine ⟨(notes_extends d _).limits.trans he.extends.limits, ?_⟩
  rw [notes_limit, he.limit]

/-- A fresh mount is `.` alone, with nothing charged. -/
theorem fresh_kept (device : Nat) (limits : Limits) : (fresh device limits).Kept where
  sound := by
    have hlookup : ∀ x n, (fresh device limits).lookup x = some n → x = dot ∧ n = 0 := by
      intro x n hn
      change (AList.insert dot (0 : Pointer) (∅ : Names)).lookup x = some n at hn
      by_cases hx : x = dot
      · subst hx
        rw [AList.lookup_insert] at hn
        cases hn
        exact ⟨rfl, rfl⟩
      · rw [AList.lookup_insert_ne hx, AList.lookup_empty] at hn
        cases hn
    refine ⟨rfl, ⟨0, AList.lookup_insert _, rfl⟩, fun x n hn => .inl (hlookup x n hn).1, ?_, ?_,
      rfl, ?_, ?_, Nat.zero_le _⟩
    · intro x n hn
      rw [(hlookup x n hn).2]
      exact Nat.one_pos
    · intro a b n ha hb
      rw [(hlookup a n ha).1, (hlookup b n hb).1]
    · exact Int.natCast_nonneg _
    · exact keys_insert_le _ _ _
  held := by
    intro f hf
    cases hf

/-- The run lemma, by induction from the first event on. -/
theorem kept_of_runs (h : Runs (fresh device limits) events w) :
    w.Kept ∧ w.fs.limits = limits ∧
      w.fs.limit = (events.filterMap (refusal limits)).head? := by
  induction h with
  | nil => exact ⟨fresh_kept device limits, rfl, rfl⟩
  | snoc _ hs ih =>
      obtain ⟨hk, hl, hlimit⟩ := ih
      obtain ⟨hl', hlimit'⟩ := hk.limit hs
      refine ⟨hk.step hs, hl'.trans hl, ?_⟩
      rw [hlimit', hlimit, hl, List.filterMap_append, List.head?_append]
      congr 1
      cases hr : refusal limits _ with
      | none => rw [List.filterMap_cons_none hr, List.filterMap_nil, List.head?_nil]
      | some b => rw [List.filterMap_cons_some hr, List.head?_cons]

/-- A recorded limit stays. -/
theorem World.Kept.limit_stays (hk : w.Kept) (h : Runs w events w') :
    w'.Kept ∧ (w.fs.limit.isSome → w'.fs.limit = w.fs.limit) := by
  induction h with
  | nil => exact ⟨hk, fun _ => rfl⟩
  | snoc _ hs ih =>
      obtain ⟨hk', hl⟩ := ih
      refine ⟨hk'.step hs, fun hsome => ?_⟩
      rw [(hk'.limit hs).2, hl hsome, Option.or_of_isSome hsome]

end

/-! ## Snapshots -/

/-- Distinct nodes are no larger than the heap. -/
theorem sum_le_bytes {d : Disk} {ns : List Pointer} (hnd : ns.Nodup)
    (hlt : ∀ n ∈ ns, n < d.heap.length) : (ns.map d.size).sum ≤ d.bytes := by
  have hrange : d.bytes = ((List.range d.heap.length).map d.size).sum := by
    have : d.heap.map (fun n => n.data.length) = (List.range d.heap.length).map d.size := by
      apply List.ext_getElem (by simp)
      intro i h₁ h₂
      simp only [List.length_map] at h₁
      simp [Disk.size, Disk.deref, h₁]
    rw [Disk.bytes, this]
  obtain ⟨ms, hperm, hsub⟩ := List.subperm_of_subset hnd fun n hn => List.mem_range.mpr (hlt n hn)
  rw [hrange, ← (hperm.map d.size).sum_nat]
  exact (hsub.map d.size).sum_le_sum fun _ _ => Nat.zero_le _

/-- The files published from a sound mount fit its budgets. -/
theorem Sound.snapshot {d : Disk} (h : Sound d) :
    (d.snapshot.map fun entry => entry.2.length).sum ≤ d.fs.limits.outputBytes ∧
      d.snapshot.length ≤ (d.fs.nodes.keys.filter (· ≠ dot)).length ∧
      ∀ entry ∈ d.snapshot, entry.1.length ≤ d.fs.limits.pathBytes := by
  have hmem : ∀ entry ∈ d.fs.nodes.entries, d.lookup entry.1 = some entry.2 :=
    fun entry he => AList.mem_lookup_iff.mpr he
  have hfile : ∀ entry ∈ d.fs.nodes.entries.filter (fun entry => !d.isDir entry.2),
      d.lookup entry.1 = some entry.2 ∧ entry.1 ≠ dot := by
    intro entry he
    obtain ⟨hm, hf⟩ := List.mem_filter.mp he
    exact ⟨hmem entry hm, h.ne_dot (hmem entry hm) (by simpa using hf)⟩
  refine ⟨?_, ?_, ?_⟩
  · have hnd : ((d.fs.nodes.entries.filter fun entry => !d.isDir entry.2).map (·.2)).Nodup := by
      refine List.Nodup.map_on ?_ (d.fs.nodes.nodupKeys.nodup.filter _)
      intro a ha b hb heq
      obtain ⟨ha, _⟩ := hfile a ha
      obtain ⟨hb, _⟩ := hfile b hb
      have hn := h.single a.1 b.1 a.2 ha (by rw [heq]; exact hb)
      exact Sigma.ext hn (heq_of_eq heq)
    have := sum_le_bytes (d := d) hnd (by
      intro n hn
      obtain ⟨entry, he, rfl⟩ := List.mem_map.mp hn
      exact h.linked _ _ (hfile entry he).1)
    rw [List.map_map] at this
    have hr := h.room
    have hu := h.used
    simp only [Disk.snapshot, List.map_map]
    have hle : ((d.fs.nodes.entries.filter fun entry => !d.isDir entry.2).map
        ((fun entry : Name × List UInt8 => entry.2.length) ∘ fun entry =>
          (entry.1, (d.deref entry.2).data))).sum ≤ d.bytes := this
    omega
  · rw [Disk.snapshot, List.length_map]
    have hsub : (d.fs.nodes.entries.filter fun entry => !d.isDir entry.2).map (·.1) ⊆
        d.fs.nodes.keys.filter (· ≠ dot) := by
      intro name hn
      obtain ⟨entry, he, rfl⟩ := List.mem_map.mp hn
      refine List.mem_filter.mpr ⟨?_, by simpa using (hfile entry he).2⟩
      exact List.mem_map.mpr ⟨entry, (List.mem_filter.mp he).1, rfl⟩
    have hnd : ((d.fs.nodes.entries.filter fun entry => !d.isDir entry.2).map (·.1)).Nodup :=
      (List.filter_sublist.map _).nodup d.fs.nodes.keys_nodup
    simpa using (List.subperm_of_subset hnd hsub).length_le
  · intro entry he
    obtain ⟨e, hm, rfl⟩ := List.mem_map.mp he
    obtain ⟨hl, hne⟩ := hfile e hm
    exact ((h.names _ _ hl).resolve_left hne).short

/-! ## Every run -/

/-- Over any sequence of operations the mount is a tree of canonical names, its charges
are exact and within the budgets, and the recorded limit is the first budget an
operation was refused for. -/
theorem runs_within_budgets (device : Nat) (limits : Limits) (events : List Event) (w : World)
    (h : Runs (fresh device limits) events w) :
    (∃ n, w.lookup dot = some n ∧ w.isDir n) ∧
    (∀ name n, w.lookup name = some n → name ≠ dot →
      Canonical name ∧ name.length ≤ limits.pathBytes ∧
        ∃ p, w.lookup (dir name) = some p ∧ w.isDir p) ∧
    w.fs.used = (w.heap.map fun n => n.data.length).sum ∧
    0 ≤ w.fs.used ∧ w.fs.used ≤ limits.outputBytes ∧
    (w.fs.nodes.keys.filter (· ≠ dot)).length ≤ w.fs.created ∧
    w.fs.created ≤ limits.outputEntries ∧
    w.fs.limit = (events.filterMap (refusal limits)).head? ∧
    (∀ events' w', Runs w events' w' → w.fs.limit.isSome → w'.fs.limit = w.fs.limit) ∧
    (w.snapshot.map fun entry => entry.2.length).sum ≤ limits.outputBytes ∧
    w.snapshot.length ≤ limits.outputEntries ∧
    ∀ entry ∈ w.snapshot, entry.1.length ≤ limits.pathBytes := by
  obtain ⟨hk, rfl, hlimit⟩ := kept_of_runs h
  have hs := hk.sound
  have hcount : (w.fs.nodes.keys.filter (· ≠ dot)).length ≤ w.fs.created := by
    have hroot : dot ∈ w.fs.nodes.keys := by
      obtain ⟨n, hn, _⟩ := hs.root
      exact AList.mem_keys.mp (AList.lookup_isSome.mp (Option.isSome_of_eq_some hn))
    have hlt : (w.fs.nodes.keys.filter (· ≠ dot)).length < w.fs.nodes.keys.length :=
      List.length_filter_lt_length_iff_exists.mpr ⟨dot, hroot, by simp⟩
    have hc : w.fs.nodes.keys.length ≤ w.fs.created + 1 := hs.counted
    omega
  obtain ⟨hbytes, hentries, hpaths⟩ := hs.snapshot
  refine ⟨hs.root, ?_, hs.used, ?_, hs.room, hcount, hs.entries, hlimit, ?_, hbytes, ?_, hpaths⟩
  · intro name n hn hne
    have hfit := (hs.names name n hn).resolve_left hne
    exact ⟨hfit.canonical, hfit.short, hfit.parent⟩
  · rw [hs.used]
    exact Int.natCast_nonneg _
  · exact fun events' w' h' => (hk.limit_stays h').2
  · exact Nat.le_trans hentries (Nat.le_trans hcount hs.entries)

/-- Room for one file of four bytes. -/
def tightLimits : Limits :=
  { defaultLimits with outputBytes := 4, outputEntries := 1, pathBytes := 8 }

/-- A file is written, a second one refused, and the first one removed while it is open. -/
def tightOps : List Op :=
  [.openFile [97] { O_CREAT := true, O_RDWR := true } 0o644, .file 0 (.write [1, 2, 3]),
    .openFile [98] { O_CREAT := true } 0o644, .unlink [97], .file 0 (.truncate 5)]

/-- A run that exceeds its entries, with tight budgets. -/
theorem runs_within_budgets_sample : ∃ events w, Runs (fresh 0 tightLimits) events w ∧
    events.length = 5 ∧ w.fs.limit = some .outputEntries ∧ w.fs.used ≤ 4 := by
  have hrun : ((fresh 0 tightLimits).run tightOps).map (·.2) =
      some [.ok (.handle 0), .ok (.number 3), .error .ERANGE, .ok .none, .error .ERANGE] := by
    decide +kernel
  obtain ⟨⟨w, answers⟩, hr, rfl⟩ := Option.map_eq_some_iff.mp hrun
  have h := runs_within_budgets 0 tightLimits _ w (runs_of_run hr)
  exact ⟨_, w, runs_of_run hr, rfl, h.2.2.2.2.2.2.2.1, h.2.2.2.2.1⟩

end MemoryFs
