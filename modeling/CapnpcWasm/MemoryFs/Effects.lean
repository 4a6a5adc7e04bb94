import CapnpcWasm.MemoryFs.Machine
import Mathlib.Logic.Relation

/-!
# What an operation does to a writable mount

There are five ways an operation changes names, nodes or charges, with the conditions
under which it does.  Every operation is a few of them in sequence; a refused one notes
the budget it names and, one case apart, does none.  Later results are about the five
effects and about the note, and none unfolds an operation again.

* `Effect` has one constructor for each change, and `Effects` is a sequence of them.
* Each function of the mount has a lemma `.._ends` that says what it ends in, as a result or
  as an error, in these terms.
* `Acts` says the same of an operation with its answer, and `step_acts` of every event.
-/

namespace MemoryFs

open Sdk

/-! ## Effects -/

/-- The lifetime count of entries, one higher. -/
def Disk.charged (d : Disk) : Disk := { d with fs := { d.fs with created := d.fs.created + 1 } }

/-- A name a guest may add: canonical, within the budgets, and in a directory. -/
structure Disk.Admits (d : Disk) (name : Name) : Prop where
  absent : d.lookup name = none
  resolved : name = dot ∨ Canonical name
  short : name.length ≤ d.fs.limits.pathBytes
  charge : d.fs.created < d.fs.limits.outputEntries
  parent : ∃ p, d.lookup (dir name) = some p ∧ d.isDir p

/-- One change of names, nodes or charges. -/
inductive Effect (d : Disk) : Disk → Prop where
  | create {name : Name} {mode : FileMode} : d.Admits name →
      Effect d (d.charged.add name mode []).1
  | delete {name : Name} {n : Pointer} : d.lookup name = some n → d.isDir n = false →
      Effect d (d.delete name)
  | replace {source target : Name} {n old : Pointer} : d.lookup source = some n →
      d.isDir n = false → d.lookup target = some old → d.isDir old = false → source ≠ target →
      Effect d (d.move source target n)
  | move {source target : Name} {n : Pointer} : d.lookup source = some n → d.isDir n = false →
      d.Admits target → Effect d (d.charged.move source target n)
  | store {n : Pointer} {data : List UInt8} {delta : Int} : n < d.heap.length →
      d.isDir n = false → delta = data.length - d.size n →
      (delta ≤ 0 ∨ d.fs.used + delta ≤ d.fs.limits.outputBytes) →
      Effect d (d.store n data delta)

/-- Some effects in sequence. -/
abbrev Effects := Relation.ReflTransGen Effect

/-- The budget a refused operation names, noted. -/
def Disk.notes (d : Disk) : Option Limit → Disk
  | none => d
  | some limit => d.noted limit

@[simp] theorem Disk.notes_none (d : Disk) : d.notes none = d := rfl

/-- The budget behind the errno of an operation that adds a name. -/
def creating : Errno → Option Limit
  | .ENAMETOOLONG => some .pathBytes
  | .ERANGE => some .outputEntries
  | _ => none

/-- The budget behind the errno of an operation that changes contents. -/
def writing : Errno → Option Limit
  | .ERANGE => some .outputBytes
  | _ => none

/-- The length over which a path names nothing under the limits. -/
def lookupBound (limits : Limits) : Int := int64 (limits.pathBytes + longestMountPrefix)

/-- The budget an operation on a writable mount is refused for when it fails: one that
adds a name is told that it is too long or that there is no room, and one that changes
contents that there is no room. -/
def Op.budget (limits : Limits) (e : Errno) : Op → Option Limit
  | .openFile _ flag _ => if flag.O_CREAT then creating e else none
  | .mkdir _ _ => creating e
  | .rename source _ => if lookupBound limits < source.length then none else creating e
  | .file _ (.write _) => writing e
  | .file _ (.pwrite _ _) => writing e
  | .file _ (.truncate _) => writing e
  | _ => none

/-- The budget an operation was refused for. -/
def refusal (limits : Limits) (event : Event) : Option Limit :=
  match event.2 with
  | .ok _ => none
  | .error e => event.1.budget limits e

/-! ## Operations on the mount -/

section

variable {d : Disk} {name source target : Name} {perm : Nat} {mode : FileMode} {flag : Oflag}

/-- An entry is charged where the name is short enough and the count allows it. -/
theorem chargeEntry_ends (d : Disk) (name : Name) :
    (d.chargeEntry name).Ends
      (fun d' _ => d' = d.charged ∧ name.length ≤ d.fs.limits.pathBytes ∧
        d.fs.created < d.fs.limits.outputEntries)
      (fun d' e => d' = d.notes (creating e)) := by
  unfold Disk.chargeEntry
  split
  · exact .error rfl
  · next hlen =>
    split
    · exact .error rfl
    · next hcount => exact .ok ⟨rfl, Nat.not_lt.mp hlen, Nat.not_le.mp hcount⟩

/-- A new name is charged and then added, empty. -/
theorem create_ends (ha : d.lookup name = none) (hr : name = dot ∨ Canonical name)
    (hp : ∃ p, d.lookup (dir name) = some p ∧ d.isDir p) :
    (d.create name mode).Ends
      (fun d' n => d.Admits name ∧ n = d.heap.length ∧ d' = (d.charged.add name mode []).1)
      (fun d' e => d' = d.notes (creating e)) := by
  refine (chargeEntry_ends d name).andThen ?_ fun _ _ h => h
  rintro _ _ ⟨rfl, hlen, hcount⟩
  exact .ok ⟨⟨ha, hr, hlen, hcount, hp⟩, rfl, rfl⟩

/-- The parent of a name is looked up and must be a directory. -/
theorem parent_ends (d : Disk) (name : Name) :
    (d.parent name).Ends (fun d' _ => d' = d ∧ ∃ p, d.lookup (dir name) = some p ∧ d.isDir p)
      (fun d' e => d' = d ∧ creating e = none) := by
  unfold Disk.parent
  split
  · exact .error ⟨rfl, rfl⟩
  · next p hp =>
    split
    · next hd => exact .ok ⟨rfl, p, hp, hd⟩
    · exact .error ⟨rfl, rfl⟩

/-- A lookup that adds nothing notes nothing; one that adds a name notes the path
budget where the path is too long. -/
theorem resolve_ends (hw : d.fs.readOnly = false) (create : Bool) :
    (d.resolve name create).Ends
      (fun d' r => d' = d ∧ (r.1 = dot ∨ Canonical r.1) ∧ ¬d.lookupBound < name.length)
      (fun d' e => d' = d.notes (if create then creating e else none) ∧
        (creating e = none ∨ d.lookupBound < name.length)) := by
  unfold Disk.resolve
  cases hg : guestPath name d.lookupBound with
  | error e =>
      rcases guestPath_error hg with ⟨rfl, hlen⟩ | ⟨rfl, hlen⟩
      · cases create with
        | false => exact .error ⟨rfl, .inr hlen⟩
        | true =>
            simp only [hw, Bool.false_eq_true, not_false_eq_true, and_self, ↓reduceIte]
            exact .error ⟨rfl, .inr hlen⟩
      · cases create with
        | false => exact .error ⟨rfl, .inl rfl⟩
        | true => exact .error ⟨rfl, .inl rfl⟩
  | ok r =>
      have hlen : ¬d.lookupBound < name.length := by
        intro hlen
        rw [guestPath, if_pos hlen] at hg
        cases hg
      dsimp only
      split
      · refine .error ⟨?_, .inl rfl⟩
        cases create <;> rfl
      · exact .ok ⟨rfl, guestPath_ok hg, hlen⟩

end

/-! ## Nodes after a change -/

section

variable {d : Disk} {n m : Pointer} {name : Name} {mode : FileMode} {data : List UInt8}
  {delta : Int}

@[simp] theorem length_store : (d.store n data delta).heap.length = d.heap.length :=
  List.length_modify _ _ _

/-- Storing in one node leaves the others. -/
theorem deref_store_of_ne (h : m ≠ n) : (d.store n data delta).deref m = d.deref m := by
  simp only [Disk.deref, Disk.store, List.getD_eq_getElem?_getD, List.getElem?_modify_ne _ _ h.symm]

/-- The node has the new data and everything else it had. -/
theorem deref_store (h : n < d.heap.length) :
    (d.store n data delta).deref n = { d.deref n with data := data } := by
  simp [Disk.deref, Disk.store, h]

@[simp] theorem isDir_store : (d.store n data delta).isDir m = d.isDir m := by
  by_cases h : m = n
  · subst h
    by_cases hm : m < d.heap.length
    · rw [Disk.isDir, deref_store hm]
      rfl
    · simp [Disk.isDir, Disk.deref, Disk.store, hm]
  · rw [Disk.isDir, deref_store_of_ne h, Disk.isDir]

/-- Its size is that of the data. -/
theorem size_store (h : n < d.heap.length) : (d.store n data delta).size n = data.length := by
  rw [Disk.size, deref_store h]

@[simp] theorem length_add : (d.add name mode data).1.heap.length = d.heap.length + 1 :=
  List.length_append

/-- A new node comes after the old ones. -/
theorem deref_add_of_lt (h : m < d.heap.length) :
    (d.add name mode data).1.deref m = d.deref m := by
  simp only [Disk.deref, Disk.add, List.getD_eq_getElem?_getD, List.getElem?_append_left h]

/-- The new node itself. -/
theorem deref_add : (d.add name mode data).1.deref d.heap.length =
    { data := data, mode := mode, ino := d.fs.nextIno, dev := d.fs.dev } := by
  simp [Disk.deref, Disk.add]

/-- The old ones stay what they were. -/
theorem isDir_add_of_lt (h : m < d.heap.length) :
    (d.add name mode data).1.isDir m = d.isDir m := by
  rw [Disk.isDir, deref_add_of_lt h, Disk.isDir]

/-- What no operation undoes: nodes keep their type, and the mount keeps its limits. -/
structure Extends (d d' : Disk) : Prop where
  heap : d.heap.length ≤ d'.heap.length
  isDir : ∀ n < d.heap.length, d'.isDir n = d.isDir n
  limits : d'.fs.limits = d.fs.limits
  readOnly : d'.fs.readOnly = d.fs.readOnly

namespace Extends

theorem refl (d : Disk) : Extends d d := ⟨Nat.le_refl _, fun _ _ => rfl, rfl, rfl⟩

theorem trans {d₁ d₂ d₃ : Disk} (h₁ : Extends d₁ d₂) (h₂ : Extends d₂ d₃) : Extends d₁ d₃ where
  heap := Nat.le_trans h₁.heap h₂.heap
  isDir n hn := (h₂.isDir n (Nat.lt_of_lt_of_le hn h₁.heap)).trans (h₁.isDir n hn)
  limits := h₂.limits.trans h₁.limits
  readOnly := h₂.readOnly.trans h₁.readOnly

end Extends

/-- No effect takes a node away or changes what it is. -/
theorem Effect.extends {d d' : Disk} (h : Effect d d') : Extends d d' := by
  cases h with
  | @create name mode _ =>
      refine ⟨?_, fun n hn => isDir_add_of_lt (d := d.charged) hn, rfl, rfl⟩
      rw [length_add]
      exact Nat.le_succ _
  | delete _ _ => exact ⟨Nat.le_refl _, fun _ _ => rfl, rfl, rfl⟩
  | replace _ _ _ _ _ => exact ⟨Nat.le_refl _, fun _ _ => rfl, rfl, rfl⟩
  | move _ _ _ => exact ⟨Nat.le_refl _, fun _ _ => rfl, rfl, rfl⟩
  | store _ _ _ _ =>
      refine ⟨?_, fun n _ => isDir_store, rfl, rfl⟩
      rw [length_store]

/-- Several effects take no node away either. -/
theorem Effects.extends {d d' : Disk} (h : Effects d d') : Extends d d' := by
  induction h with
  | refl => exact .refl d
  | tail _ he ih => exact ih.trans he.extends

/-- A note is about the mount alone. -/
theorem notes_extends (d : Disk) (r : Option Limit) : Extends d (d.notes r) := by
  cases r with
  | none => exact .refl d
  | some _ => exact ⟨Nat.le_refl _, fun _ _ => rfl, rfl, rfl⟩

end

/-! ## Operations on a handle -/

/-- The handle's node exists, and is a file where the handle may write. -/
structure Disk.Holds (d : Disk) (f : MemoryFile) : Prop where
  node : f.node < d.heap.length
  file : f.writable → d.isDir f.node = false

/-- So a handle stays good. -/
theorem Disk.Holds.extends {d d' : Disk} {f : MemoryFile} (h : d.Holds f) (he : Extends d d') :
    d'.Holds f where
  node := Nat.lt_of_lt_of_le h.node he.heap
  file hw := (he.isDir f.node h.node).trans (h.file hw)

section

variable {d : Disk} {f : MemoryFile} {buf : List UInt8} {size offset : Int}

/-- A file is cut or filled up with zeros, where the budget has room for it. -/
theorem truncate_ends (hf : d.Holds f) :
    (f.truncate d size).Ends
      (fun d' _ => f.closed = false ∧ f.writable ∧ 0 ≤ size ∧
        size - d.size f.node ≤ d.fs.limits.outputBytes - d.fs.used ∧
        ∃ data, d' = d.store f.node data (size - d.size f.node) ∧ (data.length : Int) = size)
      (fun d' e => d' = d.notes (writing e) ∧
        (e = .EBADF ∧ (f.closed = true ∨ f.writable = false) ∨ e = .EINVAL ∧ size < 0 ∨
          e = .ERANGE ∧ d.fs.limits.outputBytes - d.fs.used < size - d.size f.node)) := by
  unfold MemoryFile.truncate
  split
  · next hbad =>
    refine .error ⟨rfl, .inl ⟨rfl, ?_⟩⟩
    simpa using hbad
  · next hopen =>
    obtain ⟨hc, hw⟩ : f.closed = false ∧ f.writable = true := by simpa using hopen
    rw [hf.file hw, if_neg Bool.false_ne_true]
    split
    · next hneg => exact .error ⟨rfl, .inr (.inl ⟨rfl, hneg⟩)⟩
    · next hsize =>
      have hs : 0 ≤ size := Int.not_lt.mp hsize
      dsimp only
      split
      · next hroom => exact .error ⟨rfl, .inr (.inr ⟨rfl, hroom⟩)⟩
      · next hroom =>
        have hr := Int.not_lt.mp hroom
        split
        · next hgrow =>
          refine .ok ⟨hc, hw, hs, hr, _, rfl, ?_⟩
          rw [List.length_append, List.length_replicate]
          omega
        · next hcut =>
          refine .ok ⟨hc, hw, hs, hr, _, rfl, ?_⟩
          rw [List.length_take]
          omega

/-- A truncation that succeeds is one effect, and leaves the size that was asked for. -/
theorem truncate_effect (hf : d.Holds f) :
    (f.truncate d size).Ends
      (fun d' _ => Effect d d' ∧ (d'.size f.node : Int) = size)
      (fun d' e => d' = d.notes (writing e)) := by
  refine (truncate_ends hf).mono ?_ fun _ _ h => h.1
  rintro d' _ ⟨_, hw, hs, hroom, data, rfl, hlen⟩
  refine ⟨.store hf.node (hf.file hw) (by rw [hlen]) ?_, ?_⟩
  · exact .inr (by omega)
  · rw [size_store hf.node]
    exact hlen

/-- Overwriting inside the data keeps its length. -/
theorem length_overwrite {data : List UInt8} {offset : Nat} (h : offset ≤ data.length) :
    (MemoryFile.overwrite data offset buf).length = data.length := by
  simp only [MemoryFile.overwrite, List.length_append, List.length_take, List.length_drop]
  omega

/-- A write past the end first grows the file. -/
theorem pwrite_ends (hf : d.Holds f) :
    (f.pwrite d buf offset).Ends (fun d' _ => Effects d d')
      (fun d' e => d' = d.notes (writing e)) := by
  unfold MemoryFile.pwrite
  split
  · exact .error rfl
  · next hopen =>
    obtain ⟨hc, hw⟩ : f.closed = false ∧ f.writable = true := by simpa using hopen
    dsimp only
    split
    · split
      · exact .error rfl
      · exact .error rfl
    · next hbudget =>
      have hoff : 0 ≤ offset := by omega
      -- The bytes go into a node that reaches as far as the write does.
      have hcopy : ∀ d' : Disk, Effects d d' → offset + buf.length ≤ d'.size f.node →
          Effects d (d'.store f.node
            (MemoryFile.overwrite (d'.deref f.node).data offset.toNat buf) 0) := by
        intro d' he hsize
        have hf' := hf.extends he.extends
        refine he.tail (.store hf'.node (hf'.file hw) ?_ (.inl (Int.le_refl 0)))
        rw [length_overwrite (show offset.toNat ≤ d'.size f.node by omega)]
        exact (Int.sub_self _).symm
      split
      · refine (truncate_effect hf).andThen ?_ fun _ _ h => h
        rintro d' _ ⟨he, hsize⟩
        exact .ok (hcopy d' (.single he) hsize.ge)
      · next hfits => exact .ok (hcopy d .refl (Int.not_lt.mp hfits))

end

/-! ## Opening, and the other operations on names -/

section

variable {d : Disk} {name source target : Name} {perm : Nat} {flag : Oflag}

/-- What is opened was there, or `O_CREAT` added it. -/
theorem openNode_ends {trailingSlash : Bool} (hr : name = dot ∨ Canonical name)
    (hl : ∀ r n, d.lookup r = some n → n < d.heap.length) :
    (d.openNode name trailingSlash flag perm).Ends
      (fun d' n => n < d'.heap.length ∧ (d' = d ∨ flag.O_CREAT ∧ flag.O_DIRECTORY = false ∧
        trailingSlash = false ∧ d.Admits name ∧ n = d.heap.length ∧
        d' = (d.charged.add name (.regular perm) []).1))
      (fun d' e => d' = d.notes (if flag.O_CREAT then creating e else none)) := by
  have hquiet : ∀ e, creating e = none → d = d.notes (if flag.O_CREAT then creating e else none) := by
    intro e he
    rw [he, ite_self, Disk.notes_none]
  unfold Disk.openNode
  split
  · next ha =>
    split
    · exact .error rfl
    · next hc =>
      split
      · exact .error (hquiet _ rfl)
      · next ht =>
        split
        · exact .error (hquiet _ rfl)
        · next hdir =>
          refine (parent_ends d name).andThen ?_ ?_
          · rintro _ _ ⟨rfl, hp⟩
            refine (create_ends ha hr hp).mono ?_ ?_
            · rintro d' n ⟨hadm, rfl, rfl⟩
              refine ⟨?_, .inr ⟨not_not.mp hc, ?_, ?_, hadm, rfl, rfl⟩⟩
              · rw [length_add]
                exact Nat.lt_succ_self _
              · simpa using hdir
              · simpa using ht
            · intro d' e he
              rwa [if_pos (not_not.mp hc)]
          · rintro _ e ⟨rfl, he⟩
            exact hquiet e he
  · next n hn =>
    split
    · exact .error (hquiet _ rfl)
    · exact .ok ⟨hl name n hn, .inl rfl⟩

/-- An open finds its file or creates it, and cuts it to nothing where asked.  It fails
after creating the file where it may not truncate what it created. -/
theorem openFile_ends (hw : d.fs.readOnly = false)
    (hl : ∀ r n, d.lookup r = some n → n < d.heap.length) :
    (d.openFile name flag perm).Ends
      (fun d' f => Effects d d' ∧ d'.Holds f)
      (fun d' e => (∃ b, d' = d.notes b ∧ (d.fs.used ≤ d.fs.limits.outputBytes →
          b = if flag.O_CREAT then creating e else none)) ∨
        (flag.O_CREAT ∧ flag.O_TRUNC ∧ flag.O_DIRECTORY = false ∧
          (flag.writable = false ∨ d.fs.limits.outputBytes < d.fs.used) ∧
          ∃ r b, d.resolve name true = (d, .ok (r, false)) ∧ d.Admits r ∧
            d' = (d.charged.add r (.regular perm) []).1.notes b ∧
            (d.fs.used ≤ d.fs.limits.outputBytes → b = none ∧ e = .EBADF))) := by
  have hquiet : ∀ e, creating e = none → ∃ b, d = d.notes b ∧
      (d.fs.used ≤ d.fs.limits.outputBytes → b = if flag.O_CREAT then creating e else none) := by
    intro e he
    exact ⟨none, rfl, fun _ => by rw [he, ite_self]⟩
  unfold Disk.openFile
  refine (resolve_ends hw flag.O_CREAT).same.andThen ?_ fun _ _ h => .inl ⟨_, h.2.1, fun _ => rfl⟩
  rintro d' ⟨r, trailingSlash⟩ ⟨hres, rfl, hr, _⟩
  dsimp only
  rw [hw, if_neg (by simp)]
  refine (openNode_ends hr hl).andThen ?_ fun _ _ h => .inl ⟨_, h, fun _ => rfl⟩
  rintro d₁ n ⟨hn, hd₁⟩
  have hfound : Effects d' d₁ := by
    rcases hd₁ with rfl | ⟨_, _, _, hadm, _, rfl⟩
    · exact .refl
    · exact .single (.create hadm)
  -- What is created is a regular file, so a type that refuses the open was there before.
  have hfile : d₁ = d' ∨ d₁.isDir n = false ∧ flag.O_DIRECTORY = false := by
    rcases hd₁ with rfl | ⟨_, hdir, _, _, rfl, rfl⟩
    · exact .inl rfl
    · refine .inr ⟨?_, hdir⟩
      exact congrArg (fun node : Node => node.mode.dir) (deref_add (d := d'.charged))
  split
  · next htype =>
    rcases hfile with rfl | ⟨hf, _⟩
    · exact .error (.inl (hquiet _ rfl))
    · rw [hf] at htype
      exact absurd htype.1 Bool.false_ne_true
  · next htype =>
    split
    · next hdir =>
      rcases hfile with rfl | ⟨_, hd⟩
      · exact .error (.inl (hquiet _ rfl))
      · rw [hd] at hdir
        exact absurd hdir.2 Bool.false_ne_true
    · have hholds : d₁.Holds ⟨n, r, 0, 0, !flag.O_WRONLY, flag.writable, flag.O_APPEND, false⟩ := by
        refine ⟨hn, fun hwr => ?_⟩
        by_contra hne
        exact htype ⟨by simpa using hne, hwr⟩
      split
      · next htrunc =>
        refine (truncate_ends hholds).andThen ?_ ?_
        · rintro d₂ _ ⟨_, hwr, _, _, data, rfl, hlen⟩
          refine .ok ⟨hfound.tail (.store hn (hholds.file hwr) (by rw [hlen]) (.inl ?_)), ?_⟩
          · omega
          · exact hholds.extends (Effect.extends (.store hn (hholds.file hwr) (by rw [hlen])
              (.inl (by omega))))
        · rintro d₂ e ⟨rfl, he⟩
          rcases hd₁ with rfl | ⟨hc, hdir, ht, hadm, rfl, rfl⟩
          · refine .inl ⟨_, rfl, fun hroom => ?_⟩
            rcases he with ⟨rfl, _⟩ | ⟨rfl, _⟩ | ⟨_, hover⟩
            · exact (ite_self none).symm
            · exact (ite_self none).symm
            · omega
          · have hres' : d'.resolve name true = (d', .ok (r, false)) := by rw [← ht, ← hres, hc]
            rcases he with ⟨rfl, hbad⟩ | ⟨_, hneg⟩ | ⟨rfl, hover⟩
            · have hwr : flag.writable = false := by simpa using hbad
              exact .inr ⟨hc, htrunc, hdir, .inl hwr, r, none, hres', hadm, rfl, fun _ => ⟨rfl, rfl⟩⟩
            · omega
            · have hu : d'.fs.limits.outputBytes < d'.fs.used := by
                have hover : (d'.fs.limits.outputBytes : Int) - (d'.fs.used + (0 : Nat)) < _ := hover
                omega
              exact .inr ⟨hc, htrunc, hdir, .inr hu, r, _, hres', hadm, rfl, fun hroom => by omega⟩
      · exact .ok ⟨hfound, hholds⟩

/-- A directory is created as a file is. -/
theorem mkdir_ends (hw : d.fs.readOnly = false) :
    (d.mkdir name perm).Ends (fun d' _ => Effect d d') (fun d' e => d' = d.notes (creating e)) := by
  unfold Disk.mkdir
  rw [hw, if_neg Bool.false_ne_true]
  cases hg : guestPath name d.lookupBound with
  | error e =>
      rcases guestPath_error hg with ⟨rfl, _⟩ | ⟨rfl, _⟩
      · exact .error rfl
      · exact .error rfl
  | ok r =>
      dsimp only
      split
      · exact .error rfl
      · next ha =>
        refine (parent_ends d r).andThen ?_ ?_
        · rintro _ _ ⟨rfl, hp⟩
          refine (create_ends (by simpa using ha) (guestPath_ok hg) hp).andThen ?_ fun _ _ h => h
          rintro _ _ ⟨hadm, _, rfl⟩
          exact .ok (.create hadm)
        · rintro _ e ⟨rfl, he⟩
          rw [he, Disk.notes_none]

/-- A name is removed, or nothing is done. -/
theorem unlink_ends (hw : d.fs.readOnly = false) :
    (d.unlink name).Ends (fun d' _ => Effect d d') (fun d' _ => d' = d) := by
  unfold Disk.unlink
  rw [hw, if_neg Bool.false_ne_true]
  refine (resolve_ends hw false).andThen ?_ fun _ _ h => h.1
  rintro _ ⟨r, _⟩ ⟨rfl, _, _⟩
  dsimp only
  split
  · exact .error rfl
  · next n hn =>
    split
    · exact .error rfl
    · next hf => exact .ok (.delete hn (by simpa using hf))

/-- The target is charged before the name moves. -/
theorem rename_ends (hw : d.fs.readOnly = false) :
    (d.rename source target).Ends (fun d' _ => Effects d d') (fun d' e => d' = d.notes
      (if d.lookupBound < source.length then none else creating e)) := by
  unfold Disk.rename
  rw [hw, if_neg Bool.false_ne_true]
  refine (resolve_ends hw false).andThen ?_ ?_
  · rintro _ ⟨s, _⟩ ⟨rfl, _, hlen⟩
    simp only [if_neg hlen]
    refine (resolve_ends hw true).andThen ?_ ?_
    · rintro d₁ ⟨t, _⟩ ⟨rfl, ht, _⟩
      dsimp only
      split
      · exact .error rfl
      · next n hn =>
        split
        · exact .error rfl
        · next hf =>
          have hf : d₁.isDir n = false := by simpa using hf
          refine (parent_ends d₁ t).andThen ?_ ?_
          · rintro _ _ ⟨rfl, hp⟩
            split
            · next ha =>
              split
              · exact .ok .refl
              · refine (chargeEntry_ends _ t).andThen ?_ fun _ _ h => h
                rintro _ _ ⟨rfl, hshort, hcount⟩
                exact .ok (.single (.move hn hf ⟨ha, ht, hshort, hcount, hp⟩))
            · next old hold =>
              split
              · exact .error rfl
              · next ho =>
                split
                · exact .ok .refl
                · next hne => exact .ok (.single (.replace hn hf hold (by simpa using ho) hne))
          · rintro _ e ⟨rfl, he⟩
            rw [he, Disk.notes_none]
    · rintro _ e ⟨rfl, _⟩
      rw [if_pos rfl]
  · rintro _ e ⟨rfl, he⟩
    rcases he with he | hlen
    · rw [he, ite_self]
      rfl
    · rw [if_pos hlen]
      rfl

end

/-! ## One operation -/

/-- An open that creates a file it then fails to truncate: the handle may not write, or
the mount was staged with more bytes than the budget. -/
def Op.slips (d : Disk) : Op → Prop
  | .openFile name flag _ =>
      flag.O_CREAT ∧ flag.O_TRUNC ∧ flag.O_DIRECTORY = false ∧
        (flag.writable = false ∨ d.fs.limits.outputBytes < d.fs.used) ∧
        ∃ r, d.resolve name true = (d, .ok (r, false)) ∧ d.Admits r
  | _ => False

/-- What an operation does: some effects and a note, and only the note if it fails, the
one case apart.  The note is the refusal where the charge is within its budget. -/
structure Acts (d d' : Disk) (limits : Limits) (op : Op) (a : Answer) : Prop where
  effects : ∃ d₁ b, Effects d d₁ ∧ d' = d₁.notes b ∧
    (d.fs.used ≤ d.fs.limits.outputBytes → b = refusal limits (op, a))
  failure : ∀ e, a = .error e → (∃ b, d' = d.notes b) ∨ op.slips d

section

variable {d d' : Disk} {limits : Limits} {op : Op}

/-- An operation that succeeded. -/
theorem Acts.ok {v : Value} (h : Effects d d') : Acts d d' limits op (.ok v) where
  effects := ⟨d', none, h, rfl, fun _ => rfl⟩
  failure := by
    intro e he
    cases he

/-- An operation that was refused. -/
theorem Acts.error {e : Errno} {b : Option Limit} (h : d' = d.notes b)
    (hb : d.fs.used ≤ d.fs.limits.outputBytes → b = op.budget limits e) :
    Acts d d' limits op (.error e) where
  effects := ⟨d, b, .refl, h, hb⟩
  failure := by
    intro e' he
    cases he
    exact .inl ⟨b, h⟩

/-- An operation that neither changes nor notes anything. -/
theorem Acts.read {a : Answer} (hop : ∀ e, op.budget limits e = none) :
    Acts d d limits op a := by
  cases a with
  | ok v => exact .ok .refl
  | error e => exact .error (b := none) rfl fun _ => (hop e).symm

/-- From what the function ends in. -/
theorem Acts.of_ends {A : Type} {o : Outcome Disk Errno A} {value : A → Value}
    (h : o.Ends (fun d' _ => Effects d d') (fun d' e => d' = d.notes (op.budget limits e))) :
    Acts d o.1 limits op (.of value o.2) := by
  obtain ⟨d', e | a⟩ := o
  · exact .error (h.of_error d' e rfl) fun _ => rfl
  · exact .ok (h.of_ok d' a rfl)

/-- Looking changes nothing. -/
theorem stat_ends {name : Name} (hw : d.fs.readOnly = false) :
    (d.stat name).Ends (fun d' _ => d' = d) (fun d' _ => d' = d) := by
  unfold Disk.stat
  refine (resolve_ends hw false).andThen ?_ fun _ _ h => h.1
  rintro _ ⟨r, _⟩ ⟨rfl, _, _⟩
  dsimp only
  split
  · exact .error rfl
  · exact .ok rfl

/-- There are no symbolic links. -/
theorem readlink_ends {name : Name} (hw : d.fs.readOnly = false) :
    (d.readlink name).Ends (fun d' _ => d' = d) (fun d' _ => d' = d) := by
  unfold Disk.readlink
  split
  · exact .error rfl
  · refine (resolve_ends hw false).andThen ?_ fun _ _ h => h.1
    rintro _ ⟨r, _⟩ ⟨rfl, _, _⟩
    exact .error rfl

/-- The handle after an operation on it is one on the same node by the same name, as writable as
before. -/
structure Same (f f' : MemoryFile) : Prop where
  node : f'.node = f.node
  name : f'.name = f.name
  writable : f'.writable = f.writable

/-- A handle that has not moved. -/
theorem Same.refl (f : MemoryFile) : Same f f := ⟨rfl, rfl, rfl⟩

/-- Moving an offset changes no node. -/
theorem Disk.Holds.same {f f' : MemoryFile} (h : d.Holds f) (hs : Same f f') : d.Holds f' where
  node := by
    rw [hs.node]
    exact h.node
  file := by
    rw [hs.node, hs.writable]
    exact h.file

/-- No handle becomes one on another file. -/
theorem apply_same {f g : MemoryFile} {op : FileOp} {a : Answer}
    (happly : op.apply d f = some (d', g, a)) : Same f g := by
  cases op with
  | setAppend enable =>
      simp only [FileOp.apply, MemoryFile.setAppend] at happly
      split at happly
      · cases happly
        exact .refl f
      · next hset =>
        cases happly
        split at hset
        · cases hset
        · cases hset
          exact ⟨rfl, rfl, rfl⟩
  | read n =>
      cases happly
      unfold MemoryFile.read
      split
      · exact .refl f
      · exact ⟨rfl, rfl, rfl⟩
  | write buf =>
      -- Append mode moves the offset before the write.
      simp only [FileOp.apply, MemoryFile.write, Option.some.injEq, Prod.mk.injEq] at happly
      obtain ⟨-, rfl, -⟩ := happly
      repeat' split
      all_goals exact ⟨rfl, rfl, rfl⟩
  | seek offset whence =>
      cases happly
      unfold MemoryFile.seek
      repeat' split
      all_goals exact ⟨rfl, rfl, rfl⟩
  | readdir n =>
      obtain ⟨⟨g, r⟩, hreaddir, heq⟩ := Option.map_eq_some_iff.mp happly
      cases heq
      unfold MemoryFile.readdir at hreaddir
      split at hreaddir
      · cases hreaddir
        exact .refl f
      · dsimp only at hreaddir
        split at hreaddir
        · cases hreaddir
        · cases hreaddir
          exact ⟨rfl, rfl, rfl⟩
  | _ =>
      cases happly
      exact ⟨rfl, rfl, rfl⟩

/-- A write is a `Pwrite` at the offset, which moves afterwards. -/
theorem write_ends {f : MemoryFile} (hf : d.Holds f) (buf : List UInt8) :
    (f.write d buf).1.Ends (fun d' _ => Effects d d') (fun d' e => d' = d.notes (writing e)) := by
  unfold MemoryFile.write
  generalize hg : (if f.appendMode then { f with offset := (d.size f.node : Int) } else f) = g
  have hs : Same f g := by
    subst hg
    split
    · exact ⟨rfl, rfl, rfl⟩
    · exact .refl f
  have hp : (g.pwrite d buf g.offset).Ends _ _ := pwrite_ends (hf.same hs)
  dsimp only
  split
  · next heq =>
    rw [heq] at hp
    exact hp
  · next heq =>
    rw [heq] at hp
    exact .ok (hp.of_ok _ _ rfl)

/-- Every operation on a handle. -/
theorem apply_acts {f g : MemoryFile} {op : FileOp} {a : Answer} (hf : d.Holds f)
    (happly : op.apply d f = some (d', g, a)) (h : Nat) :
    Acts d d' d.fs.limits (.file h op) a := by
  cases op with
  | setAppend enable =>
      rw [FileOp.apply] at happly
      split at happly
      · cases happly
        exact .read fun _ => rfl
      · cases happly
        exact .read fun _ => rfl
  | write buf =>
      cases happly
      exact .of_ends (write_ends hf buf)
  | pwrite buf offset =>
      cases happly
      exact .of_ends (pwrite_ends hf)
  | truncate size =>
      cases happly
      exact .of_ends ((truncate_effect hf).mono (fun _ _ h => .single h.1) fun _ _ h => h)
  | readdir n =>
      obtain ⟨r, -, heq⟩ := Option.map_eq_some_iff.mp happly
      cases heq
      exact .read fun _ => rfl
  | _ =>
      cases happly
      exact .read fun _ => rfl

/-- The world's handles are handles on its nodes. -/
def World.Held (w : World) : Prop := ∀ f ∈ w.files, w.toDisk.Holds f

/-- Handles stay good over an operation. -/
theorem Acts.held {w : World} {files : List MemoryFile} {a : Answer}
    (h : Acts w.toDisk d' limits op a) (hf : ∀ f ∈ files, w.toDisk.Holds f) :
    World.Held ⟨d', files⟩ := by
  obtain ⟨d₁, b, he, rfl, _⟩ := h.effects
  exact fun f hm => ((hf f hm).extends he.extends).extends (notes_extends d₁ b)

/-- An operation that opens no handle. -/
theorem answer_acts {A : Type} {w : World} {o : Outcome Disk Errno A} {value : A → Value}
    (h : o.Ends (fun d' _ => Effects w.toDisk d')
      (fun d' e => d' = w.toDisk.notes (op.budget limits e))) (hf : w.Held) :
    Acts w.toDisk (w.answer o value).1.toDisk limits op (w.answer o value).2 ∧
      (w.answer o value).1.Held :=
  ⟨.of_ends h, Acts.held (.of_ends h : Acts w.toDisk o.1 limits op (.of value o.2)) hf⟩

/-- An operation that opens a handle: the new one is good as well. -/
theorem openFile_acts {w : World} {name : Name} {flag : Oflag} {perm : Nat}
    (hw : w.fs.readOnly = false) (hl : ∀ r n, w.lookup r = some n → n < w.heap.length) (hf : w.Held) :
    Acts w.toDisk (w.openFile name flag perm).1.toDisk w.fs.limits (.openFile name flag perm)
      (w.openFile name flag perm).2 ∧ (w.openFile name flag perm).1.Held := by
  have h : (w.toDisk.openFile name flag perm).Ends _ _ := openFile_ends hw hl
  unfold World.openFile
  split
  · next d' e heq =>
    have ha : Acts w.toDisk d' w.fs.limits (.openFile name flag perm) (.error e) := by
      rcases h.of_error d' e heq with
        ⟨b, hd, hb⟩ | ⟨hc, ht, hdir, hover, r, b, hres, hadm, hd, hb⟩
      · exact .error hd hb
      · refine ⟨⟨_, b, .single (.create hadm), hd, fun hroom => ?_⟩,
          fun _ _ => .inr ⟨hc, ht, hdir, hover, r, hres, hadm⟩⟩
        obtain ⟨rfl, rfl⟩ := hb hroom
        exact (ite_self none).symm
    exact ⟨ha, ha.held hf⟩
  · next d' f heq =>
    obtain ⟨he, hh⟩ := h.of_ok d' f heq
    refine ⟨.ok he, ?_⟩
    intro g hm
    rcases List.mem_append.mp hm with hm | hm
    · exact (hf g hm).extends he.extends
    · rw [List.mem_singleton.mp hm]
      exact hh

/-- What one operation does to the disk, and to the handles. -/
theorem step_acts {w w' : World} {a : Answer} (h : Does w (op, a) w')
    (hw : w.fs.readOnly = false) (hl : ∀ r n, w.lookup r = some n → n < w.heap.length) (hf : w.Held) :
    Acts w.toDisk w'.toDisk w.fs.limits op a ∧ w'.Held := by
  unfold Does at h
  have hread : ∀ {A : Type} {o : Outcome Disk Errno A} {op : Op},
      (∀ e, op.budget w.fs.limits e = none) →
      o.Ends (fun d' _ => d' = w.toDisk) (fun d' _ => d' = w.toDisk) →
      o.Ends (fun d' _ => Effects w.toDisk d')
        (fun d' e => d' = w.toDisk.notes (op.budget w.fs.limits e)) := by
    intro A o op hop ho
    refine ho.mono ?_ ?_
    · rintro _ _ rfl
      exact .refl
    · rintro _ e rfl
      rw [hop e, Disk.notes_none]
  cases op with
  | openFile name flag perm =>
      have h := Option.some.inj h
      obtain rfl : (w.openFile name flag perm).1 = w' := congrArg Prod.fst h
      obtain rfl : (w.openFile name flag perm).2 = a := congrArg Prod.snd h
      exact openFile_acts hw hl hf
  | stat name =>
      cases h
      exact answer_acts (hread (fun _ => rfl) (stat_ends hw)) hf
  | lstat name =>
      cases h
      exact answer_acts (hread (fun _ => rfl) (stat_ends hw)) hf
  | readlink name =>
      cases h
      exact answer_acts (hread (fun _ => rfl) (readlink_ends hw)) hf
  | mkdir name perm =>
      cases h
      refine answer_acts ((mkdir_ends hw).mono ?_ fun _ _ h => h) hf
      exact fun _ _ h => .single h
  | unlink name =>
      cases h
      refine answer_acts ((unlink_ends hw).mono ?_ ?_) hf
      · exact fun _ _ h => .single h
      · rintro _ e rfl
        rfl
  | rename source target =>
      cases h
      exact answer_acts (rename_ends hw) hf
  | file k op =>
      obtain ⟨f, d', g, hk, happly, rfl⟩ := World.step_file.mp h
      have hheld := hf f (List.mem_of_getElem? hk)
      have ha := apply_acts hheld happly k
      refine ⟨ha, ha.held ?_⟩
      intro g' hm
      rcases List.mem_or_eq_of_mem_set hm with hm | rfl
      · exact hf g' hm
      · exact hheld.same (apply_same happly)

end

end MemoryFs
