import CapnpcWasm.Lib.ByteFiles
import CapnpcWasm.MemoryFs.Failure
import CapnpcWasm.MemoryFs.ReadOnly

/-!
# Contents as byte files

The files of a mount, through any handles on them, are byte files: an answer to an operation on a
handle is the reply of the model in `ByteFiles`, wherever no budget refuses the operation.  A name
only says which file an open reaches, so operations on names change no contents, and a file whose
name is gone stays what it was.

* `Quiet` is what an operation on names does to contents, and `Calm` that it does nothing else,
  whichever way it ends.
* `Answered` compares an operation on a handle with the call of the model.  It has a lemma for
  each operation, and `call_answered` joins them.
* `Refines` relates a mount in use to a store of byte files with their handles.
  `Refines.step` is the simulation, `lockstep_of_orderly` and `orderly_of_lockstep` its two
  directions over a run, and `bytes_refine_iff` the equivalence.
* What the model leaves out is a write in append mode that is refused after it moved the offset
  (`FileOp.Strays`, `stray_moves`).
-/

namespace MemoryFs

open Sdk ByteFiles

/-! ## Operations on names -/

/-- No node changes, and what is added is empty. -/
structure Quiet (d d' : Disk) : Prop where
  heap : ∃ added : List Node, d'.heap = d.heap ++ added ∧ ∀ node ∈ added, node.data = []
  limits : d'.fs.limits = d.fs.limits
  linked : d.Linked → d'.Linked

namespace Quiet

variable {d d' d'' : Disk} {n : Pointer}

/-- Where no node changes. -/
theorem same (hheap : d'.heap = d.heap) (hlimits : d'.fs.limits = d.fs.limits)
    (hlinked : d.Linked → d'.Linked) : Quiet d d' :=
  ⟨⟨[], by rw [hheap, List.append_nil], nofun⟩, hlimits, hlinked⟩

theorem refl (d : Disk) : Quiet d d := same rfl rfl fun h => h

/-- A note is about the mount. -/
theorem notes (r : Option Limit) : Quiet d (d.notes r) := by
  cases r with
  | none => exact refl d
  | some limit => exact same rfl rfl fun h => h

theorem trans (h : Quiet d d') (h' : Quiet d' d'') : Quiet d d'' := by
  obtain ⟨added, hheap, hempty⟩ := h.heap
  obtain ⟨added', hheap', hempty'⟩ := h'.heap
  refine ⟨⟨added ++ added', ?_, fun node hnode => ?_⟩, h'.limits.trans h.limits,
    fun hlinked => h'.linked (h.linked hlinked)⟩
  · rw [hheap', hheap, List.append_assoc]
  · rcases List.mem_append.mp hnode with hnode | hnode
    · exact hempty node hnode
    · exact hempty' node hnode

/-- Nodes are only added. -/
theorem length_le (h : Quiet d d') : d.heap.length ≤ d'.heap.length := by
  obtain ⟨added, hheap, -⟩ := h.heap
  rw [hheap, List.length_append]
  exact Nat.le_add_right _ _

/-- The nodes that are there stay the same. -/
theorem deref (h : Quiet d d') (hn : n < d.heap.length) : d'.deref n = d.deref n := by
  obtain ⟨added, hheap, -⟩ := h.heap
  rw [Disk.deref, Disk.deref, hheap, List.getD_eq_getElem?_getD, List.getD_eq_getElem?_getD,
    List.getElem?_append_left hn]

/-- What stands at a pointer keeps its contents, also where nothing stood. -/
theorem data (h : Quiet d d') (n : Pointer) : (d'.deref n).data = (d.deref n).data := by
  by_cases hn : n < d.heap.length
  · rw [h.deref hn]
  · obtain ⟨added, hheap, hempty⟩ := h.heap
    have hnone : (d.deref n).data = [] := by
      rw [Disk.deref, List.getD_eq_getElem?_getD, List.getElem?_eq_none (Nat.le_of_not_lt hn)]
      rfl
    rw [hnone, Disk.deref, hheap, List.getD_eq_getElem?_getD,
      List.getElem?_append_right (Nat.le_of_not_lt hn)]
    rcases hnode : added[n - d.heap.length]? with _ | node
    · rfl
    · exact hempty node (List.mem_of_getElem? hnode)

/-- A node stays a directory or a file. -/
theorem isDir (h : Quiet d d') (hn : n < d.heap.length) : d'.isDir n = d.isDir n := by
  rw [Disk.isDir, h.deref hn, Disk.isDir]

end Quiet

/-- A call that adds at most an empty node, also where it fails. -/
abbrev Calm {A : Type} (d : Disk) (o : Outcome Disk Errno A) : Prop :=
  o.Ends (fun d' _ => Quiet d d') (fun d' _ => Quiet d d')

section

variable {A B : Type} {d d' : Disk} {name source target : Name} {flag : Oflag} {perm : Nat}
  {limit : Limit} {e : Errno}

/-- A failure that changes nothing. -/
theorem Calm.fail : Calm (A := A) d (d, .error e) := .error (.refl d)

/-- A result without a change. -/
theorem Calm.done {a : A} : Calm d (d, .ok a) := .ok (.refl d)

/-- A failure that is noted. -/
theorem Calm.exceeded : Calm (A := A) d (d.exceeded limit e) :=
  .error (.same rfl rfl fun h => h)

/-- Calls in sequence. -/
theorem Calm.andThen {o : Outcome Disk Errno A} {k : Disk → A → Outcome Disk Errno B}
    (h : Calm d o) (hk : ∀ d' a, Quiet d d' → Calm d' (k d' a)) : Calm d (o.andThen k) := by
  refine Outcome.Ends.andThen h (fun d' a hquiet => ?_) fun _ _ hquiet => hquiet
  exact (hk d' a hquiet).mono (fun _ _ h => hquiet.trans h) fun _ _ h => hquiet.trans h

/-- Resolving a name looks at it. -/
theorem resolve_calm (create : Bool) : Calm d (d.resolve name create) := by
  rw [Disk.resolve]
  split
  · split
    · exact .exceeded
    · exact .fail
  · dsimp only
    split
    · exact .fail
    · exact .done

theorem parent_calm : Calm d (d.parent name) := by
  rw [Disk.parent]
  split
  · exact .fail
  · split
    · exact .done
    · exact .fail

theorem chargeEntry_calm : Calm d (d.chargeEntry name) := by
  rw [Disk.chargeEntry]
  split
  · exact .exceeded
  · split
    · exact .exceeded
    · exact .ok (.same rfl rfl fun h => h)

/-- Charges are no contents. -/
theorem charged_quiet (d : Disk) : Quiet d d.charged := .same rfl rfl fun h => h

/-- A new file is a new node. -/
theorem add_quiet {mode : FileMode} : Quiet d (d.add name mode []).1 := by
  refine ⟨⟨_, rfl, fun node hnode => ?_⟩, rfl, Disk.Linked.add⟩
  rw [List.mem_singleton.mp hnode]

/-- An open finds its node or adds an empty one. -/
theorem openNode_quiet {trailingSlash : Bool} : (d.openNode name trailingSlash flag perm).Ends
    (fun d' n => Quiet d d' ∧ (d.Linked → n < d'.heap.length)) (fun d' _ => Quiet d d') := by
  rw [Disk.openNode]
  split
  · split
    · exact .error (.refl d)
    · split
      · exact .error (.refl d)
      · split
        · exact .error (.refl d)
        · refine Outcome.Ends.andThen (parent_ends d name) ?_ fun _ _ h => h.1 ▸ .refl _
          rintro _ _ ⟨rfl, -⟩
          refine Outcome.Ends.andThen (chargeEntry_ends _ name) ?_ fun _ _ h => h ▸ .notes _
          rintro _ _ ⟨rfl, -⟩
          refine .ok ⟨(charged_quiet _).trans add_quiet, fun _ => ?_⟩
          show _ < (Disk.add _ name _ []).1.heap.length
          rw [length_add]
          exact Nat.lt_succ_self _
  · next n hn =>
    split
    · exact .error (.refl d)
    · exact .ok ⟨.refl d, fun hlinked => hlinked name n hn⟩

/-- Creating a file changes no contents. -/
theorem create_calm {mode : FileMode} : Calm d (d.create name mode) :=
  chargeEntry_calm.andThen fun _ _ _ => .ok add_quiet

theorem stat_calm : Calm d (d.stat name) := by
  refine (resolve_calm false).andThen fun d' r _ => ?_
  dsimp only
  split
  · exact .fail
  · exact .done

theorem readlink_calm : Calm d (d.readlink name) := by
  rw [Disk.readlink]
  split
  · exact .fail
  · exact (resolve_calm false).andThen fun _ _ _ => .fail

theorem mkdir_calm : Calm d (d.mkdir name perm) := by
  rw [Disk.mkdir]
  split
  · exact .fail
  · split
    · exact .exceeded
    · exact .fail
    · split
      · exact .fail
      · exact parent_calm.andThen fun _ _ _ => create_calm.andThen fun _ _ _ => .done

/-- Removing a name changes no contents, since the node stays. -/
theorem unlink_calm : Calm d (d.unlink name) := by
  rw [Disk.unlink]
  split
  · exact .fail
  · refine (resolve_calm false).andThen fun d' r _ => ?_
    dsimp only
    split
    · exact .fail
    · split
      · exact .fail
      · refine .ok (.same rfl rfl fun hlinked other n hn => ?_)
        rw [lookup_delete] at hn
        split at hn
        · cases hn
        · exact hlinked other n hn

/-- Moving a name changes no contents. -/
theorem move_quiet {n : Pointer} (hn : d.lookup source = some n) :
    Quiet d (d.move source target n) := by
  refine .same rfl rfl fun hlinked other m hm => ?_
  rw [lookup_move] at hm
  split at hm
  · cases hm
    exact hlinked source n hn
  · split at hm
    · cases hm
    · exact hlinked other m hm

/-- A rename charges and moves. -/
theorem rename_calm : Calm d (d.rename source target) := by
  rw [Disk.rename]
  split
  · exact .fail
  · refine (resolve_calm false).andThen fun d₁ r _ => (resolve_calm true).andThen fun d₂ r' _ => ?_
    dsimp only
    split
    · exact .fail
    · next n hn =>
      split
      · exact .fail
      · refine Outcome.Ends.andThen (parent_ends d₂ r'.1) ?_ ?_
        · rintro _ _ ⟨rfl, -⟩
          split
          · split
            · exact .ok (.refl _)
            · refine Outcome.Ends.andThen (chargeEntry_ends _ r'.1) ?_ fun _ _ h => h ▸ .notes _
              rintro _ _ ⟨rfl, -⟩
              exact .ok ((charged_quiet _).trans (move_quiet hn))
          · split
            · exact .error (.refl _)
            · split
              · exact .ok (.refl _)
              · exact .ok (move_quiet hn)
        · rintro _ e ⟨rfl, -⟩
          exact .refl _

/-- What an open leaves: the handle its flags ask for, on a node that was there or is new and
empty, and that node cut to nothing where the flags ask for it. -/
structure Opened (d d' : Disk) (flag : Oflag) (f : MemoryFile) : Prop where
  name : ∃ name, f = ⟨f.node, name, 0, 0, !flag.O_WRONLY, flag.writable, flag.O_APPEND, false⟩
  quiet : ∃ d₁, Quiet d d₁ ∧ (d.Linked → d₁.Holds f) ∧
    if flag.O_TRUNC then
      d₁.isDir f.node = false ∧ ∃ delta, d' = d₁.store f.node [] delta
    else d' = d₁

/-- A truncation resizes the contents, or changes nothing and says why. -/
theorem truncate_resizes {f : MemoryFile} {size : Int} : (f.truncate d size).Ends
    (fun d' _ => f.closed = false ∧ f.writable = true ∧ d.isDir f.node = false ∧ 0 ≤ size ∧
      ∃ delta, d' = d.store f.node (resize (d.deref f.node).data size.toNat) delta)
    (fun d' e => Quiet d d' ∧ ((f.closed = true ∨ f.writable = false) ∧ e = .EBADF ∨
      f.closed = false ∧ f.writable = true ∧
        (d.isDir f.node = true ∧ e = .EISDIR ∨ d.isDir f.node = false ∧ size < 0 ∧ e = .EINVAL ∨
          e = .ERANGE))) := by
  rw [MemoryFile.truncate]
  split
  · next hbad =>
    refine .error ⟨.refl d, .inl ⟨?_, rfl⟩⟩
    simpa using hbad
  · next hgood =>
    obtain ⟨hopen, hwritable⟩ : f.closed = false ∧ f.writable = true := by simpa using hgood
    split
    · next hdir => exact .error ⟨.refl d, .inr ⟨hopen, hwritable, .inl ⟨hdir, rfl⟩⟩⟩
    · next hfile =>
      have hfile : d.isDir f.node = false := by simpa using hfile
      split
      · next hneg => exact .error ⟨.refl d, .inr ⟨hopen, hwritable, .inr (.inl ⟨hfile, hneg, rfl⟩)⟩⟩
      · next hneg =>
        dsimp only
        split
        · exact .error ⟨.notes (some .outputBytes), .inr ⟨hopen, hwritable, .inr (.inr rfl)⟩⟩
        · split
          · next hgrow =>
            refine .ok ⟨hopen, hwritable, hfile, by omega, _, congrArg (d.store f.node · _) ?_⟩
            rw [resize, List.take_of_length_le (by omega)]
            congr 2
            omega
          · next hshrink =>
            refine .ok ⟨hopen, hwritable, hfile, by omega, _, congrArg (d.store f.node · _) ?_⟩
            rw [resize, Nat.sub_eq_zero_of_le (by omega), List.replicate_zero, List.append_nil]

/-- Opening is quiet but for `O_TRUNC`, which empties the file. -/
theorem openFile_opened : (d.openFile name flag perm).Ends (fun d' f => Opened d d' flag f)
    (fun d' _ => Quiet d d') := by
  rw [Disk.openFile]
  refine Outcome.Ends.andThen (resolve_calm flag.O_CREAT) ?_ fun _ _ h => h
  rintro d₁ ⟨r, trailingSlash⟩ hresolved
  dsimp only
  split
  · exact .error hresolved
  · refine Outcome.Ends.andThen openNode_quiet ?_ fun _ _ h => hresolved.trans h
    rintro d₂ n ⟨hquiet, hlt⟩
    have hall : Quiet d d₂ := hresolved.trans hquiet
    split
    · exact .error hall
    · next hdir =>
      split
      · exact .error hall
      · have hholds : d.Linked →
            d₂.Holds ⟨n, r, 0, 0, !flag.O_WRONLY, flag.writable, flag.O_APPEND, false⟩ := by
          refine fun hlinked => ⟨hlt (hresolved.linked hlinked), fun hwritable => ?_⟩
          by_contra hne
          exact hdir ⟨by simpa using hne, hwritable⟩
        split
        · next htrunc =>
          refine Outcome.Ends.andThen truncate_resizes ?_ fun _ _ h => hall.trans h.1
          rintro d₃ _ ⟨-, -, hfile, -, delta, rfl⟩
          refine .ok ⟨⟨r, rfl⟩, d₂, hall, hholds, ?_⟩
          rw [if_pos htrunc]
          exact ⟨hfile, delta, congrArg (d₂.store n · delta) (resize_zero _)⟩
        · next htrunc =>
          exact .ok ⟨⟨r, rfl⟩, d₂, hall, hholds, by rw [if_neg htrunc]⟩

end

/-! ## The model of a mount -/

/-- What the model knows of a handle: nothing of one on a directory. -/
inductive Reference where
  | file (x : Descriptor Pointer)
  | directory

/-- The contents of all files and the handles on them. -/
structure Store where
  files : Pointer → List UInt8
  handles : List Reference

/-- The operations on contents. -/
def FileOp.call : FileOp → Option Call
  | .read n => some (.read n)
  | .pread n offset => some (.pread n offset)
  | .write buf => some (.write buf)
  | .pwrite buf offset => some (.pwrite buf offset)
  | .truncate size => some (.truncate size)
  | .seek offset whence => some (.seek offset whence)
  | .setAppend enable => some (.setAppend enable)
  | .close => some .close
  | _ => none

/-- A reply of the model as an answer. -/
def Answer.ofReply : Except ByteFiles.Error Reply → Answer
  | .error .badDescriptor => .error .EBADF
  | .error .invalid => .error .EINVAL
  | .ok .done => .ok .none
  | .ok (.bytes bytes) => .ok (.bytes bytes)
  | .ok (.count n) => .ok (.number n)
  | .ok (.offset n) => .ok (.offset n)

/-- The operations on names, without those that open. -/
def Op.onNames : Op → Bool
  | .openFile _ _ _ => false
  | .file _ _ => false
  | _ => true

/-- The steps of the model.  It does not say which file a name reaches, nor what is answered about
names and directories. -/
inductive Store.Does (s : Store) : Event → Store → Prop
  | call {h : Nat} {x : Descriptor Pointer} {op : FileOp} {c : Call} :
      s.handles[h]? = some (.file x) → op.call = some c →
      Store.Does s (.file h op, .ofReply (call s.files x c).2.2)
        ⟨(call s.files x c).1, s.handles.set h (.file (call s.files x c).2.1)⟩
  | look {h : Nat} {x : Descriptor Pointer} {op : FileOp} {a : Answer} :
      s.handles[h]? = some (.file x) → op.call = none → Store.Does s (.file h op, a) s
  | directory {h : Nat} {op : FileOp} {a : Answer} :
      s.handles[h]? = some .directory → Store.Does s (.file h op, a) s
  | opened {name : Name} {flag : Oflag} {perm : Nat} (file : Pointer) :
      Store.Does s (.openFile name flag perm, .ok (.handle s.handles.length))
        ⟨if flag.O_TRUNC then Function.update s.files file [] else s.files,
          s.handles ++
            [.file ⟨file, 0, !flag.O_WRONLY, flag.writable, flag.O_APPEND, true⟩]⟩
  | openedDirectory {name : Name} {flag : Oflag} {perm : Nat} :
      Store.Does s (.openFile name flag perm, .ok (.handle s.handles.length))
        ⟨s.files, s.handles ++ [.directory]⟩
  | failed {name : Name} {flag : Oflag} {perm : Nat} {e : Errno} :
      Store.Does s (.openFile name flag perm, .error e) s
  | names {op : Op} {a : Answer} : op.onNames → Store.Does s (op, a) s

/-- A handle as a descriptor at an offset. -/
def MemoryFile.descriptor (f : MemoryFile) (offset : Nat) : Descriptor Pointer :=
  ⟨f.node, offset, f.readable, f.writable, f.appendMode, !f.closed⟩

/-- A handle and what the model knows of it.  The offset of a closed handle counts for nothing. -/
def Mirrors (d : Disk) (f : MemoryFile) : Reference → Prop
  | .directory => d.isDir f.node = true
  | .file x => d.isDir f.node = false ∧
      ∃ offset : Nat, x = f.descriptor offset ∧ (f.closed = false → (offset : Int) = f.offset)

/-- A mount in use and the model of its contents. -/
structure Refines (w : World) (s : Store) : Prop where
  files : ∀ n, s.files n = (w.deref n).data
  handles : List.Forall₂ (Mirrors w.toDisk) w.files s.handles

/-! ## What the model leaves out -/

/-- The whole integers a Go `int64` holds. -/
def IsInt64 (n : Int) : Prop := -9223372036854775808 ≤ n ∧ n < 9223372036854775808

/-- The operation writes something, if it writes, no budget refuses it, and a seek aims at no
offset that a budget excludes. -/
def FileOp.Within (d : Disk) (f : MemoryFile) (a : Answer) : FileOp → Prop
  | .write buf => buf ≠ [] ∧ a ≠ .error .ERANGE
  | .pwrite buf _ => buf ≠ [] ∧ a ≠ .error .ERANGE
  | .truncate _ => a ≠ .error .ERANGE
  | .seek offset whence => IsInt64 offset ∧
      (whence = 0 → offset ≤ d.fs.limits.outputBytes) ∧
      (whence = 1 → f.offset + offset ≤ d.fs.limits.outputBytes) ∧
      (whence = 2 → d.size f.node + offset ≤ d.fs.limits.outputBytes)
  | _ => True

/-- An append-mode write through an open handle that may not write: it is refused, but the offset
has moved to the end. -/
def FileOp.Strays (d : Disk) (f : MemoryFile) : FileOp → Prop
  | .write _ => f.appendMode = true ∧ f.writable = false ∧ f.closed = false ∧
      d.isDir f.node = false ∧ f.offset ≠ d.size f.node
  | _ => False

/-- A property of the operations on a handle, at the handle an event is about. -/
def OnHandle (p : Disk → MemoryFile → Answer → FileOp → Prop) (w : World) : Event → Prop
  | (.file h op, a) => ∀ f, w.files[h]? = some f → p w.toDisk f a op
  | _ => True

/-! ## Operations on a handle -/

/-- Nodes stay what they are but for their contents. -/
structure Steady (d d' : Disk) : Prop where
  heap : d.heap.length ≤ d'.heap.length
  isDir : ∀ n < d.heap.length, d'.isDir n = d.isDir n
  limits : d'.fs.limits = d.fs.limits
  linked : d.Linked → d'.Linked

/-- The contents of one node change. -/
structure Rewrites (d d' : Disk) (n : Pointer) (data : List UInt8) : Prop where
  steady : Steady d d'
  data : ∀ m, (d'.deref m).data = Function.update (fun m => (d.deref m).data) n data m

section

variable {d d' d'' : Disk} {f : MemoryFile} {n : Pointer} {data data' buf : List UInt8}
  {offset size : Int}

theorem Steady.refl (d : Disk) : Steady d d := ⟨Nat.le_refl _, fun _ _ => rfl, rfl, fun h => h⟩

theorem Steady.trans (h : Steady d d') (h' : Steady d' d'') : Steady d d'' :=
  ⟨Nat.le_trans h.heap h'.heap,
    fun n hn => (h'.isDir n (Nat.lt_of_lt_of_le hn h.heap)).trans (h.isDir n hn),
    h'.limits.trans h.limits, fun hlinked => h'.linked (h.linked hlinked)⟩

/-- What changes no contents changes no node either. -/
theorem Quiet.steady (h : Quiet d d') : Steady d d' :=
  ⟨h.length_le, fun _ hn => h.isDir hn, h.limits, h.linked⟩

/-- Storing data rewrites one node. -/
theorem Rewrites.store {delta : Int} (hn : n < d.heap.length) :
    Rewrites d (d.store n data delta) n data := by
  have hlength : (d.store n data delta).heap.length = d.heap.length := List.length_modify _ _ _
  refine ⟨⟨Nat.le_of_eq hlength.symm, fun m _ => isDir_store, rfl, fun hlinked name m hm => ?_⟩,
    fun m => ?_⟩
  · rw [hlength]
    exact hlinked name m hm
  · rw [Function.update_apply]
    split
    · next heq => rw [heq, deref_store hn]
    · next hne => rw [deref_store_of_ne hne]

/-- The last of two rewrites counts. -/
theorem Rewrites.trans (h : Rewrites d d' n data) (h' : Rewrites d' d'' n data') :
    Rewrites d d'' n data' := by
  refine ⟨h.steady.trans h'.steady, fun m => ?_⟩
  rw [h'.data, Function.update_apply, Function.update_apply, h.data, Function.update_apply]
  split
  · rfl
  · rfl

/-- Inside the data, overwriting is the write of the model. -/
theorem overwrite_eq {offset : Nat} (h : offset + buf.length ≤ data.length) :
    MemoryFile.overwrite data offset buf = writeAt data offset buf := by
  rw [MemoryFile.overwrite, writeAt, List.take_of_length_le (by omega : buf.length ≤ _),
    Nat.sub_eq_zero_of_le (by omega), List.replicate_zero, List.append_nil]

/-- Beyond it, after the file has grown. -/
theorem overwrite_resize {offset : Nat} (h : data.length ≤ offset + buf.length) :
    MemoryFile.overwrite (resize data (offset + buf.length)) offset buf =
      writeAt data offset buf := by
  have hdrop : ∀ file : List UInt8, file.length ≤ offset + buf.length →
      file.drop (offset + buf.length) = [] := fun file hle => List.drop_eq_nil_of_le hle
  rw [MemoryFile.overwrite, length_resize, writeAt, hdrop data h,
    hdrop _ (Nat.le_of_eq (length_resize _ _)), List.take_of_length_le (by omega : buf.length ≤ _)]
  congr 2
  rw [resize, List.take_append, List.take_take, List.take_replicate, List.length_take]
  congr 2
  · omega
  · omega

/-- A write at an offset changes the file, or changes nothing and says why. -/
theorem pwrite_rewrites (hn : f.node < d.heap.length) (hfile : d.isDir f.node = false) :
    (f.pwrite d buf offset).Ends
      (fun d' count => f.closed = false ∧ f.writable = true ∧ 0 ≤ offset ∧ count = buf.length ∧
        Rewrites d d' f.node (writeAt (d.deref f.node).data offset.toNat buf))
      (fun d' e => Quiet d d' ∧ ((f.closed = true ∨ f.writable = false) ∧ e = .EBADF ∨
        f.closed = false ∧ f.writable = true ∧ (offset < 0 ∧ e = .EINVAL ∨ e = .ERANGE))) := by
  rw [MemoryFile.pwrite]
  split
  · next hbad =>
    refine .error ⟨.refl d, .inl ⟨?_, rfl⟩⟩
    simpa using hbad
  · next hgood =>
    obtain ⟨hopen, hwritable⟩ : f.closed = false ∧ f.writable = true := by simpa using hgood
    dsimp only
    split
    · split
      · next hneg => exact .error ⟨.refl d, .inr ⟨hopen, hwritable, .inl ⟨hneg, rfl⟩⟩⟩
      · exact .error ⟨.notes (some .outputBytes), .inr ⟨hopen, hwritable, .inr rfl⟩⟩
    · next hroom =>
      have hoffset : 0 ≤ offset := by omega
      have hfinish : (offset + buf.length).toNat = offset.toNat + buf.length := by omega
      split
      · next hshort =>
        -- The file grows to the end of the write first.
        refine Outcome.Ends.andThen truncate_resizes ?_ ?_
        · rintro d₁ _ ⟨-, -, -, -, delta, rfl⟩
          have hfirst : Rewrites d (d.store f.node
              (resize (d.deref f.node).data (offset + buf.length).toNat) delta) f.node _ :=
            .store hn
          rw [deref_store hn]
          dsimp only
          have hshort' : (d.deref f.node).data.length ≤ offset.toNat + buf.length := by
            rw [Disk.size] at hshort
            omega
          rw [hfinish] at hfirst ⊢
          rw [overwrite_resize hshort', length_resize]
          refine .ok ⟨hopen, hwritable, hoffset, by omega, hfirst.trans (.store ?_)⟩
          exact Nat.lt_of_lt_of_le hn hfirst.steady.heap
        · rintro d₁ e ⟨hquiet, hwhy⟩
          refine ⟨hquiet, ?_⟩
          rcases hwhy with hbad | ⟨-, -, ⟨hdir, -⟩ | ⟨-, hneg, -⟩ | hrange⟩
          · exact .inl hbad
          · rw [hfile] at hdir
            cases hdir
          · omega
          · exact .inr ⟨hopen, hwritable, .inr hrange⟩
      · next hlong =>
        have hlong' : offset.toNat + buf.length ≤ (d.deref f.node).data.length := by
          rw [Disk.size] at hlong
          omega
        rw [Outcome.andThen_ok, overwrite_eq hlong']
        exact .ok ⟨hopen, hwritable, hoffset, by omega, .store hn⟩

/-- An operation on a handle leaves and answers what the model's call does. -/
structure Answered (d : Disk) (f : MemoryFile) (r : Disk × MemoryFile × Answer)
    (o : (Pointer → List UInt8) × Descriptor Pointer × Except ByteFiles.Error Reply) : Prop where
  steady : Steady d r.1
  files : ∀ n, o.1 n = (r.1.deref n).data
  mirrors : Mirrors r.1 r.2.1 (.file o.2.1)
  answer : r.2.2 = .ofReply o.2.2

variable {files : Pointer → List UInt8} {start : Nat} {r : Disk × MemoryFile × Answer}

/-- A read at an offset is the read of the model. -/
theorem pread_eq {n : Nat} (hopen : f.closed = false) (hreadable : f.readable = true)
    (hfile : d.isDir f.node = false) : f.pread d n offset =
      if offset < 0 then .error .EINVAL
      else .ok (readAt (d.deref f.node).data offset.toNat n) := by
  have hbad : ¬(f.closed = true ∨ ¬f.readable = true) := by simp [hopen, hreadable]
  have hdir : ¬d.isDir f.node = true := by simp [hfile]
  rw [MemoryFile.pread, if_neg hbad, if_neg hdir]
  split
  · rfl
  · split
    · next hpast =>
      rw [readAt, List.drop_eq_nil_of_le, List.take_nil]
      rw [Disk.size] at hpast
      omega
    · rfl

/-- A handle that may not read gets `EBADF`. -/
theorem pread_refused {n : Nat} (h : ¬(f.closed = false ∧ f.readable = true)) :
    f.pread d n offset = .error .EBADF := by
  have hbad : f.closed = true ∨ ¬f.readable = true := by
    rcases hclosed : f.closed with _ | _
    · exact .inr fun hreadable => h ⟨hclosed, hreadable⟩
    · exact .inl rfl
  rw [MemoryFile.pread, if_pos hbad]

/-- The model's handle may read where this one may. -/
theorem may_read (f : MemoryFile) (start : Nat) :
    (f.descriptor start).opened = true ∧ (f.descriptor start).readable = true ↔
      f.closed = false ∧ f.readable = true := by
  rw [MemoryFile.descriptor, Bool.not_eq_true']

/-- The same for writing. -/
theorem may_write (f : MemoryFile) (start : Nat) :
    (f.descriptor start).opened = true ∧ (f.descriptor start).writable = true ↔
      f.closed = false ∧ f.writable = true := by
  rw [MemoryFile.descriptor, Bool.not_eq_true']

section

variable (hfiles : ∀ n, files n = (d.deref n).data) (hfile : d.isDir f.node = false)
include hfiles hfile

/-- What a write leaves of the model. -/
theorem Answered.written {stop : Nat} {a : Answer} {reply : Except ByteFiles.Error Reply}
    (hn : f.node < d.heap.length) (hrewrites : Rewrites d d' f.node data)
    (hstop : f.closed = false → (stop : Int) = offset) (ha : a = .ofReply reply) :
    Answered d f (d', { f with offset := offset }, a)
      (Function.update files f.node data, f.descriptor stop, reply) := by
  refine ⟨hrewrites.steady, fun m => ?_, ⟨?_, stop, rfl, hstop⟩, ha⟩
  · rw [hrewrites.data, show files = fun n => (d.deref n).data from funext hfiles]
  · rw [hrewrites.steady.isDir _ hn]
    exact hfile

/-- An operation that changes nothing but the offset. -/
theorem Answered.quiet {stop : Nat} {a : Answer} {reply : Except ByteFiles.Error Reply}
    (hn : f.node < d.heap.length) (hquiet : Quiet d d')
    (hstop : f.closed = false → (stop : Int) = offset) (ha : a = .ofReply reply) :
    Answered d f (d', { f with offset := offset }, a) (files, f.descriptor stop, reply) := by
  refine ⟨hquiet.steady, fun m => ?_, ⟨?_, stop, rfl, hstop⟩, ha⟩
  · rw [hquiet.data]
    exact hfiles m
  · rw [hquiet.isDir hn]
    exact hfile

/-- `Close`, also of a handle that is closed. -/
theorem close_answered (happly : FileOp.apply d f .close = some r) :
    Answered d f r (call files (f.descriptor start) .close) := by
  obtain rfl := Option.some.inj happly
  exact ⟨.refl d, hfiles, ⟨hfile, start, rfl, nofun⟩, rfl⟩

variable (hoffset : f.closed = false → (start : Int) = f.offset)
include hoffset

/-- An operation that changes nothing at all. -/
theorem Answered.unchanged {a : Answer} {reply : Except ByteFiles.Error Reply}
    (ha : a = .ofReply reply) :
    Answered d f (d, f, a) (files, f.descriptor start, reply) :=
  ⟨.refl d, hfiles, ⟨hfile, start, rfl, hoffset⟩, ha⟩

/-- `Read` moves the offset by what was read. -/
theorem read_answered {n : Nat} (happly : FileOp.apply d f (.read n) = some r) :
    Answered d f r (call files (f.descriptor start) (.read n)) := by
  obtain rfl := Option.some.inj happly
  rw [call, MemoryFile.read]
  by_cases hmay : f.closed = false ∧ f.readable = true
  · have hat := hoffset hmay.1
    rw [if_pos ((may_read f start).mpr hmay), pread_eq hmay.1 hmay.2 hfile, if_neg (by omega), ← hat,
      Int.toNat_natCast, hfiles]
    exact ⟨.refl d, hfiles, ⟨hfile, _, rfl, fun _ => Int.natCast_add _ _⟩, rfl⟩
  · rw [if_neg fun h => hmay ((may_read f start).mp h), pread_refused hmay]
    exact .unchanged hfiles hfile hoffset rfl

/-- `Pread` does not. -/
theorem pread_answered {n : Nat} {offset : Int}
    (happly : FileOp.apply d f (.pread n offset) = some r) :
    Answered d f r (call files (f.descriptor start) (.pread n offset)) := by
  obtain rfl := Option.some.inj happly
  rw [call]
  by_cases hmay : f.closed = false ∧ f.readable = true
  · rw [if_pos ((may_read f start).mpr hmay), pread_eq hmay.1 hmay.2 hfile]
    split
    · exact .unchanged hfiles hfile hoffset rfl
    · rw [hfiles]
      exact .unchanged hfiles hfile hoffset rfl
  · rw [if_neg fun h => hmay ((may_read f start).mp h), pread_refused hmay]
    exact .unchanged hfiles hfile hoffset rfl

/-- `Pwrite`, where no budget refuses it. -/
theorem pwrite_answered (hn : f.node < d.heap.length) {buf : List UInt8} {offset : Int}
    (happly : FileOp.apply d f (.pwrite buf offset) = some r) (hbudget : r.2.2 ≠ .error .ERANGE) :
    Answered d f r (call files (f.descriptor start) (.pwrite buf offset)) := by
  have hends := @pwrite_rewrites d f buf offset hn hfile
  obtain rfl := Option.some.inj happly
  rcases hresult : f.pwrite d buf offset with ⟨d', e | count⟩
  · obtain ⟨hquiet, hwhy⟩ := hends.of_error d' e hresult
    rw [hresult] at hbudget
    rcases hwhy with ⟨hbad, rfl⟩ | ⟨hopen, hwritable, ⟨hneg, rfl⟩ | rfl⟩
    · have hmay : ¬(f.closed = false ∧ f.writable = true) := by
        rcases hbad with hclosed | hnot
        · simp [hclosed]
        · simp [hnot]
      rw [call, if_neg fun h => hmay ((may_write f start).mp h)]
      exact Answered.quiet hfiles hfile hn hquiet hoffset rfl
    · rw [call, if_pos ((may_write f start).mpr ⟨hopen, hwritable⟩), if_pos hneg]
      exact Answered.quiet hfiles hfile hn hquiet hoffset rfl
    · exact absurd rfl hbudget
  · obtain ⟨hopen, hwritable, hpos, rfl, hrewrites⟩ := hends.of_ok d' count hresult
    rw [call, if_pos ((may_write f start).mpr ⟨hopen, hwritable⟩), if_neg (by omega)]
    rw [show (f.descriptor start).file = f.node from rfl, hfiles]
    exact Answered.written hfiles hfile hn hrewrites hoffset rfl

/-- `Write`, which in append mode is at the end of the file. -/
theorem write_answered (hn : f.node < d.heap.length) {buf : List UInt8}
    (happly : FileOp.apply d f (.write buf) = some r) (hbudget : r.2.2 ≠ .error .ERANGE)
    (hstray : ¬FileOp.Strays d f (.write buf)) :
    Answered d f r (call files (f.descriptor start) (.write buf)) := by
  -- in append mode the offset is moved to the end first
  have hmoved : (if f.appendMode then { f with offset := (d.size f.node : Int) } else f) =
      { f with offset := if f.appendMode then (d.size f.node : Int) else f.offset } := by
    split
    · rfl
    · rfl
  have hends := @pwrite_rewrites d { f with offset := if f.appendMode then (d.size f.node : Int)
    else f.offset } buf (if f.appendMode then (d.size f.node : Int) else f.offset) hn hfile
  rw [FileOp.apply, MemoryFile.write, hmoved] at happly
  dsimp only at happly
  rcases hresult : MemoryFile.pwrite d { f with offset := if f.appendMode then (d.size f.node : Int)
    else f.offset } buf (if f.appendMode then (d.size f.node : Int) else f.offset) with ⟨d', e | count⟩
  · obtain ⟨hquiet, hwhy⟩ := hends.of_error d' e hresult
    rw [hresult] at happly
    obtain rfl := Option.some.inj happly
    rcases hwhy with ⟨hbad, rfl⟩ | ⟨hopen, hwritable, ⟨hneg, rfl⟩ | rfl⟩
    · have hmay : ¬(f.closed = false ∧ f.writable = true) := by
        rcases hbad with hclosed | hnot
        · simp [show f.closed = true from hclosed]
        · simp [show f.writable = false from hnot]
      rw [call, if_neg fun h => hmay ((may_write f start).mp h)]
      refine Answered.quiet hfiles hfile hn hquiet (fun hopen => ?_) rfl
      have hstart := hoffset hopen
      have hnot : f.writable = false := by simpa [hopen] using hmay
      split
      · next happend =>
        by_contra hne
        exact hstray ⟨happend, hnot, hopen, hfile, by omega⟩
      · exact hstart
    · have hstart := hoffset hopen
      split at hneg
      · omega
      · omega
    · exact absurd rfl hbudget
  · obtain ⟨hopen, hwritable, hpos, rfl, hrewrites⟩ := hends.of_ok d' count hresult
    rw [hresult] at happly
    obtain rfl := Option.some.inj happly
    have hopen : f.closed = false := hopen
    rw [call, if_pos ((may_write f start).mpr ⟨hopen, hwritable⟩)]
    dsimp only
    have hat : (if f.appendMode then (d.size f.node : Int) else f.offset).toNat =
        if (f.descriptor start).append then (files f.node).length else start := by
      have := hoffset hopen
      rw [show (f.descriptor start).append = f.appendMode from rfl]
      split
      · rw [hfiles, Int.toNat_natCast]
        rfl
      · omega
    rw [hat] at hrewrites
    refine Answered.written hfiles hfile hn ?_ (fun _ => ?_) rfl
    · rw [show (f.descriptor start).file = f.node from rfl, hfiles]
      rwa [hfiles] at hrewrites
    · rw [show (f.descriptor start).file = f.node from rfl]
      have hpos' : 0 ≤ if f.appendMode then (d.size f.node : Int) else f.offset := hpos
      have hstop : ∀ at' : Nat, (if f.appendMode then (d.size f.node : Int) else f.offset).toNat = at' →
          ((at' + buf.length : Nat) : Int) =
            (if f.appendMode then (d.size f.node : Int) else f.offset) + (buf.length : Nat) := by
        intro at' heq
        omega
      exact hstop _ hat

/-- `Truncate`, both ways. -/
theorem truncate_answered (hn : f.node < d.heap.length) {size : Int}
    (happly : FileOp.apply d f (.truncate size) = some r) (hbudget : r.2.2 ≠ .error .ERANGE) :
    Answered d f r (call files (f.descriptor start) (.truncate size)) := by
  have hends := @truncate_resizes d f size
  obtain rfl := Option.some.inj happly
  rcases hresult : f.truncate d size with ⟨d', e | ⟨⟩⟩
  · obtain ⟨hquiet, hwhy⟩ := hends.of_error d' e hresult
    rw [hresult] at hbudget
    rcases hwhy with ⟨hbad, rfl⟩ | ⟨hopen, hwritable, ⟨hdir, -⟩ | ⟨-, hneg, rfl⟩ | rfl⟩
    · have hmay : ¬(f.closed = false ∧ f.writable = true) := by
        rcases hbad with hclosed | hnot
        · simp [hclosed]
        · simp [hnot]
      rw [call, if_neg fun h => hmay ((may_write f start).mp h)]
      exact Answered.quiet hfiles hfile hn hquiet hoffset rfl
    · rw [hfile] at hdir
      cases hdir
    · rw [call, if_pos ((may_write f start).mpr ⟨hopen, hwritable⟩), if_pos hneg]
      exact Answered.quiet hfiles hfile hn hquiet hoffset rfl
    · exact absurd rfl hbudget
  · obtain ⟨hopen, hwritable, -, hpos, delta, rfl⟩ := hends.of_ok d' () hresult
    rw [call, if_pos ((may_write f start).mpr ⟨hopen, hwritable⟩), if_neg (by omega)]
    rw [show (f.descriptor start).file = f.node from rfl, hfiles]
    exact Answered.written hfiles hfile hn (.store hn) hoffset rfl

/-- `Seek` from each of the three places, where the offset fits. -/
theorem seek_answered {offset whence : Int} (hint : d.fs.limits.outputBytes < 9223372036854775808)
    (happly : FileOp.apply d f (.seek offset whence) = some r)
    (hwithin : FileOp.Within d f r.2.2 (.seek offset whence)) :
    Answered d f r (call files (f.descriptor start) (.seek offset whence)) := by
  obtain ⟨⟨hlow, hhigh⟩, hset, hcurrent, hend⟩ := hwithin
  have hwrap : ∀ t : Int, -9223372036854775808 ≤ t → t < 9223372036854775808 → int64 t = t := by
    intro t h₁ h₂
    rw [int64]
    omega
  have hdir : ¬d.isDir f.node = true := by simp [hfile]
  obtain rfl := Option.some.inj happly
  rw [call, MemoryFile.seek]
  by_cases hopen : f.closed = false
  · have hopened : (f.descriptor start).opened = true := by rw [MemoryFile.descriptor, hopen]; rfl
    have hclosed : ¬f.closed = true := by simp [hopen]
    have hstart := hoffset hopen
    -- The offset aimed at, unless the whence is unknown.
    have htarget : f.target d offset whence =
        (origin (files f.node) (f.descriptor start) whence).map fun n : Nat => (n + offset : Int) := by
      have hsize : d.size f.node = (files f.node).length := by rw [hfiles]; rfl
      rw [MemoryFile.target, origin]
      split
      · exact congrArg some (Int.zero_add offset).symm
      · split
        · next hwhence =>
          have := hcurrent hwhence
          rw [hwrap _ (by omega) (by omega), Option.map_some,
            show (f.descriptor start).offset = start from rfl, hstart, Int.add_comm]
        · split
          · next hwhence =>
            have := hend hwhence
            rw [hwrap _ (by omega) (by omega), Option.map_some, hsize, Int.add_comm]
          · rfl
    have hroom : ∀ n, origin (files f.node) (f.descriptor start) whence = some n →
        (n + offset : Int) ≤ d.fs.limits.outputBytes := by
      intro n hn
      have hsize : d.size f.node = (files f.node).length := by rw [hfiles]; rfl
      have hat : (f.descriptor start).offset = start := rfl
      rw [origin] at hn
      split at hn
      · next hwhence =>
        have := hset hwhence
        obtain rfl := Option.some.inj hn
        omega
      · split at hn
        · next hwhence =>
          have := hcurrent hwhence
          obtain rfl := Option.some.inj hn
          omega
        · split at hn
          · next hwhence =>
            have := hend hwhence
            obtain rfl := Option.some.inj hn
            omega
          · cases hn
    rw [if_neg hclosed, if_neg hdir, if_pos hopened, htarget,
      show (f.descriptor start).file = f.node from rfl]
    rcases horigin : origin (files f.node) (f.descriptor start) whence with _ | n
    · exact .unchanged hfiles hfile hoffset rfl
    · have hle := hroom n horigin
      rw [Option.map_some]
      dsimp only
      by_cases hneg : (n + offset : Int) < 0
      · rw [if_pos (.inl hneg), if_pos hneg]
        exact .unchanged hfiles hfile hoffset rfl
      · rw [if_neg (by omega), if_neg hneg]
        refine ⟨.refl d, hfiles, ⟨hfile, (n + offset : Int).toNat, rfl, fun _ => ?_⟩, ?_⟩
        · exact Int.toNat_of_nonneg (by omega)
        · have hcast : ((n + offset : Int).toNat : Int) = n + offset :=
            Int.toNat_of_nonneg (by omega)
          show Except.ok (Value.offset _) = Except.ok (Value.offset _)
          rw [hcast]
  · have hclosed : f.closed = true := by simpa using hopen
    have hopened : ¬(f.descriptor start).opened = true := by
      rw [MemoryFile.descriptor, hclosed]
      exact Bool.false_ne_true
    rw [if_pos hclosed, if_neg hopened]
    exact .unchanged hfiles hfile hoffset rfl

/-- `SetAppend` sets the mode. -/
theorem setAppend_answered {enable : Bool} (happly : FileOp.apply d f (.setAppend enable) = some r) :
    Answered d f r (call files (f.descriptor start) (.setAppend enable)) := by
  rw [FileOp.apply, MemoryFile.setAppend] at happly
  rw [call]
  by_cases hopen : f.closed = false
  · have hopened : (f.descriptor start).opened = true := by rw [MemoryFile.descriptor, hopen]; rfl
    rw [if_neg (by simp [hopen])] at happly
    obtain rfl := Option.some.inj happly
    rw [if_pos hopened]
    exact ⟨.refl d, hfiles, ⟨hfile, start, rfl, hoffset⟩, rfl⟩
  · have hclosed : f.closed = true := by simpa using hopen
    have hopened : ¬(f.descriptor start).opened = true := by
      rw [MemoryFile.descriptor, hclosed]
      exact Bool.false_ne_true
    rw [if_pos hclosed] at happly
    obtain rfl := Option.some.inj happly
    rw [if_neg hopened]
    exact .unchanged hfiles hfile hoffset rfl

end

/-- An operation on the contents of a file answers as the model's call does. -/
theorem call_answered {op : FileOp} {c : Call} (hfiles : ∀ n, files n = (d.deref n).data)
    (hfile : d.isDir f.node = false) (hoffset : f.closed = false → (start : Int) = f.offset)
    (hn : f.node < d.heap.length) (hint : d.fs.limits.outputBytes < 9223372036854775808)
    (hcall : op.call = some c) (happly : op.apply d f = some r) (hwithin : op.Within d f r.2.2)
    (hstray : ¬op.Strays d f) : Answered d f r (call files (f.descriptor start) c) := by
  cases op with
  | read n =>
      cases hcall
      exact read_answered hfiles hfile hoffset happly
  | pread n offset =>
      cases hcall
      exact pread_answered hfiles hfile hoffset happly
  | write buf =>
      cases hcall
      exact write_answered hfiles hfile hoffset hn happly hwithin.2 hstray
  | pwrite buf offset =>
      cases hcall
      exact pwrite_answered hfiles hfile hoffset hn happly hwithin.2
  | truncate size =>
      cases hcall
      exact truncate_answered hfiles hfile hoffset hn happly hwithin
  | seek offset whence =>
      cases hcall
      exact seek_answered hfiles hfile hoffset hint happly hwithin
  | setAppend enable =>
      cases hcall
      exact setAppend_answered hfiles hfile hoffset happly
  | close =>
      cases hcall
      exact close_answered hfiles hfile happly
  | _ => cases hcall

/-- The other operations leave a file and its handle alone. -/
theorem look_unchanged {op : FileOp} (hcall : op.call = none) (hfile : d.isDir f.node = false)
    (happly : op.apply d f = some r) : r.1 = d ∧ r.2.1 = f := by
  cases op with
  | readdir n =>
      have hbad : f.closed = true ∨ ¬d.isDir f.node = true := .inr (by simp [hfile])
      rw [FileOp.apply, MemoryFile.readdir, if_pos hbad] at happly
      cases happly
      exact ⟨rfl, rfl⟩
  | dev =>
      cases happly
      exact ⟨rfl, rfl⟩
  | ino =>
      cases happly
      exact ⟨rfl, rfl⟩
  | isDir =>
      cases happly
      exact ⟨rfl, rfl⟩
  | isAppend =>
      cases happly
      exact ⟨rfl, rfl⟩
  | stat =>
      cases happly
      exact ⟨rfl, rfl⟩
  | _ => cases hcall

/-- No handle on a directory changes anything but itself. -/
theorem directory_unchanged {op : FileOp} (hheld : d.Holds f) (hdir : d.isDir f.node = true)
    (happly : op.apply d f = some r) : r.1 = d := by
  have hwritable : ¬f.writable = true := fun h => by
    rw [hheld.file h] at hdir
    cases hdir
  have hrefused : ∀ (g : MemoryFile) (buf : List UInt8) (offset : Int), g.writable = f.writable →
      g.pwrite d buf offset = (d, .error .EBADF) := by
    intro g buf offset hg
    rw [MemoryFile.pwrite, if_pos (.inr (by rwa [hg]))]
  cases op with
  | setAppend enable =>
      rw [FileOp.apply] at happly
      split at happly
      · cases happly
        rfl
      · cases happly
        rfl
  | write buf =>
      have hsame : (if f.appendMode then { f with offset := (d.size f.node : Int) } else f).writable =
          f.writable := by
        split
        · rfl
        · rfl
      rw [FileOp.apply, MemoryFile.write] at happly
      dsimp only at happly
      rw [hrefused _ buf _ hsame] at happly
      cases happly
      rfl
  | pwrite buf offset =>
      obtain rfl := Option.some.inj happly
      rw [hrefused f buf offset rfl]
  | truncate size =>
      obtain rfl := Option.some.inj happly
      rw [MemoryFile.truncate, if_pos (.inr hwritable)]
  | readdir n =>
      obtain ⟨_, -, rfl⟩ := Option.map_eq_some_iff.mp happly
      rfl
  | _ =>
      cases happly
      rfl

end

/-! ## Runs -/

/-- A mount whose handles are on its nodes, with a byte budget that a Go `int` holds. -/
structure World.InUse (w : World) : Prop where
  linked : w.toDisk.Linked
  held : w.Held
  int : w.fs.limits.outputBytes < 9223372036854775808

section

variable {w w' : World} {s : Store} {event : Event} {op : Op} {a : Answer} {d' : Disk}

theorem Disk.Holds.steady {d d' : Disk} {f : MemoryFile} (h : d.Holds f) (hsteady : Steady d d') :
    d'.Holds f where
  node := Nat.lt_of_lt_of_le h.node hsteady.heap
  file := fun hwritable => (hsteady.isDir f.node h.node).trans (h.file hwritable)

/-- Handles stay good over what changes no node. -/
theorem World.InUse.steady (h : w.InUse) (hsteady : Steady w.toDisk d') :
    World.InUse { w with toDisk := d' } where
  linked := hsteady.linked h.linked
  held := fun f hf => (h.held f hf).steady hsteady
  int := by
    show d'.fs.limits.outputBytes < _
    rw [hsteady.limits]
    exact h.int

/-- A handle mirrors the same one after what changes no node. -/
theorem Mirrors.steady {d d' : Disk} {f : MemoryFile} {r : Reference} (h : Mirrors d f r)
    (hn : f.node < d.heap.length) (hsteady : Steady d d') : Mirrors d' f r := by
  cases r with
  | directory =>
      show d'.isDir f.node = true
      rw [hsteady.isDir f.node hn]
      exact h
  | file x =>
      refine ⟨?_, h.2⟩
      rw [hsteady.isDir f.node hn]
      exact h.1

/-- The handles still mirror theirs where the nodes keep their types. -/
theorem Refines.handles_steady (h : Refines w s) (hu : w.InUse) (hsteady : Steady w.toDisk d') :
    List.Forall₂ (Mirrors d') w.files s.handles := by
  have hheld := hu.held
  rw [World.Held] at hheld
  have hhandles := h.handles
  generalize w.files = files at hheld hhandles
  generalize s.handles = handles at hhandles
  induction hhandles with
  | nil => exact .nil
  | cons hhead _ ih =>
      rw [List.forall_mem_cons] at hheld
      exact .cons (hhead.steady hheld.1.node hsteady) (ih hheld.2)

/-- A quiet change is no step of the model. -/
theorem Refines.quiet (h : Refines w s) (hu : w.InUse) (hquiet : Quiet w.toDisk d') :
    Refines { w with toDisk := d' } s ∧ World.InUse { w with toDisk := d' } := by
  refine ⟨⟨fun n => ?_, h.handles_steady hu hquiet.steady⟩, hu.steady hquiet.steady⟩
  show _ = (d'.deref n).data
  rw [hquiet.data]
  exact h.files n

/-- An operation on names. -/
theorem Refines.answer {A : Type} {o : Outcome Disk Errno A} (h : Refines w s) (hu : w.InUse)
    (ho : Calm w.toDisk o) :
    Refines { w with toDisk := o.1 } s ∧ World.InUse { w with toDisk := o.1 } := by
  obtain ⟨d', e | v⟩ := o
  · exact h.quiet hu (ho.of_error d' e rfl)
  · exact h.quiet hu (ho.of_ok d' v rfl)

theorem forall₂_getElem? {A B : Type} {R : A → B → Prop} {l : List A} {l' : List B} {i : Nat} {b : A}
    (h : List.Forall₂ R l l') (hi : l[i]? = some b) : ∃ b', l'[i]? = some b' ∧ R b b' := by
  induction h generalizing i with
  | nil => cases hi
  | cons hhead _ ih =>
      cases i with
      | zero =>
          cases hi
          exact ⟨_, rfl, hhead⟩
      | succ i => exact ih hi

/-- Both lists changed at one place. -/
theorem forall₂_set {A B : Type} {R : A → B → Prop} {l : List A} {l' : List B} {b : A} {b' : B}
    (h : List.Forall₂ R l l') (hb : R b b') (i : Nat) : List.Forall₂ R (l.set i b) (l'.set i b') := by
  induction h generalizing i with
  | nil => exact .nil
  | cons hhead htail ih =>
      cases i with
      | zero => exact .cons hb htail
      | succ i => exact .cons hhead (ih i)

/-- One handle and the contents change. -/
theorem Refines.handled {i : Nat} {f f' : MemoryFile} {r : Reference} {files : Pointer → List UInt8}
    (h : Refines w s) (hu : w.InUse) (hf : w.files[i]? = some f) (hsteady : Steady w.toDisk d')
    (hsame : Same f f') (hfiles : ∀ n, files n = (d'.deref n).data) (hmirrors : Mirrors d' f' r) :
    Refines ⟨d', w.files.set i f'⟩ ⟨files, s.handles.set i r⟩ ∧
      World.InUse ⟨d', w.files.set i f'⟩ := by
  refine ⟨⟨hfiles, forall₂_set (h.handles_steady hu hsteady) hmirrors i⟩,
    ⟨hsteady.linked hu.linked, fun g hg => ?_, (hu.steady hsteady).int⟩⟩
  rcases List.mem_or_eq_of_mem_set hg with hg | rfl
  · exact (hu.held g hg).steady hsteady
  · exact ((hu.held f (List.mem_of_getElem? hf)).steady hsteady).same hsame

theorem set_self {A : Type} {l : List A} {i : Nat} {b : A} (h : l[i]? = some b) : l.set i b = l := by
  obtain ⟨hlt, rfl⟩ := List.getElem?_eq_some_iff.mp h
  exact List.set_getElem_self hlt

/-- An operation on a handle. -/
theorem Refines.file {i : Nat} {f g : MemoryFile} {op : FileOp} (h : Refines w s) (hu : w.InUse)
    (hf : w.files[i]? = some f) (happly : op.apply w.toDisk f = some (d', g, a))
    (hwithin : op.Within w.toDisk f a) (hstray : ¬op.Strays w.toDisk f) :
    ∃ s', s.Does (.file i op, a) s' ∧ Refines ⟨d', w.files.set i g⟩ s' ∧
      World.InUse ⟨d', w.files.set i g⟩ := by
  obtain ⟨r, hr, hmirrors⟩ := forall₂_getElem? h.handles hf
  have hheld := hu.held f (List.mem_of_getElem? hf)
  have hsame := apply_same happly
  cases r with
  | directory =>
      obtain rfl : d' = w.toDisk := directory_unchanged hheld hmirrors happly
      refine ⟨s, .directory hr, ?_⟩
      have hkept : Mirrors w.toDisk g .directory := by
        show w.toDisk.isDir _ = true
        rw [hsame.node]
        exact hmirrors
      have hall := h.handled hu hf (.refl _) hsame h.files hkept
      rwa [set_self hr] at hall
  | file x =>
      obtain ⟨hfile, start, rfl, hoffset⟩ := hmirrors
      rcases hcall : op.call with _ | c
      · obtain ⟨hdisk, hhandle⟩ := look_unchanged hcall hfile happly
        obtain rfl : d' = w.toDisk := hdisk
        obtain rfl : g = f := hhandle
        refine ⟨s, .look hr hcall, ?_⟩
        have hkept : Mirrors w.toDisk g (.file (g.descriptor start)) := ⟨hfile, start, rfl, hoffset⟩
        have hall := h.handled hu hf (.refl _) (.refl _) h.files hkept
        rwa [set_self hr] at hall
      · have hanswered := call_answered h.files hfile hoffset hheld.node hu.int hcall happly hwithin
          hstray
        have hdoes := Store.Does.call hr hcall
        rw [← hanswered.answer] at hdoes
        exact ⟨_, hdoes, h.handled hu hf hanswered.steady hsame hanswered.files hanswered.mirrors⟩

theorem forall₂_append_one {A B : Type} {R : A → B → Prop} {l : List A} {l' : List B} {b : A} {b' : B}
    (h : List.Forall₂ R l l') (hb : R b b') : List.Forall₂ R (l ++ [b]) (l' ++ [b']) := by
  induction h with
  | nil => exact .cons hb .nil
  | cons hhead _ ih => exact .cons hhead ih

/-- A new handle. -/
theorem Refines.opened {flag : Oflag} {f : MemoryFile} {name : Name} {perm : Nat}
    (h : Refines w s) (hu : w.InUse) (hopened : Opened w.toDisk d' flag f) :
    ∃ s', s.Does (.openFile name flag perm, .ok (.handle w.files.length)) s' ∧
      Refines ⟨d', w.files ++ [f]⟩ s' ∧ World.InUse ⟨d', w.files ++ [f]⟩ := by
  obtain ⟨⟨path, hf⟩, d₁, hquiet, hholds, hcut⟩ := hopened
  have hheld : d₁.Holds f := hholds hu.linked
  have hlength : w.files.length = s.handles.length := h.handles.length_eq
  -- The handle is at the start of its file.
  have hdescriptor : f.descriptor 0 =
      ⟨f.node, 0, !flag.O_WRONLY, flag.writable, flag.O_APPEND, true⟩ := by rw [hf]; rfl
  have hoffset : f.closed = false → ((0 : Nat) : Int) = f.offset := by rw [hf]; exact fun _ => rfl
  have hinUse : ∀ d₂, Steady w.toDisk d₂ → d₂.Holds f → World.InUse ⟨d₂, w.files ++ [f]⟩ := by
    intro d₂ hsteady hheld₂
    refine ⟨hsteady.linked hu.linked, fun g hg => ?_, (hu.steady hsteady).int⟩
    rcases List.mem_append.mp hg with hg | hg
    · exact (hu.held g hg).steady hsteady
    · rw [List.mem_singleton.mp hg]
      exact hheld₂
  rw [hlength]
  by_cases htrunc : flag.O_TRUNC = true
  · rw [if_pos htrunc] at hcut
    obtain ⟨hfile, delta, rfl⟩ := hcut
    have hstore : Rewrites d₁ (d₁.store f.node [] delta) f.node [] := .store hheld.node
    have hsteady := hquiet.steady.trans hstore.steady
    have hmirrors : Mirrors (d₁.store f.node [] delta) f (.file (f.descriptor 0)) := by
      refine ⟨?_, 0, rfl, hoffset⟩
      rw [isDir_store]
      exact hfile
    rw [hdescriptor] at hmirrors
    refine ⟨_, .opened f.node, ⟨fun n => ?_, forall₂_append_one (h.handles_steady hu hsteady) hmirrors⟩,
      hinUse _ hsteady (hheld.steady hstore.steady)⟩
    show (if flag.O_TRUNC then _ else _ : Pointer → List UInt8) n = _
    rw [if_pos htrunc, hstore.data]
    have hfiles : s.files = fun n => (d₁.deref n).data := funext fun n => by
      rw [hquiet.data]
      exact h.files n
    rw [hfiles]
  · rw [if_neg htrunc] at hcut
    subst hcut
    have hfiles : ∀ n, s.files n = (d'.deref n).data := fun n => by
      rw [hquiet.data]
      exact h.files n
    rcases hdir : d'.isDir f.node with _ | _
    · have hmirrors : Mirrors d' f (.file (f.descriptor 0)) := ⟨hdir, 0, rfl, hoffset⟩
      rw [hdescriptor] at hmirrors
      refine ⟨_, .opened f.node, ⟨fun n => ?_, forall₂_append_one
        (h.handles_steady hu hquiet.steady) hmirrors⟩, hinUse _ hquiet.steady hheld⟩
      show (if flag.O_TRUNC then _ else _ : Pointer → List UInt8) n = _
      rw [if_neg htrunc]
      exact hfiles n
    · have hmirrors : Mirrors d' f .directory := hdir
      exact ⟨_, .openedDirectory, ⟨hfiles, forall₂_append_one (h.handles_steady hu hquiet.steady)
        hmirrors⟩, hinUse _ hquiet.steady hheld⟩

/-- Every operation on a mount is a step of the model. -/
theorem Refines.step (h : Refines w s) (hu : w.InUse) (hs : Does w (op, a) w')
    (hwithin : OnHandle (fun d f a op => op.Within d f a) w (op, a))
    (hstray : OnHandle (fun d f _ op => ¬op.Strays d f) w (op, a)) :
    ∃ s', s.Does (op, a) s' ∧ Refines w' s' ∧ w'.InUse := by
  rw [MemoryFs.Does] at hs
  cases op with
  | openFile name flag perm =>
      obtain ⟨rfl, rfl⟩ := Prod.mk.inj (Option.some.inj hs)
      rcases hresult : w.toDisk.openFile name flag perm with ⟨d', e | f⟩
      · exact ⟨s, .failed, h.quiet hu (openFile_opened.of_error d' e hresult)⟩
      · exact h.opened hu (openFile_opened.of_ok d' f hresult)
  | stat name =>
      obtain ⟨rfl, rfl⟩ := Prod.mk.inj (Option.some.inj hs)
      exact ⟨s, .names rfl, h.answer hu stat_calm⟩
  | lstat name =>
      obtain ⟨rfl, rfl⟩ := Prod.mk.inj (Option.some.inj hs)
      exact ⟨s, .names rfl, h.answer hu stat_calm⟩
  | readlink name =>
      obtain ⟨rfl, rfl⟩ := Prod.mk.inj (Option.some.inj hs)
      exact ⟨s, .names rfl, h.answer hu readlink_calm⟩
  | mkdir name perm =>
      obtain ⟨rfl, rfl⟩ := Prod.mk.inj (Option.some.inj hs)
      exact ⟨s, .names rfl, h.answer hu mkdir_calm⟩
  | unlink name =>
      obtain ⟨rfl, rfl⟩ := Prod.mk.inj (Option.some.inj hs)
      exact ⟨s, .names rfl, h.answer hu unlink_calm⟩
  | rename source target =>
      obtain ⟨rfl, rfl⟩ := Prod.mk.inj (Option.some.inj hs)
      exact ⟨s, .names rfl, h.answer hu rename_calm⟩
  | file i op =>
      obtain ⟨f, d', g, hf, happly, rfl⟩ := World.step_file.mp hs
      exact h.file hu hf happly (hwithin f hf) (hstray f hf)

end

/-- The contents of a mount as it is built. -/
def Store.start (d : Disk) : Store := ⟨fun n => (d.deref n).data, []⟩

/-- A step whose operation on a handle is in the model's domain. -/
def InDomain (w : World) (event : Event) (w' : World) : Prop :=
  Does w event w' ∧ OnHandle (fun d f a op => op.Within d f a) w event

/-- A step in the domain that is no stray append. -/
def Orderly (w : World) (event : Event) (w' : World) : Prop :=
  InDomain w event w' ∧ OnHandle (fun d f _ op => ¬op.Strays d f) w event

/-- A step of a mount that is a step of the model, and leaves its contents and offsets. -/
def Lockstep (p : World × Store) (event : Event) (p' : World × Store) : Prop :=
  InDomain p.1 event p'.1 ∧ p.2.Does event p'.2 ∧ Refines p'.1 p'.2

section

variable {w w' : World} {s s' : Store} {event : Event} {op : Op} {a : Answer} {events : List Event}

/-- A mount without handles is in use. -/
theorem startsInUse (host : Host) (files : Contents) (readOnly : Bool) {limits : Limits}
    (hint : limits.outputBytes < 9223372036854775808) :
    World.InUse ⟨newMemoryFS host files readOnly limits, []⟩ where
  linked := newMemoryFS_linked host files readOnly limits
  held := nofun
  int := by
    show (newMemoryFS host files readOnly limits).fs.limits.outputBytes < _
    rw [newMemoryFS_limits]
    exact hint

/-- The model starts from the contents of the mount. -/
theorem Refines.start (d : Disk) : Refines ⟨d, []⟩ (.start d) := ⟨fun _ => rfl, .nil⟩

/-- Runs without stray appends are runs of the model. -/
theorem lockstep_of_orderly (h : Refines w s) (hu : w.InUse) (hrun : Trace Orderly w events w') :
    ∃ s', Trace Lockstep (w, s) events (w', s') := by
  have hall : ∃ s', Trace Lockstep (w, s) events (w', s') ∧ Refines w' s' ∧ w'.InUse := by
    induction hrun with
    | nil => exact ⟨s, .nil, h, hu⟩
    | snoc _ hstep ih =>
        obtain ⟨s₁, htrace, hrefines, hu₁⟩ := ih
        obtain ⟨hdomain, hstray⟩ := hstep
        obtain ⟨s₂, hdoes, hrefines', hu₂⟩ := hrefines.step hu₁ hdomain.1 hdomain.2 hstray
        exact ⟨s₂, htrace.snoc ⟨hdomain, hdoes, hrefines'⟩, hrefines', hu₂⟩
  obtain ⟨s', htrace, -⟩ := hall
  exact ⟨s', htrace⟩

/-- The write that is refused and still moves the offset. -/
theorem stray_moves {d : Disk} {f : MemoryFile} {buf : List UInt8}
    (hstray : FileOp.Strays d f (.write buf)) : (FileOp.write buf).apply d f =
      some (d, { f with offset := d.size f.node }, .error .EBADF) := by
  obtain ⟨happend, hwritable, -⟩ := hstray
  have hrefused : ∀ g : MemoryFile, g.writable = false →
      g.pwrite d buf g.offset = (d, .error .EBADF) := fun g hg => by
    rw [MemoryFile.pwrite, if_pos (.inr (by simp [hg]))]
  rw [FileOp.apply, MemoryFile.write, if_pos happend]
  dsimp only
  rw [hrefused { f with offset := (d.size f.node : Int) } hwritable]
  rfl

/-- The model refuses a write through a descriptor that may not write, and leaves it. -/
theorem Store.Does.refused {i : Nat} {buf : List UInt8} {x : Descriptor Pointer}
    (hdoes : s.Does (.file i (.write buf), a) s') (hx : s.handles[i]? = some (.file x))
    (hwritable : x.writable = false) : s'.handles[i]? = some (.file x) := by
  cases hdoes with
  | @call _ y _ c hy hcall =>
      rw [hx] at hy
      cases hy
      cases hcall
      have hkept : ByteFiles.call s.files x (.write buf) = (s.files, x, .error .badDescriptor) := by
        rw [ByteFiles.call, if_neg (by simp [hwritable])]
      dsimp only
      rw [hkept, List.getElem?_set_self (List.getElem?_eq_some_iff.mp hx).1]
  | look _ _ => exact hx
  | directory _ => exact hx
  | names _ => exact hx

/-- A stray append moves an offset that the model leaves where it was. -/
theorem Refines.not_stray (h : Refines w s) (hs : Does w (op, a) w') (hdoes : s.Does (op, a) s')
    (h' : Refines w' s') : OnHandle (fun d f _ op => ¬op.Strays d f) w (op, a) := by
  cases op with
  | file i op =>
      intro f hf hstray
      cases op with
      | write buf =>
          have hmoved := stray_moves hstray
          obtain ⟨-, hwritable, hopen, hfile, hne⟩ := hstray
          have hfiles : w'.files[i]? = some { f with offset := w.size f.node } := by
            obtain ⟨f', d', g, hf', happly, rfl⟩ := World.step_file.mp hs
            rw [hf] at hf'
            obtain rfl := Option.some.inj hf'
            rw [hmoved] at happly
            cases happly
            show (w.files.set i _)[i]? = _
            rw [List.getElem?_set_self (List.getElem?_eq_some_iff.mp hf).1]
          obtain ⟨r, hr, hmirrors⟩ := forall₂_getElem? h.handles hf
          obtain ⟨r', hr', hmirrors'⟩ := forall₂_getElem? h'.handles hfiles
          cases r with
          | directory =>
              rw [show w.isDir f.node = true from hmirrors] at hfile
              cases hfile
          | file x =>
              obtain ⟨-, start, rfl, hoffset⟩ := hmirrors
              rw [hdoes.refused hr hwritable] at hr'
              obtain rfl := Option.some.inj hr'
              obtain ⟨-, start', heq, hoffset'⟩ := hmirrors'
              have hstart : start = start' := congrArg Descriptor.offset heq
              have hold := hoffset hopen
              have hnew : (start' : Int) = w.size f.node := hoffset' hopen
              omega
      | _ => exact hstray
  | _ => trivial

/-- A run that the model follows has no such write. -/
theorem orderly_of_lockstep {p p' : World × Store} (h : Refines p.1 p.2)
    (hrun : Trace Lockstep p events p') : Trace Orderly p.1 events p'.1 := by
  have hall : Trace Orderly p.1 events p'.1 ∧ Refines p'.1 p'.2 := by
    induction hrun with
    | nil => exact ⟨.nil, h⟩
    | snoc _ hstep ih =>
        obtain ⟨htrace, hrefines⟩ := ih
        obtain ⟨hdomain, hdoes, hrefines'⟩ := hstep
        exact ⟨htrace.snoc ⟨hdomain, hrefines.not_stray hdomain.1 hdoes hrefines'⟩, hrefines'⟩
  exact hall.1

end

/-- The contents, offsets and answers of a mount are those of the model throughout a run exactly
where no append strays. -/
theorem bytes_refine_iff (host : Host) (files : Contents) (readOnly : Bool) (limits : Limits)
    (hint : limits.outputBytes < 9223372036854775808) (events : List Event) (w : World) :
    (∃ s, Trace Lockstep (⟨newMemoryFS host files readOnly limits, []⟩,
      .start (newMemoryFS host files readOnly limits)) events (w, s)) ↔
    Trace Orderly ⟨newMemoryFS host files readOnly limits, []⟩ events w :=
  ⟨fun ⟨_, hrun⟩ => orderly_of_lockstep (.start _) hrun,
    lockstep_of_orderly (.start _) (startsInUse host files readOnly hint)⟩

/-- Bounds on the arguments are bounds on the run. -/
theorem inDomain_of_runs {w w' : World} {events : List Event} (h : Runs w events w')
    (hevents : ∀ event ∈ events, ∀ w, OnHandle (fun d f a op => op.Within d f a) w event) :
    Trace InDomain w events w' := by
  induction h with
  | nil => exact .nil
  | snoc _ hs ih =>
      refine (ih fun event hmem => hevents event (List.mem_append_left _ hmem)).snoc ⟨hs, ?_⟩
      exact hevents _ (List.mem_append_right _ (List.mem_singleton_self _)) _

/-- A write to a mount none of whose handles appends is orderly. -/
theorem orderly_write {w w' : World} {i : Nat} {buf : List UInt8} {a : Answer}
    (hs : Does w (.file i (.write buf), a) w') (hbuf : buf ≠ []) (hroom : a ≠ .error .ERANGE)
    (hfiles : ∀ f ∈ w.files, f.appendMode = false) : Orderly w (.file i (.write buf), a) w' := by
  refine ⟨⟨hs, fun f hf => ⟨hbuf, hroom⟩⟩, fun f hf hstray => ?_⟩
  have happend := hstray.1
  rw [hfiles f (List.mem_of_getElem? hf)] at happend
  cases happend

/-- Two handles on one file: each reads what the other wrote. -/
def sharedEvents : List Event :=
  [(.openFile [97] { O_CREAT := true, O_RDWR := true } 0o644, .ok (.handle 0)),
    (.openFile [97] { O_RDWR := true } 0, .ok (.handle 1)),
    (.file 0 (.write [1, 2, 3]), .ok (.number 3)), (.file 1 (.read 2), .ok (.bytes [1, 2])),
    (.file 1 (.write [9]), .ok (.number 1)), (.file 0 (.pread 3 0), .ok (.bytes [1, 2, 9]))]

theorem sharedEvents_orderly : ∃ w, Trace Orderly (fresh 0 defaultLimits) sharedEvents w := by
  have hrun : ((fresh 0 defaultLimits).run [.openFile [97] { O_CREAT := true, O_RDWR := true } 0o644,
      .openFile [97] { O_RDWR := true } 0]).bind (fun r =>
        (r.1.run [.file 0 (.write [1, 2, 3]), .file 1 (.read 2)]).bind fun r' =>
          (r'.1.run [.file 1 (.write [9]), .file 0 (.pread 3 0)]).map fun r'' =>
            (r.2, r'.2, r''.2, r.1.files.all (!·.appendMode), r'.1.files.all (!·.appendMode))) =
      some ([.ok (.handle 0), .ok (.handle 1)], [.ok (.number 3), .ok (.bytes [1, 2])],
        [.ok (.number 1), .ok (.bytes [1, 2, 9])], true, true) := by
    decide +kernel
  obtain ⟨⟨w₁, a₁⟩, hopen, hrest⟩ := Option.bind_eq_some_iff.mp hrun
  obtain ⟨⟨w₂, a₂⟩, hfirst, hrest⟩ := Option.bind_eq_some_iff.mp hrest
  obtain ⟨⟨w₃, a₃⟩, hsecond, heq⟩ := Option.map_eq_some_iff.mp hrest
  simp only [Prod.mk.injEq, List.all_eq_true, Bool.not_eq_true'] at heq
  obtain ⟨rfl, rfl, rfl, hplain₁, hplain₂⟩ := heq
  obtain ⟨_, hcreate, hopen⟩ := Trace.of_cons (runs_of_run hopen)
  obtain ⟨_, hreopen, hnil⟩ := Trace.of_cons hopen
  obtain rfl := Trace.eq_of_nil hnil
  obtain ⟨_, hwrite, hfirst⟩ := Trace.of_cons (runs_of_run hfirst)
  obtain ⟨_, hread, hnil⟩ := Trace.of_cons hfirst
  obtain rfl := Trace.eq_of_nil hnil
  obtain ⟨_, hwrite', hsecond⟩ := Trace.of_cons (runs_of_run hsecond)
  obtain ⟨_, hpread, hnil⟩ := Trace.of_cons hsecond
  obtain rfl := Trace.eq_of_nil hnil
  have hopens : Trace Orderly (fresh 0 defaultLimits) (sharedEvents.take 2) _ :=
    .cons ⟨⟨hcreate, trivial⟩, trivial⟩ (.cons ⟨⟨hreopen, trivial⟩, trivial⟩ .nil)
  have hreads := Trace.cons (orderly_write hwrite (by decide) (by decide) hplain₁)
    (.cons ⟨⟨hread, fun _ _ => trivial⟩, fun _ _ hstray => hstray⟩ .nil)
  have hrereads := Trace.cons (orderly_write hwrite' (by decide) (by decide) hplain₂)
    (.cons ⟨⟨hpread, fun _ _ => trivial⟩, fun _ _ hstray => hstray⟩ .nil)
  exact ⟨_, hopens.append (hreads.append hrereads)⟩

/-- Two handles on one file that both write to it and read what the other wrote. -/
theorem bytes_refine_iff_sample : ∃ w s, Trace Lockstep (fresh 0 defaultLimits,
    .start (newMemoryFS ⟨[], 0⟩ ∅ false defaultLimits)) sharedEvents (w, s) := by
  obtain ⟨w, horderly⟩ := sharedEvents_orderly
  obtain ⟨s, hs⟩ := (bytes_refine_iff ⟨[], 0⟩ ∅ false defaultLimits (by decide) sharedEvents w).mpr
    horderly
  exact ⟨w, s, hs⟩

/-- A file of three bytes, and a handle on it that appends but may not write: its write is refused,
and then it reads nothing. -/
theorem stray_append_skips : ¬∀ (events : List Event) (w : World),
    Trace InDomain (fresh 0 defaultLimits) events w →
      ∃ s, Trace Lockstep (fresh 0 defaultLimits,
        .start (newMemoryFS ⟨[], 0⟩ ∅ false defaultLimits)) events (w, s) := by
  intro h
  have hrun : ((fresh 0 defaultLimits).run [.openFile [97] { O_CREAT := true, O_RDWR := true } 0o644,
      .file 0 (.write [1, 2, 3]), .openFile [97] { O_APPEND := true } 0o644]).bind (fun r =>
        (r.1.run [.file 1 (.write [9]), .file 1 (.read 3)]).map fun r' =>
          (r.2, r'.2, r.1.files[1]?, r.1.isDir 1, r.1.size 1)) =
      some ([.ok (.handle 0), .ok (.number 3), .ok (.handle 1)], [.error .EBADF, .ok (.bytes [])],
        some ⟨1, [97], 0, 0, true, false, true, false⟩, false, 3) := by
    decide +kernel
  obtain ⟨⟨w, a⟩, hfirst, hrest⟩ := Option.bind_eq_some_iff.mp hrun
  obtain ⟨⟨w', a'⟩, hlast, heq⟩ := Option.map_eq_some_iff.mp hrest
  simp only [Prod.mk.injEq] at heq
  obtain ⟨rfl, rfl, hf, hfile, hsize⟩ := heq
  have hruns := runs_of_run hfirst
  have hruns' := runs_of_run hlast
  have hdomain := inDomain_of_runs (hruns.append hruns') (by
    intro event hmem w
    simp only [List.zip_cons_cons, List.zip_nil_right, List.cons_append, List.nil_append,
      List.mem_cons, List.not_mem_nil, or_false] at hmem
    rcases hmem with rfl | rfl | rfl | rfl | rfl
    · trivial
    · exact fun _ _ => ⟨nofun, nofun⟩
    · trivial
    · exact fun _ _ => ⟨nofun, nofun⟩
    · exact fun _ _ => trivial)
  obtain ⟨s, hs⟩ := h _ w' hdomain
  obtain ⟨t, hbefore, hafter⟩ := Trace.of_append (orderly_of_lockstep (.start _) hs)
  have hsame : t = w := by
    refine Trace.unique (fun s l t u ht hu => ?_) (hbefore.mono fun _ _ _ hstep => hstep.1.1) hruns
    exact (Prod.mk.inj (Option.some.inj (ht.symm.trans hu))).1
  subst hsame
  obtain ⟨u, hstray, -⟩ := Trace.of_cons hafter
  refine hstray.2 _ hf ⟨rfl, rfl, rfl, hfile, ?_⟩
  have hsize : t.size 1 = 3 := hsize
  show (0 : Int) ≠ t.size 1
  omega

end MemoryFs
