import CapnpcWasm.Lib.Traces
import CapnpcWasm.MemoryFs.Files

/-!
# A mount in use

A guest holds handles and calls operations on the mount or on a handle, in any order.
A handle stays usable when its name is gone.  `step` answers one operation.  It has no answer
where the guest holds no such handle, and where the host panics, which ends the run.
-/

namespace MemoryFs

/-- The operations on an open file.  A read is given by the length of its buffer. -/
inductive FileOp where
  | dev
  | ino
  | isDir
  | isAppend
  | setAppend (enable : Bool)
  | stat
  | read (n : Nat)
  | pread (n : Nat) (offset : Int)
  | write (buf : List UInt8)
  | pwrite (buf : List UInt8) (offset : Int)
  | truncate (size : Int)
  | seek (offset : Int) (whence : Int)
  | readdir (n : Int)
  | close
deriving DecidableEq, Repr

inductive Op where
  | openFile (name : Name) (flag : Oflag) (perm : Nat)
  | stat (name : Name)
  | lstat (name : Name)
  | readlink (name : Name)
  | mkdir (name : Name) (perm : Nat)
  | unlink (name : Name)
  | rename (source target : Name)
  | file (handle : Nat) (op : FileOp)
deriving DecidableEq, Repr

/-- What an operation returns beside its errno. -/
inductive Value where
  | none
  | handle (h : Nat)
  | stat (s : Stat)
  | name (name : Name)
  | number (n : Nat)
  | bool (b : Bool)
  | bytes (bytes : List UInt8)
  | offset (offset : Int)
  | entries (entries : List Dirent)
deriving DecidableEq, Repr

abbrev Answer := Except Errno Value

/-- A disk and the handles opened on it, closed ones included. -/
structure World extends Disk where
  files : List MemoryFile

def Answer.of {A : Type} (value : A → Value) : Except Errno A → Answer
  | .error e => .error e
  | .ok a => .ok (value a)

/-- One operation on a handle: the disk, the handle and the answer afterwards, unless the
operation panics. -/
def FileOp.apply (d : Disk) (f : MemoryFile) : FileOp → Option (Disk × MemoryFile × Answer)
  | .dev => some (d, f, .ok (.number (d.deref f.node).dev))
  | .ino => some (d, f, .ok (.number (d.deref f.node).ino))
  | .isDir => some (d, f, .ok (.bool (d.isDir f.node)))
  | .isAppend => some (d, f, .ok (.bool f.appendMode))
  | .setAppend enable =>
      match f.setAppend enable with
      | .error e => some (d, f, .error e)
      | .ok f => some (d, f, .ok .none)
  | .stat => some (d, f, .of .stat (f.stat d))
  | .read n => some (d, (f.read d n).1, .of .bytes (f.read d n).2)
  | .pread n offset => some (d, f, .of .bytes (f.pread d n offset))
  | .write buf =>
      let (o, f) := f.write d buf
      some (o.1, f, .of .number o.2)
  | .pwrite buf offset =>
      let o := f.pwrite d buf offset
      some (o.1, f, .of .number o.2)
  | .truncate size =>
      let o := f.truncate d size
      some (o.1, f, .of (fun _ => .none) o.2)
  | .seek offset whence =>
      some (d, (f.seek d offset whence).1, .of .offset (f.seek d offset whence).2)
  | .readdir n => (f.readdir d n).map fun r => (d, r.1, .of .entries r.2)
  | .close => some (d, f.close, .ok .none)

namespace World

variable (w : World)

/-- The world with what an operation on the mount left. -/
def answer {A : Type} (o : Outcome Disk Errno A) (value : A → Value) : World × Answer :=
  ({ w with toDisk := o.1 }, .of value o.2)

/-- The new handle is the last. -/
def openFile (name : Name) (flag : Oflag) (perm : Nat) : World × Answer :=
  match w.toDisk.openFile name flag perm with
  | (d, .error e) => ({ w with toDisk := d }, .error e)
  | (d, .ok f) => ({ toDisk := d, files := w.files ++ [f] }, .ok (.handle w.files.length))

/-- One operation.  There is no answer for a handle that was never opened, nor from a panic. -/
def step : Op → Option (World × Answer)
  | .openFile name flag perm => some (w.openFile name flag perm)
  | .stat name => some (w.answer (w.toDisk.stat name) .stat)
  | .lstat name => some (w.answer (w.toDisk.lstat name) .stat)
  | .readlink name => some (w.answer (w.toDisk.readlink name) .name)
  | .mkdir name perm => some (w.answer (w.toDisk.mkdir name perm) fun _ => .none)
  | .unlink name => some (w.answer (w.toDisk.unlink name) fun _ => .none)
  | .rename source target => some (w.answer (w.toDisk.rename source target) fun _ => .none)
  | .file h op =>
      (w.files[h]?).bind fun f =>
        (op.apply w.toDisk f).map fun (d, f, a) => ({ toDisk := d, files := w.files.set h f }, a)

end World

/-- An operation on a handle is one on an open file of the world. -/
theorem World.step_file {w w' : World} {h : Nat} {op : FileOp} {a : Answer} :
    w.step (.file h op) = some (w', a) ↔ ∃ f d g, w.files[h]? = some f ∧
      op.apply w.toDisk f = some (d, g, a) ∧ w' = { toDisk := d, files := w.files.set h g } := by
  rw [World.step, Option.bind_eq_some_iff]
  constructor
  · rintro ⟨f, hf, happly⟩
    obtain ⟨⟨d, g, b⟩, happly, heq⟩ := Option.map_eq_some_iff.mp happly
    cases heq
    exact ⟨f, d, g, hf, happly, rfl⟩
  · rintro ⟨f, d, g, hf, happly, rfl⟩
    exact ⟨f, hf, by rw [happly, Option.map_some]⟩

/-- An operation and its answer. -/
abbrev Event := Op × Answer

/-- The guest does the operation and gets the answer. -/
def Does (w : World) (event : Event) (w' : World) : Prop := w.step event.1 = some (w', event.2)

/-- The events lead from one world to the other. -/
abbrev Runs := Trace Does

/-- The answers to a sequence of operations, and the world after them. -/
def World.run (w : World) : List Op → Option (World × List Answer)
  | [] => some (w, [])
  | op :: ops =>
      match w.step op with
      | none => none
      | some (w', a) => (w'.run ops).map fun r => (r.1, a :: r.2)

theorem World.run_cons {w w' : World} {op : Op} {ops : List Op} {a : Answer}
    (h : w.step op = some (w', a)) :
    w.run (op :: ops) = (w'.run ops).map fun r => (r.1, a :: r.2) := by
  rw [World.run, h]

theorem runs_of_run {w w' : World} {ops : List Op} {answers : List Answer}
    (h : w.run ops = some (w', answers)) : Runs w (ops.zip answers) w' := by
  induction ops generalizing w answers with
  | nil =>
      cases h
      exact .nil
  | cons op ops ih =>
      cases hs : w.step op with
      | none =>
          rw [World.run, hs] at h
          cases h
      | some r =>
          obtain ⟨w₁, a⟩ := r
          rw [World.run_cons hs, Option.map_eq_some_iff] at h
          obtain ⟨⟨w₂, as⟩, hr, heq⟩ := h
          cases heq
          exact Trace.cons hs (ih hr)

/-- The empty writable mount a generator gets. -/
def fresh (device : Nat) (limits : Sdk.Limits) : World :=
  { toDisk := newMemoryFS ⟨[], device⟩ ∅ false limits, files := [] }

end MemoryFs
