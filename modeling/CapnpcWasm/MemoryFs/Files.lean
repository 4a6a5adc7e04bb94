import CapnpcWasm.Sdk.Limits
import CapnpcWasm.MemoryFs.Paths
import Mathlib.Data.List.AList
import Mathlib.Data.List.Sort

/-!
# The in-memory filesystem

The filesystem of the Go SDK, as `memoryfs.go` computes it.  A `*memoryNode` is an
index into a heap that only grows, so one node may be reached from several mounts and
from handles whose name is gone.  A mount is a map from names to nodes with the
counters of its budgets.

Each operation leaves a disk, and beside it a value or the errno the guest observes.
Offsets and sizes are the integers an `int64` holds.  Only `seek` and the bound on a
lookup add numbers whose sum may pass its range, and these sums wrap around.
-/

namespace MemoryFs

open Sdk

/-- A sum of two `int64`. -/
def int64 (n : Int) : Int :=
  let r := n % 18446744073709551616
  if 9223372036854775808 ≤ r then r - 18446744073709551616 else r

/-! ## Nodes and mounts -/

/-- The type and permission bits of an `fs.FileMode`. -/
structure FileMode where
  dir : Bool
  perm : Nat
deriving DecidableEq, Repr, Inhabited

/-- A regular file or a directory of the permissions `perm.Perm()`. -/
def FileMode.regular (perm : Nat) : FileMode := ⟨false, perm % 512⟩
def FileMode.directory (perm : Nat) : FileMode := ⟨true, perm % 512⟩

structure Node where
  data : List UInt8
  mode : FileMode
  ino : Nat
  dev : Nat
deriving DecidableEq, Repr, Inhabited

/-- A node, as Go's pointer to it. -/
abbrev Pointer := Nat

abbrev Names := AList fun _ : Name => Pointer

structure MemoryFS where
  nodes : Names
  readOnly : Bool
  limits : Limits
  /-- The byte charge. -/
  used : Int
  /-- The entries a guest created so far, the root excluded. -/
  created : Nat
  /-- The first budget a guest exceeded. -/
  limit : Option Limit
  nextIno : Nat
  dev : Nat

/-- What all mounts share: the nodes there are, and the number of the last device. -/
structure Host where
  heap : List Node
  nextDevice : Nat

/-- A mount and the nodes it may reach. -/
structure Disk extends Host where
  fs : MemoryFS

/-- The longest guest prefix the SDK prepends to a caller path, `/include/`. -/
def longestMountPrefix : Nat := 9

namespace Disk

variable (d : Disk)

def deref (n : Pointer) : Node := d.heap.getD n default

/-- `m.nodes[name]`. -/
def lookup (name : Name) : Option Pointer := d.fs.nodes.lookup name

def isDir (n : Pointer) : Bool := (d.deref n).mode.dir

def size (n : Pointer) : Nat := (d.deref n).data.length

/-- The node's data replaced, with the byte charge moved by `delta`. -/
def store (n : Pointer) (data : List UInt8) (delta : Int) : Disk :=
  { d with
    heap := d.heap.modify n fun node => { node with data := data }
    fs := { d.fs with used := d.fs.used + delta } }

def add (name : Name) (mode : FileMode) (data : List UInt8) : Disk × Pointer :=
  let node : Node := { data := data, mode := mode, ino := d.fs.nextIno, dev := d.fs.dev }
  ({ d with
     heap := d.heap ++ [node]
     fs := { d.fs with
       nextIno := d.fs.nextIno + 1
       nodes := d.fs.nodes.insert name d.heap.length
       used := d.fs.used + data.length } },
   d.heap.length)

/-- The disk after a guest exceeded a budget: the first one stays recorded. -/
def noted (limit : Limit) : Disk :=
  { d with fs := { d.fs with limit := d.fs.limit.or (some limit) } }

/-- Records the first budget a guest exceeds; the guest observes the errno. -/
def exceeded {A : Type} (limit : Limit) (errno : Errno) : Outcome Disk Errno A :=
  (d.noted limit, .error errno)

/-- Charges a new name against the path and entry budgets. -/
def chargeEntry (name : Name) : Outcome Disk Errno Unit :=
  if d.fs.limits.pathBytes < name.length then d.exceeded .pathBytes .ENAMETOOLONG
  else if d.fs.limits.outputEntries ≤ d.fs.created then d.exceeded .outputEntries .ERANGE
  else ({ d with fs := { d.fs with created := d.fs.created + 1 } }, .ok ())

/-- Adds an entry a guest asked for, within the budgets. -/
def create (name : Name) (mode : FileMode) : Outcome Disk Errno Pointer :=
  (d.chargeEntry name).andThen fun d _ =>
    let (d, n) := d.add name mode []
    (d, .ok n)

/-- The length over which a path names nothing. -/
def lookupBound : Int := int64 (d.fs.limits.pathBytes + longestMountPrefix)

/-- Canonicalizes a guest path inside the mount, and says whether it ended in a slash
that asks for a directory. -/
def resolve (name : Name) (creating : Bool) : Outcome Disk Errno (Name × Bool) :=
  match guestPath name d.lookupBound with
  | .error e =>
      if e = .ENAMETOOLONG ∧ creating ∧ ¬d.fs.readOnly then d.exceeded .pathBytes e
      else (d, .error e)
  | .ok resolved =>
      let trailingSlash := name.getLast? == some slash && resolved != dot
      if trailingSlash && (d.lookup resolved).any (!d.isDir ·) then (d, .error .ENOTDIR)
      else (d, .ok (resolved, trailingSlash))

/-- The parent of a resolved name is a directory. -/
def parent (name : Name) : Outcome Disk Errno Unit :=
  match d.lookup (dir name) with
  | none => (d, .error .ENOENT)
  | some n => if d.isDir n then (d, .ok ()) else (d, .error .ENOTDIR)

end Disk

/-! ## Open files -/

structure MemoryFile where
  node : Pointer
  name : Name
  offset : Int
  dirOffset : Nat
  readable : Bool
  writable : Bool
  appendMode : Bool
  closed : Bool
deriving DecidableEq, Repr

/-- The open flags the filesystem looks at. -/
structure Oflag where
  O_RDWR : Bool := false
  O_WRONLY : Bool := false
  O_APPEND : Bool := false
  O_CREAT : Bool := false
  O_DIRECTORY : Bool := false
  O_EXCL : Bool := false
  O_TRUNC : Bool := false
deriving DecidableEq, Repr

def Oflag.writable (flag : Oflag) : Bool := flag.O_RDWR || flag.O_WRONLY

structure Stat where
  dev : Nat
  ino : Nat
  mode : FileMode
  nlink : Nat
  size : Nat
deriving DecidableEq, Repr

structure Dirent where
  name : Name
  ino : Nat
  dir : Bool
deriving DecidableEq, Repr

def Node.stat (n : Node) : Stat :=
  { dev := n.dev, ino := n.ino, mode := n.mode, nlink := 1, size := n.data.length }

/-- The names in the order of a Go string comparison. -/
def sortedKeys {A : Type} (keys : AList fun _ : Name => A) : List Name :=
  keys.keys.insertionSort (· ≤ ·)

namespace MemoryFile

variable (d : Disk) (f : MemoryFile)

def setAppend (enable : Bool) : Except Errno MemoryFile :=
  if f.closed then .error .EBADF else .ok { f with appendMode := enable }

def stat : Except Errno Stat := if f.closed then .error .EBADF else .ok (d.deref f.node).stat

/-- The bytes copied into a buffer of length `n`. -/
def pread (n : Nat) (offset : Int) : Except Errno (List UInt8) :=
  if f.closed ∨ ¬f.readable then .error .EBADF
  else if d.isDir f.node then .error .EISDIR
  else if offset < 0 then .error .EINVAL
  else if d.size f.node ≤ offset then .ok []
  else .ok (((d.deref f.node).data.drop offset.toNat).take n)

def read (n : Nat) : MemoryFile × Except Errno (List UInt8) :=
  match f.pread d n f.offset with
  | .error e => (f, .error e)
  | .ok bytes => ({ f with offset := f.offset + bytes.length }, .ok bytes)

def truncate (size : Int) : Outcome Disk Errno Unit :=
  if f.closed ∨ ¬f.writable then (d, .error .EBADF)
  else if d.isDir f.node then (d, .error .EISDIR)
  else if size < 0 then (d, .error .EINVAL)
  else
    let data := (d.deref f.node).data
    let delta := size - data.length
    if d.fs.limits.outputBytes - d.fs.used < delta then d.exceeded .outputBytes .ERANGE
    else if 0 < delta then
      (d.store f.node (data ++ List.replicate delta.toNat 0) delta, .ok ())
    else (d.store f.node (data.take size.toNat) delta, .ok ())

/-- The bytes of `buf` copied over the data at an offset within it. -/
def overwrite (data : List UInt8) (offset : Nat) (buf : List UInt8) : List UInt8 :=
  data.take offset ++ buf.take (data.length - offset) ++ data.drop (offset + buf.length)

/-- The number of bytes written. -/
def pwrite (buf : List UInt8) (offset : Int) : Outcome Disk Errno Nat :=
  if f.closed ∨ ¬f.writable then (d, .error .EBADF)
  else
    let budget : Int := d.fs.limits.outputBytes
    if offset < 0 ∨ budget < offset ∨ budget - offset < buf.length then
      if offset < 0 then (d, .error .EINVAL) else d.exceeded .outputBytes .ERANGE
    else
      let finish := offset + buf.length
      let extended : Outcome Disk Errno Unit :=
        if d.size f.node < finish then f.truncate d finish else (d, .ok ())
      extended.andThen fun d _ =>
        let data := (d.deref f.node).data
        (d.store f.node (overwrite data offset.toNat buf) 0,
          .ok (min buf.length (data.length - offset.toNat)))

/-- `Write` at the handle's offset, which append mode first moves to the end. -/
def write (buf : List UInt8) : Outcome Disk Errno Nat × MemoryFile :=
  let f := if f.appendMode then { f with offset := (d.size f.node : Int) } else f
  match f.pwrite d buf f.offset with
  | (d, .error e) => ((d, .error e), f)
  | (d, .ok n) => ((d, .ok n), { f with offset := f.offset + n })

/-- The offset `Seek` aims at, and `none` for an unknown `whence`. -/
def target (offset : Int) (whence : Int) : Option Int :=
  if whence = 0 then some offset
  else if whence = 1 then some (int64 (offset + f.offset))
  else if whence = 2 then some (int64 (offset + d.size f.node))
  else none

def seek (offset : Int) (whence : Int) : MemoryFile × Except Errno Int :=
  if f.closed then (f, .error .EBADF)
  else if d.isDir f.node then
    if whence ≠ 0 ∨ offset ≠ 0 then (f, .error .EINVAL)
    else ({ f with dirOffset := 0 }, .ok 0)
  else
    match f.target d offset whence with
    | none => (f, .error .EINVAL)
    | some offset =>
        if offset < 0 ∨ d.fs.limits.outputBytes < offset then (f, .error .EINVAL)
        else ({ f with offset := offset }, .ok offset)

/-- The entries of the directory the handle was opened at. -/
def entries : List Dirent :=
  ((sortedKeys d.fs.nodes).filter fun name => name ≠ dot ∧ dir name = f.name).filterMap fun name =>
    (d.lookup name).map fun n =>
      { name := base name, ino := (d.deref n).ino, dir := d.isDir n }

/-- `Readdir`.  A page whose end passes the range of an `int` ends at a negative number, and the
slice panics: there is no answer. -/
def readdir (n : Int) : Option (MemoryFile × Except Errno (List Dirent)) :=
  if f.closed ∨ ¬d.isDir f.node then some (f, .error .EBADF)
  else
    let entries := f.entries d
    let start := min f.dirOffset entries.length
    if 0 < n ∧ 9223372036854775807 < start + n then none
    else
      let finish := if 0 < n then min entries.length (start + n.toNat) else entries.length
      some ({ f with dirOffset := finish }, .ok ((entries.take finish).drop start))

def close : MemoryFile := { f with closed := true }

end MemoryFile

/-! ## Operations on a mount -/

namespace Disk

variable (d : Disk)

/-- The node an open finds or creates. -/
def openNode (name : Name) (trailingSlash : Bool) (flag : Oflag) (perm : Nat) :
    Outcome Disk Errno Pointer :=
  match d.lookup name with
  | none =>
      if ¬flag.O_CREAT then (d, .error .ENOENT)
      else if trailingSlash then (d, .error .EISDIR)
      else if flag.O_DIRECTORY then (d, .error .ENOTDIR)
      else (d.parent name).andThen fun d _ => d.create name (.regular perm)
  | some n => if flag.O_CREAT ∧ flag.O_EXCL then (d, .error .EEXIST) else (d, .ok n)

def openFile (name : Name) (flag : Oflag) (perm : Nat) : Outcome Disk Errno MemoryFile :=
  (d.resolve name flag.O_CREAT).andThen fun d (name, trailingSlash) =>
    if d.fs.readOnly ∧ (flag.writable ∨ flag.O_CREAT ∨ flag.O_TRUNC ∨ flag.O_APPEND) then
      (d, .error .EROFS)
    else
      (d.openNode name trailingSlash flag perm).andThen fun d n =>
        if d.isDir n ∧ flag.writable then (d, .error .EISDIR)
        else if ¬d.isDir n ∧ flag.O_DIRECTORY then (d, .error .ENOTDIR)
        else
          let f : MemoryFile :=
            { node := n, name := name, offset := 0, dirOffset := 0, readable := !flag.O_WRONLY,
              writable := flag.writable, appendMode := flag.O_APPEND, closed := false }
          if flag.O_TRUNC then (f.truncate d 0).andThen fun d _ => (d, .ok f)
          else (d, .ok f)

def stat (name : Name) : Outcome Disk Errno Stat :=
  (d.resolve name false).andThen fun d (name, _) =>
    match d.lookup name with
    | none => (d, .error .ENOENT)
    | some n => (d, .ok (d.deref n).stat)

def lstat (name : Name) : Outcome Disk Errno Stat := d.stat name

/-- The probe of the components of a resolved name from the root down: each is
present, and all but the last are directories. -/
def probe (parts : List Name) (trailingSlash : Bool) : Nat → Errno
  | 0 => .EINVAL
  | left + 1 =>
      let i := parts.length - (left + 1)
      match d.lookup (join (parts.take (i + 1))) with
      | none => .ENOENT
      | some n =>
          if (i + 1 < parts.length ∨ trailingSlash) ∧ ¬d.isDir n then .ENOTDIR
          else probe parts trailingSlash left

/-- There are no links, so the errno says what stands at the name. -/
def readlink (name : Name) : Outcome Disk Errno Name :=
  if name = [] then (d, .error .ENOENT)
  else
    (d.resolve name false).andThen fun d (name, trailingSlash) =>
      let parts := split name
      (d, .error (d.probe parts trailingSlash parts.length))

def mkdir (name : Name) (perm : Nat) : Outcome Disk Errno Unit :=
  if d.fs.readOnly then (d, .error .EROFS)
  else
    match guestPath name d.lookupBound with
    | .error .ENAMETOOLONG => d.exceeded .pathBytes .ENAMETOOLONG
    | .error e => (d, .error e)
    | .ok name =>
        if (d.lookup name).isSome then (d, .error .EEXIST)
        else
          (d.parent name).andThen fun d _ =>
            (d.create name (.directory perm)).andThen fun d _ => (d, .ok ())

/-- The name gone.  The node stays, and so does its charge. -/
def delete (name : Name) : Disk :=
  { d with fs := { d.fs with nodes := d.fs.nodes.erase name } }

def unlink (name : Name) : Outcome Disk Errno Unit :=
  if d.fs.readOnly then (d, .error .EROFS)
  else
    (d.resolve name false).andThen fun d (name, _) =>
      match d.lookup name with
      | none => (d, .error .ENOENT)
      | some n => if d.isDir n then (d, .error .EISDIR) else (d.delete name, .ok ())

/-- The node moved to another name, whose former node loses it. -/
def move (source target : Name) (n : Pointer) : Disk :=
  { d with fs := { d.fs with nodes := (d.fs.nodes.erase source).insert target n } }

def rename (source target : Name) : Outcome Disk Errno Unit :=
  if d.fs.readOnly then (d, .error .EROFS)
  else
    (d.resolve source false).andThen fun d (source, _) =>
      (d.resolve target true).andThen fun d (target, _) =>
        match d.lookup source with
        | none => (d, .error .ENOENT)
        | some n =>
            if d.isDir n then (d, .error .ENOSYS)
            else
              (d.parent target).andThen fun d _ =>
                match d.lookup target with
                | none =>
                    -- A new name is a new entry; replacing an existing name is not.
                    if source = target then (d, .ok ())
                    else (d.chargeEntry target).andThen fun d _ => (d.move source target n, .ok ())
                | some old =>
                    if d.isDir old then (d, .error .EISDIR)
                    else if source = target then (d, .ok ())
                    else (d.move source target n, .ok ())

/-- The regular files with their contents. -/
def snapshot : List (Name × List UInt8) :=
  (d.fs.nodes.entries.filter fun entry => !d.isDir entry.2).map fun entry =>
    (entry.1, (d.deref entry.2).data)

end Disk

/-! ## Mounts -/

abbrev Contents := AList fun _ : Name => List UInt8

/-- The directories a staged name implies, from the root down. -/
def ancestors (name : Name) : List Name :=
  (List.range ((split name).length - 1)).map fun i => join ((split name).take (i + 1))

/-- One staged file, with the directories above it that are not there yet. -/
def Disk.stage (files : Contents) (d : Disk) (name : Name) : Disk :=
  let d := (ancestors name).foldl (fun d directory =>
    if (d.lookup directory).isNone then (d.add directory (.directory 0o755) []).1 else d) d
  (d.add name (.regular 0o644) ((files.lookup name).getD [])).1

/-- A mount that holds its root and nothing else. -/
def unstaged (host : Host) (limits : Limits) : Disk :=
  let empty : Disk :=
    { heap := host.heap
      nextDevice := host.nextDevice + 1
      fs :=
        { nodes := ∅, readOnly := false, limits := limits, used := 0, created := 0, limit := none,
          nextIno := 1, dev := host.nextDevice + 1 } }
  (empty.add dot (.directory 0o755) []).1

def newMemoryFS (host : Host) (files : Contents) (readOnly : Bool) (limits : Limits) : Disk :=
  let d := (sortedKeys files).foldl (Disk.stage files) (unstaged host limits)
  { d with fs := { d.fs with readOnly := readOnly } }

def sourceMount : Name := "src".toUTF8.toList
def includeMount : Name := "include".toUTF8.toList

/-- The nodes of a mount also under `mountPoint`, but not its root. -/
def Disk.mirror (d : Disk) (mountPoint : Name) (mount : MemoryFS) : Disk :=
  let d := (d.add mountPoint (.directory 0o755) []).1
  { d with
    fs := { d.fs with
      nodes := mount.nodes.entries.foldl (fun nodes entry =>
        if entry.1 = dot then nodes
        else nodes.insert (mountPoint ++ slash :: entry.1) entry.2) d.fs.nodes } }

/-- The compiler's read-only root, with the nodes of both mounts under `src` and
`include`. -/
def newRootFS (host : Host) (source included : MemoryFS) (limits : Limits) : Disk :=
  let root := newMemoryFS host ∅ true limits
  (root.mirror sourceMount source).mirror includeMount included

end MemoryFs
