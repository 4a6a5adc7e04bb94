import CapnpcWasm.TsSdk.Runner

/-!
# The filesystem and the imports of a command

`stageFiles` lays the input files out as a tree, over the buffers of its caller.  The
shim keeps read-only files from writes and from truncation, but not from the operations
that resize an open file, so `protectFiles` guards those, and for a read-only tree
everything that changes it.  `boundWasiIO` bounds paths and descriptors on top of that.
-/

namespace TsSdk

open Sdk

variable {N H C : Type}

/-! ## Staging -/

def Filesystem.contents (fs : Filesystem) (id : InodeId) : List (JsString × InodeId) :=
  contentsOf fs id

/-- `Map.set` of the entries of a directory. -/
def setEntry (contents : List (JsString × InodeId)) (name : JsString) (id : InodeId) :
    List (JsString × InodeId) :=
  if contents.any fun entry => entry.1 == name then
    contents.map fun entry => if entry.1 = name then (name, id) else entry
  else contents ++ [(name, id)]

/-- Adds an inode under a name. -/
def Filesystem.create (fs : Filesystem) (directory : InodeId) (name : JsString) (inode : Inode) :
    Filesystem :=
  ⟨fs.inodes.set directory (.directory (setEntry (fs.contents directory) name fs.inodes.length)) ++
    [inode]⟩

def overlapError (path : JsString) : Thrown N :=
  newError (text "file and directory paths overlap: " ++ path)

/-- The directory below another one on the way to a file, made where there is none. -/
def stageDirectory (path : JsString) (place : Filesystem × InodeId) (part : JsString) :
    Except (Thrown N) (Filesystem × InodeId) :=
  let (fs, directory) := place
  match (fs.contents directory).lookup part with
  | none => .ok (fs.create directory part (.directory []), fs.inodes.length)
  | some id =>
      match fs.inodes[id]? with
      | some (.directory _) => .ok (fs, id)
      | _ => .error (overlapError path)

def stageFile (readonly : Bool) (fs : Filesystem) (file : JsString × Bytes) :
    Except (Thrown N) Filesystem := do
  let parts := split file.1
  parts.forM checkName
  let (fs, directory) ← parts.dropLast.foldlM (stageDirectory file.1) (fs, 0)
  let name := parts.getLastD []
  if ((fs.contents directory).lookup name).isSome then
    throw (overlapError file.1)
  return fs.create directory name (.file file.2 readonly)

/-- The tree of the input files, whose root is the first inode.  A read-only tree has the
two mounts of the compiler, with or without files. -/
def stageFiles (files : List (JsString × Bytes)) (readonly : Bool) :
    Except (Thrown N) Filesystem :=
  let root : Filesystem :=
    if readonly then
      ⟨[.directory [(text "src", 1), (text "include", 2)], .directory [], .directory []]⟩
    else ⟨[.directory []]⟩
  files.foldlM (stageFile readonly) root

/-! ## Imports -/

def errnoNfile : Errno := 41
def errnoRofs : Errno := 69

/-- The live descriptors of a command. -/
def maximumDescriptors : Nat := 1024

def oflagsCreat : UInt32 := 1
def oflagsTrunc : UInt32 := 8

/-- A call of an import, by what the host checks of it. -/
inductive Import (N C : Type) where
  /-- `fd_allocate`, `fd_filestat_set_size` and `fd_filestat_set_times`. -/
  | resize (fd : UInt32) (c : C)
  /-- An operation that changes the tree, with the lengths of its paths. -/
  | change (lengths : List UInt32) (c : C)
  /-- `path_filestat_get` and `path_readlink`. -/
  | look (length : UInt32) (c : C)
  /-- `path_open`, and whether its result pointer lies in memory, if there is one yet. -/
  | path_open (oflags length : UInt32) (inMemory : Except (Thrown N) Bool) (c : C)
  | other (c : C)

/-- The shim, with its tables. -/
structure Host (N H C : Type) extends Shim N H (Import N C) where
  /-- `new WASI(...)` for the arguments, over a tree whose last inode is standard input. -/
  start : Limits → Bool → List JsString → Filesystem → H
  /-- The file an open descriptor is on. -/
  fileOf : H → UInt32 → Option InodeId
  /-- How many descriptors are open. -/
  live : H → Nat

namespace Host

variable (host : Host N H C)

/-- An inode that is a read-only file with some contents. -/
def ReadonlyAt (h : H) (id : InodeId) (data : Bytes) : Prop :=
  (host.files h).inodes[id]? = some (.file data true)

/-- The descriptor is on a read-only file. -/
def onReadonly (h : H) (fd : UInt32) : Bool :=
  match host.fileOf h fd with
  | none => false
  | some id =>
      match (host.files h).inodes[id]? with
      | some (.file _ readonly) => readonly
      | _ => false

/-- What the shim says of itself: it starts on the files it is given, and only the
operations that resize an open file change a read-only one. -/
structure Documented : Prop where
  start : ∀ limits readonly argv fs, host.files (host.start limits readonly argv fs) = fs
  kept : ∀ c h id data, host.ReadonlyAt h id data →
    (∀ fd c', c = .resize fd c' → host.fileOf h fd ≠ some id) →
      host.ReadonlyAt (host.call c h).1 id data

variable (limits : Limits) (readonly : Bool)

/-- `protectFiles`. -/
def protectFiles : Import N C → H → H × Except (Thrown N) Errno
  | .resize fd c, h =>
      if host.onReadonly h fd then (h, .ok errnoRofs) else host.call (.resize fd c) h
  | .change lengths c, h =>
      if readonly then (h, .ok errnoRofs) else host.call (.change lengths c) h
  | .path_open oflags length inMemory c, h =>
      if readonly && oflags &&& (oflagsCreat ||| oflagsTrunc) != 0 then (h, .ok errnoRofs)
      else host.call (.path_open oflags length inMemory c) h
  | c, h => host.call c h

/-- Longer than any path the guest needs. -/
def tooLong (length : UInt32) : Bool := limits.pathBytes + 8 < length.toNat

/-- What `boundWasiIO` checks of paths and descriptors before an import acts. -/
def boundWasiIO : Import N C → H → H × Except (Thrown N) Errno
  | .change lengths c, h =>
      if lengths.any (tooLong limits) then (h, .error (limitError .pathBytes))
      else host.protectFiles readonly (.change lengths c) h
  | .look length c, h =>
      if tooLong limits length then (h, .error (limitError .pathBytes))
      else host.protectFiles readonly (.look length c) h
  | .path_open oflags length inMemory c, h =>
      match inMemory with
      | .error e => (h, .error e)
      | .ok false => (h, .ok errnoInval)
      | .ok true =>
          if maximumDescriptors ≤ host.live h then (h, .ok errnoNfile)
          else if tooLong limits length then (h, .error (limitError .pathBytes))
          else host.protectFiles readonly (.path_open oflags length (.ok true) c) h
  | c, h => host.protectFiles readonly c h

/-- The imports as the command installs them below the outermost wrapper. -/
def imports : Shim N H (Import N C) :=
  { host.toShim with call := host.boundWasiIO limits readonly }

/-- The contents of a file. -/
def dataAt (h : H) (id : InodeId) : Bytes :=
  match (host.files h).inodes[id]? with
  | some (.file data _) => data
  | _ => []

variable {host limits readonly} {c : Import N C} {h : H} {id : InodeId} {data : Bytes}

theorem Documented.protectFiles (hhost : host.Documented) (hdata : host.ReadonlyAt h id data) :
    host.ReadonlyAt (host.protectFiles readonly c h).1 id data := by
  have hacts : (∀ fd c', c = .resize fd c' → host.fileOf h fd ≠ some id) →
      host.ReadonlyAt (host.call c h).1 id data := hhost.kept c h id data hdata
  cases c with
  | resize fd c =>
      rw [Host.protectFiles]
      split
      · exact hdata
      · next hwritable =>
        refine hacts fun fd' c' heq hfile => ?_
        cases heq
        rw [onReadonly, hfile] at hwritable
        dsimp only at hwritable
        rw [show (host.files h).inodes[id]? = some (.file data true) from hdata] at hwritable
        exact hwritable rfl
  | change lengths c =>
      rw [Host.protectFiles]
      split
      · exact hdata
      · exact hacts nofun
  | look length c => exact hacts nofun
  | path_open oflags length inMemory c =>
      rw [Host.protectFiles]
      split
      · exact hdata
      · exact hacts nofun
  | other c => exact hacts nofun

/-- No import of a command changes a read-only file. -/
theorem Documented.imports (hhost : host.Documented) (hdata : host.ReadonlyAt h id data) :
    host.ReadonlyAt ((host.imports limits readonly).call c h).1 id data := by
  have hprotected : ∀ c, host.ReadonlyAt (host.protectFiles readonly c h).1 id data :=
    fun c => hhost.protectFiles hdata
  change host.ReadonlyAt (host.boundWasiIO limits readonly c h).1 id data
  cases c with
  | resize fd c => exact hprotected _
  | change lengths c =>
      rw [Host.boundWasiIO]
      split
      · exact hdata
      · exact hprotected _
  | look length c =>
      rw [Host.boundWasiIO]
      split
      · exact hdata
      · exact hprotected _
  | path_open oflags length inMemory c =>
      rcases inMemory with e | lies
      · exact hdata
      cases lies with
      | false => exact hdata
      | true =>
          rw [Host.boundWasiIO]
          split
          · exact hdata
          · split
            · exact hdata
            · exact hprotected _
  | other c => exact hprotected _

end Host

end TsSdk
