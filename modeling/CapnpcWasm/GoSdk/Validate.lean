import CapnpcWasm.Lib.Text
import CapnpcWasm.MemoryFs.Files

/-!
# Request validation in the Go SDK

`Compiler.validate` and `validateGenerate`, which reject a request before any guest
starts.  Strings are Go strings, that is bytes, and the messages carry the path they are
about.
-/

namespace GoSdk

open Sdk MemoryFs

/-! ## Requests and rejections -/

/-- A compile request, with its files by name. -/
structure Request where
  files : Contents
  includeFiles : Contents
  importPaths : List Name
  sourcePrefix : Name
  entrypoints : List Name
  generators : List Name

/-- Caller input rejected before any guest starts, with the limit it exceeds, if any. -/
structure Rejection where
  message : Name
  limit : Option Limit
deriving DecidableEq, Repr

/-- A string literal of the source. -/
def text (s : String) : Name := Text.utf8 s.toList

/-- Input that is rejected for its form. -/
def invalid (message : Name) : Rejection := ⟨message, none⟩

/-- Input over a limit, which the rejection names. -/
def inputExceeds (subject : String) (limit : Limit) : Rejection :=
  ⟨text (subject ++ " exceeds " ++ limit.name ++ " limit"), some limit⟩

/-! ## Paths and generators -/

/-- A canonical relative path, with no NUL and no backslash. -/
def validPath (name : Name) : Bool :=
  !(!Text.validString name || forbidden name) &&
    (split name).all fun part => !(part == [] || part == dot || part == dotdot)

/-- A path is short enough and valid. -/
def checkPath (limits : Limits) (name : Name) : Except Rejection Unit :=
  if limits.pathBytes < name.length then .error (inputExceeds "path" .pathBytes)
  else if !validPath name then
    .error (invalid (text "expected a canonical relative POSIX path: " ++ name))
  else .ok ()

/-- A value occurs after an equal one. -/
def duplicated {A : Type} [DecidableEq A] : List A → List A → Bool
  | _, [] => false
  | seen, value :: values => if value ∈ seen then true else duplicated (value :: seen) values

/-- The four languages. -/
def supported (language : Name) : Bool :=
  [Language.cpp, .rust, .go, .zig].any fun l => text l.name == language

/-- A module was supplied for the language. -/
def hasModule (supplied : List Language) (language : Name) : Bool :=
  supplied.any fun l => text l.name == language

/-- A generator is one of them and was supplied. -/
def checkGenerator (supplied : List Language) (language : Name) : Except Rejection Unit :=
  if !supported language || !hasModule supplied language then
    .error (invalid (text "generator was not supplied: " ++ language))
  else .ok ()

/-- Count, duplicates, then each of them. -/
def validateGenerators (supplied : List Language) (languages : List Name) :
    Except Rejection Unit :=
  if 4 < languages.length then .error (invalid (text "too many generators"))
  else if duplicated [] languages then .error (invalid (text "duplicate generators"))
  else languages.forM (checkGenerator supplied)

/-! ## The workspace -/

/-- The nodes of the mount so far, and the entries and bytes of both mounts. -/
structure Scan where
  nodes : List Name
  entries : Nat
  total : Nat

/-- A file and the directories it implies: the name up to each slash, and the name. -/
def nodesOf (name : Name) : List Name :=
  ((List.range (name.length + 1)).filter fun i => name[i]? = none ∨ name[i]? = some slash).map
    name.take

/-- The name up to each slash. -/
def directoriesOf (name : Name) : List Name :=
  ((List.range name.length).filter fun i => name[i]? = some slash).map name.take

/-- A node is counted once over both mounts. -/
def addNode (limits : Limits) (s : Scan) (node : Name) : Except Rejection Scan :=
  if node ∈ s.nodes then .ok s
  else if limits.workspaceEntries < s.entries + 1 then
    .error (inputExceeds "workspace" .workspaceEntries)
  else .ok { s with nodes := node :: s.nodes, entries := s.entries + 1 }

/-- A file counts its directories, itself and its bytes. -/
def addFile (limits : Limits) (files : Contents) (s : Scan) (name : Name) :
    Except Rejection Scan := do
  checkPath limits name
  let s ← (nodesOf name).foldlM (addNode limits) s
  let data := (files.lookup name).getD []
  if limits.workspaceBytes - s.total < data.length then
    .error (inputExceeds "workspace" .workspaceBytes)
  else .ok { s with total := s.total + data.length }

/-- No directory of a file is a file. -/
def checkCollision (files : Contents) (name : Name) : Except Rejection Unit :=
  if (directoriesOf name).any fun directory => (files.lookup directory).isSome then
    .error (invalid (text "file/directory collision: " ++ name))
  else .ok ()

/-- One mount, whose nodes are its own. -/
def scanMount (limits : Limits) (files : Contents) (s : Scan) : Except Rejection Scan := do
  let s ← (sortedKeys files).foldlM (addFile limits files) { s with nodes := [] }
  (sortedKeys files).forM (checkCollision files)
  return s

/-- An entrypoint is one of the files. -/
def checkEntrypoint (files : Contents) (entry : Name) : Except Rejection Unit :=
  if (files.lookup entry).isNone then
    .error (invalid (text "entrypoint is not in files: " ++ entry))
  else .ok ()

/-- A root is a directory that some file implies. -/
def checkRoot (message : String) (directories : List Name) (root : Name) :
    Except Rejection Unit :=
  if root ≠ [] ∧ root ∉ directories then .error (invalid (text message ++ root))
  else .ok ()

/-- A condition that must not hold. -/
def rejectIf (condition : Bool) (rejection : Rejection) : Except Rejection Unit :=
  if condition then .error rejection else .ok ()

/-- Every check on a request before any guest starts, in order. -/
def validate (limits : Limits) (supplied : List Language) (request : Request) :
    Except Rejection Unit := do
  validateGenerators supplied request.generators
  rejectIf (limits.workspaceEntries < request.importPaths.length)
    (inputExceeds "import root count" .workspaceEntries)
  ((request.sourcePrefix :: request.importPaths).filter (· ≠ [])).forM (checkPath limits)
  rejectIf (duplicated [] request.importPaths) (invalid (text "duplicate importPaths"))
  rejectIf (request.entrypoints.length = 0)
    (invalid (text "at least one entrypoint is required"))
  rejectIf (limits.workspaceEntries < request.entrypoints.length)
    (inputExceeds "entrypoint count" .workspaceEntries)
  request.entrypoints.forM (checkPath limits)
  rejectIf (duplicated [] request.entrypoints) (invalid (text "duplicate entrypoints"))
  let s ← scanMount limits request.files ⟨[], 0, 0⟩
  let sourceDirectories := s.nodes.filter fun node => (request.files.lookup node).isNone
  let _ ← scanMount limits request.includeFiles s
  request.entrypoints.forM (checkEntrypoint request.files)
  request.importPaths.forM (checkRoot "importPath is not a directory in files: " sourceDirectories)
  checkRoot "sourcePrefix is not a directory in files: " sourceDirectories request.sourcePrefix

/-- A request for sources from a schema that is compiled already. -/
structure GenerationRequest where
  request : List UInt8
  generators : List Name

/-- Its checks: the generators, then the size of the schema. -/
def validateGenerate (limits : Limits) (supplied : List Language) (request : GenerationRequest) :
    Except Rejection Unit := do
  validateGenerators supplied request.generators
  rejectIf (request.generators.length = 0) (invalid (text "at least one generator is required"))
  rejectIf (request.request.length = 0)
    (invalid (text "request must contain unpacked CodeGeneratorRequest bytes"))
  rejectIf (limits.requestBytes < request.request.length)
    (inputExceeds "request" .requestBytes)

end GoSdk
