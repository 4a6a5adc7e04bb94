import CapnpcWasm.Lib.Text
import CapnpcWasm.Sdk.Limits

/-!
# Request validation in the TypeScript SDK

`validateCompile` and `validateGenerate`, for requests of the declared types.  Strings are
JavaScript strings, that is UTF-16 code units.  A record of files is the list of its own
enumerable entries in enumeration order.
-/

namespace TsSdk

open Sdk

/-- A string as its code units. -/
abbrev JsString := List UInt16

/-! ## Requests -/

/-- The contents of a file: text, or bytes. -/
inductive FileContents where
  | text (s : JsString)
  | bytes (bytes : List UInt8)
deriving DecidableEq, Repr

/-- A record of files. -/
abbrev Files := List (JsString × FileContents)

/-- `CompileRequest`, an absent field as `none`. -/
structure CompileRequest where
  files : Files
  includeFiles : Option Files
  importPaths : Option (List JsString)
  sourcePrefix : Option JsString
  entrypoints : List JsString
  generators : List JsString

/-- A `TypeError`, by its message. -/
structure TypeError where
  message : JsString
deriving DecidableEq, Repr

/-- A string literal of the source. -/
def text (s : String) : JsString := Text.utf16 s.toList

/-- A message of the source. -/
def typeError (s : String) : TypeError := ⟨text s⟩

/-- One with the path it is about. -/
def typeErrorAt (s : String) (path : JsString) : TypeError := ⟨text s ++ path⟩

/-! ## Paths and generators -/

/-- The bytes of a code point, and of a lone surrogate as its replacement. -/
def pointSize (code : Nat) : Nat :=
  if code < 0x80 then 1 else if code < 0x800 then 2 else if code < 0x10000 then 3 else 4

/-- Adds up the sizes of code points until they exceed the maximum. -/
def sizeUpTo (maximum : Nat) : Nat → List Nat → Nat
  | size, [] => size
  | size, code :: points =>
      if maximum < size + pointSize code then size + pointSize code
      else sizeUpTo maximum (size + pointSize code) points

/-- The UTF-8 size of a string, counted until it exceeds the maximum. -/
def utf8Size (text : JsString) (maximum : Nat) : Nat :=
  if maximum < text.length then maximum + 1 else sizeUpTo maximum 0 (Text.codePoints text)

/-- `isWellFormed` of a string: no surrogate stands alone. -/
def isWellFormed (s : JsString) : Bool :=
  (Text.codePoints s).all fun code => !(0xD800 ≤ code && code ≤ 0xDFFF)

def slash : UInt16 := 47

/-- `path.split("/")`. -/
def split (path : JsString) : List JsString := path.splitOn slash

/-- `parts.join("/")`. -/
def join (parts : List JsString) : JsString := [slash].intercalate parts

/-- A path: its size, its form and its parts. -/
def checkPath (limits : Limits) (path : JsString) : Except TypeError Unit :=
  if limits.pathBytes < utf8Size path limits.pathBytes then
    .error (typeError "path exceeds pathBytes limit")
  else if (path.any fun u => u == 92 || u == 0) || !isWellFormed path ||
      (split path).any fun part => part == [] || part == text "." || part == text ".." then
    .error (typeErrorAt "expected a canonical relative POSIX path: " path)
  else .ok ()

/-- `new Set(values).size !== values.length`. -/
def repeats (values : List JsString) : Bool := values.dedup.length != values.length

/-- A generator is known and was supplied. -/
def checkGenerator (supplied : List Language) (target : JsString) : Except TypeError Unit :=
  if !supplied.any fun l => text l.name == target then
    .error (typeErrorAt "generator was not supplied: " target)
  else .ok ()

/-- Count, duplicates, then each of them. -/
def validateGenerators (supplied : List Language) (requested : List JsString) :
    Except TypeError (List JsString) :=
  if 4 < requested.length then .error (typeError "too many generators")
  else if repeats requested then .error (typeError "duplicate generators")
  else do
    requested.forM (checkGenerator supplied)
    return requested

/-! ## The workspace -/

/-- A compile request after every check, before any copy. -/
structure CompileJob where
  sources : Files
  annotations : Files
  entrypoints : List JsString
  importPaths : List JsString
  sourcePrefix : JsString
  generators : List JsString

/-- What one mount captured so far, with the entries and bytes of both mounts. -/
structure Scan where
  mount : Files
  names : List JsString
  nodes : List JsString
  entries : Nat
  bytes : Nat

/-- A file and the directories it implies. -/
def nodesOf (path : JsString) : List JsString :=
  let parts := split path
  (List.range parts.length).map fun i => join (parts.take (i + 1))

/-- The directories a path implies. -/
def directoriesOf (path : JsString) : List JsString :=
  let parts := split path
  (List.range (parts.length - 1)).map fun i => join (parts.take (i + 1))

/-- A node is counted once over both mounts. -/
def addNode (limits : Limits) (s : Scan) (node : JsString) : Except TypeError Scan :=
  if node ∈ s.nodes then .ok s
  else if limits.workspaceEntries < s.entries + 1 then
    .error (typeError "workspace exceeds workspaceEntries limit")
  else .ok { s with nodes := s.nodes ++ [node], entries := s.entries + 1 }

/-- The size a file adds, counted until it exceeds what is left. -/
def contentsSize (maximum : Nat) : FileContents → Nat
  | .text s => utf8Size s maximum
  | .bytes bytes => bytes.length

/-- A file counts its directories, itself and its bytes. -/
def addFile (limits : Limits) (s : Scan) (entry : JsString × FileContents) :
    Except TypeError Scan := do
  checkPath limits entry.1
  let s ← (nodesOf entry.1).foldlM (addNode limits) { s with names := s.names ++ [entry.1] }
  let s := { s with
    mount := s.mount ++ [entry]
    bytes := s.bytes + contentsSize (limits.workspaceBytes - s.bytes) entry.2 }
  if limits.workspaceBytes < s.bytes then
    .error (typeError "workspace exceeds workspaceBytes limit")
  else .ok s

/-- No directory of a file is a file. -/
def checkCollision (names : List JsString) (path : JsString) : Except TypeError Unit :=
  if (directoriesOf path).any fun directory => directory ∈ names then
    .error (typeErrorAt "file/directory collision: " path)
  else .ok ()

/-- One mount, whose names and nodes are its own. -/
def scanMount (limits : Limits) (files : Files) (s : Scan) : Except TypeError Scan := do
  let s ← files.foldlM (addFile limits) { s with mount := [], names := [], nodes := [] }
  s.names.forM (checkCollision s.names)
  return s

/-- An entrypoint is one of the files. -/
def checkEntrypoint (sourceNames : List JsString) (path : JsString) : Except TypeError Unit :=
  if path ∉ sourceNames then .error (typeErrorAt "entrypoint is not in files: " path) else .ok ()

/-- A root is a directory that some file implies. -/
def checkRoot (message : String) (directories : List JsString) (root : JsString) :
    Except TypeError Unit :=
  if root ≠ [] ∧ root ∉ directories then .error (typeErrorAt message root) else .ok ()

/-- A check that fails on a condition. -/
def rejectIf (condition : Bool) (message : String) : Except TypeError Unit :=
  if condition then .error (typeError message) else .ok ()

/-- Every synchronous check for a compile, in one place. -/
def validateCompile (limits : Limits) (supplied : List Language) (input : CompileRequest) :
    Except TypeError CompileJob := do
  let generators ← validateGenerators supplied input.generators
  let importPaths := input.importPaths.getD []
  rejectIf (limits.workspaceEntries < importPaths.length)
    "import root count exceeds workspaceEntries limit"
  let sourcePrefix := input.sourcePrefix.getD []
  ((sourcePrefix :: importPaths).filter (· ≠ [])).forM (checkPath limits)
  rejectIf (repeats importPaths) "duplicate importPaths"
  rejectIf (input.entrypoints.length = 0) "at least one entrypoint is required"
  rejectIf (limits.workspaceEntries < input.entrypoints.length)
    "entrypoint count exceeds workspaceEntries limit"
  input.entrypoints.forM (checkPath limits)
  rejectIf (repeats input.entrypoints) "duplicate entrypoints"
  let s ← scanMount limits input.files ⟨[], [], [], 0, 0⟩
  let sourceDirectories := s.nodes.filter fun node => node ∉ s.names
  let t ← scanMount limits (input.includeFiles.getD []) s
  input.entrypoints.forM (checkEntrypoint s.names)
  importPaths.forM (checkRoot "importPath is not a directory in files: " sourceDirectories)
  checkRoot "sourcePrefix is not a directory in files: " sourceDirectories sourcePrefix
  return {
    sources := s.mount, annotations := t.mount, entrypoints := input.entrypoints,
    importPaths := importPaths, sourcePrefix := sourcePrefix, generators := generators }

/-- A request for sources from a schema that is compiled already. -/
structure GenerationRequest where
  request : List UInt8
  generators : List JsString

/-- The job it is validated to. -/
structure GenerateJob where
  request : List UInt8
  generators : List JsString

/-- The generators, then the size of the schema. -/
def validateGenerate (limits : Limits) (supplied : List Language) (input : GenerationRequest) :
    Except TypeError GenerateJob := do
  let generators ← validateGenerators supplied input.generators
  rejectIf (generators.length = 0) "at least one generator is required"
  rejectIf (input.request.length = 0)
    "request must contain unpacked CodeGeneratorRequest bytes"
  rejectIf (limits.requestBytes < input.request.length) "request exceeds requestBytes limit"
  return ⟨input.request, generators⟩

end TsSdk
