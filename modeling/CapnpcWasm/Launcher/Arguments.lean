import CapnpcWasm.Launcher.Paths

/-!
# Path arguments of the compiler

`compilerPathArguments` finds the arguments of a `capnp` command that name host paths, and
`translatePaths` gives them guest paths below one root.
-/

namespace Launcher

def compilerOperations : List Str :=
  [text "compile", text "encode", text "decode", text "eval", text "convert", text "id"]

/-- The first argument that is no option, if it is an operation, with its index. -/
def compilerOperation (args : List Str) : Option (Nat × Str) :=
  match args.findIdx? fun arg => arg == text "--" || !startsWith arg (text "-") with
  | none => none
  | some index =>
      let arg := args.getD index []
      if arg = text "--" then none
      else if arg ∈ compilerOperations then some (index, arg) else none

/-- A path argument: its index, what stands before the path, and whether it names a
directory. -/
structure PathArgument where
  index : Nat
  start : Str
  directory : Bool
deriving DecidableEq, Repr

/-- `arg.split("=")[0] + "="`. -/
def optionStart (arg : Str) : Str := arg.takeWhile (· != 61) ++ [61]

/-- Whether an operation reads a path at a position. -/
def readsPath (operation : Str) (position : Nat) : Bool :=
  operation == text "compile" ||
    ([text "encode", text "decode", text "eval"].contains operation && position == 0) ||
    (operation == text "convert" && position == 1)

/-- The path arguments from an index on.  `options` says whether options are still read. -/
def pathArguments (operation : Str) (options : Bool) (position index : Nat) :
    List Str → List PathArgument
  | [] => []
  | arg :: args =>
      if options && arg == text "--" then
        pathArguments operation false position (index + 1) args
      else if options && [text "-I", text "--import-path", text "--src-prefix"].contains arg then
        match args with
        | [] => []
        | _ :: args =>
            ⟨index + 1, [], true⟩ :: pathArguments operation options position (index + 2) args
      else if options &&
          (startsWith arg (text "--import-path=") || startsWith arg (text "--src-prefix=")) then
        ⟨index, optionStart arg, true⟩ ::
          pathArguments operation options position (index + 1) args
      else if options && startsWith arg (text "-I") then
        ⟨index, text "-I", true⟩ :: pathArguments operation options position (index + 1) args
      else if options && [text "-o", text "--output", text "--segment-size"].contains arg then
        match args with
        | [] => []
        | _ :: args => pathArguments operation options position (index + 2) args
      else if options && startsWith arg (text "-") then
        pathArguments operation options position (index + 1) args
      else if readsPath operation position then
        ⟨index, [], false⟩ :: pathArguments operation options (position + 1) (index + 1) args
      else pathArguments operation options (position + 1) (index + 1) args

/-- Every path argument, without interpreting constant expressions or format names. -/
def compilerPathArguments (args : List Str) : List PathArgument :=
  match compilerOperation args with
  | none => []
  | some (index, operation) =>
      pathArguments operation true 0 (index + 1) (args.drop (index + 1))

/-! ## Translation -/

/-- A launcher failure: an exit status and a message. -/
structure Failure where
  code : Nat
  message : Str
deriving DecidableEq, Repr

structure Translation where
  root : Str
  guestCwd : Str
  args : List Str
deriving DecidableEq, Repr

/-- A path argument with a value. -/
structure HostPath where
  index : Nat
  start : Str
  absolute : Str
deriving DecidableEq, Repr

/-- Adds arguments before the end of the options. -/
def spliceOptions (args added : List Str) : List Str :=
  let stop := args.idxOf (text "--")
  args.take stop ++ added ++ args.drop stop

def containsColons : Str → Bool
  | [] => false
  | u :: s => (u == 58 && s.head? == some 58) || containsColons s

section

variable (lower : Str → Str) (windows : Bool)

/-- The directory of a file. -/
def directoryOf (path : Str) : Str :=
  let parsed := parsePath windows path
  formatPath windows { parsed with parts := parsed.parts.dropLast }

/-- The value of a path argument. -/
def PathArgument.value (args : List Str) (a : PathArgument) : Str :=
  (args.getD a.index []).drop a.start.length

/-- One path argument, after the directories and paths before it. -/
def resolveArgument (args : List Str) (cwd : Str) (found : List Str × List HostPath)
    (a : PathArgument) : Except Failure (List Str × List HostPath) :=
  let value := a.value args
  if value = [] then .ok found
  else if windows && (splitDrive true value).1 != [] && !isAbsolute true value then
    .error ⟨64, text "drive-relative paths are ambiguous; use an absolute path: " ++ value⟩
  else
    let absolute := normalizePath windows (joinPath lower windows cwd value)
    let directory := if a.directory then absolute else directoryOf windows absolute
    .ok (found.1 ++ [directory], found.2 ++ [⟨a.index, a.start, absolute⟩])

/-- Translates every path argument to a guest path below the deepest common directory. -/
def translatePaths (args : List Str) (cwd : Str) (includes : Option Str) :
    Except Failure Translation := do
  let cwd := normalizePath windows cwd
  let args := match includes with
    | none => args
    | some path => spliceOptions args [text "--no-standard-import", text "-I" ++ path]
  let (roots, paths) ← (compilerPathArguments args).foldlM (resolveArgument lower windows args cwd)
    ([cwd], [])
  match commonPath lower windows roots with
  | none =>
      .error ⟨64, text ("schema and include paths must be on the current directory's volume; " ++
        "copy those inputs there first")⟩
  | some root =>
      if containsColons root then
        .error ⟨64, text "filesystem path cannot contain ::: " ++ root⟩
      else
        let guestCwd := guestPath windows cwd root
        let result := paths.foldl
          (fun result p => result.set p.index (p.start ++ guestPath windows p.absolute root)) args
        let covering := paths.filter fun p => p.start == text "--src-prefix=" ||
          (p.start == [] && 0 < p.index && args.getD (p.index - 1) [] == text "--src-prefix")
        if (compilerOperation args).map (·.2) = some (text "compile") ∧ paths ≠ [] ∧
            !covering.any fun p => isWithin lower windows cwd p.absolute then
          return ⟨root, guestCwd, spliceOptions result [text "--src-prefix=" ++ guestCwd]⟩
        else return ⟨root, guestCwd, result⟩

end

end Launcher
