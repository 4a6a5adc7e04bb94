import CapnpcWasm.Lib.Text

/-!
# Host paths of the launcher

Paths in the POSIX and the Windows flavour, as lexical objects: a drive, whether the path
starts at its root, and its parts.  Windows compares drives and parts by their lower case,
which is a parameter here.
-/

namespace Launcher

/-- A JavaScript string. -/
abbrev Str := List UInt16

/-- A string literal of the source. -/
def text (s : String) : Str := Text.utf16 s.toList

def backslash : UInt16 := 92
def slash : UInt16 := 47

/-- `values.join(separator)`. -/
def join (separator : UInt16) (values : List Str) : Str := [separator].intercalate values

/-- `String.startsWith`. -/
def startsWith (s start : Str) : Bool := s.take start.length == start

/-- A path taken apart. -/
structure ParsedPath where
  /-- "C:" or "\\server\share" on Windows, empty otherwise. -/
  drive : Str
  rooted : Bool
  parts : List Str
deriving DecidableEq, Repr

/-! ## Drives -/

/-- A drive is a letter and a colon. -/
def isLetter (u : UInt16) : Bool := (65 ≤ u && u ≤ 90) || (97 ≤ u && u ≤ 122)

/-- Only ASCII letters are raised. -/
def upper (u : UInt16) : UInt16 := if 97 ≤ u ∧ u ≤ 122 then u - 32 else u

/-- `/^[A-Za-z]:/`. -/
def startsWithDrive : Str → Bool
  | letter :: colon :: _ => isLetter letter && colon == 58
  | _ => false

/-- `\\?\`. -/
def verbatim : Str := [92, 92, 63, 92]

/-- Strips Windows' verbatim start, once. -/
def stripVerbatim (path : Str) : Str :=
  if startsWith path verbatim && ((path.drop 4).take 4).map upper == text "UNC\\" then
    [backslash, backslash] ++ path.drop 8
  else if startsWith path verbatim && startsWithDrive (path.drop 4) then path.drop 4
  else path

/-- What a server or a share is made of. -/
def isPart (u : UInt16) : Bool := u != backslash

/-- `/^\\\\[^\\]+\\[^\\]+/`, with the rest of the string. -/
def uncDrive : Str → Option (Str × Str)
  | 92 :: 92 :: value =>
      match value.dropWhile isPart with
      | [] => none
      | _ :: rest =>
          if value.takeWhile isPart ≠ [] ∧ rest.takeWhile isPart ≠ [] then
            some ([92, 92] ++ value.takeWhile isPart ++ 92 :: rest.takeWhile isPart,
              rest.dropWhile isPart)
          else none
  | _ => none

/-- `path.replaceAll("/", "\\")`. -/
def withBackslashes (path : Str) : Str := path.map fun u => if u = slash then backslash else u

section

variable (lower : Str → Str) (windows : Bool)

/-- The drive of a Windows path, a letter or a share, and what follows it. -/
def splitDrive (path : Str) : Str × Str :=
  if windows then
    let value := withBackslashes (stripVerbatim path)
    match uncDrive value with
    | some (drive, rest) => (drive, rest)
    | none => if startsWithDrive value then (value.take 2, value.drop 2) else ([], value)
  else ([], path)

/-! ## Parsing -/

def dot : Str := [46]
def dotdot : Str := [46, 46]

/-- What a path is written with. -/
def separator : UInt16 := if windows then backslash else slash

/-- One part of a path, after the parts before it. -/
def addPart (rooted : Bool) (parts : List Str) (part : Str) : List Str :=
  if part = [] ∨ part = dot then parts
  else if part = dotdot then
    if parts ≠ [] ∧ parts.getLast? ≠ some dotdot then parts.dropLast
    else if !rooted then parts ++ [dotdot]
    else parts
  else parts ++ [part]

/-- The parts of a path, with `.` dropped and `..` taken back. -/
def parsePath (path : Str) : ParsedPath :=
  let (drive, rest) := splitDrive windows path
  let rooted :=
    if windows then startsWith drive [backslash, backslash] || startsWith rest [backslash]
    else startsWith rest [slash]
  { drive := drive, rooted := rooted
    parts := (rest.splitOn (separator windows)).foldl (addPart rooted) [] }

/-- A parsed path, written out. -/
def formatPath (parsed : ParsedPath) : Str :=
  let root := parsed.drive ++ if parsed.rooted then [separator windows] else []
  let path := root ++ join (separator windows) parsed.parts
  if path = [] then dot else path

/-- Whether two parts name the same entry. -/
def samePart (a b : Str) : Bool := if windows then lower a == lower b else a == b

/-- On Windows a root alone is not enough. -/
def isAbsolute (path : Str) : Bool :=
  let parsed := parsePath windows path
  parsed.rooted && (!windows || parsed.drive != [])

/-- A path as it is seen from a base. -/
def joinPath (base path : Str) : Str :=
  if !windows then if startsWith path [slash] then path else base ++ slash :: path
  else
    let (drive, rest) := splitDrive true path
    if drive ≠ [] then
      if isAbsolute true path then path
      else if !samePart lower true drive (splitDrive true base).1 then path
      else base ++ backslash :: rest
    else if startsWith rest [backslash] then (splitDrive true base).1 ++ rest
    else base ++ backslash :: rest

/-- Parsed and written out again. -/
def normalizePath (path : Str) : Str := formatPath windows (parsePath windows path)

/-! ## Directories -/

/-- The length of the longest common start of two lists of parts. -/
def sharedLength : List Str → List Str → Nat
  | part :: parts, other :: others =>
      if samePart lower windows other part then sharedLength parts others + 1 else 0
  | _, _ => 0

/-- The deepest directory holding every path, or none across volumes. -/
def commonPath (paths : List Str) : Option Str :=
  match paths.map (parsePath windows) with
  | [] => none
  | first :: others =>
      let shared (length : Nat) (other : ParsedPath) : Option Nat :=
        if !samePart lower windows other.drive first.drive || other.rooted != first.rooted then none
        else some (sharedLength lower windows (first.parts.take length) other.parts)
      ((first :: others).foldlM shared first.parts.length).map fun length =>
        formatPath windows { first with parts := first.parts.take length }

/-- Every part of the first list is the part of the second one at its place. -/
def startOf : List Str → List Str → Bool
  | [], _ => true
  | part :: parts, other :: others => samePart lower windows part other && startOf parts others
  | _ :: _, [] => false

/-- A path is the root or below it. -/
def isWithin (path root : Str) : Bool :=
  let inner := parsePath windows path
  let outer := parsePath windows root
  samePart lower windows inner.drive outer.drive && inner.rooted == outer.rooted &&
    outer.parts.length ≤ inner.parts.length && startOf lower windows outer.parts inner.parts

/-- The guest path of a host path inside a root, which is guest /. -/
def guestPath (path root : Str) : Str :=
  slash :: join slash ((parsePath windows path).parts.drop (parsePath windows root).parts.length)

end

example : normalizePath true (text "\\\\?\\UNC\\server\\share/a/../b/.") =
    text "\\\\server\\share\\b" := by decide +kernel

end Launcher
