import CapnpcWasm.Launcher.Arguments
import CapnpcWasm.Launcher.Walk
import Mathlib.Data.Rat.Defs

/-!
# Release manifests

The manifest of a package as a JSON value, and what its two verifiers ask of its form: the
launcher's `verifyPackage` and the release script's `verifyRelease`.
-/

namespace Launcher

/-! ## JSON values -/

/-- A parsed value.  A number too large for any double is infinite. -/
inductive Json where
  | null
  | bool (b : Bool)
  | number (n : Rat)
  | infinity (negative : Bool)
  | string (s : Str)
  | array (items : List Json)
  | object (fields : List (Str × Json))

namespace Json

/-- `value?.key` of a value that has no key but those of an object; `none` is `undefined`. -/
def get? (key : Str) : Json → Option Json
  | object fields => fields.lookup key
  | _ => none

/-- `===` of two parsed values.  Objects and arrays of different values are never the same. -/
def same : Option Json → Option Json → Bool
  | none, none => true
  | some null, some null => true
  | some (bool b), some (bool b') => b == b'
  | some (number n), some (number n') => n == n'
  | some (infinity negative), some (infinity negative') => negative == negative'
  | some (string s), some (string s') => s == s'
  | _, _ => false

def truthy : Option Json → Bool
  | none => false
  | some null => false
  | some (bool b) => b
  | some (number n) => n != 0
  | some (string s) => s != []
  | _ => true

/-- `Number.isSafeInteger(value) && value >= 0`, with the integer. -/
def safeNatural : Option Json → Option Nat
  | some (number n) =>
      if n.den = 1 ∧ 0 ≤ n.num ∧ n.num ≤ 9007199254740991 then some n.num.toNat else none
  | _ => none

end Json

/-! ## What the verifiers read -/

/-- An error of a verification: one it throws itself, or one of the host. -/
inductive VerifyError where
  | message (text : Str)
  | host (text : Str)
deriving DecidableEq, Repr

/-- What the verifiers use of the host.  `parse` refuses text that is not UTF-8, `parseText` reads it
somehow, and both give the same value where both give one. -/
structure VerifyHost where
  parse : List UInt8 → Except Str Json
  parseText : List UInt8 → Except Str Json
  agree : ∀ raw value value', parse raw = .ok value → parseText raw = .ok value' → value = value'
  sha256 : List UInt8 → Str
  /-- `String(value)`. -/
  toText : Option Json → Str
  toText_string : ∀ s, toText (some (.string s)) = s
  /-- What reading through a link, or something that is no file, gives. -/
  linked : Place → Except Str (List UInt8)
  /-- Why a file cannot be read, or a value has no fields. -/
  failure : Str

section

variable (host : VerifyHost)

def hostError {A : Type} (result : Except Str A) : Except VerifyError A := result.mapError .host

/-- `Deno.readFile`. -/
def readFile (t : HostTree) (p : Place) : Except VerifyError (List UInt8) :=
  match t.lstat p with
  | some ⟨.file data, _⟩ => .ok data
  | some ⟨.directory, _⟩ => .error (.host host.failure)
  | some _ => hostError (host.linked p)
  | none =>
      if p.inits.any fun q => (t.lstat q).any Entry.isSymlink then hostError (host.linked p)
      else .error (.host host.failure)

/-! ## The form of a manifest -/

structure ListedFile where
  path : Str
  bytes : Nat
  sha256 : Str
deriving DecidableEq, Repr

/-- `/^[0-9a-f]{64}$/`. -/
def isDigest (s : Str) : Bool :=
  s.length == 64 && s.all fun u => (48 ≤ u && u ≤ 57) || (97 ≤ u && u ≤ 102)

def isPackagePath (path : Str) : Bool :=
  !path.contains backslash && !path.contains 0 &&
    !(path.splitOn slash).any fun part => part == [] || part == dot || part == dotdot

def manifestFile : Str := text "manifest.json"

/-- One entry of `verifyPackage`'s manifest, after the paths before it. -/
def readEntry (found : List Str × List ListedFile) (entry : Json) :
    Except VerifyError (List Str × List ListedFile) :=
  match entry.get? (text "path") with
  | some (.string path) =>
      if !isPackagePath path || found.1.contains path then
        .error (.message (text "invalid or duplicate manifest path"))
      else match Json.safeNatural (entry.get? (text "bytes")), entry.get? (text "sha256") with
        | some bytes, some (.string digest) =>
            if isDigest digest then .ok (found.1 ++ [path], found.2 ++ [⟨path, bytes, digest⟩])
            else .error (.message (text "invalid manifest digest: " ++ path))
        | _, _ => .error (.message (text "invalid manifest digest: " ++ path))
  | _ => .error (.message (text "invalid or duplicate manifest path"))

/-- The form of a manifest for `verifyPackage`: the paths it expects, and the files it lists. -/
def readManifest (manifest : Json) : Except VerifyError (List Str × List ListedFile) :=
  match Json.same (manifest.get? (text "format")) (some (.number 1)),
      manifest.get? (text "files") with
  | true, some (.array items) => items.foldlM readEntry ([manifestFile], [])
  | _, _ => .error (.message (text "invalid release manifest"))

/-- An entry for `verifyRelease`, whose digest may be any value with the text of one. -/
structure ReleaseFile where
  path : Str
  bytes : Nat
  sha256 : Option Json

/-- One entry of `verifyRelease`'s manifest. -/
def readReleaseEntry (found : List Str × List ReleaseFile) (entry : Json) :
    Except VerifyError (List Str × List ReleaseFile) :=
  match entry with
  | .null => .error (.host host.failure)
  | entry =>
      match entry.get? (text "path") with
      | some (.string path) =>
          if !isPackagePath path || found.1.contains path then
            .error (.message (text "invalid or duplicate manifest path"))
          else match Json.safeNatural (entry.get? (text "bytes")) with
            | some bytes =>
                if isDigest (host.toText (entry.get? (text "sha256"))) then
                  .ok (found.1 ++ [path], found.2 ++ [⟨path, bytes, entry.get? (text "sha256")⟩])
                else .error (.message (text "invalid manifest digest: " ++ path))
            | none => .error (.message (text "invalid manifest digest: " ++ path))
      | _ => .error (.message (text "invalid or duplicate manifest path"))

def isString : Option Json → Bool
  | some (.string _) => true
  | _ => false

def isBool : Option Json → Bool
  | some (.bool _) => true
  | _ => false

/-- The form of a manifest for `verifyRelease`. -/
def readReleaseManifest (manifest : Json) : Except VerifyError (List Str × List ReleaseFile) :=
  match manifest with
  | .null => .error (.host host.failure)
  | manifest =>
      let source := (manifest.get? (text "source")).getD .null
      match Json.same (manifest.get? (text "format")) (some (.number 1)) &&
            Json.truthy (manifest.get? (text "version")) &&
            Json.truthy (source.get? (text "sha256")) &&
            isString (source.get? (text "commit")) && isBool (source.get? (text "dirty")),
          manifest.get? (text "files") with
      | true, some (.array items) => items.foldlM (readReleaseEntry host) ([manifestFile], [])
      | _, _ => .error (.message (text "invalid release manifest"))

end

end Launcher
