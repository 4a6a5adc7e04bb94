import CapnpcWasm.TsSdk.Protocol

/-!
# The files of a command

The in-memory filesystem a guest works on: inodes that directories refer to by name, so
that a file may have several names or none.  `collectFiles` reads the files a generator
left, and rejects a tree that is over a budget, has a bad name or is no tree.
-/

namespace TsSdk

open Sdk

abbrev Bytes := List UInt8

abbrev InodeId := Nat

inductive Inode where
  | file (data : Bytes) (readonly : Bool)
  /-- The entries of the map, in insertion order. -/
  | directory (contents : List (JsString × InodeId))
  | other
deriving DecidableEq, Repr

structure Filesystem where
  inodes : List Inode
deriving DecidableEq, Repr

/-! ## Errors of the host -/

section

variable {N : Type}

def newError (message : JsString) : Thrown N := .error ⟨.other (text "Error"), message, none⟩

/-- `new LimitError(limit)`. -/
def limitError (limit : Limit) : Thrown N :=
  .error ⟨.limit limit, text (limit.name ++ " resource limit exceeded"), none⟩

def TypeError.thrown (e : TypeError) : Thrown N := .error ⟨.type (text "TypeError"), e.message, none⟩

end

/-! ## Names -/

def hexDigit (n : Nat) : UInt16 := UInt16.ofNat (if n < 10 then 48 + n else 87 + n)

/-- A code unit inside a JSON string.  `low` says whether a low surrogate follows, and
`paired` whether a high one came before. -/
def jsonUnit (u : UInt16) (low paired : Bool) : JsString :=
  if u = 8 then text "\\b" else if u = 9 then text "\\t" else if u = 10 then text "\\n"
  else if u = 12 then text "\\f" else if u = 13 then text "\\r"
  else if u = 34 then [92, 34] else if u = 92 then [92, 92]
  else if u < 32 ∨ (Text.isHigh u ∧ ¬low) ∨ (Text.isLow u ∧ ¬paired) then
    [92, 117, hexDigit (u.toNat / 4096), hexDigit (u.toNat / 256 % 16),
      hexDigit (u.toNat / 16 % 16), hexDigit (u.toNat % 16)]
  else [u]

def jsonUnits (paired : Bool) : JsString → JsString
  | [] => []
  | u :: s =>
      jsonUnit u ((s.head?).any Text.isLow) paired ++
        jsonUnits (Text.isHigh u && (s.head?).any Text.isLow) s

/-- `JSON.stringify` of a string. -/
def jsonString (s : JsString) : JsString := [34] ++ jsonUnits false s ++ [34]

/-- Rejects names that the filesystem cannot hold as one path segment. -/
def checkName {N : Type} (name : JsString) : Except (Thrown N) Unit :=
  if name = [] ∨ name = text "." ∨ name = text ".." ∨ name.any (fun u => u = 92 ∨ u = 47 ∨ u = 0) then
    .error (newError (text "invalid filesystem entry name: " ++ jsonString name))
  else .ok ()

/-! ## The files a generator left -/

/-- A walk over the directories: those still to read, the last one first, and what was
read so far. -/
structure Collecting where
  pending : List (InodeId × JsString)
  visited : List InodeId
  selected : List (JsString × Bytes)
  bytes : Nat
  entries : Nat

section

variable {N : Type} (limits : Limits) (fs : Filesystem)

/-- One entry of the directory at `above`. -/
def collectEntry (above : JsString) (c : Collecting) (entry : JsString × InodeId) :
    Except (Thrown N) Collecting := do
  checkName entry.1
  let path := above ++ entry.1
  if limits.pathBytes < utf8Size path limits.pathBytes then
    throw (limitError .pathBytes)
  (checkPath limits path).mapError TypeError.thrown
  let c := { c with entries := c.entries + 1 }
  if limits.outputEntries < c.entries then
    throw (limitError .outputEntries)
  match fs.inodes[entry.2]? with
  | some (.directory _) => return { c with pending := (entry.2, path ++ text "/") :: c.pending }
  | some (.file data _) =>
      let c := { c with bytes := c.bytes + data.length }
      if limits.outputBytes < c.bytes then
        throw (limitError .outputBytes)
      return { c with selected := c.selected ++ [(path, data)] }
  | _ => throw (newError (text "unsupported generated filesystem entry: " ++ path))

def contentsOf (id : InodeId) : List (JsString × InodeId) :=
  match fs.inodes[id]? with
  | some (.directory contents) => contents
  | _ => []

/-- Reads the pending directories.  Each is read once, so the number of inodes bounds the
steps. -/
def collectPending : Nat → Collecting → Except (Thrown N) Collecting
  | 0, c => .ok c
  | steps + 1, c =>
      match c.pending with
      | [] => .ok c
      | (id, above) :: pending =>
          if id ∈ c.visited then .error (newError (text "generated directory cycle or alias"))
          else do
            let c := { c with pending := pending, visited := id :: c.visited }
            let c ← (contentsOf fs id).foldlM (collectEntry limits fs above) c
            collectPending steps c

/-- The files below a directory, by path. -/
def collectFiles (root : InodeId) : Except (Thrown N) (List (JsString × Bytes)) := do
  let c ← collectPending limits fs (fs.inodes.length + 1) ⟨[(root, [])], [], [], 0, 0⟩
  return c.selected

end

/-! ## Text of a stream -/

/-- A UTF-8 sequence under way: the bytes still needed, the code point so far, and the
bounds of the next byte. -/
structure Pending where
  needed : Nat
  point : Nat
  lower : Nat
  upper : Nat

/-- The first byte of a sequence. -/
def firstByte (b : Nat) : List Char × Option Pending :=
  if b ≤ 0x7f then ([Char.ofNat b], none)
  else if 0xc2 ≤ b ∧ b ≤ 0xdf then ([], some ⟨1, b % 32, 0x80, 0xbf⟩)
  else if 0xe0 ≤ b ∧ b ≤ 0xef then
    ([], some ⟨2, b % 16, if b = 0xe0 then 0xa0 else 0x80, if b = 0xed then 0x9f else 0xbf⟩)
  else if 0xf0 ≤ b ∧ b ≤ 0xf4 then
    ([], some ⟨3, b % 8, if b = 0xf0 then 0x90 else 0x80, if b = 0xf4 then 0x8f else 0xbf⟩)
  else ([Char.ofNat 0xfffd], none)

/-- A UTF-8 decoder that replaces what is not well formed. -/
def decodeBytes : Option Pending → List UInt8 → List Char
  | none, [] => []
  | some _, [] => [Char.ofNat 0xfffd]
  | none, b :: bytes =>
      let (chars, pending) := firstByte b.toNat
      chars ++ decodeBytes pending bytes
  | some p, b :: bytes =>
      if p.lower ≤ b.toNat ∧ b.toNat ≤ p.upper then
        let point := p.point * 64 + b.toNat % 64
        if p.needed = 1 then Char.ofNat point :: decodeBytes none bytes
        else decodeBytes (some ⟨p.needed - 1, point, 0x80, 0xbf⟩) bytes
      else
        let (chars, pending) := firstByte b.toNat
        Char.ofNat 0xfffd :: chars ++ decodeBytes pending bytes

/-- `new TextDecoder().decode(bytes)`, which leaves out a byte order mark. -/
def decodeText (bytes : Bytes) : JsString :=
  let chars := decodeBytes none bytes
  Text.utf16 (if chars.head? = some (Char.ofNat 0xfeff) then chars.tail else chars)

example : decodeText [0xef, 0xbb, 0xbf, 0x41, 0xe2, 0x82, 0x42] = [0x41, 0xfffd, 0x42] := by
  decide +kernel

end TsSdk
