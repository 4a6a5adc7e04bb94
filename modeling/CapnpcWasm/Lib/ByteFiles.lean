import Mathlib.Data.Int.Order.Basic
import Mathlib.Logic.Function.Basic
import Mathlib.Tactic.Common
import Mathlib.Tactic.Ring

/-!
# Byte files

A file is a finite sequence of bytes.  A descriptor refers to a file, with an offset of its own
and the access it was opened with, and several descriptors may refer to one file.  What lies
between the end of a file and an offset beyond it reads as zero once it is part of the file.
-/

namespace ByteFiles

/-! ## Contents -/

/-- The bytes from an offset on, at most `n`.  There are none at or past the end. -/
def readAt (file : List UInt8) (offset n : Nat) : List UInt8 := (file.drop offset).take n

/-- The bytes written over the file at an offset, after zeros where it ended before. -/
def writeAt (file : List UInt8) (offset : Nat) (bytes : List UInt8) : List UInt8 :=
  file.take offset ++ List.replicate (offset - file.length) 0 ++ bytes ++
    file.drop (offset + bytes.length)

/-- The file cut off at a size, or zeros added up to it. -/
def resize (file : List UInt8) (size : Nat) : List UInt8 :=
  file.take size ++ List.replicate (size - file.length) 0

theorem length_resize (file : List UInt8) (size : Nat) : (resize file size).length = size := by
  rw [resize, List.length_append, List.length_take, List.length_replicate]
  omega

theorem resize_zero (file : List UInt8) : resize file 0 = [] := by
  rw [resize, List.take_zero, Nat.zero_sub, List.replicate_zero, List.append_nil]

/-! ## Descriptors -/

structure Descriptor (I : Type) where
  file : I
  offset : Nat
  readable : Bool
  writable : Bool
  append : Bool
  opened : Bool
deriving DecidableEq

inductive Error where
  | badDescriptor
  | invalid
deriving DecidableEq, Repr

inductive Call where
  | read (n : Nat)
  | pread (n : Nat) (offset : Int)
  | write (bytes : List UInt8)
  | pwrite (bytes : List UInt8) (offset : Int)
  | truncate (size : Int)
  | seek (offset whence : Int)
  | setAppend (enable : Bool)
  | close

inductive Reply where
  | done
  | bytes (bytes : List UInt8)
  | count (n : Nat)
  | offset (offset : Nat)
deriving DecidableEq, Repr

section

variable {I : Type} [DecidableEq I]

/-- What a whence counts from. -/
def origin (file : List UInt8) (x : Descriptor I) (whence : Int) : Option Nat :=
  if whence = 0 then some 0
  else if whence = 1 then some x.offset
  else if whence = 2 then some file.length
  else none

/-- One call on a descriptor: the files, the descriptor and the reply afterwards. -/
def call (files : I → List UInt8) (x : Descriptor I) :
    Call → (I → List UInt8) × Descriptor I × Except Error Reply
  | .read n =>
      if x.opened ∧ x.readable then
        let bytes := readAt (files x.file) x.offset n
        (files, { x with offset := x.offset + bytes.length }, .ok (.bytes bytes))
      else (files, x, .error .badDescriptor)
  | .pread n offset =>
      if x.opened ∧ x.readable then
        if offset < 0 then (files, x, .error .invalid)
        else (files, x, .ok (.bytes (readAt (files x.file) offset.toNat n)))
      else (files, x, .error .badDescriptor)
  | .write bytes =>
      if x.opened ∧ x.writable then
        let offset := if x.append then (files x.file).length else x.offset
        (Function.update files x.file (writeAt (files x.file) offset bytes),
          { x with offset := offset + bytes.length }, .ok (.count bytes.length))
      else (files, x, .error .badDescriptor)
  | .pwrite bytes offset =>
      if x.opened ∧ x.writable then
        if offset < 0 then (files, x, .error .invalid)
        else
          (Function.update files x.file (writeAt (files x.file) offset.toNat bytes), x,
            .ok (.count bytes.length))
      else (files, x, .error .badDescriptor)
  | .truncate size =>
      if x.opened ∧ x.writable then
        if size < 0 then (files, x, .error .invalid)
        else (Function.update files x.file (resize (files x.file) size.toNat), x, .ok .done)
      else (files, x, .error .badDescriptor)
  | .seek offset whence =>
      if x.opened then
        match origin (files x.file) x whence with
        | none => (files, x, .error .invalid)
        | some start =>
            if start + offset < 0 then (files, x, .error .invalid)
            else
              (files, { x with offset := (start + offset).toNat },
                .ok (.offset (start + offset).toNat))
      else (files, x, .error .badDescriptor)
  | .setAppend enable =>
      if x.opened then (files, { x with append := enable }, .ok .done)
      else (files, x, .error .badDescriptor)
  | .close => (files, { x with opened := false }, .ok .done)

end

end ByteFiles
