import CapnpcWasm.Lib.LinearMemory
import CapnpcWasm.TsSdk.Descriptors

/-!
# Vectored reads and writes

`boundWasiIO` replaces the imports that take arrays of buffers in guest memory.  Each buffer is
handed to an operation of the descriptor, which is a parameter: it transfers some bytes and says
how many.
-/

namespace TsSdk

open Sdk Slots LinearMemory

variable {N W D : Type}

/-! ## Descriptors -/

def errnoBadf : Errno := 8

/-- The operations of a descriptor, over the world of the shim. -/
structure VectorShim (N W D : Type) where
  fds : W → Table D
  fdWrite : D → Bytes → W → W × Except (Thrown N) (Errno × Nat)
  fdPwrite : D → Bytes → Int → W → W × Except (Thrown N) (Errno × Nat)
  fdRead : D → Nat → W → W × Except (Thrown N) (Errno × Bytes)
  fdPread : D → Nat → Int → W → W × Except (Thrown N) (Errno × Bytes)

section

variable (shim : VectorShim N W D)

/-- One part of a write: at the position of the descriptor, or at an offset. -/
def VectorShim.write (d : D) (offset : Option Int) (data : Bytes) :
    W → W × Except (Thrown N) (Errno × Nat) :=
  match offset with
  | none => shim.fdWrite d data
  | some offset => shim.fdPwrite d data offset

/-- One part of a read. -/
def VectorShim.read (d : D) (offset : Option Int) (length : Nat) :
    W → W × Except (Thrown N) (Errno × Bytes) :=
  match offset with
  | none => shim.fdRead d length
  | some offset => shim.fdPread d length offset

/-! ## The imports -/

/-- What a call leaves: guest memory, the world, and its answer.  `none` is an access outside
guest memory. -/
abbrev Called (N W : Type) := Option (Memory × W × Except (Thrown N) Errno)

/-- The loop of a write over the iovecs from `index` on. -/
def writeParts (d : D) (pointer result : Nat) :
    Nat → Nat → Option Int → Nat → Memory → W → Called N W
  | 0, _, _, written, m, w => (storeWord m result written).map fun m => (m, w, .ok 0)
  | more + 1, index, offset, written, m, w =>
      (loadWord m (pointer + index * 8)).bind fun address =>
      (loadWord m (pointer + index * 8 + 4)).bind fun length =>
      if m.length < address + length then some (m, w, .ok errnoInval)
      else (load m address length).bind fun data =>
        match shim.write d offset data w with
        | (w, .error thrown) => some (m, w, .error thrown)
        | (w, .ok (ret, nwritten)) =>
            (storeWord m result (written + nwritten)).bind fun m =>
            if ret ≠ 0 ∨ nwritten ≠ length then some (m, w, .ok ret)
            else writeParts d pointer result more (index + 1)
              (offset.map fun offset => offset + nwritten) (written + nwritten) m w

/-- The loop of a read over the iovecs from `index` on. -/
def readParts (d : D) (pointer result : Nat) :
    Nat → Nat → Option Int → Nat → Memory → W → Called N W
  | 0, _, _, total, m, w => (storeWord m result total).map fun m => (m, w, .ok 0)
  | more + 1, index, offset, total, m, w =>
      (loadWord m (pointer + index * 8)).bind fun address =>
      (loadWord m (pointer + index * 8 + 4)).bind fun length =>
      if m.length < address + length then some (m, w, .ok errnoInval)
      else
        match shim.read d offset length w with
        | (w, .error thrown) => some (m, w, .error thrown)
        | (w, .ok (ret, data)) =>
            if ret ≠ 0 then (storeWord m result total).map fun m => (m, w, .ok ret)
            else
              (store m address data).bind fun m =>
              if data.length ≠ length then
                (storeWord m result (total + data.length)).map fun m => (m, w, .ok 0)
              else readParts d pointer result more (index + 1)
                (offset.map fun offset => offset + data.length) (total + data.length) m w

/-- What both kinds of calls check first. -/
def vectored (parts : D → Nat → Nat → Nat → Memory → W → Called N W) (fd : Int32)
    (pointer count result : UInt32) (m : Memory) (w : W) : Called N W :=
  match descriptor (shim.fds w) fd with
  | none => some (m, w, .ok errnoBadf)
  | some d =>
      if m.length < pointer.toNat + count.toNat * 8 ∨ m.length < result.toNat + 4 then
        some (m, w, .ok errnoInval)
      else parts d pointer.toNat result.toNat count.toNat m w

def write (fd : Int32) (pointer count result : UInt32) (offset : Option Int) :
    Memory → W → Called N W :=
  vectored shim (fun d pointer result count => writeParts shim d pointer result count 0 offset 0)
    fd pointer count result

def read (fd : Int32) (pointer count result : UInt32) (offset : Option Int) :
    Memory → W → Called N W :=
  vectored shim (fun d pointer result count => readParts shim d pointer result count 0 offset 0)
    fd pointer count result

def fd_write (fd : Int32) (pointer count result : UInt32) : Memory → W → Called N W :=
  write shim fd pointer count result none

def fd_pwrite (fd : Int32) (pointer count : UInt32) (offset : Int64) (result : UInt32) :
    Memory → W → Called N W :=
  write shim fd pointer count result (some offset.toInt)

def fd_read (fd : Int32) (pointer count result : UInt32) : Memory → W → Called N W :=
  read shim fd pointer count result none

def fd_pread (fd : Int32) (pointer count : UInt32) (offset : Int64) (result : UInt32) :
    Memory → W → Called N W :=
  read shim fd pointer count result (some offset.toInt)

end

/-! ## Staying inside memory -/

section

variable {shim : VectorShim N W D} {d : D} {pointer result : Nat}

/-- No read of the shim gives more than it was asked for. -/
def VectorShim.ReadsBounded (shim : VectorShim N W D) : Prop :=
  ∀ d offset length w w' ret data, shim.read d offset length w = (w', .ok (ret, data)) →
    data.length ≤ length

theorem writeParts_isSome {more index written : Nat} {offset : Option Int} {m : Memory} {w : W}
    (hin : pointer + (index + more) * 8 ≤ m.length) (hresult : result + 4 ≤ m.length) :
    (writeParts shim d pointer result more index offset written m w).isSome := by
  induction more generalizing index offset written m w with
  | zero =>
      obtain ⟨m', hm', -⟩ := storeWord_isSome hresult written
      rw [writeParts, hm']
      rfl
  | succ more ih =>
      obtain ⟨address, haddress⟩ : ∃ address, loadWord m (pointer + index * 8) = some address :=
        loadWord_isSome (by omega)
      obtain ⟨length, hlength⟩ : ∃ length, loadWord m (pointer + index * 8 + 4) = some length :=
        loadWord_isSome (by omega)
      rw [writeParts, haddress, Option.bind_some, hlength, Option.bind_some]
      split
      · rfl
      · next hrange =>
        rw [load, if_pos (Nat.le_of_not_lt hrange), Option.bind_some]
        split
        · rfl
        · next w' ret nwritten hpart =>
          obtain ⟨m', hm', hsize⟩ := storeWord_isSome hresult (written + nwritten)
          rw [hm', Option.bind_some]
          split
          · rfl
          · exact ih (by omega) (by omega)

theorem readParts_isSome (hshim : shim.ReadsBounded) {more index total : Nat} {offset : Option Int}
    {m : Memory} {w : W} (hin : pointer + (index + more) * 8 ≤ m.length)
    (hresult : result + 4 ≤ m.length) :
    (readParts shim d pointer result more index offset total m w).isSome := by
  induction more generalizing index offset total m w with
  | zero =>
      obtain ⟨m', hm', -⟩ := storeWord_isSome hresult total
      rw [readParts, hm']
      rfl
  | succ more ih =>
      obtain ⟨address, haddress⟩ : ∃ address, loadWord m (pointer + index * 8) = some address :=
        loadWord_isSome (by omega)
      obtain ⟨length, hlength⟩ : ∃ length, loadWord m (pointer + index * 8 + 4) = some length :=
        loadWord_isSome (by omega)
      rw [readParts, haddress, Option.bind_some, hlength, Option.bind_some]
      split
      · rfl
      · next hrange =>
        split
        · rfl
        · next w' ret data hpart =>
          have hdata := hshim _ _ _ _ _ _ _ hpart
          split
          · obtain ⟨m', hm', -⟩ := storeWord_isSome hresult total
            rw [hm']
            rfl
          · obtain ⟨m₁, hm₁⟩ : ∃ m₁, store m address data = some m₁ := store_isSome (by omega)
            have hsize := length_store hm₁
            rw [hm₁, Option.bind_some]
            split
            · obtain ⟨m', hm', -⟩ := @storeWord_isSome m₁ result (by omega) (total + data.length)
              rw [hm']
              rfl
            · exact ih (by omega) (by omega)

theorem write_isSome (fd : Int32) (pointer count result : UInt32) (offset : Option Int) (m : Memory)
    (w : W) : (write shim fd pointer count result offset m w).isSome := by
  rw [write, vectored]
  split
  · rfl
  · split
    · rfl
    · next hrange =>
      push Not at hrange
      exact writeParts_isSome (by rw [Nat.zero_add]; exact hrange.1) hrange.2

theorem read_isSome (hshim : shim.ReadsBounded) (fd : Int32) (pointer count result : UInt32)
    (offset : Option Int) (m : Memory) (w : W) :
    (read shim fd pointer count result offset m w).isSome := by
  rw [read, vectored]
  split
  · rfl
  · split
    · rfl
    · next hrange =>
      push Not at hrange
      exact readParts_isSome hshim (by rw [Nat.zero_add]; exact hrange.1) hrange.2

end

/-! ## Sequential transfers -/

/-- What one part of a call did: it moved some bytes, or it ended the call with none. -/
inductive Part (N : Type) where
  | moved (ret : Errno) (bytes : Bytes)
  | refused (answer : Except (Thrown N) Errno)

def writePart (shim : VectorShim N W D) (d : D) (offset : Option Int) (data : Bytes) (w : W) :
    W × Part N :=
  match shim.write d offset data w with
  | (w, .error thrown) => (w, .refused (.error thrown))
  | (w, .ok (ret, nwritten)) => (w, .moved ret (data.take nwritten))

def readPart (shim : VectorShim N W D) (d : D) (offset : Option Int) (length : Nat) (w : W) :
    W × Part N :=
  match shim.read d offset length w with
  | (w, .error thrown) => (w, .refused (.error thrown))
  | (w, .ok (ret, data)) => (w, if ret ≠ 0 then .refused (.ok ret) else .moved 0 data)

/-- `Sequential part size parts offset w bytes reached final answer`: the parts are transferred in
order and at consecutive offsets, up to the first short or failed one.  They move `bytes`, which
leads to the world `reached`, and end in the world `final`. -/
inductive Sequential {P : Type} (part : Option Int → P → W → W × Part N) (size : P → Nat) :
    List P → Option Int → W → Bytes → W → W → Except (Thrown N) Errno → Prop where
  | done {offset : Option Int} {w : W} : Sequential part size [] offset w [] w w (.ok 0)
  | refused {offset : Option Int} {w w' : W} {p : P} {parts : List P}
      {answer : Except (Thrown N) Errno} : part offset p w = (w', .refused answer) →
      Sequential part size (p :: parts) offset w [] w w' answer
  | stopped {offset : Option Int} {w w' : W} {p : P} {parts : List P} {ret : Errno} {bytes : Bytes} :
      part offset p w = (w', .moved ret bytes) → ret ≠ 0 ∨ bytes.length ≠ size p →
      Sequential part size (p :: parts) offset w bytes w' w' (.ok ret)
  | next {offset : Option Int} {w w₁ reached final : W} {p : P} {parts : List P}
      {bytes more : Bytes} {answer : Except (Thrown N) Errno} :
      part offset p w = (w₁, .moved 0 bytes) → bytes.length = size p →
      Sequential part size parts (offset.map fun offset => offset + bytes.length) w₁ more reached
        final answer →
      Sequential part size (p :: parts) offset w (bytes ++ more) reached final answer

/-- What moving some bytes at an offset does to the world, one piece after the other. -/
structure Composes (Moves : Option Int → Bytes → W → W → Prop) : Prop where
  nil : ∀ offset w, Moves offset [] w w
  append : ∀ offset bytes more w w₁ w₂, Moves offset bytes w w₁ →
    Moves (offset.map fun offset => offset + bytes.length) more w₁ w₂ →
    Moves offset (bytes ++ more) w w₂

/-- A write of the descriptor transfers a prefix of its buffer and reports its length. -/
def VectorShim.WritesPrefix (shim : VectorShim N W D) (d : D)
    (Wrote : Option Int → Bytes → W → W → Prop) : Prop :=
  ∀ offset data w w' ret nwritten, shim.write d offset data w = (w', .ok (ret, nwritten)) →
    nwritten ≤ data.length ∧ Wrote offset (data.take nwritten) w w'

/-- A read of the descriptor gives no more than it was asked for. -/
def VectorShim.ReadsPrefix (shim : VectorShim N W D) (d : D)
    (Gave : Option Int → Bytes → W → W → Prop) : Prop :=
  ∀ offset length w w' ret data, shim.read d offset length w = (w', .ok (ret, data)) →
    data.length ≤ length ∧ Gave offset data w w'

section

variable {P : Type} {part : Option Int → P → W → W × Part N} {size : P → Nat} {parts : List P}
  {offset : Option Int} {w reached final : W} {bytes : Bytes} {answer : Except (Thrown N) Errno}
  {Moves : Option Int → Bytes → W → W → Prop}

/-- Moving the parts moves the bytes of all of them. -/
theorem Sequential.moves (hmoves : Composes Moves)
    (hpart : ∀ offset p w w' ret bytes, part offset p w = (w', .moved ret bytes) →
      Moves offset bytes w w')
    (h : Sequential part size parts offset w bytes reached final answer) :
    Moves offset bytes w reached := by
  induction h with
  | done => exact hmoves.nil _ _
  | refused _ => exact hmoves.nil _ _
  | stopped hone _ => exact hpart _ _ _ _ _ _ hone
  | next hone _ _ ih => exact hmoves.append _ _ _ _ _ _ (hpart _ _ _ _ _ _ hone) ih

/-- A transfer that ends with 0 has not been refused. -/
theorem Sequential.reached_eq
    (hpart : ∀ offset p w w' answer, part offset p w = (w', .refused answer) → answer ≠ .ok 0)
    (h : Sequential part size parts offset w bytes reached final answer) (hok : answer = .ok 0) :
    reached = final := by
  induction h with
  | done => rfl
  | refused hone => exact absurd hok (hpart _ _ _ _ _ hone)
  | stopped _ _ => rfl
  | next _ _ _ ih => exact ih hok

/-- The bytes of a write are a prefix of its buffers. -/
theorem Sequential.prefix_flatten {parts : List Bytes} {part : Option Int → Bytes → W → W × Part N}
    (hpart : ∀ offset data w w' ret bytes, part offset data w = (w', .moved ret bytes) →
      bytes <+: data)
    (h : Sequential part List.length parts offset w bytes reached final answer) :
    bytes <+: parts.flatten := by
  induction h with
  | done => exact List.nil_prefix
  | refused _ => exact List.nil_prefix
  | stopped hone _ => exact (hpart _ _ _ _ _ _ hone).trans (List.prefix_append _ _)
  | next hone hlength _ ih =>
      obtain rfl := (hpart _ _ _ _ _ _ hone).eq_of_length hlength
      exact (List.prefix_append_right_inj _).mpr ih

/-- The bytes of a read fit in its buffers. -/
theorem Sequential.length_le {parts : List Nat} {part : Option Int → Nat → W → W × Part N}
    (hpart : ∀ offset length w w' ret bytes, part offset length w = (w', .moved ret bytes) →
      bytes.length ≤ length)
    (h : Sequential part id parts offset w bytes reached final answer) :
    bytes.length ≤ parts.sum := by
  induction h with
  | done => exact Nat.zero_le _
  | refused _ => exact Nat.zero_le _
  | stopped hone _ =>
      rw [List.sum_cons]
      exact (hpart _ _ _ _ _ _ hone).trans (Nat.le_add_right _ _)
  | next hone _ _ ih =>
      rw [List.sum_cons, List.length_append]
      exact Nat.add_le_add (hpart _ _ _ _ _ _ hone) ih

end

/-! ## The iovecs of a call -/

/-- The iovecs from `index` on, as guest memory has them. -/
def iovecs (m : Memory) (pointer : Nat) : Nat → Nat → Option (List (Nat × Nat))
  | 0, _ => some []
  | more + 1, index =>
      (loadWord m (pointer + index * 8)).bind fun address =>
      (loadWord m (pointer + index * 8 + 4)).bind fun length =>
      (iovecs m pointer more (index + 1)).map fun vs => (address, length) :: vs

/-- What a buffer holds. -/
def buffer (m : Memory) (v : Nat × Nat) : Bytes := (load m v.1 v.2).getD []

section

variable {m m' : Memory} {pointer more index : Nat} {ranges vs : List (Nat × Nat)} {v : Nat × Nat}

theorem iovecs_agree (h : Agree ranges m m')
    (hapart : ∀ r ∈ ranges, Apart (pointer + index * 8) (more * 8) r.1 r.2) :
    iovecs m' pointer more index = iovecs m pointer more index := by
  induction more generalizing index with
  | zero => rfl
  | succ more ih =>
      have haddress : loadWord m' (pointer + index * 8) = loadWord m (pointer + index * 8) :=
        h.loadWord fun r hr => (hapart r hr).part (by omega) (by omega)
      have hlength : loadWord m' (pointer + index * 8 + 4) = loadWord m (pointer + index * 8 + 4) :=
        h.loadWord fun r hr => (hapart r hr).part (by omega) (by omega)
      have hrest := @ih (index + 1) fun r hr => (hapart r hr).part (by omega) (by omega)
      rw [iovecs, iovecs, haddress, hlength, hrest]

theorem iovecs_succ (h : iovecs m pointer (more + 1) index = some vs) :
    ∃ v rest, vs = v :: rest ∧ loadWord m (pointer + index * 8) = some v.1 ∧
      loadWord m (pointer + index * 8 + 4) = some v.2 ∧
      iovecs m pointer more (index + 1) = some rest := by
  rw [iovecs] at h
  obtain ⟨address, haddress, h⟩ := Option.bind_eq_some_iff.mp h
  obtain ⟨length, hlength, h⟩ := Option.bind_eq_some_iff.mp h
  obtain ⟨rest, hrest, rfl⟩ := Option.map_eq_some_iff.mp h
  exact ⟨(address, length), rest, rfl, haddress, hlength, hrest⟩

theorem buffer_agree (h : Agree ranges m m') (hapart : ∀ r ∈ ranges, Apart v.1 v.2 r.1 r.2) :
    buffer m' v = buffer m v := by
  rw [buffer, buffer, h.load hapart]

theorem load_buffer (h : v.1 + v.2 ≤ m.length) : load m v.1 v.2 = some (buffer m v) := by
  rw [buffer, load, if_pos h, Option.getD_some]

theorem length_buffer (h : v.1 + v.2 ≤ m.length) : (buffer m v).length = v.2 :=
  length_load (load_buffer h)

end

/-! ## What a call transfers -/

section

variable {shim : VectorShim N W D} {d : D} {pointer result : Nat}

theorem writePart_moved {Wrote : Option Int → Bytes → W → W → Prop} (h : shim.WritesPrefix d Wrote)
    {offset : Option Int} {data bytes : Bytes} {w w' : W} {ret : Errno}
    (hpart : writePart shim d offset data w = (w', .moved ret bytes)) :
    bytes <+: data ∧ Wrote offset bytes w w' := by
  rw [writePart] at hpart
  split at hpart
  · cases hpart
  · next w₁ ret' nwritten hwrite =>
    cases hpart
    exact ⟨List.take_prefix _ _, (h _ _ _ _ _ _ hwrite).2⟩

theorem writePart_refused {offset : Option Int} {data : Bytes} {w w' : W}
    {answer : Except (Thrown N) Errno}
    (hpart : writePart shim d offset data w = (w', .refused answer)) : answer ≠ .ok 0 := by
  rw [writePart] at hpart
  split at hpart
  · cases hpart
    exact nofun
  · cases hpart

theorem readPart_moved {Gave : Option Int → Bytes → W → W → Prop} (h : shim.ReadsPrefix d Gave)
    {offset : Option Int} {length : Nat} {bytes : Bytes} {w w' : W} {ret : Errno}
    (hpart : readPart shim d offset length w = (w', .moved ret bytes)) :
    bytes.length ≤ length ∧ Gave offset bytes w w' := by
  rw [readPart] at hpart
  split at hpart
  · cases hpart
  · next w₁ ret' data hread =>
    split at hpart
    · cases hpart
    · cases hpart
      exact h _ _ _ _ _ _ hread

theorem readPart_refused {offset : Option Int} {length : Nat} {w w' : W}
    {answer : Except (Thrown N) Errno}
    (hpart : readPart shim d offset length w = (w', .refused answer)) : answer ≠ .ok 0 := by
  rw [readPart] at hpart
  split at hpart
  · cases hpart
    exact nofun
  · split at hpart
    · next hret =>
      cases hpart
      intro heq
      cases heq
      exact hret rfl
    · cases hpart

/-- The loop of a write hands its buffers to the descriptor one after the other, and changes
nothing in memory but the result. -/
theorem writeParts_sequential {Wrote : Option Int → Bytes → W → W → Prop}
    (hshim : shim.WritesPrefix d Wrote) {more index written : Nat} {offset : Option Int} {m : Memory}
    {w : W} {vs : List (Nat × Nat)} (hvs : iovecs m pointer more index = some vs)
    (hin : ∀ v ∈ vs, v.1 + v.2 ≤ m.length) (hresult : result + 4 ≤ m.length)
    (harray : Apart (pointer + index * 8) (more * 8) result 4)
    (hbuffers : ∀ v ∈ vs, Apart v.1 v.2 result 4) :
    ∃ bytes reached final answer m',
      writeParts shim d pointer result more index offset written m w = some (m', final, answer) ∧
      Sequential (writePart shim d) List.length (vs.map (buffer m)) offset w bytes reached final
        answer ∧
      Agree [(result, 4)] m m' ∧
      (answer = .ok 0 → loadWord m' result = some ((written + bytes.length) % 2 ^ 32)) := by
  induction more generalizing index written offset m w vs with
  | zero =>
      cases hvs
      obtain ⟨m', hm', -⟩ := storeWord_isSome hresult written
      refine ⟨[], w, w, .ok 0, m', ?_, .done, agree_store hm', fun _ => loadWord_storeWord hm'⟩
      rw [writeParts, hm']
      rfl
  | succ more ih =>
      obtain ⟨v, rest, rfl, haddress, hlength, hrest⟩ := iovecs_succ hvs
      rw [List.forall_mem_cons] at hin hbuffers
      rw [writeParts, haddress, Option.bind_some, hlength, Option.bind_some,
        if_neg (Nat.not_lt.mpr hin.1), load_buffer hin.1, Option.bind_some]
      rcases hwrite : shim.write d offset (buffer m v) w with ⟨w₁, thrown | ⟨ret, nwritten⟩⟩
      · refine ⟨[], w, w₁, .error thrown, m, rfl, .refused ?_, .refl _ m, nofun⟩
        rw [writePart, hwrite]
      · have hle := (hshim _ _ _ _ _ _ hwrite).1
        have htaken : ((buffer m v).take nwritten).length = nwritten := by
          rw [List.length_take, Nat.min_eq_left hle]
        have hpart : writePart shim d offset (buffer m v) w =
            (w₁, .moved ret ((buffer m v).take nwritten)) := by rw [writePart, hwrite]
        obtain ⟨m₁, hm₁, hsize⟩ := storeWord_isSome hresult (written + nwritten)
        have hagree : Agree [(result, 4)] m m₁ := agree_store hm₁
        dsimp only
        rw [hm₁, Option.bind_some]
        by_cases hstop : ret ≠ 0 ∨ nwritten ≠ v.2
        · rw [if_pos hstop]
          refine ⟨_, w₁, w₁, .ok ret, m₁, rfl, .stopped hpart ?_, hagree, fun _ => ?_⟩
          · rw [htaken, length_buffer hin.1]
            exact hstop
          · rw [htaken]
            exact loadWord_storeWord hm₁
        · rw [if_neg hstop]
          push Not at hstop
          obtain ⟨rfl, hfull⟩ := hstop
          -- the rest of the vectors is read from the memory the count was just stored in
          have hrest₁ : iovecs m₁ pointer more (index + 1) = some rest := by
            rw [iovecs_agree hagree, hrest]
            rw [List.forall_mem_singleton]
            exact harray.part (by omega) (by omega)
          have hsame : rest.map (buffer m₁) = rest.map (buffer m) :=
            List.map_congr_left fun v' hv' =>
              buffer_agree hagree (List.forall_mem_singleton.mpr (hbuffers.2 v' hv'))
          obtain ⟨bytes, reached, final, answer, m', hcall, hseq, hagree', hcount⟩ :=
            @ih (index + 1) (written + nwritten) (offset.map fun offset => offset + nwritten) m₁ w₁
              rest hrest₁ (fun v' hv' => hsize ▸ hin.2 v' hv') (by omega)
              (harray.part (by omega) (by omega)) hbuffers.2
          have hnext : Sequential (writePart shim d) List.length ((v :: rest).map (buffer m)) offset w
              ((buffer m v).take nwritten ++ bytes) reached final answer := by
            refine .next hpart (by rw [htaken, length_buffer hin.1, hfull]) ?_
            rw [htaken, ← hsame]
            exact hseq
          refine ⟨_, reached, final, answer, m', hcall, hnext, ?_, fun hok => ?_⟩
          · exact (hagree.trans hagree').mono fun r hr => ⟨r, by simpa using hr, le_rfl, le_rfl⟩
          · rw [hcount hok, List.length_append, htaken, Nat.add_assoc]

/-- The buffers of a read, filled with the bytes it gave as far as they go. -/
theorem flatten_buffers_cons {m m' : Memory} {v : Nat × Nat} {rest : List (Nat × Nat)}
    {data bytes : Bytes} (hfirst : buffer m' v = data ++ (buffer m v).drop data.length)
    (hrest : (rest.map (buffer m')).flatten =
      bytes ++ ((rest.map (buffer m)).flatten).drop bytes.length)
    (hfull : bytes = [] ∨ data.length = (buffer m v).length) (hle : data.length ≤ (buffer m v).length) :
    ((v :: rest).map (buffer m')).flatten =
      data ++ bytes ++ (((v :: rest).map (buffer m)).flatten).drop (data ++ bytes).length := by
  rw [List.map_cons, List.flatten_cons, hfirst, hrest, List.map_cons, List.flatten_cons]
  rcases hfull with rfl | hfull
  · rw [List.append_nil, List.nil_append, List.length_nil, List.drop_zero,
      List.drop_append_of_le_length hle, List.append_assoc]
  · rw [List.drop_of_length_le (Nat.le_of_eq hfull.symm), List.append_nil, List.length_append, hfull,
      ← List.drop_drop, List.drop_left, List.append_assoc]

/-- The loop of a read fills its buffers one after the other with what the descriptor gives, and
changes nothing else in memory but the result. -/
theorem readParts_sequential {Gave : Option Int → Bytes → W → W → Prop}
    (hshim : shim.ReadsPrefix d Gave) {more index total : Nat} {offset : Option Int} {m : Memory}
    {w : W} {vs : List (Nat × Nat)} (hvs : iovecs m pointer more index = some vs)
    (hin : ∀ v ∈ vs, v.1 + v.2 ≤ m.length) (hresult : result + 4 ≤ m.length)
    (harray : Apart (pointer + index * 8) (more * 8) result 4)
    (hbuffers : ∀ v ∈ vs, Apart v.1 v.2 result 4)
    (harrays : ∀ v ∈ vs, Apart (pointer + index * 8) (more * 8) v.1 v.2)
    (hapart : vs.Pairwise fun v v' => Apart v.1 v.2 v'.1 v'.2) :
    ∃ bytes reached final answer m',
      readParts shim d pointer result more index offset total m w = some (m', final, answer) ∧
      Sequential (readPart shim d) id (vs.map Prod.snd) offset w bytes reached final answer ∧
      Agree ((result, 4) :: vs) m m' ∧
      (vs.map (buffer m')).flatten = bytes ++ ((vs.map (buffer m)).flatten).drop bytes.length ∧
      (answer = .ok 0 → loadWord m' result = some ((total + bytes.length) % 2 ^ 32)) := by
  induction more generalizing index total offset m w vs with
  | zero =>
      cases hvs
      obtain ⟨m', hm', -⟩ := storeWord_isSome hresult total
      refine ⟨[], w, w, .ok 0, m', ?_, .done, agree_store hm', rfl, fun _ => loadWord_storeWord hm'⟩
      rw [readParts, hm']
      rfl
  | succ more ih =>
      obtain ⟨v, rest, rfl, haddress, hlength, hrest⟩ := iovecs_succ hvs
      rw [List.forall_mem_cons] at hin hbuffers harrays
      obtain ⟨hothers, hapart⟩ := List.pairwise_cons.mp hapart
      rw [readParts, haddress, Option.bind_some, hlength, Option.bind_some,
        if_neg (Nat.not_lt.mpr hin.1)]
      rcases hread : shim.read d offset v.2 w with ⟨w₁, thrown | ⟨ret, data⟩⟩
      · refine ⟨[], w, w₁, .error thrown, m, rfl, .refused ?_, .refl _ m, rfl, nofun⟩
        rw [readPart, hread]
      dsimp only
      by_cases hret : ret ≠ 0
      · -- A failed part: only the result is stored.
        obtain ⟨m', hm', -⟩ := storeWord_isSome hresult total
        have hagree : Agree [(result, 4)] m m' := agree_store hm'
        have hall : ∀ v' ∈ v :: rest, Apart v'.1 v'.2 result 4 := List.forall_mem_cons.mpr hbuffers
        have hsame : (v :: rest).map (buffer m') = (v :: rest).map (buffer m) :=
          List.map_congr_left fun v' hv' =>
            buffer_agree hagree (List.forall_mem_singleton.mpr (hall v' hv'))
        refine ⟨[], w, w₁, .ok ret, m', ?_, .refused ?_, ?_, ?_, ?_⟩
        · rw [if_pos hret, hm', Option.map_some]
        · rw [readPart, hread]
          dsimp only
          rw [if_pos hret]
        · exact hagree.mono fun r hr => ⟨r, by simp [List.mem_singleton.mp hr], le_rfl, le_rfl⟩
        · rw [hsame]
          rfl
        · intro hok
          cases hok
          exact absurd rfl hret
      rw [if_neg hret]
      obtain rfl : ret = 0 := not_not.mp hret
      have hle : data.length ≤ v.2 := (hshim _ _ _ _ _ _ hread).1
      have hpart : readPart shim d offset v.2 w = (w₁, .moved 0 data) := by
        rw [readPart, hread]
        rfl
      obtain ⟨m₁, hm₁⟩ : ∃ m₁, store m v.1 data = some m₁ := store_isSome (by omega)
      have hagree : Agree [(v.1, data.length)] m m₁ := agree_store hm₁
      have hsize : m₁.length = m.length := hagree.length
      have hcover : Agree [v] m m₁ := hagree.mono fun r hr => by
        obtain rfl := List.mem_singleton.mp hr
        exact ⟨v, List.mem_singleton_self v, le_rfl, Nat.add_le_add_left hle _⟩
      have hfirst : buffer m₁ v = data ++ (buffer m v).drop data.length := by
        rw [buffer, load_store_part hm₁ hle (load_buffer hin.1), Option.getD_some]
      have hsame : rest.map (buffer m₁) = rest.map (buffer m) :=
        List.map_congr_left fun v' hv' =>
          buffer_agree hcover (List.forall_mem_singleton.mpr (hothers v' hv').symm)
      rw [hm₁, Option.bind_some]
      by_cases hshort : data.length ≠ v.2
      · -- A short part ends the call.
        obtain ⟨m', hm', -⟩ := @storeWord_isSome m₁ result (by omega) (total + data.length)
        have hagree' : Agree [(result, 4)] m₁ m' := agree_store hm'
        have hfirst' : buffer m' v = buffer m₁ v :=
          buffer_agree hagree' (List.forall_mem_singleton.mpr hbuffers.1)
        have hsame' : rest.map (buffer m') = rest.map (buffer m₁) :=
          List.map_congr_left fun v' hv' =>
            buffer_agree hagree' (List.forall_mem_singleton.mpr (hbuffers.2 v' hv'))
        have hflat := @flatten_buffers_cons m m' v rest data [] (hfirst'.trans hfirst)
          (by rw [hsame', hsame]; rfl) (.inl rfl) (by rw [length_buffer hin.1]; exact hle)
        rw [List.append_nil] at hflat
        refine ⟨data, w₁, w₁, .ok 0, m', ?_, .stopped hpart (.inr hshort), ?_, hflat,
          fun _ => loadWord_storeWord hm'⟩
        · rw [if_pos hshort, hm', Option.map_some]
        · refine (hcover.trans hagree').mono fun r hr => ⟨r, ?_, le_rfl, le_rfl⟩
          rcases List.mem_append.mp hr with hr | hr
          · exact List.mem_cons_of_mem _ (List.mem_singleton.mp hr ▸ List.mem_cons_self)
          · exact List.mem_singleton.mp hr ▸ List.mem_cons_self
      · -- A full part: the rest of the call is in a memory that has the buffer filled.
        rw [if_neg hshort]
        have hfull : data.length = v.2 := not_not.mp hshort
        have hrest₁ : iovecs m₁ pointer more (index + 1) = some rest := by
          rw [iovecs_agree hcover, hrest]
          rw [List.forall_mem_singleton]
          exact harrays.1.part (by omega) (by omega)
        obtain ⟨bytes, reached, final, answer, m', hcall, hseq, hagree', hflat, hcount⟩ :=
          @ih (index + 1) (total + data.length) (offset.map fun offset => offset + data.length) m₁ w₁
            rest hrest₁ (fun v' hv' => hsize ▸ hin.2 v' hv') (by omega)
            (harray.part (by omega) (by omega)) hbuffers.2
            (fun v' hv' => (harrays.2 v' hv').part (by omega) (by omega)) hapart
        have hfirst' : buffer m' v = buffer m₁ v :=
          buffer_agree hagree' (List.forall_mem_cons.mpr ⟨hbuffers.1, hothers⟩)
        rw [hsame] at hflat
        refine ⟨data ++ bytes, reached, final, answer, m', hcall, .next hpart hfull hseq, ?_,
          flatten_buffers_cons (hfirst'.trans hfirst) hflat
            (.inr (hfull.trans (length_buffer hin.1).symm))
            (by rw [length_buffer hin.1]; exact hle), fun hok => ?_⟩
        · exact (hcover.trans hagree').mono fun r hr =>
            ⟨r, by simpa [or_left_comm] using hr, le_rfl, le_rfl⟩
        · rw [hcount hok, List.length_append, Nat.add_assoc]

end

/-! ## Calls -/

/-- The result and the iovecs of a call are in memory, and the result is apart from the iovecs
and their buffers. -/
structure Placed (m : Memory) (pointer count result : Nat) (vs : List (Nat × Nat)) : Prop where
  array : pointer + count * 8 ≤ m.length
  cell : result + 4 ≤ m.length
  iovecs : iovecs m pointer count 0 = some vs
  buffers : ∀ v ∈ vs, v.1 + v.2 ≤ m.length
  apartArray : Apart pointer (count * 8) result 4
  apartBuffers : ∀ v ∈ vs, Apart v.1 v.2 result 4

/-- The buffers of a call are apart from its iovecs and from each other. -/
structure Separate (pointer count : Nat) (vs : List (Nat × Nat)) : Prop where
  array : ∀ v ∈ vs, Apart pointer (count * 8) v.1 v.2
  buffers : vs.Pairwise fun v v' => Apart v.1 v.2 v'.1 v'.2

/-- No call accesses a byte outside guest memory. -/
def StaysInside (shim : VectorShim N W D) : Prop :=
  ∀ fd pointer count result offset m w,
    (fd_write shim fd pointer count result m w).isSome ∧
    (fd_pwrite shim fd pointer count offset result m w).isSome ∧
    (fd_read shim fd pointer count result m w).isSome ∧
    (fd_pread shim fd pointer count offset result m w).isSome

/-- A write transfers a prefix of the concatenation of its buffers, part after part, and changes
no byte of memory but the result, where it stores how many bytes that were. -/
def WritesSequentially (shim : VectorShim N W D)
    (Wrote : D → Option Int → Bytes → W → W → Prop) : Prop :=
  ∀ fd pointer count result offset m w d vs, descriptor (shim.fds w) fd = some d →
    Placed m pointer.toNat count.toNat result.toNat vs →
    ∃ bytes reached final answer m',
      write shim fd pointer count result offset m w = some (m', final, answer) ∧
      Sequential (writePart shim d) List.length (vs.map (buffer m)) offset w bytes reached final
        answer ∧
      Wrote d offset bytes w reached ∧ bytes <+: (vs.map (buffer m)).flatten ∧
      Agree [(result.toNat, 4)] m m' ∧
      (answer = .ok 0 → reached = final ∧
        (bytes.length < 2 ^ 32 → loadWord m' result.toNat = some bytes.length))

/-- A read fills the concatenation of its buffers, part after part, with the bytes it gives, and
changes no other byte of memory but the result, where it stores how many bytes that were. -/
def ReadsSequentially (shim : VectorShim N W D)
    (Gave : D → Option Int → Bytes → W → W → Prop) : Prop :=
  ∀ fd pointer count result offset m w d vs, m.length ≤ 2 ^ 32 →
    descriptor (shim.fds w) fd = some d →
    Placed m pointer.toNat count.toNat result.toNat vs → Separate pointer.toNat count.toNat vs →
    ∃ bytes reached final answer m',
      read shim fd pointer count result offset m w = some (m', final, answer) ∧
      Sequential (readPart shim d) id (vs.map Prod.snd) offset w bytes reached final answer ∧
      Gave d offset bytes w reached ∧
      (vs.map (buffer m')).flatten = bytes ++ ((vs.map (buffer m)).flatten).drop bytes.length ∧
      Agree ((result.toNat, 4) :: vs) m m' ∧
      (answer = .ok 0 → reached = final ∧ loadWord m' result.toNat = some bytes.length)

section

variable {shim : VectorShim N W D} {Wrote Gave : D → Option Int → Bytes → W → W → Prop}

theorem writesSequentially (hwrote : ∀ d, Composes (Wrote d))
    (hwrite : ∀ d, shim.WritesPrefix d (Wrote d)) : WritesSequentially shim Wrote := by
  intro fd pointer count result offset m w d vs hd hplaced
  obtain ⟨bytes, reached, final, answer, m', hcall, hseq, hagree, hcount⟩ :=
    @writeParts_sequential _ _ _ shim d pointer.toNat result.toNat _ (hwrite d) count.toNat 0 0 offset m
      w vs hplaced.iovecs hplaced.buffers hplaced.cell
      (hplaced.apartArray.part (Nat.le_add_right _ _) (by omega)) hplaced.apartBuffers
  refine ⟨bytes, reached, final, answer, m', ?_, hseq, ?_, ?_, hagree, fun hok => ⟨?_, fun hlt => ?_⟩⟩
  · rw [write, vectored, hd]
    dsimp only
    rw [if_neg]
    · exact hcall
    · rintro (hout | hout)
      · exact absurd hplaced.array (Nat.not_le.mpr hout)
      · exact absurd hplaced.cell (Nat.not_le.mpr hout)
  · exact hseq.moves (hwrote d) fun _ _ _ _ _ _ hpart => (writePart_moved (hwrite d) hpart).2
  · exact hseq.prefix_flatten fun _ _ _ _ _ _ hpart => (writePart_moved (hwrite d) hpart).1
  · exact hseq.reached_eq (fun _ _ _ _ _ hpart => writePart_refused hpart) hok
  · rw [hcount hok, Nat.zero_add, Nat.mod_eq_of_lt hlt]

theorem readsSequentially (hgave : ∀ d, Composes (Gave d))
    (hread : ∀ d, shim.ReadsPrefix d (Gave d)) : ReadsSequentially shim Gave := by
  intro fd pointer count result offset m w d vs hm hd hplaced hseparate
  obtain ⟨bytes, reached, final, answer, m', hcall, hseq, hagree, hflat, hcount⟩ :=
    @readParts_sequential _ _ _ shim d pointer.toNat result.toNat _ (hread d) count.toNat 0 0 offset m
      w vs hplaced.iovecs hplaced.buffers hplaced.cell
      (hplaced.apartArray.part (Nat.le_add_right _ _) (by omega)) hplaced.apartBuffers
      (fun v hv => (hseparate.array v hv).part (Nat.le_add_right _ _) (by omega)) hseparate.buffers
  -- The buffers and the result share no byte of a memory of at most `2 ^ 32`.
  have hsum : (((result.toNat, 4) :: vs).map Prod.snd).sum ≤ m.length :=
    sum_le_of_apart (List.forall_mem_cons.mpr ⟨hplaced.cell, hplaced.buffers⟩)
      (List.pairwise_cons.mpr ⟨fun v hv => (hplaced.apartBuffers v hv).symm, hseparate.buffers⟩)
  rw [List.map_cons, List.sum_cons] at hsum
  have hlength : bytes.length ≤ (vs.map Prod.snd).sum :=
    hseq.length_le fun _ _ _ _ _ _ hpart => (readPart_moved (hread d) hpart).1
  refine ⟨bytes, reached, final, answer, m', ?_, hseq, ?_, hflat, hagree, fun hok => ⟨?_, ?_⟩⟩
  · rw [read, vectored, hd]
    dsimp only
    rw [if_neg]
    · exact hcall
    · rintro (hout | hout)
      · exact absurd hplaced.array (Nat.not_le.mpr hout)
      · exact absurd hplaced.cell (Nat.not_le.mpr hout)
  · exact hseq.moves (hgave d) fun _ _ _ _ _ _ hpart => (readPart_moved (hread d) hpart).2
  · exact hseq.reached_eq (fun _ _ _ _ _ hpart => readPart_refused hpart) hok
  · rw [hcount hok, Nat.zero_add, Nat.mod_eq_of_lt (by omega)]

end

/-- Every call stays inside guest memory, and is the sequence of its parts: a write of its buffers
in order, and a read into them. -/
theorem vectored_sequential {shim : VectorShim N W D}
    {Wrote Gave : D → Option Int → Bytes → W → W → Prop} (hwrote : ∀ d, Composes (Wrote d))
    (hgave : ∀ d, Composes (Gave d)) (hwrite : ∀ d, shim.WritesPrefix d (Wrote d))
    (hread : ∀ d, shim.ReadsPrefix d (Gave d)) :
    StaysInside shim ∧ WritesSequentially shim Wrote ∧ ReadsSequentially shim Gave := by
  have hbounded : shim.ReadsBounded := fun d offset length w w' ret data h =>
    (hread d offset length w w' ret data h).1
  refine ⟨fun fd pointer count result offset m w => ⟨?_, ?_, ?_, ?_⟩, writesSequentially hwrote hwrite,
    readsSequentially hgave hread⟩
  · exact write_isSome fd pointer count result none m w
  · exact write_isSome fd pointer count result _ m w
  · exact read_isSome hbounded fd pointer count result none m w
  · exact read_isSome hbounded fd pointer count result _ m w

/-! ### A stream -/

/-- A descriptor of a stream: it reads what is left of an input and writes to the end of an
output, and has no offsets. -/
private def stream : VectorShim Empty (Bytes × Bytes) Unit where
  fds _ := [some ()]
  fdWrite _ data w := ((w.1, w.2 ++ data), .ok (0, data.length))
  fdPwrite _ _ _ w := (w, .ok (70, 0))
  fdRead _ length w := ((w.1.drop length, w.2), .ok (0, w.1.take length))
  fdPread _ _ _ w := (w, .ok (70, []))

private def streamWrote (_ : Unit) (_ : Option Int) (bytes : Bytes) (w w' : Bytes × Bytes) : Prop :=
  w' = (w.1, w.2 ++ bytes)

private def streamGave (_ : Unit) (_ : Option Int) (bytes : Bytes) (w w' : Bytes × Bytes) : Prop :=
  w = (bytes ++ w'.1, w'.2)

private theorem streamWrote_composes (d : Unit) : Composes (streamWrote d) where
  nil _ w := by rw [streamWrote, List.append_nil]
  append _ bytes more w w₁ w₂ h h' := by
    rw [streamWrote] at h h' ⊢
    rw [h', h, List.append_assoc]

private theorem streamGave_composes (d : Unit) : Composes (streamGave d) where
  nil _ w := rfl
  append _ bytes more w w₁ w₂ h h' := by
    rw [streamGave] at h h' ⊢
    rw [h, h', List.append_assoc]

private theorem stream_writesPrefix (d : Unit) : stream.WritesPrefix d (streamWrote d) := by
  intro offset data w w' ret nwritten h
  cases offset with
  | none =>
      cases h
      exact ⟨le_rfl, by rw [List.take_length]; rfl⟩
  | some offset =>
      cases h
      exact ⟨Nat.zero_le _, (streamWrote_composes d).nil none w⟩

private theorem stream_readsPrefix (d : Unit) : stream.ReadsPrefix d (streamGave d) := by
  intro offset length w w' ret data h
  cases offset with
  | none =>
      cases h
      refine ⟨by rw [List.length_take]; exact Nat.min_le_left _ _, ?_⟩
      show w = (w.1.take length ++ w.1.drop length, w.2)
      rw [List.take_append_drop]
  | some offset =>
      cases h
      exact ⟨Nat.zero_le _, rfl⟩

/-- Three bytes in two buffers. -/
private def threeBytes : Memory := [97, 98, 99, 0] ++ [0, 2, 2, 1, 7].flatMap littleEndian

private theorem threeBytes_placed : Placed threeBytes 4 2 20 [(0, 2), (2, 1)] where
  array := by decide
  cell := by decide
  iovecs := by decide +kernel
  buffers := by decide
  apartArray i _ _ _ := by omega
  apartBuffers v hv i _ hi hi' := by
    have hle : v.1 + v.2 ≤ 20 := by
      rcases List.mem_cons.mp hv with rfl | hv
      · decide
      · rw [List.mem_singleton.mp hv]
        decide
    omega

theorem vectored_sequential_stream : ∃ bytes reached final answer m',
    write stream 0 4 2 20 none threeBytes ([], []) = some (m', final, answer) ∧
    streamWrote () none bytes ([], []) reached ∧ bytes <+: [97, 98, 99] ∧
    Agree [(20, 4)] threeBytes m' := by
  obtain ⟨bytes, reached, final, answer, m', hcall, -, hwrote, hprefix, hagree, -⟩ :=
    (vectored_sequential streamWrote_composes streamGave_composes stream_writesPrefix
      stream_readsPrefix).2.1 0 4 2 20 none threeBytes ([], []) () [(0, 2), (2, 1)] rfl
      threeBytes_placed
  exact ⟨bytes, reached, final, answer, m', hcall, hwrote, hprefix, hagree⟩

/-- Zeros, three iovecs that all name the zeros, and a result. -/
private def wide (n : Nat) : Memory :=
  List.replicate n 0 ++ [0, n, 0, n, 0, n, 0].flatMap littleEndian

private theorem wide_placed {n : Nat} (hn : n < 2 ^ 32) :
    Placed (wide n) n 3 (n + 24) [(0, n), (0, n), (0, n)] := by
  have hlength : (wide n).length = n + 28 := by
    rw [wide, List.length_append, List.length_replicate]
    rfl
  have hrest : (List.replicate n (0 : UInt8)).length = n := List.length_replicate
  have hword : ∀ before value words, [0, n, 0, n, 0, n, 0] = before ++ value :: words →
      value < 2 ^ 32 → loadWord (wide n) (n + 4 * before.length) = some value := by
    intro before value words hsplit hvalue
    have hload := @loadWord_words (wide n) (n + 4 * before.length) value before words
      (List.replicate n 0) (by rw [wide, hsplit]) (by rw [hrest])
    rwa [Nat.mod_eq_of_lt hvalue] at hload
  refine ⟨by omega, by omega, ?_, ?_, fun i _ _ _ => by omega, fun v hv i hi hi' => ?_⟩
  · have h0 : loadWord (wide n) n = some 0 := hword [] 0 _ rfl (by decide)
    have h1 : loadWord (wide n) (n + 4) = some n := hword [0] n _ rfl hn
    have h2 : loadWord (wide n) (n + 8) = some 0 := hword [0, n] 0 _ rfl (by decide)
    have h3 : loadWord (wide n) (n + 12) = some n := hword [0, n, 0] n _ rfl hn
    have h4 : loadWord (wide n) (n + 16) = some 0 := hword [0, n, 0, n] 0 _ rfl (by decide)
    have h5 : loadWord (wide n) (n + 20) = some n := hword [0, n, 0, n, 0] n _ rfl hn
    simp only [iovecs, Nat.zero_mul, Nat.add_zero, Nat.zero_add, Nat.one_mul, Nat.reduceMul,
      Nat.reduceAdd, Nat.add_assoc, h0, h1, h2, h3, h4, h5, Option.bind_some, Option.map_some]
  · intro v hv
    have hv' : v = (0, n) := by simpa using hv
    rw [hv', hlength]
    omega
  · have hv' : v = (0, n) := by simpa using hv
    rw [hv'] at hi'
    omega

/-- The stream takes every buffer whole. -/
private theorem stream_sequential {parts : List Bytes} {offset : Option Int}
    {w reached final : Bytes × Bytes} {bytes : Bytes} {answer : Except (Thrown Empty) Errno}
    (h : Sequential (writePart stream ()) List.length parts offset w bytes reached final answer)
    (hoffset : offset = none) : bytes = parts.flatten ∧ answer = .ok 0 := by
  have hwhole : ∀ (data : Bytes) (w : Bytes × Bytes), writePart stream () none data w =
      ((w.1, w.2 ++ data), .moved 0 data) := by
    intro data w
    show ((w.1, w.2 ++ data), Part.moved 0 (data.take data.length)) = _
    rw [List.take_length]
  induction h with
  | done => exact ⟨rfl, rfl⟩
  | refused hone =>
      rw [hoffset, hwhole] at hone
      cases hone
  | stopped hone hstop =>
      rw [hoffset, hwhole] at hone
      cases hone
      rcases hstop with hret | hlength
      · exact absurd rfl hret
      · exact absurd rfl hlength
  | next hone _ _ ih =>
      rw [hoffset, hwhole] at hone
      cases hone
      obtain ⟨rfl, hanswer⟩ := ih (by rw [hoffset]; rfl)
      exact ⟨rfl, hanswer⟩

private theorem wide_write {n : Nat} (hn : n + 24 < 2 ^ 32) : ∃ bytes reached final m',
    write stream 0 (.ofNat n) 3 (.ofNat (n + 24)) none (wide n) ([], []) = some (m', final, .ok 0) ∧
    Sequential (writePart stream ()) List.length
      ([(0, n), (0, n), (0, n)].map (buffer (wide n))) none ([], []) bytes reached final (.ok 0) ∧
    bytes.length = 3 * n ∧ loadWord m' (n + 24) = some (3 * n % 2 ^ 32) := by
  have hplaced := @wide_placed n (by omega)
  have hpointer : (UInt32.ofNat n).toNat = n :=
    UInt32.toNat_ofNat_of_lt' (Nat.lt_of_le_of_lt (Nat.le_add_right n 24) hn)
  have hresult : (UInt32.ofNat (n + 24)).toNat = n + 24 := UInt32.toNat_ofNat_of_lt' hn
  obtain ⟨bytes, reached, final, answer, m', hcall, hseq, -, hcount⟩ :=
    @writeParts_sequential _ _ _ stream () n (n + 24) _ (stream_writesPrefix ()) 3 0 0 none (wide n)
      ([], []) _ hplaced.iovecs hplaced.buffers hplaced.cell
      (hplaced.apartArray.part (Nat.le_add_right _ _) (by omega)) hplaced.apartBuffers
  obtain ⟨hbytes, hanswer⟩ := stream_sequential hseq rfl
  have hbuffer : (buffer (wide n) (0, n)).length = n := length_buffer (hplaced.buffers _ (by simp))
  have hlength : bytes.length = 3 * n := by
    rw [hbytes]
    simp only [List.map_cons, List.map_nil, List.flatten_cons, List.flatten_nil, List.length_append,
      List.length_nil, hbuffer]
    omega
  refine ⟨bytes, reached, final, m', ?_, hanswer ▸ hseq, hlength, ?_⟩
  · rw [write, vectored]
    show (if _ then _ else _) = _
    rw [if_neg, hpointer, hresult]
    · exact hanswer ▸ hcall
    · rw [hpointer, hresult]
      rintro (hout | hout)
      · exact absurd hplaced.array (Nat.not_le.mpr hout)
      · exact absurd hplaced.cell (Nat.not_le.mpr hout)
  · rw [hcount hanswer, Nat.zero_add, hlength]

/-- A write whose buffers overlap can transfer more bytes than its result can hold. -/
theorem write_result_wraps : ∃ vs bytes reached final m',
    Placed (wide (2 ^ 31)) (2 ^ 31) 3 (2 ^ 31 + 24) vs ∧
    write stream 0 (.ofNat (2 ^ 31)) 3 (.ofNat (2 ^ 31 + 24)) none (wide (2 ^ 31)) ([], []) =
      some (m', final, .ok 0) ∧
    Sequential (writePart stream ()) List.length (vs.map (buffer (wide (2 ^ 31)))) none ([], []) bytes
      reached final (.ok 0) ∧
    loadWord m' (2 ^ 31 + 24) ≠ some bytes.length := by
  have hsmall : (2 : Nat) ^ 31 + 24 < 2 ^ 32 := by decide
  obtain ⟨bytes, reached, final, m', hcall, hseq, hlength, hword⟩ := wide_write hsmall
  refine ⟨_, bytes, reached, final, m', wide_placed (by omega), hcall, hseq, ?_⟩
  rw [hword, hlength]
  intro heq
  have hmod := Option.some.inj heq
  omega

end TsSdk
