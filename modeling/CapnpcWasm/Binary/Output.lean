import CapnpcWasm.Binary.Instrument

/-!
# What a pass writes

The output of a pass is the header and sections one after the other, and among them the place
of the function section, which is filled last.

The writer is a list of parts, and a place among them is a part that is not written yet.
`SlotAt` says where it stands, and is kept by everything that is written after it
(`SlotAt.adds`).  `Output s entries hole` reads a state of the pass in those terms: the
entries are the sections in the order they were emitted, `none` for the place, and `hole` is
what stands in it.
-/

namespace Binary

open TsSdk Leb

/-! ## Contents -/

namespace Writer

section

variable (w other : Writer)

@[simp] theorem contents_empty : empty.contents = [] := rfl

@[simp] theorem contents_byte (value : UInt8) : (w.byte value).contents = w.contents ++ [value] :=
  (w.adds_byte value).contents

@[simp] theorem contents_bytes (data : Bytes) : (w.bytes data).contents = w.contents ++ data :=
  (w.adds_bytes data).contents

/-- A number, in its shortest form. -/
@[simp] theorem contents_u32 (value : Nat) : (w.u32 value).contents = w.contents ++ leb value :=
  (w.adds_u32 value).contents

@[simp] theorem contents_s32 (value : BitVec 32) :
    (w.s32 value).contents = w.contents ++ signedLeb value :=
  (w.adds_s32 value).contents

@[simp] theorem contents_append : (w.append other).contents = w.contents ++ other.contents :=
  (w.adds_append other).contents

/-- A name, its length first. -/
@[simp] theorem contents_name (value : JsString) : (w.name value).contents =
    w.contents ++ (leb (encodeText value).length ++ encodeText value) := by
  rw [name, contents_bytes, contents_u32, List.append_assoc]

end

end Writer

/-! ## A place among the parts -/

/-- The place of a slot, with what is before it, in it, and behind it. -/
def SlotAt (w : Writer) (slot : Nat) (before hole after : Bytes) : Prop :=
  ∃ parts parts' : List Bytes, w.parts = parts ++ hole :: parts' ∧ parts.length = slot ∧
    parts.flatten = before ∧ parts'.flatten ++ w.pending = after

section

variable {w w' content : Writer} {slot : Nat} {before hole after data : Bytes}

/-- The bytes before the place, what stands in it, and those after. -/
theorem SlotAt.contents (h : SlotAt w slot before hole after) :
    w.contents = before ++ (hole ++ after) := by
  obtain ⟨parts, parts', hparts, -, rfl, rfl⟩ := h
  rw [Writer.contents, hparts, List.flatten_append, List.flatten_cons]
  simp only [List.append_assoc]

/-- Whatever is written stands after it. -/
theorem SlotAt.adds (h : SlotAt w slot before hole after) (hadds : w.Adds w' data) :
    SlotAt w' slot before hole (after ++ data) := by
  obtain ⟨parts, parts', hparts, hslot, hbefore, rfl⟩ := h
  obtain ⟨texts, htexts, hdata⟩ := hadds
  refine ⟨parts, parts' ++ texts, ?_, hslot, hbefore, ?_⟩
  · rw [htexts, hparts, List.append_assoc]
    rfl
  · rw [List.flatten_append, List.append_assoc, hdata, List.append_assoc]

/-- A new place stands at the end and is empty. -/
theorem slotAt_slot (w : Writer) : SlotAt w.slot.2 w.slot.1 w.contents [] [] := by
  have hflush := (w.adds_flush).contents
  rw [Writer.contents, Writer.pending_flush, List.append_nil, List.append_nil] at hflush
  exact ⟨w.flush.parts, [], rfl, rfl, hflush, rfl⟩

/-- A slot is filled where it is. -/
theorem SlotAt.fill (h : SlotAt w slot before hole after) (content : Writer) :
    ∃ w', w.fill slot content = some w' ∧ SlotAt w' slot before content.contents after := by
  obtain ⟨parts, parts', hparts, rfl, hbefore, hafter⟩ := h
  have hlt : parts.length < w.parts.length := by
    rw [hparts, List.length_append, List.length_cons]
    omega
  rw [Writer.fill, content.finish_eq]
  dsimp only
  rw [dif_pos hlt]
  refine ⟨_, rfl, parts, parts', ?_, rfl, hbefore, hafter⟩
  show w.parts.set parts.length content.contents = _
  rw [hparts, List.set_append_right _ _ (Nat.le_refl _), Nat.sub_self]
  rfl

end

/-! ## Sections of the output -/

/-- A section by its id and its payload. -/
abbrev Emitted := UInt8 × Bytes

/-- The bytes of a section: its id, its size and its payload. -/
def Emitted.bytes (e : Emitted) : Bytes := e.1 :: (leb e.2.length ++ e.2)

/-- Sections one after the other, and the place of the function section. -/
def textWith (hole : Bytes) (entries : List (Option Emitted)) : Bytes :=
  entries.flatMap fun
    | none => hole
    | some e => e.bytes

/-- The output so far. -/
structure Output (s : State) (entries : List (Option Emitted)) (hole : Bytes) : Prop where
  whole : s.functions = none →
    none ∉ entries ∧ hole = [] ∧ s.output.contents = header ++ textWith [] entries
  parted : ∀ f, s.functions = some f → ∃ before after, entries = before ++ none :: after ∧
    none ∉ before ∧ none ∉ after ∧
      SlotAt s.output f.slot (header ++ textWith [] before) hole (textWith [] after)

section

variable {s s' : State} {entries entries' : List (Option Emitted)} {hole : Bytes} {id : UInt8}
  {payload : Writer}

/-- Entries one after the other. -/
theorem textWith_append (hole : Bytes) (entries entries' : List (Option Emitted)) :
    textWith hole (entries ++ entries') = textWith hole entries ++ textWith hole entries' :=
  List.flatMap_append

/-- Without a place, it does not matter what stands in it. -/
theorem textWith_of_notMem (hole : Bytes) (h : none ∉ entries) : textWith hole entries = textWith [] entries := by
  refine List.flatMap_congr fun entry hentry => ?_
  cases entry with
  | none => exact absurd hentry h
  | some e => rfl

/-- A framed payload is a section. -/
@[simp] theorem contents_framed (id : UInt8) (payload : Writer) :
    (framed id payload).contents = Emitted.bytes (id, payload.contents) := by
  simp [framed, Emitted.bytes, Writer.length_contents]

/-- What is written in all. -/
theorem Output.contents (h : Output s entries hole) :
    s.output.contents = header ++ textWith hole entries := by
  cases hf : s.functions with
  | none =>
      obtain ⟨hnone, -, hcontents⟩ := h.whole hf
      rw [hcontents, textWith_of_notMem hole hnone]
  | some f =>
      obtain ⟨before, after, rfl, hbefore, hafter, hslot⟩ := h.parted f hf
      rw [hslot.contents, textWith_append, textWith_of_notMem hole hbefore, List.append_assoc]
      show _ = _ ++ (_ ++ (hole ++ textWith hole after))
      rw [textWith_of_notMem hole hafter]

/-- A section is written behind the others. -/
theorem Output.adds {e : Emitted} (h : Output s entries hole) (hfunctions : s'.functions = s.functions)
    (hadds : s.output.Adds s'.output e.bytes) : Output s' (entries ++ [some e]) hole where
  whole hf := by
    obtain ⟨hnone, hhole, hcontents⟩ := h.whole (hfunctions ▸ hf)
    refine ⟨?_, hhole, ?_⟩
    · rw [List.mem_append, not_or]
      exact ⟨hnone, by simp⟩
    · rw [hadds.contents, hcontents, textWith_append, List.append_assoc]
      refine congrArg (header ++ ·) (congrArg (textWith [] entries ++ ·) ?_)
      exact (List.append_nil _).symm
  parted f hf := by
    obtain ⟨before, after, rfl, hbefore, hafter, hslot⟩ := h.parted f (hfunctions ▸ hf)
    refine ⟨before, after ++ [some e], ?_, hbefore, ?_, ?_⟩
    · rw [List.append_assoc]
      rfl
    · rw [List.mem_append, not_or]
      exact ⟨hafter, by simp⟩
    · have hadded := hslot.adds hadds
      rw [textWith_append]
      show SlotAt _ _ _ _ (textWith [] after ++ (e.bytes ++ []))
      rwa [List.append_nil]

/-- An emitted section is one more entry. -/
theorem Output.emit (h : Output s entries hole) (id : UInt8) (payload : Writer) :
    Output (s.emit id payload) (entries ++ [some (id, payload.contents)]) hole := by
  refine h.adds rfl ?_
  rw [← contents_framed]
  exact s.output.adds_append _

/-- Nothing is written. -/
theorem Output.same (h : Output s entries hole) (hfunctions : s'.functions = s.functions)
    (houtput : s'.output = s.output) : Output s' entries hole where
  whole hf := by
    rw [houtput]
    exact h.whole (hfunctions ▸ hf)
  parted f hf := by
    rw [houtput]
    exact h.parted f (hfunctions ▸ hf)

/-- A pass starts with the header. -/
theorem output_start : Output .start [] [] where
  whole _ := ⟨List.not_mem_nil, rfl, (Writer.empty.contents_bytes header).trans rfl⟩
  parted _ hf := nomatch hf

end

end Binary
