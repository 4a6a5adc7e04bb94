import CapnpcWasm.Binary.Sections

/-!
# The bound on memory

`boundMemory` lowers the maximum of a module's one memory and leaves every other byte as it is.
-/

namespace Binary

open TsSdk Leb

/-! ## Bounding -/

def declaredMaximum (flags : UInt8) : Parser Nat := fun r =>
  if flags = 1 then r.u32 else .ok (65536, r)

/-- The replacement payload for a memory section: one memory, its maximum inserted or lowered. -/
def boundedMemory (section_ : Reader) (maximum : Nat) : Except TypeError Bytes := do
  let (count, r) ← section_.u32
  if count ≠ 1 then .error (typeError "WASI command requires exactly one defined memory")
  else if r.end_ ≤ r.position then .error (typeError "truncated Wasm memory")
  else
    let (flags, r) ← r.byte
    if flags ≠ 0 ∧ flags ≠ 1 then .error (typeError "only unshared wasm32 memory is supported")
    else
      let (initial, r) ← r.u32
      let (declared, r) ← declaredMaximum flags r
      if r.position ≠ r.end_ ∨ declared < initial ∨ 65536 < declared then
        .error (typeError "invalid Wasm memory limits")
      else if maximum < initial then
        .error (typeError "initial guest memory exceeds memoryPages limit")
      else .ok ([1, 1] ++ leb initial ++ leb (min maximum declared))

/-- The memory section of a module, and what replaces it. -/
structure Replacement where
  start : Nat
  end_ : Nat
  replacement : Bytes

def boundSection (maximum : Nat) (memory : Option Replacement) (sec : Section) :
    Except TypeError (Option Replacement) :=
  if sec.id = 5 then
    match memory with
    | some _ => .error (typeError "WASI command requires exactly one defined memory")
    | none => do
        let payload ← boundedMemory sec.payload maximum
        return some ⟨sec.start, sec.payload.end_, [5] ++ leb payload.length ++ payload⟩
  else .ok memory

/-- A reader over the sections of a module. -/
def sections (bytes : Bytes) (h : 8 ≤ bytes.length) : Reader :=
  ⟨bytes, 8, bytes.length, h, Nat.le_refl _⟩

theorem header_missing (module : Bytes) :
    (header.zipIdx.any fun (value, index) => module[index]? ≠ some value) = true ↔
      ¬header <+: module := by
  rw [List.any_eq_true, List.prefix_iff_getElem?, not_forall]
  constructor
  · rintro ⟨⟨value, index⟩, hmem, hne⟩
    obtain ⟨hlt, hvalue⟩ := List.mem_zipIdx' hmem
    exact ⟨index, fun hall => of_decide_eq_true hne (hvalue ▸ hall hlt)⟩
  · rintro ⟨i, hi⟩
    obtain ⟨hlt, hne⟩ := Classical.not_forall.mp hi
    exact ⟨(header[i], i), List.mem_zipIdx_iff_getElem?.mpr (List.getElem?_eq_getElem hlt),
      decide_eq_true hne⟩

theorem moduleBytes_ok {module bytes : Bytes} : moduleBytes module = .ok bytes ↔
    bytes = module ∧ header <+: module := by
  rw [moduleBytes]
  split
  · next h => exact iff_of_false Checks.error_ne_ok fun hboth => (header_missing _).mp h hboth.2
  · next h =>
    rw [Except.ok.injEq, eq_comm]
    exact (and_iff_left (not_not.mp ((not_congr (header_missing _)).mp h))).symm

theorem length_moduleBytes {module bytes : Bytes} (h : moduleBytes module = .ok bytes) :
    8 ≤ bytes.length := by
  obtain ⟨rfl, hheader⟩ := moduleBytes_ok.mp h
  exact hheader.length_le

/-- Bounds a command's one memory, leaving every other byte as it is. -/
def boundMemory (module : Bytes) (maximum : Nat) : Except TypeError Bytes :=
  match h : moduleBytes module with
  | .error e => .error e
  | .ok bytes => do
      let memory ← walk (boundSection maximum) (sections bytes (length_moduleBytes h)) none
      match memory with
      | none => .error (typeError "WASI command requires exactly one defined memory")
      | some m => .ok (bytes.take m.start ++ m.replacement ++ bytes.drop m.end_)

/-! ## The limits of a memory -/

/-- The declared maximum after some flags. -/
inductive MaximumOf : UInt8 → Grammar Nat where
  | absent : MaximumOf 0 [] 65536
  | present {bytes : Bytes} {n : Nat} : U32 bytes n → MaximumOf 1 bytes n

/-- The payload of a memory section with one unshared wasm32 memory and valid limits. -/
def MemoryLimits (payload : Bytes) (initial declared : Nat) : Prop :=
  ∃ count flags first second, payload = count ++ flags :: (first ++ second) ∧ U32 count 1 ∧
    U32 first initial ∧ MaximumOf flags second declared ∧ initial ≤ declared ∧ declared ≤ 65536

/-- The payload that replaces one with these limits. -/
def boundedPayload (initial maximum : Nat) : Bytes := [1, 1] ++ leb initial ++ leb maximum

def exceeds : TypeError := typeError "initial guest memory exceeds memoryPages limit"

section

variable {r r' : Reader} {initial declared maximum n : Nat} {bytes : Bytes}

theorem u32_leb_of (hn : n < 2 ^ 32) : U32 (leb n) n := by
  rw [leb_eq]
  exact ⟨encodes_unsigned n, length_unsigned_le (by decide) (Nat.lt_trans hn (by decide)), hn⟩

theorem memoryLimits_bounded (hle : initial ≤ maximum) (hmax : maximum ≤ 65536) :
    MemoryLimits (boundedPayload initial maximum) initial maximum := by
  refine ⟨[1], 1, leb initial, leb maximum, ?_, ?_, u32_leb_of (by omega), .present (u32_leb_of (by omega)),
    hle, hmax⟩
  · rfl
  · have hone : U32 (leb 1) 1 := u32_leb_of (by decide)
    rwa [show leb 1 = [1] by rw [leb, if_neg (by decide)]; decide] at hone

/-- Valid limits are bounded, unless the initial size exceeds the bound. -/
theorem boundedMemory_of (h : MemoryLimits r.rest initial declared) :
    boundedMemory r maximum = if maximum < initial then .error exceeds
      else .ok (boundedPayload initial (min maximum declared)) := by
  obtain ⟨count, flags, first, second, hrest, hcount, hfirst, hsecond, hle, hmax⟩ := h
  obtain ⟨r₁, hu32, hrest₁⟩ : ∃ r₁, r.u32 = .ok (1, r₁) ∧ r₁.rest = flags :: (first ++ second) :=
    ⟨_, reads_u32.of hcount hrest, Reader.rest_advance_append hrest⟩
  have hmore : ¬r₁.end_ ≤ r₁.position := by
    rw [← Reader.rest_eq_nil, hrest₁]
    exact List.cons_ne_nil _ _
  obtain ⟨r₂, hbyte, hrest₂⟩ : ∃ r₂, r₁.byte = .ok (flags, r₂) ∧ r₂.rest = first ++ second :=
    ⟨_, Reader.byte_cons hrest₁, Reader.rest_advance_append (show _ = [flags] ++ _ from hrest₁)⟩
  obtain ⟨r₃, hinitial, hrest₃⟩ : ∃ r₃, r₂.u32 = .ok (initial, r₃) ∧ r₃.rest = second :=
    ⟨_, reads_u32.of hfirst hrest₂, Reader.rest_advance_append hrest₂⟩
  have hflags : ¬(flags ≠ 0 ∧ flags ≠ 1) := by
    cases hsecond with
    | absent => exact fun h => h.1 rfl
    | present _ => exact fun h => h.2 rfl
  obtain ⟨r₄, hdeclared, hrest₄⟩ : ∃ r₄, declaredMaximum flags r₃ = .ok (declared, r₄) ∧
      r₄.rest = [] := by
    cases hsecond with
    | absent => exact ⟨r₃, rfl, hrest₃⟩
    | present hsecond =>
        have hall : r₃.rest = second ++ [] := hrest₃.trans (List.append_nil _).symm
        exact ⟨_, reads_u32.of hsecond hall, Reader.rest_advance_append hall⟩
  have hvalid : ¬(r₄.position ≠ r₄.end_ ∨ declared < initial ∨ 65536 < declared) := by
    have hend := Reader.rest_eq_nil.mp hrest₄
    have hwithin := r₄.within
    omega
  rw [boundedMemory, hu32, Checks.ok_bind]
  dsimp only
  rw [if_neg (not_not.mpr rfl), if_neg hmore, hbyte, Checks.ok_bind]
  dsimp only
  rw [if_neg hflags, hinitial, Checks.ok_bind]
  dsimp only
  rw [hdeclared, Checks.ok_bind]
  dsimp only
  rw [if_neg hvalid]
  rfl

/-- Only valid limits are bounded. -/
theorem boundedMemory_limits (h : boundedMemory r maximum = .ok bytes) :
    ∃ initial declared, MemoryLimits r.rest initial declared := by
  obtain ⟨⟨count, r₁⟩, hcount, h⟩ := Checks.bind_ok h
  obtain ⟨countBytes, hcountBytes, ⟨more₁, hmore₁⟩, rfl⟩ := (reads_u32 _ _ _).mp hcount
  dsimp only at h
  split at h
  · cases h
  split at h
  · cases h
  next hone _ =>
  obtain ⟨⟨flags, r₂⟩, hflags, h⟩ := Checks.bind_ok h
  have hrest₁ := Reader.rest_advance_append hmore₁.symm
  obtain ⟨_, rfl, ⟨more₂, hmore₂⟩, rfl⟩ := (reads_byte _ _ _).mp hflags
  have hrest₂ := Reader.rest_advance_append hmore₂.symm
  dsimp only at h
  split at h
  · cases h
  next hflag =>
  obtain ⟨⟨initial, r₃⟩, hinitial, h⟩ := Checks.bind_ok h
  obtain ⟨first, hfirst, ⟨more₃, hmore₃⟩, rfl⟩ := (reads_u32 _ _ _).mp hinitial
  have hrest₃ := Reader.rest_advance_append hmore₃.symm
  obtain ⟨⟨declared, r₄⟩, hdeclared, h⟩ := Checks.bind_ok h
  dsimp only at h
  split at h
  · cases h
  next hvalid =>
  have hrest₄ : r₄.rest = [] := Reader.rest_eq_nil.mpr (by omega)
  have hsecond : MaximumOf flags more₃ declared := by
    rw [declaredMaximum] at hdeclared
    split at hdeclared
    · next hone =>
      obtain ⟨second, hsecond, ⟨more₄, hmore₄⟩, rfl⟩ := (reads_u32 _ _ _).mp hdeclared
      have hlast := Reader.rest_advance_append hmore₄.symm
      rw [hrest₄] at hlast
      subst hlast
      rw [List.append_nil, hrest₃] at hmore₄
      rw [hone, ← hmore₄]
      exact .present hsecond
    · next hone =>
      obtain ⟨rfl, rfl⟩ := Prod.mk.inj (Except.ok.inj hdeclared)
      have hzero : flags = 0 := not_not.mp fun hzero => hflag ⟨hzero, hone⟩
      rw [hrest₃] at hrest₄
      rw [hzero, hrest₄]
      exact .absent
  refine ⟨initial, declared, countBytes, flags, first, more₃, ?_, ?_, hfirst, hsecond, by omega, by omega⟩
  · rw [← hmore₁, ← hrest₁, ← hmore₂, ← hrest₂, ← hmore₃]
    rfl
  · rwa [not_not.mp hone] at hcountBytes

end

/-! ## Walks that bound -/

section

variable {r : Reader} {m : Replacement} {memory : Option Replacement} {maximum initial declared : Nat}
  {f : Frame} {before : List Frame} {more : Bytes}

theorem boundSection_other (memory : Option Replacement) {sec : Section} (h : sec.id ≠ 5) :
    boundSection maximum memory sec = .ok memory := by
  show ite _ _ _ = _
  rw [if_neg h]

theorem boundSection_second {sec : Section} (h : sec.id = 5) : boundSection maximum (some m) sec =
    .error (typeError "WASI command requires exactly one defined memory") := by
  show ite _ _ _ = _
  rw [if_pos h]

/-- Behind the memory section, a walk ends where all that is left are other sections. -/
theorem walk_behind (hend : r.end_ = r.bytes.length) :
    walk (boundSection maximum) r (some m) = .ok memory ↔
      memory = some m ∧ ∃ after : List Frame, (∀ f ∈ after, f.id ≠ 5) ∧ r.rest = text after := by
  constructor
  · intro h
    induction hn : r.rest.length using Nat.strongRecOn generalizing r with
    | ind n ih =>
        subst hn
        rcases walk_cases (boundSection maximum) (some m) hend with
          ⟨hrest, hwalk⟩ | ⟨e, -, hwalk⟩ | ⟨f, more, sec, hrest, hat, hwalk⟩
        · rw [hwalk, Except.ok.injEq] at h
          exact ⟨h.symm, [], nofun, hrest⟩
        · rw [hwalk] at h
          cases h
        · rw [hwalk] at h
          by_cases hid : sec.id = 5
          · rw [boundSection_second hid] at h
            cases h
          · rw [boundSection_other _ hid] at h
            obtain ⟨hmemory, after, hafter, htext⟩ := @ih _ (length_rest_frame hrest)
              (r.advance f.bytes.length) hend h rfl
            refine ⟨hmemory, f :: after, List.forall_mem_cons.mpr ⟨hat.id ▸ hid, hafter⟩, ?_⟩
            rw [Reader.rest_advance_append hrest] at htext
            rw [hrest, htext]
            rfl
  · rintro ⟨rfl, after, hafter, htext⟩
    have hskip := walk_skip (boundSection maximum) (some m) hend (fun f hf s sec hid =>
      boundSection_other s (hid ▸ hafter f hf)) (htext.trans (List.append_nil _).symm)
    rw [hskip]
    refine walk_nil hend ?_
    exact Reader.rest_advance_append (htext.trans (List.append_nil _).symm)

/-- A walk that finds a memory found its section between others. -/
theorem walk_found (hend : r.end_ = r.bytes.length)
    (h : walk (boundSection maximum) r none = .ok (some m)) :
    ∃ (before : List Frame) (f : Frame) (after : List Frame) (initial declared : Nat),
      r.rest = text before ++ (f.bytes ++ text after) ∧ (∀ g ∈ before, g.id ≠ 5) ∧ f.id = 5 ∧
        (∀ g ∈ after, g.id ≠ 5) ∧ MemoryLimits f.payload initial declared := by
  induction hn : r.rest.length using Nat.strongRecOn generalizing r with
  | ind n ih =>
      subst hn
      rcases walk_cases (boundSection maximum) none hend with
        ⟨hrest, hwalk⟩ | ⟨e, -, hwalk⟩ | ⟨f, more, sec, hrest, hat, hwalk⟩
      · rw [hwalk] at h
        cases h
      · rw [hwalk] at h
        cases h
      · rw [hwalk] at h
        have hmore := Reader.rest_advance_append hrest
        by_cases hid : sec.id = 5
        · obtain ⟨memory, hstep, hwalk⟩ := Checks.bind_ok h
          have hstep : boundedMemory sec.payload maximum >>= _ = _ := (if_pos hid).symm.trans hstep
          obtain ⟨payload, hpayload, hsome⟩ := Checks.bind_ok hstep
          cases hsome
          obtain ⟨initial, declared, hlimits⟩ := boundedMemory_limits hpayload
          obtain ⟨-, after, hafter, htext⟩ := (walk_behind (r := r.advance f.bytes.length) hend).mp hwalk
          rw [hat.payload] at hlimits
          refine ⟨[], f, after, initial, declared, ?_, nofun, hat.id ▸ hid, hafter, hlimits⟩
          rw [hrest, ← hmore, htext]
          rfl
        · rw [boundSection_other _ hid] at h
          obtain ⟨before, g, after, initial, declared, htext, hbefore, hg, hafter, hlimits⟩ :=
            @ih _ (length_rest_frame hrest) (r.advance f.bytes.length) hend h rfl
          refine ⟨f :: before, g, after, initial, declared, ?_,
            List.forall_mem_cons.mpr ⟨hat.id ▸ hid, hbefore⟩, hg, hafter, hlimits⟩
          rw [hrest, ← hmore, htext, text_cons, List.append_assoc]

/-- The section that replaces one with these limits. -/
def boundedSection (initial maximum : Nat) : Bytes :=
  [5] ++ leb (boundedPayload initial maximum).length ++ boundedPayload initial maximum

/-- A walk comes to the memory section, and fails there if its initial size exceeds the bound. -/
theorem walk_memory (hend : r.end_ = r.bytes.length) (hbefore : ∀ g ∈ before, g.id ≠ 5)
    (hf : f.id = 5) (hlimits : MemoryLimits f.payload initial declared)
    (h : r.rest = text before ++ (f.bytes ++ more)) :
    walk (boundSection maximum) r none =
      if maximum < initial then .error exceeds
      else walk (boundSection maximum) ((r.advance (text before).length).advance f.bytes.length)
        (some ⟨r.position + (text before).length, r.position + (text before).length + f.bytes.length,
          boundedSection initial (min maximum declared)⟩) := by
  have hskip := walk_skip (boundSection maximum) none hend (fun g hg s sec hid =>
    boundSection_other s (hid ▸ hbefore g hg)) h
  have hrest := Reader.rest_advance_append h
  obtain ⟨sec, hat, hwalk⟩ := walk_frame (boundSection maximum) none
    (r := r.advance (text before).length) hend hrest
  have hid : sec.id = 5 := hat.id.trans hf
  have hposition := Reader.position_advance (room_of h)
  have hstep : boundSection maximum none sec = boundedMemory sec.payload maximum >>= fun payload =>
      .ok (some ⟨sec.start, sec.payload.end_, [5] ++ leb payload.length ++ payload⟩) := if_pos hid
  rw [← hat.payload] at hlimits
  rw [hskip, hwalk, hstep, boundedMemory_of hlimits, hat.start, hat.end_, hposition]
  split
  · rfl
  · rfl

end

/-! ## Bounded modules -/

/-- A module up to its first memory section, whose limits are valid, and what follows. -/
structure Prefixed (module : Bytes) (before : List Frame) (memory : Frame) (more : Bytes)
    (initial declared : Nat) : Prop where
  bytes : module = header ++ (text before ++ (memory.bytes ++ more))
  others : ∀ f ∈ before, f.id ≠ 5
  id : memory.id = 5
  limits : MemoryLimits memory.payload initial declared

section

variable {module output more : Bytes} {before after : List Frame} {memory : Frame}
  {initial declared maximum : Nat}

theorem length_header (h : header <+: module) : 8 ≤ module.length := h.length_le

theorem rest_sections {tail : Bytes} (h : module = header ++ tail) (hlength : 8 ≤ module.length) :
    (sections module hlength).rest = tail := by
  show (module.take module.length).drop 8 = tail
  rw [List.take_length, h]
  exact List.drop_left' rfl

theorem boundMemory_of_header (h : header <+: module) : boundMemory module maximum =
    walk (boundSection maximum) (sections module (length_header h)) none >>= fun memory =>
      match memory with
      | none => .error (typeError "WASI command requires exactly one defined memory")
      | some m => .ok (module.take m.start ++ m.replacement ++ module.drop m.end_) := by
  have hok : moduleBytes module = .ok module := moduleBytes_ok.mpr ⟨rfl, h⟩
  rw [boundMemory]
  split
  · next e he =>
    rw [hok] at he
    cases he
  · next bytes hbytes =>
    obtain rfl : bytes = module := (moduleBytes_ok.mp hbytes).1
    rfl

theorem Prefixed.header (h : Prefixed module before memory more initial declared) :
    header <+: module := by
  rw [h.bytes]
  exact List.prefix_append _ _

/-- An initial size over the bound is refused. -/
theorem Prefixed.exceeds (h : Prefixed module before memory more initial declared)
    (hover : maximum < initial) : boundMemory module maximum = .error exceeds := by
  have hrest := rest_sections h.bytes (length_header h.header)
  rw [boundMemory_of_header h.header, walk_memory rfl h.others h.id h.limits hrest, if_pos hover]
  rfl

/-- The bounded module. -/
def bounded (before : List Frame) (initial maximum : Nat) (after : Bytes) : Bytes :=
  header ++ (text before ++ (boundedSection initial maximum ++ after))

/-- A module with other sections behind its memory section is bounded. -/
theorem Prefixed.bounds (h : Prefixed module before memory (text after) initial declared)
    (hafter : ∀ f ∈ after, f.id ≠ 5) (hle : initial ≤ maximum) :
    boundMemory module maximum = .ok (bounded before initial (min maximum declared) (text after)) := by
  have hrest := rest_sections h.bytes (length_header h.header)
  have hmore : (((sections module (length_header h.header)).advance (text before).length).advance
      memory.bytes.length).rest = text after :=
    Reader.rest_advance_append (Reader.rest_advance_append hrest)
  rw [boundMemory_of_header h.header, walk_memory rfl h.others h.id h.limits hrest,
    if_neg (Nat.not_lt.mpr hle)]
  rw [(walk_behind rfl).mpr ⟨rfl, after, hafter, hmore⟩, Checks.ok_bind]
  have hstart : module.take (8 + (text before).length) = Binary.header ++ text before := by
    rw [h.bytes, ← List.append_assoc]
    exact List.take_left' (List.length_append ..)
  have hend : module.drop (8 + (text before).length + memory.bytes.length) = text after := by
    rw [h.bytes, ← List.append_assoc, ← List.append_assoc]
    exact List.drop_left' (by rw [List.length_append, List.length_append]; rfl)
  show Except.ok (module.take (8 + (text before).length) ++ boundedSection _ _ ++
    module.drop (8 + (text before).length + memory.bytes.length)) = _
  rw [hstart, hend, bounded, List.append_assoc, List.append_assoc]

/-- Only such modules are bounded. -/
theorem boundMemory_ok (h : boundMemory module maximum = .ok output) :
    ∃ (before after : List Frame) (memory : Frame) (initial declared : Nat),
      Prefixed module before memory (text after) initial declared ∧ (∀ f ∈ after, f.id ≠ 5) ∧
        initial ≤ maximum := by
  have hheader : header <+: module := by
    rw [boundMemory] at h
    split at h
    · cases h
    · next bytes hbytes =>
      obtain ⟨rfl, hheader⟩ := moduleBytes_ok.mp hbytes
      exact hheader
  have hbound := h
  rw [boundMemory_of_header hheader] at h
  obtain ⟨found, hwalk, h⟩ := Checks.bind_ok h
  cases found with
  | none => cases h
  | some m =>
      obtain ⟨tail, htail⟩ := hheader
      obtain ⟨before, memory, after, initial, declared, htext, hbefore, hid, hafter, hlimits⟩ :=
        walk_found rfl hwalk
      rw [rest_sections htail.symm] at htext
      have hprefixed : Prefixed module before memory (text after) initial declared :=
        ⟨by rw [← htail, htext], hbefore, hid, hlimits⟩
      refine ⟨before, after, memory, initial, declared, hprefixed, hafter, ?_⟩
      refine Nat.le_of_not_lt fun hover => ?_
      rw [hprefixed.exceeds hover] at hbound
      cases hbound

/-! ### Twice -/

/-- The section of valid limits as a frame. -/
theorem boundedSection_frame (hle : initial ≤ maximum) (hmax : maximum ≤ 65536) :
    ∃ f : Frame, f.bytes = boundedSection initial maximum ∧ f.id = 5 ∧
      MemoryLimits f.payload initial maximum := by
  have hshort : ∀ n ≤ 65536, (leb n).length ≤ 5 := by
    intro n hn
    rw [leb_eq]
    exact length_unsigned_le (by decide) (Nat.lt_of_le_of_lt hn (by decide))
  have hlength : (boundedPayload initial maximum).length < 2 ^ 32 := by
    rw [boundedPayload, List.length_append, List.length_append]
    have h₁ := hshort initial (hle.trans hmax)
    have h₂ := hshort maximum hmax
    simp only [List.length_cons, List.length_nil]
    omega
  refine ⟨⟨5, leb (boundedPayload initial maximum).length, boundedPayload initial maximum,
    u32_leb_of hlength⟩, ?_, rfl, memoryLimits_bounded hle hmax⟩
  rw [Frame.bytes, boundedSection, List.append_assoc]
  rfl

/-- A bounded module has its memory section with the lower limits. -/
theorem Prefixed.bounded (h : Prefixed module before memory (text after) initial declared)
    (hle : initial ≤ maximum) : ∃ memory', Prefixed (bounded before initial (min maximum declared)
      (text after)) before memory' (text after) initial (min maximum declared) := by
  obtain ⟨-, -, -, -, -, -, -, -, hinitial, hdeclared⟩ := h.limits
  obtain ⟨f, hbytes, hid, hlimits⟩ := @boundedSection_frame initial (min maximum declared)
    (Nat.le_min.mpr ⟨hle, hinitial⟩) ((Nat.min_le_right _ _).trans hdeclared)
  exact ⟨f, ⟨by rw [hbytes, Binary.bounded], h.others, hid, hlimits⟩⟩

/-- Bounding twice is bounding with the lower bound. -/
theorem boundMemory_twice (module : Bytes) (a b : Nat) :
    (boundMemory module a >>= fun output => boundMemory output b).toOption =
      (boundMemory module (min a b)).toOption := by
  cases ha : boundMemory module a with
  | ok output =>
      obtain ⟨before, after, memory, initial, declared, hprefixed, hafter, hle⟩ := boundMemory_ok ha
      rw [hprefixed.bounds hafter hle, Except.ok.injEq] at ha
      obtain ⟨memory', hagain⟩ := hprefixed.bounded hle
      rw [ha] at hagain
      rw [Checks.ok_bind]
      by_cases hb : initial ≤ b
      · rw [hagain.bounds hafter hb, hprefixed.bounds hafter (Nat.le_min.mpr ⟨hle, hb⟩),
          ← Nat.min_assoc, Nat.min_comm b a]
      · have hover : b < initial := Nat.lt_of_not_le hb
        rw [hagain.exceeds hover, hprefixed.exceeds (Nat.lt_of_le_of_lt (Nat.min_le_right _ _) hover)]
  | error e =>
      cases hmin : boundMemory module (min a b) with
      | error e' => rfl
      | ok output =>
          obtain ⟨before, after, memory, initial, declared, hprefixed, hafter, hle⟩ := boundMemory_ok hmin
          have hbounds := hprefixed.bounds hafter (hle.trans (Nat.min_le_left _ _))
          rw [hbounds] at ha
          cases ha

end

end Binary
