import CapnpcWasm.Binary.Grammars

/-!
# Sections

A module is a header and sections, each an id, a size and a payload.  Every walker of the rewriter
reads one section after the other and does something with each.
-/

namespace Binary

open TsSdk Leb

/-! ## Walking -/

/-- Magic and version. -/
def header : Bytes := [0, 97, 115, 109, 1, 0, 0, 0]

/-- A header-checked copy of a module's bytes. -/
def moduleBytes (module : Bytes) : Except TypeError Bytes :=
  if header.zipIdx.any fun (value, index) => module[index]? ≠ some value then
    .error (typeError "invalid Wasm header")
  else .ok module

/-- A section as the walkers see it: where its id is, and its payload. -/
structure Section where
  start : Nat
  id : UInt8
  payload : Reader

/-- `new Reader(bytes, position, position + count)`. -/
def Reader.upto (r : Reader) (count : Nat) (h : r.position + count ≤ r.end_) : Reader where
  bytes := r.bytes
  position := r.position
  end_ := r.position + count
  within := Nat.le_add_right _ _
  fits := Nat.le_trans h r.fits

/-- The readers of the walkers end where their bytes do. -/
def nextSection (r : Reader) : Except TypeError (Section × Reader) := do
  let (id, r₁) ← r.byte
  let (size, r₂) ← r₁.u32
  if h : r₂.position + size ≤ r₂.end_ then
    return (⟨r.position, id, r₂.upto size h⟩, { r₂ with position := r₂.position + size, within := h })
  else .error (typeError "truncated Wasm section")

/-- The bytes of a section with its id, its size as it is encoded, and its payload. -/
structure Frame where
  id : UInt8
  size : Bytes
  payload : Bytes
  sized : U32 size payload.length

def Frame.bytes (f : Frame) : Bytes := f.id :: (f.size ++ f.payload)

def text (frames : List Frame) : Bytes := frames.flatMap Frame.bytes

theorem text_cons (f : Frame) (frames : List Frame) : text (f :: frames) = f.bytes ++ text frames :=
  List.flatMap_cons

/-- The section of a frame at the beginning of what a reader has left. -/
structure Frame.At (f : Frame) (r : Reader) (sec : Section) : Prop where
  start : sec.start = r.position
  id : sec.id = f.id
  payload : sec.payload.rest = f.payload
  bytes : sec.payload.bytes = r.bytes
  end_ : sec.payload.end_ = r.position + f.bytes.length

section

variable {r r' : Reader} {sec : Section} {f : Frame} {bytes more : Bytes}

theorem Frame.length_bytes (f : Frame) : f.bytes.length = 1 + f.size.length + f.payload.length := by
  rw [Frame.bytes, List.length_cons, List.length_append]
  omega

theorem room_of (h : r.rest = bytes ++ more) : r.position + bytes.length ≤ r.end_ := by
  have hlength := r.length_rest
  have hwithin := r.within
  rw [h, List.length_append] at hlength
  omega

theorem rest_upto {count : Nat} (h : r.position + count ≤ r.end_) :
    (r.upto count h).rest = r.rest.take count := by
  show (r.bytes.take (r.position + count)).drop r.position =
    ((r.bytes.take r.end_).drop r.position).take count
  rw [List.take_drop, List.take_take, Nat.min_eq_left h]

/-- A reader at a frame reads its section. -/
theorem nextSection_of (h : r.rest = f.bytes ++ more) :
    ∃ sec, nextSection r = .ok (sec, r.advance f.bytes.length) ∧ f.At r sec := by
  have hlength := f.length_bytes
  obtain ⟨id, size, payload, hsized⟩ := f
  have hsplit : r.rest = (id :: size) ++ (payload ++ more) := by
    rw [h]
    exact List.append_assoc (id :: size) payload more
  obtain ⟨r₁, hbyte, hrest₁, hr₁⟩ : ∃ r₁, r.byte = .ok (id, r₁) ∧ r₁.rest = size ++ (payload ++ more) ∧
      r₁ = r.advance 1 := ⟨_, Reader.byte_cons hsplit, by rw [Reader.rest_advance, hsplit]; rfl, rfl⟩
  obtain ⟨r₂, hu32, hrest₂, hr₂⟩ : ∃ r₂, r₁.u32 = .ok (payload.length, r₂) ∧
      r₂.rest = payload ++ more ∧ r₂ = r.advance (1 + size.length) :=
    ⟨_, reads_u32.of hsized hrest₁, Reader.rest_advance_append hrest₁, by
      rw [hr₁, Reader.advance_advance]⟩
  have hroom := room_of hrest₂
  have hposition : r₂.position = r.position + (1 + size.length) := by
    have hpos := Reader.position_advance (room_of hsplit)
    rw [List.length_cons, Nat.add_comm size.length] at hpos
    rw [hr₂, hpos]
  have hbytes : r₂.bytes = r.bytes := by rw [hr₂]; rfl
  have hend : r₂.end_ = r.end_ := by rw [hr₂]; rfl
  refine ⟨⟨r.position, id, r₂.upto payload.length hroom⟩, ?_, rfl, rfl, ?_, hbytes, ?_⟩
  · rw [nextSection, hbyte]
    show r₁.u32 >>= _ = _
    rw [hu32]
    show dite _ _ _ = _
    rw [dif_pos hroom]
    have hafter : ({ r₂ with position := r₂.position + payload.length, within := hroom } : Reader) =
        r.advance (Frame.bytes ⟨id, size, payload, hsized⟩).length := by
      refine Reader.eq_of hbytes ?_ hend
      rw [Reader.position_advance (room_of h), hlength]
      show r₂.position + payload.length = _
      rw [hposition]
      dsimp only
      omega
    rw [← hafter]
    rfl
  · rw [rest_upto, hrest₂, List.take_left]
  · show r₂.position + payload.length = _
    rw [hposition, hlength]
    dsimp only
    omega

/-- A section is read only at a frame. -/
theorem nextSection_ok (h : nextSection r = .ok (sec, r')) :
    ∃ (f : Frame) (more : Bytes), r.rest = f.bytes ++ more ∧ r' = r.advance f.bytes.length ∧ f.At r sec := by
  have hread := h
  obtain ⟨⟨id, r₁⟩, hbyte, h⟩ := Checks.bind_ok h
  obtain ⟨⟨size, r₂⟩, hu32, h⟩ := Checks.bind_ok h
  dsimp only at h
  split at h
  · next hroom =>
    obtain ⟨_, rfl, ⟨more₁, hmore₁⟩, rfl⟩ := (reads_byte _ _ _).mp hbyte
    have hrest₁ := Reader.rest_advance_append hmore₁.symm
    obtain ⟨bytes, hsize, ⟨more₂, hmore₂⟩, rfl⟩ := (reads_u32 _ _ _).mp hu32
    rw [hrest₁] at hmore₂
    have hrest₂ := Reader.rest_advance_append (hrest₁.trans hmore₂.symm)
    have hlength := Reader.length_rest ((r.advance [id].length).advance bytes.length)
    rw [hrest₂] at hlength
    have htake : (more₂.take size).length = size := by
      rw [List.length_take]
      omega
    let f : Frame := ⟨id, bytes, more₂.take size, by rw [htake]; exact hsize⟩
    have hrest : r.rest = f.bytes ++ more₂.drop size := by
      rw [← hmore₁, ← hmore₂]
      show [id] ++ (bytes ++ more₂) = [id] ++ (bytes ++ more₂.take size) ++ more₂.drop size
      rw [List.append_assoc, List.append_assoc, List.take_append_drop]
    obtain ⟨sec', hsec', hat⟩ := nextSection_of hrest
    rw [hread] at hsec'
    obtain ⟨rfl, rfl⟩ := Prod.mk.inj (Except.ok.inj hsec')
    exact ⟨f, _, hrest, rfl, hat⟩
  · cases h

theorem nextSection_lt (h : nextSection r = .ok (sec, r')) :
    r.position < r'.position ∧ r'.bytes = r.bytes := by
  obtain ⟨f, more, hrest, rfl, -⟩ := nextSection_ok h
  rw [Reader.position_advance (room_of hrest), f.length_bytes]
  exact ⟨by omega, rfl⟩

end

/-- Reads one section after the other. -/
def walk {σ : Type} (step : σ → Section → Except TypeError σ) (r : Reader) (s : σ) :
    Except TypeError σ :=
  if r.position < r.bytes.length then
    match h : nextSection r with
    | .error e => .error e
    | .ok (sec, r') =>
        have := nextSection_lt h
        step s sec >>= walk step r'
  else .ok s
termination_by r.bytes.length - r.position
decreasing_by
  rw [this.2]
  omega

section

variable {σ : Type} {step : σ → Section → Except TypeError σ} {r : Reader} {s s' : σ} {f : Frame}
  {more : Bytes}

theorem rest_nil_iff (hend : r.end_ = r.bytes.length) : r.rest = [] ↔ ¬r.position < r.bytes.length := by
  rw [Reader.rest_eq_nil, hend, Nat.not_lt]

theorem walk_nil (hend : r.end_ = r.bytes.length) (h : r.rest = []) : walk step r s = .ok s := by
  rw [walk, if_neg ((rest_nil_iff hend).mp h)]

theorem walk_error {e : TypeError} (hend : r.end_ = r.bytes.length) (h : r.rest ≠ [])
    (he : nextSection r = .error e) : walk step r s = .error e := by
  have hlt : r.position < r.bytes.length := not_not.mp ((not_congr (rest_nil_iff hend)).mp h)
  rw [walk, if_pos hlt]
  split
  · next e' he' =>
    rw [he] at he'
    cases he'
    rfl
  · next hok =>
    rw [he] at hok
    cases hok

/-- At a frame the walker does its step, and goes on behind the frame. -/
theorem walk_frame (step : σ → Section → Except TypeError σ) (s : σ)
    (hend : r.end_ = r.bytes.length) (h : r.rest = f.bytes ++ more) :
    ∃ sec, f.At r sec ∧ walk step r s = step s sec >>= walk step (r.advance f.bytes.length) := by
  obtain ⟨sec, hsec, hat⟩ := nextSection_of h
  have hne : r.rest ≠ [] := by
    rw [h]
    exact List.cons_ne_nil _ _
  have hlt : r.position < r.bytes.length := not_not.mp ((not_congr (rest_nil_iff hend)).mp hne)
  refine ⟨sec, hat, ?_⟩
  rw [walk, if_pos hlt]
  split
  · next e he =>
    rw [hsec] at he
    cases he
  · next hok =>
    rw [hsec] at hok
    cases hok
    rfl

/-- Where a walker is: at the end, before bytes that are no section, or at a frame. -/
theorem walk_cases (step : σ → Section → Except TypeError σ) (s : σ) (hend : r.end_ = r.bytes.length) :
    (r.rest = [] ∧ walk step r s = .ok s) ∨
    (∃ e, nextSection r = .error e ∧ walk step r s = .error e) ∨
    ∃ (f : Frame) (more : Bytes) (sec : Section), r.rest = f.bytes ++ more ∧ f.At r sec ∧
      walk step r s = step s sec >>= walk step (r.advance f.bytes.length) := by
  by_cases hrest : r.rest = []
  · exact .inl ⟨hrest, walk_nil hend hrest⟩
  · right
    cases h : nextSection r with
    | error e => exact .inl ⟨e, rfl, walk_error hend hrest h⟩
    | ok x =>
        obtain ⟨f, more, hframe, -, -⟩ := nextSection_ok h
        obtain ⟨sec, hat, hwalk⟩ := walk_frame step s hend hframe
        exact .inr ⟨f, more, sec, hframe, hat, hwalk⟩

theorem length_rest_frame (h : r.rest = f.bytes ++ more) :
    (r.advance f.bytes.length).rest.length < r.rest.length := by
  rw [Reader.rest_advance_append h, h, List.length_append, f.length_bytes]
  omega

/-- Frames the walker does nothing with. -/
theorem walk_skip {frames : List Frame} (step : σ → Section → Except TypeError σ) (s : σ)
    (hend : r.end_ = r.bytes.length)
    (hskip : ∀ f ∈ frames, ∀ s (sec : Section), sec.id = f.id → step s sec = .ok s)
    (h : r.rest = text frames ++ more) :
    walk step r s = walk step (r.advance (text frames).length) s := by
  induction frames generalizing r with
  | nil => rw [text, List.flatMap_nil, List.length_nil, Reader.advance_zero]
  | cons f frames ih =>
      rw [List.forall_mem_cons] at hskip
      have hsplit : r.rest = f.bytes ++ (text frames ++ more) := by
        rw [h, text_cons, List.append_assoc]
      obtain ⟨sec, hat, hwalk⟩ := walk_frame step s hend hsplit
      have hrest := Reader.rest_advance_append hsplit
      have hnext := @ih (r.advance f.bytes.length) hend hskip.2 hrest
      rw [hwalk, hskip.1 s sec hat.id]
      refine hnext.trans ?_
      rw [Reader.advance_advance, text_cons, List.length_append]

end

end Binary
