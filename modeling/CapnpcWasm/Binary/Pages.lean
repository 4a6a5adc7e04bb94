import CapnpcWasm.Binary.Memory

/-!
# The pages Go reads

`initialMemoryPages` of the Go SDK reads the initial size of the first memory with a walker of its
own, which knows no limit on the length of a number but 64 bits.  Where `boundMemory` comes to a
memory with valid limits, it finds the same size.
-/

namespace Binary

open TsSdk Leb

/-! ## Reading -/

/-- The loop of `binary.Uvarint`, at the byte with that index. -/
def uvarintLoop : Nat → BitVec 64 → Bytes → Nat × Int
  | _, _, [] => (0, 0)
  | i, x, b :: buf =>
      if i = 10 then (0, -(i + 1))
      else if b.toNat < 128 then
        if i = 9 ∧ 1 < b.toNat then (0, -(i + 1))
        else ((x ||| (BitVec.ofNat 64 b.toNat <<< (7 * i))).toNat, i + 1)
      else uvarintLoop (i + 1) (x ||| (BitVec.ofNat 64 (b &&& 127).toNat <<< (7 * i))) buf

/-- `binary.Uvarint`: a number and how many bytes it takes, which is not positive where there is
none. -/
def uvarint (buf : Bytes) : Nat × Int := uvarintLoop 0 0 buf

/-- The size of the first memory of a memory section. -/
def sectionPages (section_ : Bytes) : Option Nat :=
  let (count, n) := uvarint section_
  if n ≤ 0 ∨ count = 0 ∨ section_.length ≤ n then none
  else
    let (pages, k) := uvarint (section_.drop (n.toNat + 1))
    if 0 < k then some pages else none

/-- The loop of `initialMemoryPages`. -/
def pagesFrom (wasm : Bytes) (position : Nat) : Option Nat :=
  if h : position < wasm.length then
    let id := wasm[position]
    let (size, n) := uvarint (wasm.drop (position + 1))
    if n ≤ 0 ∨ wasm.length - (position + 1) - n.toNat < size then none
    else
      let start := position + 1 + n.toNat
      if id ≠ 5 then pagesFrom wasm (start + size)
      else sectionPages ((wasm.drop start).take size)
  else none
termination_by wasm.length - position
decreasing_by omega

/-- The initial size of a module's first memory.  `none` where the module has no memory section or
does not decode. -/
def initialMemoryPages (wasm : Bytes) : Option Nat :=
  if wasm.length < 8 ∨ wasm.take 4 ≠ [0, 97, 115, 109] then none else pagesFrom wasm 8

/-! ## Agreement -/

section

variable {bytes more : Bytes} {n : Nat}

/-- A group added above the bits read so far. -/
theorem or_group64 {acc : BitVec 64} {k i : Nat} (hacc : acc.toNat < 2 ^ (7 * i)) (hk : k < 128)
    (hi : i ≤ 8) : (acc ||| (BitVec.ofNat 64 k <<< (7 * i))).toNat = acc.toNat + k * 2 ^ (7 * i) := by
  have hpow : 2 ^ (7 * i) * 128 ≤ 2 ^ 64 := by
    have hle : 2 ^ (7 * i + 7) ≤ 2 ^ 64 := Nat.pow_le_pow_right (by decide) (by omega)
    rwa [Nat.pow_add] at hle
  have hmul : 2 ^ (7 * i) * k < 2 ^ 64 :=
    Nat.lt_of_lt_of_le (Nat.mul_lt_mul_of_pos_left hk (Nat.two_pow_pos _)) hpow
  have hshift : (BitVec.ofNat 64 k <<< (7 * i)).toNat = 2 ^ (7 * i) * k := by
    rw [BitVec.toNat_shiftLeft, BitVec.toNat_ofNat, Nat.mod_eq_of_lt (show k < 2 ^ 64 by omega),
      Nat.shiftLeft_eq, Nat.mul_comm k, Nat.mod_eq_of_lt hmul]
  rw [BitVec.toNat_or, hshift, Nat.or_comm, ← Nat.two_pow_add_eq_or_of_lt hacc, Nat.add_comm,
    Nat.mul_comm k]

theorem uvarintLoop_of {i : Nat} {acc : BitVec 64} (h : Encodes bytes n)
    (hacc : acc.toNat < 2 ^ (7 * i)) (hlength : i + bytes.length ≤ 9) :
    uvarintLoop i acc (bytes ++ more) = (acc.toNat + n * 2 ^ (7 * i), ((i + bytes.length : Nat) : Int)) := by
  induction h generalizing i acc with
  | @last b hlast =>
      have hb : b.toNat < 128 := by
        rw [Bool.eq_false_iff, ne_eq, continues_iff] at hlast
        omega
      rw [List.length_singleton] at hlength
      have hi : i ≤ 8 := Nat.le_of_succ_le_succ hlength
      have hgroup : group b = b.toNat := by rw [group_eq, Nat.mod_eq_of_lt hb]
      rw [List.singleton_append, uvarintLoop, if_neg (by omega), if_pos hb,
        if_neg (by omega), or_group64 hacc hb hi, hgroup]
      rfl
  | @next b tail m hnext henc ih =>
      rw [List.length_cons] at hlength
      have hb : ¬b.toNat < 128 := by
        rw [continues_iff] at hnext
        omega
      have hgroup := group_lt b
      have hor := or_group64 hacc hgroup (show i ≤ 8 by omega)
      have hpow : 2 ^ (7 * (i + 1)) = 128 * 2 ^ (7 * i) := by
        rw [show 7 * (i + 1) = 7 + 7 * i by omega, Nat.pow_add]
      have hsum : acc.toNat + group b * 2 ^ (7 * i) < 2 ^ (7 * (i + 1)) := by
        have hle : group b * 2 ^ (7 * i) ≤ 127 * 2 ^ (7 * i) :=
          Nat.mul_le_mul_right _ (Nat.le_of_lt_succ hgroup)
        omega
      have hih := @ih (i + 1) (acc ||| (BitVec.ofNat 64 (group b) <<< (7 * i))) (by
        rw [hor]
        exact hsum) (by omega)
      rw [List.cons_append, uvarintLoop, if_neg (by omega), if_neg hb]
      refine hih.trans ?_
      rw [hor, hpow, List.length_cons]
      refine Prod.ext ?_ ?_
      · show acc.toNat + group b * 2 ^ (7 * i) + m * (128 * 2 ^ (7 * i)) =
          acc.toNat + (group b + 128 * m) * 2 ^ (7 * i)
        ring
      · show ((i + 1 + tail.length : Nat) : Int) = (i + (tail.length + 1) : Nat)
        rw [Nat.add_assoc, Nat.add_comm 1]

/-- A number of the rewriter is one of Go's. -/
theorem uvarint_of (h : U32 bytes n) : uvarint (bytes ++ more) = (n, (bytes.length : Int)) := by
  have hlength := h.2.1
  have hloop : uvarintLoop 0 0 (bytes ++ more) = _ := uvarintLoop_of h.1 (by decide) (by omega)
  rw [uvarint, hloop]
  simp

theorem U32.pos (h : U32 bytes n) : 0 < bytes.length :=
  List.length_pos_of_ne_nil h.1.ne_nil

theorem sectionPages_of {initial declared : Nat} (h : MemoryLimits bytes initial declared) :
    sectionPages bytes = some initial := by
  obtain ⟨count, flags, first, second, rfl, hcount, hfirst, -⟩ := h
  have hpos := hcount.pos
  have hdrop : (count ++ flags :: (first ++ second)).drop (count.length + 1) = first ++ second := by
    rw [← List.drop_drop, List.drop_left]
    rfl
  rw [sectionPages, uvarint_of hcount]
  dsimp only
  rw [Int.toNat_natCast, hdrop, uvarint_of hfirst]
  dsimp only
  rw [if_neg, if_pos (by exact_mod_cast hfirst.pos)]
  simp only [List.length_append, List.length_cons]
  omega

/-- At a frame the walker of Go stops or goes on behind it. -/
theorem pagesFrom_frame {wasm : Bytes} {position : Nat} {f : Frame}
    (h : wasm.drop position = f.bytes ++ more) : pagesFrom wasm position =
      if f.id ≠ 5 then pagesFrom wasm (position + f.bytes.length) else sectionPages f.payload := by
  have hlength := f.length_bytes
  obtain ⟨id, size, payload, hsized⟩ := f
  have hpos := hsized.pos
  have hlt : position < wasm.length := by
    refine Nat.lt_of_not_le fun hle => ?_
    rw [List.drop_of_length_le hle] at h
    cases h
  have hwasm : wasm.length - position = 1 + size.length + payload.length + more.length := by
    rw [← List.length_drop, h, List.length_append, hlength]
  have hid : wasm[position] = id := by
    have hfirst : (wasm.drop position)[0]? = some id := by rw [h]; rfl
    rw [List.getElem?_drop, Nat.add_zero, List.getElem?_eq_getElem hlt] at hfirst
    exact Option.some.inj hfirst
  have hnext : wasm.drop (position + 1) = size ++ (payload ++ more) := by
    rw [← List.drop_drop, h]
    exact List.append_assoc _ _ _
  have hpayload : (wasm.drop (position + 1 + size.length)).take payload.length = payload := by
    rw [← List.drop_drop, hnext, List.drop_left, List.take_left]
  rw [pagesFrom, dif_pos hlt, hnext, uvarint_of hsized]
  dsimp only
  rw [if_neg (by rw [Int.toNat_natCast]; omega), hid, Int.toNat_natCast, hpayload, hlength]
  dsimp only
  rw [show position + (1 + size.length + payload.length) = position + 1 + size.length + payload.length by
    omega]

theorem pagesFrom_skip {wasm : Bytes} {position : Nat} {frames : List Frame}
    (hothers : ∀ f ∈ frames, f.id ≠ 5) (h : wasm.drop position = text frames ++ more) :
    pagesFrom wasm position = pagesFrom wasm (position + (text frames).length) := by
  induction frames generalizing position with
  | nil => rfl
  | cons f frames ih =>
      rw [List.forall_mem_cons] at hothers
      rw [text_cons, List.append_assoc] at h
      have hnext : wasm.drop (position + f.bytes.length) = text frames ++ more := by
        rw [← List.drop_drop, h, List.drop_left]
      rw [pagesFrom_frame h, if_pos hothers.1, ih hothers.2 hnext, text_cons, List.length_append,
        Nat.add_assoc]

/-- Go finds the initial size of the memory. -/
theorem Prefixed.pages {module : Bytes} {before : List Frame} {memory : Frame} {initial declared : Nat}
    (h : Prefixed module before memory more initial declared) :
    initialMemoryPages module = some initial := by
  have hlength := length_header h.header
  have hmagic : module.take 4 = [0, 97, 115, 109] := by
    rw [h.bytes]
    rfl
  have hsections : module.drop 8 = text before ++ (memory.bytes ++ more) := by
    rw [h.bytes]
    exact List.drop_left' rfl
  have hmemory : module.drop (8 + (text before).length) = memory.bytes ++ more := by
    rw [← List.drop_drop, hsections, List.drop_left]
  rw [initialMemoryPages, if_neg (by rw [hmagic]; simp; omega), pagesFrom_skip h.others hsections,
    pagesFrom_frame hmemory, if_neg (not_not.mpr h.id), sectionPages_of h.limits]

end

/-! ## Refusals -/

section

variable {r r' : Reader} {e : TypeError} {more : Bytes}

theorem byte_error (h : r.byte = .error e) : e = typeError "truncated Wasm section" := by
  rw [Reader.byte] at h
  split at h
  · cases h
  · exact (Except.error.inj h).symm

theorem u32Loop_error {left value : Nat} (h : Reader.u32Loop left value r = .error e) :
    e = typeError "truncated Wasm section" ∨ e = typeError "invalid Wasm u32 encoding" := by
  induction left generalizing value r with
  | zero => exact .inr (Except.error.inj h).symm
  | succ left ih =>
      rw [Reader.u32Loop] at h
      cases hbyte : r.byte with
      | error e' =>
          rw [hbyte] at h
          cases h
          exact .inl (byte_error hbyte)
      | ok x =>
          rw [hbyte, Checks.ok_bind] at h
          dsimp only at h
          split at h
          · exact .inr (Except.error.inj h).symm
          · split at h
            · cases h
            · exact ih h

theorem nextSection_error (h : nextSection r = .error e) :
    e = typeError "truncated Wasm section" ∨ e = typeError "invalid Wasm u32 encoding" := by
  rw [nextSection] at h
  cases hbyte : r.byte with
  | error e' =>
      rw [hbyte] at h
      cases h
      exact .inl (byte_error hbyte)
  | ok x =>
      rw [hbyte, Checks.ok_bind] at h
      dsimp only at h
      cases hu32 : x.2.u32 with
      | error e' =>
          rw [hu32] at h
          cases h
          exact u32Loop_error hu32
      | ok y =>
          rw [hu32, Checks.ok_bind] at h
          split at h
          · cases h
          · exact .inl (Except.error.inj h).symm

/-- Behind the memory section nothing is refused for its size. -/
theorem walk_behind_error {maximum : Nat} {m : Replacement} (hend : r.end_ = r.bytes.length)
    (h : walk (boundSection maximum) r (some m) = .error e) : e ≠ exceeds := by
  induction hn : r.rest.length using Nat.strongRecOn generalizing r with
  | ind n ih =>
      subst hn
      rcases walk_cases (boundSection maximum) (some m) hend with
        ⟨hrest, hwalk⟩ | ⟨e', he', hwalk⟩ | ⟨f, more, sec, hrest, hat, hwalk⟩
      · rw [hwalk] at h
        cases h
      · rw [hwalk] at h
        cases h
        rcases nextSection_error he' with rfl | rfl
        all_goals decide +kernel
      · rw [hwalk] at h
        by_cases hid : sec.id = 5
        · rw [boundSection_second hid] at h
          cases h
          decide +kernel
        · rw [boundSection_other _ hid] at h
          exact @ih _ (length_rest_frame hrest) (r.advance f.bytes.length) hend h rfl

/-- A module is refused for its size exactly when its initial size exceeds the bound. -/
theorem Prefixed.refused_iff {module : Bytes} {before : List Frame} {memory : Frame}
    {initial declared maximum : Nat} (h : Prefixed module before memory more initial declared) :
    boundMemory module maximum = .error Binary.exceeds ↔ maximum < initial := by
  refine ⟨fun hrefused => Nat.lt_of_not_le fun hle => ?_, h.exceeds⟩
  have hrest := rest_sections h.bytes (length_header h.header)
  rw [boundMemory_of_header h.header, walk_memory rfl h.others h.id h.limits hrest,
    if_neg (Nat.not_lt.mpr hle)] at hrefused
  cases hwalk : walk (boundSection maximum) (((sections module (length_header h.header)).advance
      (text before).length).advance memory.bytes.length) _ with
  | error e =>
      rw [hwalk] at hrefused
      exact walk_behind_error rfl hwalk (Except.error.inj hrefused)
  | ok found =>
      obtain ⟨rfl, -⟩ := (walk_behind rfl).mp hwalk
      rw [hwalk] at hrefused
      cases hrefused

/-- Of a module that is accepted under some bound, both SDKs read the same size, before and after it was
bounded, and both refuse it under the same bounds. -/
theorem pages_agree {module output : Bytes} {maximum : Nat} (h : boundMemory module maximum = .ok output) :
    ∃ pages ≤ maximum, initialMemoryPages module = some pages ∧ initialMemoryPages output = some pages ∧
      ∀ bound, (boundMemory module bound = .error exceeds ↔ bound < pages) ∧
        ((∃ bytes, boundMemory module bound = .ok bytes) ↔ pages ≤ bound) := by
  obtain ⟨before, after, memory, initial, declared, hprefixed, hafter, hle⟩ := boundMemory_ok h
  obtain ⟨memory', hbounded⟩ := hprefixed.bounded hle
  rw [hprefixed.bounds hafter hle, Except.ok.injEq] at h
  rw [h] at hbounded
  refine ⟨initial, hle, hprefixed.pages, hbounded.pages, fun bound => ⟨hprefixed.refused_iff, ?_, ?_⟩⟩
  · rintro ⟨bytes, hbytes⟩
    refine Nat.le_of_not_lt fun hover => ?_
    rw [hprefixed.exceeds hover] at hbytes
    cases hbytes
  · exact fun hbound => ⟨_, hprefixed.bounds hafter hbound⟩

end

/-- A module of a memory of one page. -/
def onePage : Bytes := header ++ [5, 3, 1, 0, 1]

theorem pages_agree_onePage : ∃ output, boundMemory onePage 4 = .ok output ∧
    ∃ pages ≤ 4, initialMemoryPages onePage = some pages ∧ initialMemoryPages output = some pages ∧
      ∀ bound, (boundMemory onePage bound = .error exceeds ↔ bound < pages) ∧
        ((∃ bytes, boundMemory onePage bound = .ok bytes) ↔ pages ≤ bound) := by
  have hone : U32 [1] 1 := ⟨.last rfl, by decide, by decide⟩
  have hprefixed : Prefixed onePage [] ⟨5, [3], [1, 0, 1], ⟨.last rfl, by decide, by decide⟩⟩ (text []) 1 65536 :=
    ⟨rfl, List.forall_mem_nil _, rfl, [1], 0, [1], [], rfl, hone, hone, .absent, by decide, by decide⟩
  have h := hprefixed.bounds (List.forall_mem_nil _) (show 1 ≤ 4 by decide)
  exact ⟨_, h, pages_agree h⟩

end Binary
