import CapnpcWasm.TsSdk.Agreement
import CapnpcWasm.TsSdk.Mounts

/-!
# Sizes without encoding

`utf8Size` counts the bytes an encoder would produce, lone surrogates included, and stops
once a maximum is exceeded.  What the checks of a request count is therefore what the copies
of its files take.
-/

namespace TsSdk

open Sdk Checks

/-! ## Code points and their encodings -/

/-- Half of a pair. -/
def isSurrogate (code : Nat) : Prop := 0xD800 ≤ code ∧ code ≤ 0xDFFF

instance (code : Nat) : Decidable (isSurrogate code) := inferInstanceAs (Decidable (_ ∧ _))

/-- The character an encoder writes for a code point. -/
def replaced (code : Nat) : Char :=
  if isSurrogate code then Char.ofNat 0xFFFD else Char.ofNat code

/-- Every code point is below the last one. -/
theorem codePoints_lt {text : JsString} {code : Nat} (h : code ∈ Text.codePoints text) :
    code < 0x110000 := by
  fun_induction Text.codePoints text with
  | case1 => cases h
  | case2 u =>
      rw [List.mem_singleton] at h
      have hu := u.toNat_lt
      omega
  | case3 u v s hpair ih =>
      rcases List.mem_cons.mp h with heq | h
      · simp only [Text.isHigh, Text.isLow, Bool.and_eq_true, decide_eq_true_iff] at hpair
        omega
      · exact ih h
  | case4 u v s hpair ih =>
      rcases List.mem_cons.mp h with rfl | h
      · have hu := u.toNat_lt
        omega
      · exact ih h

/-- The replacement for a surrogate takes as many bytes as `pointSize` says. -/
theorem length_replaced {code : Nat} (h : code < 0x110000) :
    (String.utf8EncodeChar (replaced code)).length = pointSize code := by
  rw [← pointSize_eq, replaced]
  split
  · next hsurrogate =>
    obtain ⟨hlow, hhigh⟩ := hsurrogate
    have hsize : pointSize code = 3 := by
      rw [pointSize, if_neg (by omega), if_neg (by omega), if_pos (by omega)]
    rw [hsize]
    decide
  · next hscalar =>
    have hvalid : code.isValidChar := by
      rw [isSurrogate] at hscalar
      show code < 0xD800 ∨ 0xDFFF < code ∧ code < 0x110000
      omega
    rw [Char.ofNat, dif_pos hvalid]
    rfl

/-- An encoder writes the sizes of the code points. -/
theorem length_encodeText (text : JsString) :
    (encodeText text).length = ((Text.codePoints text).map pointSize).sum := by
  have hmap : ((Text.codePoints text).map fun code =>
      (String.utf8EncodeChar (replaced code)).length) = (Text.codePoints text).map pointSize :=
    List.map_congr_left fun code hcode => length_replaced (codePoints_lt hcode)
  rw [← hmap, encodeText, Text.utf8, Text.encode, List.length_flatMap, List.map_map]
  rfl

/-- No string has more code units than bytes: a pair of surrogates takes four. -/
theorem length_le_encodeText (text : JsString) : text.length ≤ (encodeText text).length := by
  have hpos : ∀ code, 1 ≤ pointSize code := by
    intro code
    rw [pointSize]
    split_ifs
    all_goals decide
  rw [length_encodeText]
  fun_induction Text.codePoints text with
  | case1 => exact Nat.zero_le _
  | case2 u =>
      show 1 ≤ pointSize u.toNat + 0
      exact hpos _
  | case3 u v s hpair ih =>
      have hpoint : pointSize (0x10000 + (u.toNat - 0xD800) * 0x400 + (v.toNat - 0xDC00)) = 4 := by
        rw [pointSize, if_neg (by omega), if_neg (by omega), if_neg (by omega)]
      rw [List.map_cons, List.sum_cons, hpoint, List.length_cons, List.length_cons]
      omega
  | case4 u v s hpair ih =>
      have hpoint := hpos u.toNat
      rw [List.map_cons, List.sum_cons, List.length_cons]
      omega

/-- Below the maximum the count is right. -/
theorem utf8Size_le_iff {text : JsString} {maximum : Nat} :
    utf8Size text maximum ≤ maximum ↔ (encodeText text).length ≤ maximum := by
  have hlength := length_le_encodeText text
  rw [utf8Size_le, ← length_encodeText]
  exact and_iff_right_of_imp hlength.trans

/-- A text that fits is counted exactly. -/
theorem utf8Size_encodeText {text : JsString} {maximum : Nat}
    (h : (encodeText text).length ≤ maximum) : utf8Size text maximum = (encodeText text).length := by
  have hlength := length_le_encodeText text
  rw [utf8Size, if_neg (by omega)]
  rw [length_encodeText] at h ⊢
  rw [sizeUpTo_eq (by omega), Nat.zero_add]

/-! ## The bytes of a workspace -/

/-- The bytes of some files once they are encoded. -/
def encodedBytes (files : Record FileContents) : Nat :=
  (files.map fun file => file.2.encode.length).sum

section

variable {limits : Limits} {supplied : List Language} {input : CompileRequest} {job : CompileJob}
  {files : Files} {s s' : Scan}

/-- Contents are counted as they are encoded. -/
theorem contentsSize_le {maximum : Nat} {contents : FileContents}
    (h : contentsSize maximum contents ≤ maximum) :
    contentsSize maximum contents = contents.encode.length := by
  cases contents with
  | text s => exact utf8Size_encodeText (utf8Size_le_iff.mp h)
  | bytes bytes => rfl

/-- Nodes have no bytes. -/
theorem addNode_bytes {node : JsString} (h : addNode limits s node = .ok s') :
    s'.bytes = s.bytes := by
  rw [addNode] at h
  split at h
  · cases h
    rfl
  · split at h
    · cases h
    · cases h
      rfl

/-- Several nodes have no bytes. -/
theorem addNodes_bytes {nodes : List JsString} (h : nodes.foldlM (addNode limits) s = .ok s') :
    s'.bytes = s.bytes := by
  induction nodes generalizing s with
  | nil =>
      cases h
      rfl
  | cons node nodes ih =>
      rw [List.foldlM_cons] at h
      obtain ⟨next, hone, hrest⟩ := bind_ok h
      exact (ih hrest).trans (addNode_bytes hone)

/-- One file is counted with all its bytes, which fit in what is left. -/
theorem addFile_bytes {file : JsString × FileContents} (h : addFile limits s file = .ok s')
    (hle : s.bytes ≤ limits.workspaceBytes) :
    s'.bytes = s.bytes + file.2.encode.length ∧ s'.bytes ≤ limits.workspaceBytes := by
  obtain ⟨⟨⟩, -, hrest⟩ := bind_ok h
  obtain ⟨next, hnodes, hrest⟩ := bind_ok hrest
  have hbytes : next.bytes = s.bytes :=
    @addNodes_bytes _ { s with names := s.names ++ [file.1] } _ _ hnodes
  dsimp only at hrest
  split at hrest
  · cases hrest
  · next hfits =>
    cases hrest
    have hsize : contentsSize (limits.workspaceBytes - next.bytes) file.2 = file.2.encode.length :=
      contentsSize_le (by omega)
    dsimp only
    rw [hsize] at hfits ⊢
    omega

/-- Files one after the other, while the total fits. -/
theorem addFiles_bytes (h : files.foldlM (addFile limits) s = .ok s')
    (hle : s.bytes ≤ limits.workspaceBytes) :
    s'.bytes = s.bytes + encodedBytes files ∧ s'.bytes ≤ limits.workspaceBytes := by
  induction files generalizing s with
  | nil =>
      cases h
      exact ⟨rfl, hle⟩
  | cons file files ih =>
      rw [List.foldlM_cons] at h
      obtain ⟨next, hone, hrest⟩ := bind_ok h
      obtain ⟨hbytes, hle'⟩ := addFile_bytes hone hle
      obtain ⟨hbytes', hle''⟩ := ih hrest hle'
      refine ⟨?_, hle''⟩
      rw [hbytes', hbytes, encodedBytes, encodedBytes, List.map_cons, List.sum_cons, Nat.add_assoc]

/-- A mount, whose collisions are checked last. -/
theorem scanMount_bytes (h : scanMount limits files s = .ok s')
    (hle : s.bytes ≤ limits.workspaceBytes) :
    s'.bytes = s.bytes + encodedBytes files ∧ s'.bytes ≤ limits.workspaceBytes := by
  obtain ⟨next, hfiles, hrest⟩ := bind_ok h
  obtain ⟨⟨⟩, -, hend⟩ := bind_ok hrest
  cases hend
  exact @addFiles_bytes _ _ { s with mount := [], names := [], nodes := [] } _ hfiles hle

/-- The copies of a captured mount take the bytes of its files. -/
theorem totalBytes_copyFiles (h : (files.map Prod.fst).Nodup) (above : JsString) :
    totalBytes (copyFiles (captured files) above) = encodedBytes files := by
  have hcaptured : (captured files).Perm files := Properties.ofEntries_perm h
  have hkeys : (((captured files).map fun file => (above ++ file.1, file.2.encode)).map
      Prod.fst).Nodup := by
    rw [List.map_map]
    show ((captured files).map ((above ++ ·) ∘ Prod.fst)).Nodup
    rw [← List.map_map]
    exact ((hcaptured.map Prod.fst).nodup_iff.mpr h).map fun a b hab => List.append_cancel_left hab
  have hcopies : (copyFiles (captured files) above).Perm
      ((captured files).map fun file => (above ++ file.1, file.2.encode)) :=
    Properties.ofEntries_perm hkeys
  have hbytes := totalBytes_perm hcopies
  rw [totalBytes, totalBytes, List.map_map] at hbytes
  exact hbytes.trans (hcaptured.map fun file => file.2.encode.length).sum_nat

/-- The two scans of an accepted request. -/
theorem validateCompile_scans (h : validateCompile limits supplied input = .ok job) :
    ∃ s t, scanMount limits input.files ⟨[], [], [], 0, 0⟩ = .ok s ∧
      scanMount limits (input.includeFiles.getD []) s = .ok t := by
  rw [validateCompile] at h
  obtain ⟨_, -, h⟩ := bind_ok h
  obtain ⟨_, -, h⟩ := bind_ok h
  obtain ⟨_, -, h⟩ := bind_ok h
  obtain ⟨_, -, h⟩ := bind_ok h
  obtain ⟨_, -, h⟩ := bind_ok h
  obtain ⟨_, -, h⟩ := bind_ok h
  obtain ⟨_, -, h⟩ := bind_ok h
  obtain ⟨_, -, h⟩ := bind_ok h
  obtain ⟨sources, hsources, h⟩ := bind_ok h
  obtain ⟨annotations, hannotations, -⟩ := bind_ok h
  exact ⟨sources, annotations, hsources, hannotations⟩

end

/-! ## What is counted is what is copied -/

/-- The count of a string is exact up to the maximum, and an accepted request is counted with
the bytes its two mounts are copied to, whatever the copies are placed under. -/
theorem sizes_exact :
    (∀ (text : JsString) (maximum : Nat),
      (utf8Size text maximum ≤ maximum ↔ (encodeText text).length ≤ maximum) ∧
      (utf8Size text maximum ≤ maximum → utf8Size text maximum = (encodeText text).length)) ∧
    ∀ (limits : Limits) (supplied : List Language) (input : CompileRequest) (job : CompileJob)
      (above above' : JsString), (input.files.map Prod.fst).Nodup →
      ((input.includeFiles.getD []).map Prod.fst).Nodup →
      validateCompile limits supplied input = .ok job →
      ∃ s t, scanMount limits input.files ⟨[], [], [], 0, 0⟩ = .ok s ∧
        scanMount limits (input.includeFiles.getD []) s = .ok t ∧
        totalBytes (copyFiles (captured job.sources) above) +
          totalBytes (copyFiles (captured job.annotations) above') = t.bytes ∧
        t.bytes ≤ limits.workspaceBytes := by
  refine ⟨fun text maximum => ⟨utf8Size_le_iff, fun h => ?_⟩, ?_⟩
  · exact utf8Size_encodeText (utf8Size_le_iff.mp h)
  · intro limits supplied input job above above' hfiles hincludes h
    obtain ⟨hsources, hannotations, -, -⟩ := validateCompile_ok h
    obtain ⟨s, t, hs, ht⟩ := validateCompile_scans h
    obtain ⟨hbytes, hle⟩ := scanMount_bytes hs (Nat.zero_le _)
    obtain ⟨hbytes', hle'⟩ := scanMount_bytes ht hle
    refine ⟨s, t, hs, ht, ?_, hle'⟩
    rw [hsources, hannotations, totalBytes_copyFiles hfiles, totalBytes_copyFiles hincludes,
      hbytes', hbytes]
    show _ = 0 + _ + _
    rw [Nat.zero_add]

/-- Reversed surrogates in one mount, and a pair of them in the other. -/
private def surrogates : CompileRequest :=
  ⟨[([97], .text [0xDC00, 0xD800]), ([98], .bytes [1, 2])], some [([99], .text [0xD83D, 0xDE00])],
    none, none, [[97]], []⟩

private def twelveBytes : Limits := { defaultLimits with workspaceBytes := 12 }

private theorem surrogates_ok :
    ∃ job, validateCompile twelveBytes [] surrogates = .ok job :=
  ⟨_, rfl⟩

/-- Two lone surrogates are three bytes each. -/
theorem sizes_exact_surrogates : utf8Size [0xDC00, 0xD800] 6 = 6 ∧
    ∃ job s t, validateCompile twelveBytes [] surrogates = .ok job ∧
      scanMount twelveBytes surrogates.files ⟨[], [], [], 0, 0⟩ =
        .ok s ∧
      scanMount twelveBytes (surrogates.includeFiles.getD []) s =
        .ok t ∧
      totalBytes (copyFiles (captured job.sources) []) +
        totalBytes (copyFiles (captured job.annotations) []) = t.bytes := by
  have hcount : utf8Size [0xDC00, 0xD800] 6 ≤ 6 := by decide
  obtain ⟨job, hjob⟩ := surrogates_ok
  obtain ⟨s, t, hs, ht, hbytes, -⟩ := sizes_exact.2 _ _ _ _ [] [] (by decide) (by decide) hjob
  exact ⟨(sizes_exact.1 _ _).2 hcount, job, s, t, hjob, hs, ht, hbytes⟩

end TsSdk
