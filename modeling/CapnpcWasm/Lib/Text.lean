import Mathlib.Data.List.Basic
import Mathlib.Tactic.Common
import Mathlib.Tactic.Ring

/-!
# Strings in two encodings

A program may hold a string as its UTF-8 bytes or as its UTF-16 code units.  The file
proves that both encodings are injective, and that an ASCII character such as a path
separator is one unit of either that occurs in the encoding of no other character.
Splitting, searching and cutting at such a character therefore commute with encoding, and
these rules are stated once for any encoding that has such units.

* `Single f a u` says that the character `a` is the unit `u` of the encoding `f`, and that no
  other character has this unit.  `single_utf8` and `single_utf16` are its instances.
* `Single.splitOn`, `Single.cuts` and `Single.properCuts` commute with `encode`.
* `codePoints` reads UTF-16 with surrogates paired, as a comparison by code points does.
-/

namespace Text

/-- Lists of code units compare by equality. -/
instance lawfulUnits : LawfulBEq (List UInt16) := inferInstance

/-! ## Encodings -/

/-- A string in an encoding of its characters. -/
def encode {U : Type*} (f : Char → List U) (s : List Char) : List U := s.flatMap f

/-- The character `a` is the one unit `u`, and no other character's encoding holds it. -/
structure Single {U : Type*} (f : Char → List U) (a : Char) (u : U) : Prop where
  self : f a = [u]
  other : ∀ c, c ≠ a → u ∉ f c

section

variable {U : Type*} {f : Char → List U} {a : Char} {u : U} {s t : List Char}

@[simp] theorem encode_nil : encode f [] = [] := rfl

@[simp] theorem encode_cons (c : Char) (s : List Char) : encode f (c :: s) = f c ++ encode f s :=
  List.flatMap_cons

@[simp] theorem encode_append : encode f (s ++ t) = encode f s ++ encode f t :=
  List.flatMap_append

/-- The unit occurs where the character does. -/
theorem Single.mem_iff (h : Single f a u) : u ∈ encode f s ↔ a ∈ s := by
  rw [encode, List.mem_flatMap]
  constructor
  · rintro ⟨c, hc, hu⟩
    by_cases hca : c = a
    · exact hca ▸ hc
    · exact absurd hu (h.other c hca)
  · intro ha
    exact ⟨a, ha, by rw [h.self]; exact List.mem_singleton_self u⟩

end

/-! ## Cutting at a separator -/

/-- Parts joined in two groups. -/
theorem intercalate_append {A : Type*} {sep : A} {parts others : List (List A)}
    (h : parts ≠ []) (h' : others ≠ []) : [sep].intercalate (parts ++ others) =
      [sep].intercalate parts ++ sep :: [sep].intercalate others := by
  induction parts with
  | nil => exact absurd rfl h
  | cons part parts ih =>
      rcases parts with _ | ⟨next, parts⟩
      · obtain ⟨other, others, rfl⟩ := List.exists_cons_of_ne_nil h'
        rw [List.singleton_append, List.intercalate_cons_cons, List.intercalate_singleton,
          List.append_assoc]
        rfl
      · have hstep : ∀ parts : List (List A), [sep].intercalate (part :: next :: parts) =
            part ++ sep :: [sep].intercalate (next :: parts) := fun parts => by
          rw [List.intercalate_cons_cons, List.append_assoc]
          rfl
        rw [List.cons_append, List.cons_append, hstep, ← List.cons_append,
          ih (List.cons_ne_nil _ _), hstep, List.append_assoc, List.cons_append]

section

variable {A B : Type*} [DecidableEq A] [DecidableEq B]

/-- What a list is up to each separator, from the left, and the list itself. -/
def cuts (sep : A) : List A → List (List A)
  | [] => [[]]
  | c :: s => (if c = sep then [[]] else []) ++ (cuts sep s).map (c :: ·)

/-- What a list is up to each separator. -/
def properCuts (sep : A) (s : List A) : List (List A) := (cuts sep s).dropLast

/-- No cut is inside a part. -/
theorem cuts_append {sep : A} {l : List A} (h : sep ∉ l) (t : List A) :
    cuts sep (l ++ t) = (cuts sep t).map (l ++ ·) := by
  induction l with
  | nil => simp
  | cons c l ih =>
      have hc : c ≠ sep := fun hc => h (hc ▸ List.mem_cons_self)
      rw [List.cons_append, cuts, if_neg hc, List.nil_append,
        ih fun hl => h (List.mem_cons_of_mem c hl), List.map_map]
      rfl

/-- The list up to a separator, read off the indices. -/
theorem cuts_eq_takes (sep : A) (s : List A) : cuts sep s =
    ((List.range (s.length + 1)).filter fun i => s[i]? = none ∨ s[i]? = some sep).map s.take := by
  induction s with
  | nil => rfl
  | cons c s ih =>
      have hrange : List.range ((c :: s).length + 1) =
          0 :: (List.range (s.length + 1)).map Nat.succ := List.range_succ_eq_map
      rw [cuts, ih, hrange, List.filter_cons, List.filter_map]
      by_cases hc : c = sep
      · rw [if_pos hc, if_pos (by simp [hc]), List.map_cons, List.map_map, List.map_map]
        rfl
      · rw [if_neg hc, if_neg (by simp [hc]), List.map_map, List.map_map]
        rfl

/-- The list up to a separator, read off the parts between the separators. -/
theorem cuts_eq_joins (sep : A) (s : List A) : cuts sep s =
    (List.range (s.splitOn sep).length).map fun i =>
      [sep].intercalate ((s.splitOn sep).take (i + 1)) := by
  induction s with
  | nil => rfl
  | cons c s ih =>
      obtain ⟨p, ps, hp⟩ := List.exists_cons_of_ne_nil (List.splitOn_ne_nil sep s)
      rw [cuts, ih, List.splitOn_cons_eq_if_modifyHead, hp]
      by_cases hc : c = sep
      · subst hc
        have hrange : List.range ([] :: p :: ps).length =
            0 :: (List.range (p :: ps).length).map Nat.succ := List.range_succ_eq_map
        rw [if_pos rfl, if_pos (beq_self_eq_true c), hrange, List.map_cons, List.map_map,
          List.map_map]
        refine congrArg ([] :: ·) (List.map_congr_left fun i _ => ?_)
        simp [List.take_succ_cons, List.intercalate_cons_cons]
      · have hb : (c == sep) = false := beq_eq_false_iff_ne.mpr hc
        rw [if_neg hc, hb, if_neg Bool.false_ne_true, List.nil_append, List.modifyHead_cons,
          List.map_map]
        simp [Function.comp_def, List.intercalate_cons_cons_left]

/-- The proper cuts are the prefixes before each separator. -/
theorem properCuts_eq_takes (sep : A) (s : List A) : properCuts sep s =
    ((List.range s.length).filter fun i => s[i]? = some sep).map s.take := by
  have hlast : decide (s[s.length]? = none ∨ s[s.length]? = some sep) = true := by simp
  rw [properCuts, cuts_eq_takes, List.range_succ, List.filter_append, List.map_append,
    List.filter_singleton, hlast, Bool.cond_true, List.map_singleton, List.dropLast_concat]
  refine congrArg (List.map s.take) (List.filter_congr fun i hi => ?_)
  rw [List.getElem?_eq_getElem (List.mem_range.mp hi)]
  simp

/-- The proper cuts are the first parts, joined again. -/
theorem properCuts_eq_joins (sep : A) (s : List A) : properCuts sep s =
    (List.range ((s.splitOn sep).length - 1)).map fun i =>
      [sep].intercalate ((s.splitOn sep).take (i + 1)) := by
  obtain ⟨n, hn⟩ := Nat.exists_eq_add_one.mpr
    (List.length_pos_of_ne_nil (List.splitOn_ne_nil sep s))
  rw [properCuts, cuts_eq_joins, hn, List.range_succ, List.map_append, List.map_singleton,
    List.dropLast_concat, Nat.add_sub_cancel]

/-- What has no separator goes to the first part. -/
theorem splitOn_append {sep : A} {l : List A} (h : sep ∉ l) (t : List A) :
    (l ++ t).splitOn sep = (t.splitOn sep).modifyHead (l ++ ·) := by
  induction l with
  | nil =>
      obtain ⟨p, ps, hp⟩ := List.exists_cons_of_ne_nil (List.splitOn_ne_nil sep t)
      rw [List.nil_append, hp]
      rfl
  | cons c l ih =>
      have hc : (c == sep) = false :=
        beq_eq_false_iff_ne.mpr fun hc => h (hc ▸ List.mem_cons_self)
      rw [List.cons_append, List.splitOn_cons_eq_if_modifyHead, hc, if_neg Bool.false_ne_true,
        ih fun hl => h (List.mem_cons_of_mem c hl), List.modifyHead_modifyHead]
      rfl

/-- The separator is in no part, and a part has nothing that the list has not. -/
theorem mem_splitOn {sep : A} {s part : List A} (h : part ∈ s.splitOn sep) :
    sep ∉ part ∧ ∀ u ∈ part, u ∈ s := by
  induction s generalizing part with
  | nil =>
      obtain rfl : part = [] := by simpa using h
      simp
  | cons c s ih =>
      rw [List.splitOn_cons_eq_if_modifyHead] at h
      split at h
      · rcases List.mem_cons.mp h with rfl | h
        · simp
        · exact ⟨(ih h).1, fun u hu => List.mem_cons_of_mem c ((ih h).2 u hu)⟩
      · next hc =>
        obtain ⟨p, ps, hp⟩ := List.exists_cons_of_ne_nil (List.splitOn_ne_nil sep s)
        rw [hp, List.modifyHead_cons] at h
        rcases List.mem_cons.mp h with rfl | h
        · have hfirst : p ∈ s.splitOn sep := by
            rw [hp]
            exact List.mem_cons_self
          obtain ⟨hsep, hall⟩ := ih hfirst
          refine ⟨fun hmem => ?_, fun u hu => ?_⟩
          · rcases List.mem_cons.mp hmem with heq | hmem
            · exact hc (by rw [heq]; exact beq_self_eq_true c)
            · exact hsep hmem
          · rcases List.mem_cons.mp hu with rfl | hu
            · exact List.mem_cons_self
            · exact List.mem_cons_of_mem c (hall u hu)
        · have hrest : part ∈ s.splitOn sep := by
            rw [hp]
            exact List.mem_cons_of_mem p h
          have hpart := ih hrest
          exact ⟨hpart.1, fun u hu => List.mem_cons_of_mem c (hpart.2 u hu)⟩

end

section

variable {U : Type*} [DecidableEq U] {f : Char → List U} {a : Char} {u : U}

/-- Cutting commutes with encoding. -/
theorem Single.cuts (h : Single f a u) (s : List Char) :
    cuts u (encode f s) = (cuts a s).map (encode f) := by
  induction s with
  | nil => rfl
  | cons c s ih =>
      rw [encode_cons, Text.cuts]
      by_cases hc : c = a
      · subst hc
        rw [h.self, List.singleton_append, Text.cuts, if_pos rfl, if_pos rfl, ih]
        simp [h.self]
      · rw [cuts_append (h.other c hc), ih, if_neg hc]
        simp

theorem Single.properCuts (h : Single f a u) (s : List Char) :
    properCuts u (encode f s) = (properCuts a s).map (encode f) := by
  rw [Text.properCuts, h.cuts, Text.properCuts, List.map_dropLast]

/-- Splitting commutes with encoding. -/
theorem Single.splitOn (h : Single f a u) (s : List Char) :
    (encode f s).splitOn u = (s.splitOn a).map (encode f) := by
  induction s with
  | nil => rfl
  | cons c s ih =>
      obtain ⟨p, ps, hp⟩ := List.exists_cons_of_ne_nil (List.splitOn_ne_nil a s)
      rw [encode_cons, List.splitOn_cons_eq_if_modifyHead]
      by_cases hc : c = a
      · subst hc
        rw [h.self, List.singleton_append, List.splitOn_cons_eq_if_modifyHead, ih]
        simp
      · rw [splitOn_append (h.other c hc), ih, if_neg (by simpa using hc), hp]
        simp

end

/-! ## UTF-8 -/

/-- The UTF-8 bytes of a string. -/
def utf8 (s : List Char) : List UInt8 := encode String.utf8EncodeChar s

/-- An ASCII character is its own byte. -/
theorem utf8EncodeChar_ascii {a : Char} (ha : a.toNat < 128) :
    String.utf8EncodeChar a = [UInt8.ofNat a.toNat] := by
  have h : a.val.toNat ≤ 0x7f := Nat.le_of_lt_succ ha
  unfold String.utf8EncodeChar
  rw [if_pos h]
  rfl

/-- An ASCII character is one byte, and no byte of another character is below 128. -/
theorem single_utf8 {a : Char} (ha : a.toNat < 128) :
    Single String.utf8EncodeChar a (UInt8.ofNat a.toNat) where
  self := utf8EncodeChar_ascii ha
  other := by
    -- Every byte of a longer encoding has its top bit set.
    intro c hc hm
    unfold String.utf8EncodeChar at hm
    dsimp only at hm
    split at hm
    · next hsmall =>
      have h := congrArg UInt8.toNat (List.mem_singleton.mp hm)
      rw [UInt8.toNat_ofNat', UInt8.toNat_ofNat'] at h
      have hc' : c.val.toNat = c.toNat := rfl
      exact hc (Char.toNat_inj.mp (by omega))
    · have hbyte : ∀ n : Nat, UInt8.ofNat a.toNat = UInt8.ofNat n → a.toNat = n % 256 := by
        intro n h
        have h := congrArg UInt8.toNat h
        rw [UInt8.toNat_ofNat', UInt8.toNat_ofNat'] at h
        omega
      split at hm
      · simp only [List.mem_cons, List.not_mem_nil, or_false] at hm
        rcases hm with hm | hm
        · have := hbyte _ hm
          omega
        · have := hbyte _ hm
          omega
      · split at hm
        · simp only [List.mem_cons, List.not_mem_nil, or_false] at hm
          rcases hm with hm | hm | hm
          · have := hbyte _ hm
            omega
          · have := hbyte _ hm
            omega
          · have := hbyte _ hm
            omega
        · simp only [List.mem_cons, List.not_mem_nil, or_false] at hm
          rcases hm with hm | hm | hm | hm
          · have := hbyte _ hm
            omega
          · have := hbyte _ hm
            omega
          · have := hbyte _ hm
            omega
          · have := hbyte _ hm
            omega

/-- From the injectivity of strings as byte arrays. -/
theorem utf8_injective : Function.Injective utf8 := by
  intro s t h
  induction s generalizing t with
  | nil =>
      cases t with
      | nil => rfl
      | cons d t =>
          rw [utf8, utf8, encode_nil, encode_cons] at h
          exact absurd (List.append_eq_nil_iff.mp h.symm).1 String.utf8EncodeChar_ne_nil
  | cons c s ih =>
      cases t with
      | nil =>
          rw [utf8, utf8, encode_nil, encode_cons] at h
          exact absurd (List.append_eq_nil_iff.mp h).1 String.utf8EncodeChar_ne_nil
      | cons d t =>
          rw [utf8, utf8, encode_cons, encode_cons] at h
          have hdecode := congrArg (fun l : List UInt8 => l.toByteArray.utf8DecodeChar? 0) h
          simp only [List.toByteArray_append, ByteArray.utf8DecodeChar?_utf8EncodeChar_append,
            Option.some.injEq] at hdecode
          subst hdecode
          rw [ih (List.append_cancel_left h)]

/-- `utf8.ValidString`. -/
def validString (s : List UInt8) : Bool := s.toByteArray.validateUTF8

/-- What is encoded is valid. -/
theorem validString_utf8 (s : List Char) : validString (utf8 s) = true :=
  ByteArray.validateUTF8_eq_true_iff.mpr ⟨s, rfl⟩

/-! ## UTF-16 -/

/-- The UTF-16 code units of a character. -/
def utf16Char (c : Char) : List UInt16 :=
  if c.toNat < 0x10000 then [UInt16.ofNat c.toNat]
  else [UInt16.ofNat (0xD800 + (c.toNat - 0x10000) / 0x400),
    UInt16.ofNat (0xDC00 + (c.toNat - 0x10000) % 0x400)]

/-- The UTF-16 code units of a string. -/
def utf16 (s : List Char) : List UInt16 := encode utf16Char s

/-- The first half of a pair. -/
def isHigh (u : UInt16) : Bool := 0xD800 ≤ u.toNat && u.toNat < 0xDC00

/-- The second half. -/
def isLow (u : UInt16) : Bool := 0xDC00 ≤ u.toNat && u.toNat < 0xE000

/-- The code points a string iterates over: a surrogate pair is one, and a lone surrogate
is one of its own. -/
def codePoints : List UInt16 → List Nat
  | [] => []
  | [u] => [u.toNat]
  | u :: v :: s =>
      if isHigh u && isLow v then
        (0x10000 + (u.toNat - 0xD800) * 0x400 + (v.toNat - 0xDC00)) :: codePoints s
      else u.toNat :: codePoints (v :: s)

/-- A unit that begins no pair stands for itself. -/
theorem codePoints_cons {u : UInt16} (h : isHigh u = false) (s : List UInt16) :
    codePoints (u :: s) = u.toNat :: codePoints s := by
  cases s with
  | nil => rfl
  | cons v s =>
      rw [codePoints, h, Bool.false_and]
      rfl

/-- A pair stands for one code point beyond the first plane. -/
theorem codePoints_pair {u v : UInt16} (hu : isHigh u = true) (hv : isLow v = true)
    (s : List UInt16) : codePoints (u :: v :: s) =
      (0x10000 + (u.toNat - 0xD800) * 0x400 + (v.toNat - 0xDC00)) :: codePoints s := by
  rw [codePoints, hu, hv]
  rfl

/-- No character is a surrogate. -/
theorem not_surrogate (c : Char) : c.toNat < 0xD800 ∨ 0xDFFF < c.toNat ∧ c.toNat < 0x110000 :=
  c.valid

/-- Decoding what was encoded. -/
theorem codePoints_utf16 (s : List Char) : codePoints (utf16 s) = s.map Char.toNat := by
  induction s with
  | nil => rfl
  | cons c s ih =>
      have hc := not_surrogate c
      rw [utf16, encode_cons, List.map_cons, ← ih, utf16Char]
      split
      · have hn : (UInt16.ofNat c.toNat).toNat = c.toNat := by
          rw [UInt16.toNat_ofNat']
          omega
        have hh : isHigh (UInt16.ofNat c.toNat) = false := by
          rw [isHigh, hn]
          simp
          omega
        rw [List.singleton_append, codePoints_cons hh, hn]
        rfl
      · have hu : (UInt16.ofNat (0xD800 + (c.toNat - 0x10000) / 0x400)).toNat =
            0xD800 + (c.toNat - 0x10000) / 0x400 := by
          rw [UInt16.toNat_ofNat']
          omega
        have hv : (UInt16.ofNat (0xDC00 + (c.toNat - 0x10000) % 0x400)).toNat =
            0xDC00 + (c.toNat - 0x10000) % 0x400 := by
          rw [UInt16.toNat_ofNat']
          omega
        have hhigh : isHigh (UInt16.ofNat (0xD800 + (c.toNat - 0x10000) / 0x400)) = true := by
          rw [isHigh, hu]
          simp
          omega
        have hlow : isLow (UInt16.ofNat (0xDC00 + (c.toNat - 0x10000) % 0x400)) = true := by
          rw [isLow, hv]
          simp
          omega
        have hval : 0x10000 + (0xD800 + (c.toNat - 0x10000) / 0x400 - 0xD800) * 0x400 +
            (0xDC00 + (c.toNat - 0x10000) % 0x400 - 0xDC00) = c.toNat := by omega
        rw [List.cons_append, List.singleton_append, codePoints_pair hhigh hlow, hu, hv, hval, utf16]

/-- The code points of a string determine it. -/
theorem utf16_injective : Function.Injective utf16 := by
  intro s t h
  have := congrArg codePoints h
  rw [codePoints_utf16, codePoints_utf16] at this
  exact List.map_injective_iff.mpr (fun c d hcd => Char.toNat_inj.mp hcd) this

/-- Surrogates are no ASCII characters. -/
theorem single_utf16 {a : Char} (ha : a.toNat < 128) :
    Single utf16Char a (UInt16.ofNat a.toNat) where
  self := by
    rw [utf16Char, if_pos (by omega)]
  other := by
    intro c hc hm
    have hs := not_surrogate c
    rw [utf16Char] at hm
    split at hm
    · have h := congrArg UInt16.toNat (List.mem_singleton.mp hm)
      rw [UInt16.toNat_ofNat', UInt16.toNat_ofNat'] at h
      exact hc (Char.toNat_inj.mp (by omega))
    · simp only [List.mem_cons, List.not_mem_nil, or_false] at hm
      rcases hm with hm | hm
      · have h := congrArg UInt16.toNat hm
        rw [UInt16.toNat_ofNat', UInt16.toNat_ofNat'] at h
        omega
      · have h := congrArg UInt16.toNat hm
        rw [UInt16.toNat_ofNat', UInt16.toNat_ofNat'] at h
        omega

end Text
