import CapnpcWasm.Binary.Output

/-!
# Immediates

The grammars of what follows an opcode, and that the scanners of the rewriter skip exactly these.

The rewriter copies most instructions as they are: it needs to know where one ends and nothing else.
Each of its scanners has a language here, written with the same shape as the scanner: `Then` where it
reads one thing after another, `After` where what it read decides what comes next, `Times` where it
loops.  `Skips p L` says that the scanner `p` gets from one position to another exactly if the bytes
between are in `L`, so its rules (`Skips.bind`, `Reads.skips`, `Skips.repeat_`, `Skips.ite`) follow
the code, and `skips_immediates` is about the whole switch on the opcode.

The languages are over a grammar of numbers.  The rewriter reads a number in as many groups as the
format allows (`U32`), and the format of a module that an engine accepts is narrower (`Encodes`).  The
last two parts are about that: a language with more room holds more bytes, and over either grammar
it is prefix-free, so that where an instruction ends is no choice.
-/

namespace Binary

open TsSdk Leb

/-- The scanner succeeds exactly where bytes of the language begin what is left, and goes past
them. -/
def Skips (p : Reader → Except TypeError Reader) (L : Bytes → Prop) : Prop :=
  ∀ r r', p r = .ok r' ↔ ∃ bytes, L bytes ∧ bytes <+: r.rest ∧ r' = r.advance bytes.length

/-! ## Languages -/

/-- No immediates. -/
def Nothing (bytes : Bytes) : Prop := bytes = []

/-- No bytes at all: the scanner throws. -/
def Never (_ : Bytes) : Prop := False

/-- A word of one language and then one of another. -/
def Then (L M : Bytes → Prop) (bytes : Bytes) : Prop := ∃ first second, bytes = first ++ second ∧ L first ∧ M second

/-- What spells a value, and then what the value asks for. -/
def After {α : Type} (G : Grammar α) (L : α → Bytes → Prop) (bytes : Bytes) : Prop :=
  ∃ first second a, bytes = first ++ second ∧ G first a ∧ L a second

/-- A number of them, one after the other. -/
def Times (L : Bytes → Prop) : Nat → Bytes → Prop
  | 0 => Nothing
  | count + 1 => Then L (Times L count)

/-- So many bytes. -/
def Bytes_ (count : Nat) (bytes : Bytes) : Prop := bytes.length = count

/-- An integer of at most so many bytes. -/
def Groups (limit : Nat) (bytes : Bytes) : Prop := (∃ n, Encodes bytes n) ∧ bytes.length ≤ limit

/-- A number that is not looked at.  How numbers are spelled is a parameter: the rewriter reads five
bytes and 32 bits, and what it writes has as many as it needs. -/
def Index (U : Grammar Nat) : Bytes → Prop := After U fun _ => Nothing

section

variable {α : Type} {p q : Reader → Except TypeError Reader} {L M : Bytes → Prop} {G : Grammar α}
  {P : Parser α} {next : α → Reader → Except TypeError Reader} {N : α → Bytes → Prop}

/-- A scanner that stays where it is. -/
theorem skips_nothing : Skips (fun r => .ok r) Nothing := by
  intro r r'
  rw [Except.ok.injEq]
  constructor
  · rintro rfl
    exact ⟨[], rfl, List.nil_prefix, r.advance_zero.symm⟩
  · rintro ⟨_, rfl, -, rfl⟩
    exact r.advance_zero.symm

/-- A scanner that throws. -/
theorem skips_never {e : TypeError} : Skips (fun _ => .error e) Never := by
  intro r r'
  refine iff_of_false nofun ?_
  rintro ⟨_, h, -⟩
  exact h

/-- A reader, and then a scanner that depends on what was read. -/
theorem Reads.skips (hP : Reads P G) (hnext : ∀ a, Skips (next a) (N a)) :
    Skips (fun r => P r >>= fun x => next x.1 x.2) (After G N) := by
  intro r r'
  constructor
  · intro h
    obtain ⟨⟨a, r₁⟩, hfirst, hsecond⟩ := Checks.bind_ok h
    obtain ⟨first, ha, ⟨more, hmore⟩, rfl⟩ := (hP _ _ _).mp hfirst
    obtain ⟨second, hb, hrest, rfl⟩ := (hnext a _ _).mp hsecond
    rw [Reader.rest_advance_append hmore.symm] at hrest
    refine ⟨first ++ second, ⟨first, second, a, rfl, ha, hb⟩, ?_, ?_⟩
    · rw [← hmore]
      exact (List.prefix_append_right_inj first).mpr hrest
    · rw [Reader.advance_advance, List.length_append]
  · rintro ⟨_, ⟨first, second, a, rfl, ha, hb⟩, ⟨more, hmore⟩, rfl⟩
    rw [List.append_assoc] at hmore
    have hrest := Reader.rest_advance_append hmore.symm
    have hsecond := (hnext a (r.advance first.length) _).mpr ⟨second, hb, ⟨more, hrest.symm⟩, rfl⟩
    show P r >>= _ = _
    rw [hP.of ha hmore.symm, List.length_append, ← Reader.advance_advance]
    exact hsecond

/-- A scanner is a reader that reads nothing of interest. -/
theorem Skips.reads (h : Skips p L) : Reads (fun r => p r >>= fun r' => .ok ((), r'))
    (fun bytes _ => L bytes) := by
  intro r a r'
  constructor
  · intro hp
    obtain ⟨r₁, hskip, hr⟩ := Checks.bind_ok hp
    cases hr
    exact (h _ _).mp hskip
  · intro hskip
    show p r >>= _ = _
    rw [(h r r').mpr hskip]
    rfl

/-- One scanner after another. -/
theorem Skips.bind (hp : Skips p L) (hq : Skips q M) : Skips (fun r => p r >>= q) (Then L M) := by
  intro r r'
  have hboth := hp.reads.skips (fun _ => hq) r r'
  refine Iff.trans (Eq.congr_left ?_) (hboth.trans ?_)
  · show p r >>= q = (p r >>= _) >>= _
    rw [bind_assoc]
    rfl
  · constructor
    · rintro ⟨bytes, ⟨first, second, -, hbytes, hfirst, hsecond⟩, h⟩
      exact ⟨bytes, ⟨first, second, hbytes, hfirst, hsecond⟩, h⟩
    · rintro ⟨bytes, ⟨first, second, hbytes, hfirst, hsecond⟩, h⟩
      exact ⟨bytes, ⟨first, second, (), hbytes, hfirst, hsecond⟩, h⟩

/-- A loop that counts down. -/
theorem Skips.repeat_ (hp : Skips p L) (count : Nat) : Skips (repeat_ p count) (Times L count) := by
  induction count with
  | zero => exact skips_nothing
  | succ count ih => exact hp.bind ih

/-- A scanner that goes two ways. -/
theorem Skips.ite {c : Prop} [Decidable c] (hp : Skips p L) (hq : Skips q M) :
    Skips (fun r => if c then p r else q r) (if c then L else M) := by
  by_cases h : c
  · simpa only [if_pos h] using hp
  · simpa only [if_neg h] using hq

/-- A scanner that goes on only under a condition. -/
theorem Skips.skipIf {c : Prop} [Decidable c] (hp : Skips p L) :
    Skips (skipIf c p) (if c then L else Nothing) :=
  Skips.ite hp skips_nothing

/-- Bytes that are not looked at. -/
theorem skips_skip (count : Nat) : Skips (fun r => r.skip count) (Bytes_ count) := by
  intro r r'
  rw [skip_ok]
  constructor
  · rintro ⟨bytes, rfl, hstart, hr⟩
    exact ⟨bytes, rfl, hstart, hr⟩
  · rintro ⟨bytes, rfl, hstart, hr⟩
    exact ⟨bytes, rfl, hstart, hr⟩

/-- A number whose value is of no interest. -/
theorem skips_u32 : Skips skipU32 (Index U32) := reads_u32.skips fun _ => skips_nothing

/-- An integer is skipped up to its last group. -/
theorem skips_leb (limit : Nat) : Skips (fun r => r.leb limit) (Groups limit) := by
  induction limit with
  | zero =>
      intro r r'
      refine iff_of_false nofun ?_
      rintro ⟨bytes, ⟨⟨n, henc⟩, hlength⟩, -⟩
      exact henc.ne_nil (List.length_eq_zero_iff.mp (Nat.le_zero.mp hlength))
  | succ limit ih =>
      intro r r'
      have hnext : ∀ b : UInt8, Skips (fun r => if b &&& 128 = 0 then .ok r else r.leb limit)
          (if b &&& 128 = 0 then Nothing else Groups limit) :=
        fun b => Skips.ite skips_nothing ih
      -- One round of the loop: a byte, and the rest if it continues.
      have hround := reads_byte.skips hnext r r'
      refine Iff.trans (Eq.congr_left rfl) (hround.trans (exists_congr fun bytes => and_congr_left' ?_))
      constructor
      -- The bytes that were skipped are the groups of an integer, which ends with this byte or
      -- goes on.
      · rintro ⟨_, second, b, rfl, rfl, hsecond⟩
        by_cases hb : b &&& 128 = 0
        · rw [if_pos hb] at hsecond
          rw [show second = [] from hsecond]
          exact ⟨⟨_, .last ((Reader.continues_eq b).mp hb)⟩, Nat.succ_le_succ (Nat.zero_le _)⟩
        · rw [if_neg hb] at hsecond
          obtain ⟨⟨n, henc⟩, hlength⟩ := hsecond
          have hnext : continues b = true := by
            rw [← Bool.not_eq_false, ← Reader.continues_eq]
            exact hb
          exact ⟨⟨_, .next hnext henc⟩, Nat.succ_le_succ hlength⟩
      · rintro ⟨⟨n, henc⟩, hlength⟩
        cases henc with
        | @last b hlast =>
            refine ⟨[b], [], b, rfl, rfl, ?_⟩
            beta_reduce
            rw [if_pos ((Reader.continues_eq b).mpr hlast)]
            rfl
        | @next b tail n hnext henc =>
            refine ⟨[b], tail, b, rfl, rfl, ?_⟩
            beta_reduce
            rw [if_neg fun hzero => by rw [(Reader.continues_eq b).mp hzero] at hnext; cases hnext]
            exact ⟨⟨n, henc⟩, Nat.le_of_succ_le_succ hlength⟩

end

/-! ## Types and arguments -/

/-- A signed integer of 33 bits. -/
def HeapType : Bytes → Prop := Groups 5

/-- A value type is one byte, or one of the two that a heap type follows. -/
def ValueType : Bytes → Prop := After Byte fun code =>
  if code = 0x63 ∨ code = 0x64 then HeapType else if code ∈ valueTypes then Nothing else Never

/-- A block type is a value type, a byte for none, or an index of more bytes.  The continuation
bit of the first says whether there are more. -/
def BlockType : Bytes → Prop := After Byte fun code =>
  if code = 0x63 ∨ code = 0x64 then HeapType else if code &&& 128 ≠ 0 then Groups 4 else Nothing

section

variable (U : Grammar Nat)

/-- Bit 6 of the alignment says that a memory's index follows.  The offset may have 64 bits. -/
def MemoryArgument : Bytes → Prop := After U fun alignment =>
  Then (if alignment &&& 64 ≠ 0 then Index U else Nothing) (Groups 10)

/-- The limits of a table have no other flag than the one for a maximum. -/
def TableType : Bytes → Prop := Then ValueType <| After Byte fun flags =>
  if 1 < flags then Never else Then (Index U) (if flags = 1 then Index U else Nothing)

/-- Behind the prefix `0xfd`: memory arguments, a constant, lanes, or nothing. -/
def SimdImmediates (code : Nat) : Bytes → Prop :=
  if code ≤ 0x0b ∨ code = 0x5c ∨ code = 0x5d then MemoryArgument U
  else if code = 0x0c ∨ code = 0x0d then Bytes_ 16
  else if 0x15 ≤ code ∧ code ≤ 0x22 then Bytes_ 1
  else if 0x54 ≤ code ∧ code ≤ 0x5b then Then (MemoryArgument U) (Bytes_ 1)
  else if 0x113 < code ∨ code ∈ unassignedSimd then Never
  else Nothing

/-- The first two kinds of clauses name a tag.  All name a label. -/
def CatchClause : Bytes → Prop := After Byte fun kind =>
  if 3 < kind then Never else Then (if kind < 2 then Index U else Nothing) (Index U)

/-- Behind the prefix `0xfe`: `atomic.fence` has a reserved byte. -/
def AtomicImmediates (code : Nat) : Bytes → Prop :=
  if code = 3 then Bytes_ 1
  else if code ≤ 2 ∨ 0x10 ≤ code ∧ code ≤ 0x4e then MemoryArgument U
  else Never

/-- Behind the prefix `0xfc`: conversions have none, and copies and initializations have two. -/
def BulkImmediates (code : Nat) : Bytes → Prop :=
  if code ≤ 7 then Nothing
  else if code = 8 ∨ code = 10 ∨ code = 12 ∨ code = 14 then Times (Index U) 2
  else if code ≤ 17 then Index U
  else Never

/-- The labels of a table, and the default. -/
def BrTable : Bytes → Prop := After U fun length => Times (Index U) (length + 1)

/-- The types of a `select`. -/
def SelectTypes : Bytes → Prop := After U fun length => Times ValueType length

/-- The block type of a `try_table`, and its clauses. -/
def TryTable : Bytes → Prop := Then BlockType (After U fun length => Times (CatchClause U) length)

/-- The immediates of an instruction that is only copied. -/
def Immediates (op : UInt8) : Bytes → Prop :=
  if op ∈ plainOps then Nothing
  else if op ∈ blockOps then BlockType
  else if op ∈ indexOps then Index U
  else if op = 0x0e then BrTable U
  else if op = 0x1c then SelectTypes U
  else if op = 0x1f then TryTable U
  else if op = 0x42 then Groups 10
  else if op = 0x43 then Bytes_ 4
  else if op = 0x44 then Bytes_ 8
  else if op = 0xd0 then HeapType
  else if op = 0xfd then After U (SimdImmediates U)
  else if op = 0xfe then After U (AtomicImmediates U)
  else if 0x28 ≤ op ∧ op ≤ 0x3e then MemoryArgument U
  else if op < 0x45 ∨ 0xc4 < op then Never
  else Nothing

end

/-- What the rewriter does not know, it refuses. -/
theorem skips_unsupported (what : String) : Skips (fun _ => unsupported what) Never :=
  skips_never

/-- From here on, one lemma for each scanner.  Each has the shape of its scanner. -/
theorem skips_heapType : Skips heapType HeapType := skips_leb 5

/-- `valueType`. -/
theorem skips_valueType : Skips valueType ValueType := by
  have hnext (code : UInt8) : Skips
      (fun r => if code = 0x63 ∨ code = 0x64 then heapType r else if code ∈ valueTypes then .ok r
        else unsupported ("value type " ++ hex code))
      (if code = 0x63 ∨ code = 0x64 then HeapType else if code ∈ valueTypes then Nothing else Never) :=
    skips_heapType.ite (skips_nothing.ite (skips_unsupported _))
  exact reads_byte.skips hnext

/-- `blockType`. -/
theorem skips_blockType : Skips blockType BlockType := by
  have hnext (code : UInt8) : Skips
      (fun r => if code = 0x63 ∨ code = 0x64 then heapType r
        else if code &&& 128 ≠ 0 then r.leb 4 else .ok r)
      (if code = 0x63 ∨ code = 0x64 then HeapType
        else if code &&& 128 ≠ 0 then Groups 4 else Nothing) :=
    skips_heapType.ite ((skips_leb 4).ite skips_nothing)
  exact reads_byte.skips hnext

/-- `memoryArgument`. -/
theorem skips_memoryArgument : Skips memoryArgument (MemoryArgument U32) := by
  have hnext (alignment : Nat) : Skips
      (fun r => skipIf (alignment &&& 64 ≠ 0) skipU32 r >>= fun r => r.leb 10)
      (Then (if alignment &&& 64 ≠ 0 then Index U32 else Nothing) (Groups 10)) :=
    skips_u32.skipIf.bind (skips_leb 10)
  exact reads_u32.skips hnext

/-- `simdImmediates`, by the ranges of the code. -/
theorem skips_simdImmediates (code : Nat) : Skips (simdImmediates code) (SimdImmediates U32 code) := by
  intro r r'
  rw [simdImmediates, SimdImmediates]
  split_ifs
  · exact skips_memoryArgument r r'
  · exact skips_skip 16 r r'
  · exact skips_skip 1 r r'
  · exact skips_memoryArgument.bind (skips_skip 1) r r'
  · exact skips_unsupported _ r r'
  · exact skips_nothing r r'

/-- The clauses of a `try_table`. -/
theorem skips_catchClause : Skips catchClause (CatchClause U32) := by
  have hnext (kind : UInt8) : Skips
      (fun r => if 3 < kind then unsupported "catch clause"
        else skipIf (kind < 2) skipU32 r >>= fun r => skipU32 r)
      (if 3 < kind then Never else Then (if kind < 2 then Index U32 else Nothing) (Index U32)) :=
    (skips_unsupported _).ite (skips_u32.skipIf.bind skips_u32)
  exact reads_byte.skips hnext

/-- The atomic instructions. -/
theorem skips_atomicImmediates (code : Nat) : Skips (atomicImmediates code) (AtomicImmediates U32 code) := by
  intro r r'
  rw [atomicImmediates, AtomicImmediates]
  split_ifs
  · exact skips_skip 1 r r'
  · exact skips_memoryArgument r r'
  · exact skips_unsupported _ r r'

/-- The bulk instructions. -/
theorem skips_bulkImmediates (code : Nat) : Skips (bulkImmediates code) (BulkImmediates U32 code) := by
  intro r r'
  rw [bulkImmediates, BulkImmediates]
  split_ifs
  · exact skips_nothing r r'
  · exact skips_u32.repeat_ 2 r r'
  · exact skips_u32 r r'
  · exact skips_unsupported _ r r'

/-- The length of a table is read first. -/
theorem skips_brTable : Skips brTable (BrTable U32) :=
  reads_u32.skips fun length => skips_u32.repeat_ (length + 1)

/-- `selectTypes` skips a vector of value types. -/
theorem skips_selectTypes : Skips selectTypes (SelectTypes U32) :=
  reads_u32.skips fun length => skips_valueType.repeat_ length

/-- `tryTable` skips a block type and a vector of clauses. -/
theorem skips_tryTable : Skips tryTable (TryTable U32) :=
  skips_blockType.bind (reads_u32.skips fun length => skips_catchClause.repeat_ length)

/-- The code behind a prefix is a number, not a byte. -/
theorem skips_simd : Skips simd (After U32 (SimdImmediates U32)) := reads_u32.skips skips_simdImmediates

/-- The code of an atomic instruction decides what follows it. -/
theorem skips_atomic : Skips atomic (After U32 (AtomicImmediates U32)) :=
  reads_u32.skips skips_atomicImmediates

/-- The switch on the opcode: what is skipped are its immediates. -/
theorem skips_immediates (op : UInt8) : Skips (immediates op) (Immediates U32 op) := by
  unfold immediates Immediates
  refine skips_nothing.ite ?_
  refine skips_blockType.ite ?_
  refine skips_u32.ite ?_
  refine skips_brTable.ite ?_
  refine skips_selectTypes.ite ?_
  refine skips_tryTable.ite ?_
  refine (skips_leb 10).ite ?_
  refine (skips_skip 4).ite ?_
  refine (skips_skip 8).ite ?_
  refine skips_heapType.ite ?_
  refine skips_simd.ite ?_
  refine skips_atomic.ite ?_
  refine skips_memoryArgument.ite ?_
  exact (skips_unsupported _).ite skips_nothing

/-! ## Numbers with more room -/

section

variable {α : Type} {U V : Grammar Nat} {L M L' M' : Bytes → Prop} {G G' : Grammar α}
  {N N' : α → Bytes → Prop}

/-- The operations on languages are monotone. -/
theorem Then.mono (hL : ∀ b, L b → L' b) (hM : ∀ b, M b → M' b) : ∀ b, Then L M b → Then L' M' b := by
  rintro _ ⟨first, second, rfl, hfirst, hsecond⟩
  exact ⟨first, second, rfl, hL _ hfirst, hM _ hsecond⟩

/-- In what is read, and in what follows. -/
theorem After.mono (hG : ∀ b a, G b a → G' b a) (hN : ∀ a b, N a b → N' a b) :
    ∀ b, After G N b → After G' N' b := by
  rintro _ ⟨first, second, a, rfl, hfirst, hsecond⟩
  exact ⟨first, second, a, rfl, hG _ _ hfirst, hN _ _ hsecond⟩

/-- In what is repeated. -/
theorem Times.mono (hL : ∀ b, L b → L' b) (count : Nat) : ∀ b, Times L count b → Times L' count b := by
  induction count with
  | zero => exact fun _ h => h
  | succ count ih => exact Then.mono hL ih

/-- In both branches. -/
theorem ite_mono {c : Prop} [Decidable c] (hL : ∀ b, L b → L' b) (hM : ∀ b, M b → M' b) :
    ∀ b, (if c then L else M) b → (if c then L' else M') b := by
  by_cases h : c
  · simpa only [if_pos h] using hL
  · simpa only [if_neg h] using hM

variable (hUV : ∀ b n, U b n → V b n)

include hUV

/-- So each of the languages is, in its grammar of numbers. -/
theorem Index.mono : ∀ b, Index U b → Index V b := After.mono hUV fun _ _ h => h

/-- Its alignment is a number; the offset is scanned by its groups in any case. -/
theorem MemoryArgument.mono : ∀ b, MemoryArgument U b → MemoryArgument V b :=
  After.mono hUV fun _ => Then.mono (ite_mono (Index.mono hUV) fun _ h => h) fun _ h => h

/-- Case by case. -/
theorem SimdImmediates.mono (code : Nat) : ∀ b, SimdImmediates U code b → SimdImmediates V code b := by
  intro b
  rw [SimdImmediates, SimdImmediates]
  split_ifs
  · exact MemoryArgument.mono hUV b
  · exact id
  · exact id
  · exact Then.mono (MemoryArgument.mono hUV) (fun _ h => h) b
  · exact id
  · exact id

/-- Its tag and its label. -/
theorem CatchClause.mono : ∀ b, CatchClause U b → CatchClause V b :=
  After.mono (fun _ _ h => h) fun _ => ite_mono (fun _ h => h) <|
    Then.mono (ite_mono (Index.mono hUV) fun _ h => h) (Index.mono hUV)

/-- Case by case. -/
theorem AtomicImmediates.mono (code : Nat) :
    ∀ b, AtomicImmediates U code b → AtomicImmediates V code b := by
  intro b
  rw [AtomicImmediates, AtomicImmediates]
  split_ifs
  · exact id
  · exact MemoryArgument.mono hUV b
  · exact id

/-- Case by case. -/
theorem BulkImmediates.mono (code : Nat) : ∀ b, BulkImmediates U code b → BulkImmediates V code b := by
  intro b
  rw [BulkImmediates, BulkImmediates]
  split_ifs
  · exact id
  · exact Times.mono (Index.mono hUV) 2 b
  · exact Index.mono hUV b
  · exact id

/-- Case by case, along the opcode. -/
theorem Immediates.mono (op : UInt8) : ∀ b, Immediates U op b → Immediates V op b := by
  unfold Immediates
  refine ite_mono (fun _ h => h) ?_
  refine ite_mono (fun _ h => h) ?_
  refine ite_mono (Index.mono hUV) ?_
  refine ite_mono (After.mono hUV fun length => Times.mono (Index.mono hUV) _) ?_
  refine ite_mono (After.mono hUV fun length _ h => h) ?_
  refine ite_mono (Then.mono (fun _ h => h)
    (After.mono hUV fun length => Times.mono (CatchClause.mono hUV) length)) ?_
  refine ite_mono (fun _ h => h) ?_
  refine ite_mono (fun _ h => h) ?_
  refine ite_mono (fun _ h => h) ?_
  refine ite_mono (fun _ h => h) ?_
  refine ite_mono (After.mono hUV (SimdImmediates.mono hUV)) ?_
  refine ite_mono (After.mono hUV (AtomicImmediates.mono hUV)) ?_
  exact ite_mono (MemoryArgument.mono hUV) fun _ h => h

end

/-! ## One reading -/

/-- No word of the language is the beginning of another. -/
def PrefixFree (L : Bytes → Prop) : Prop := ∀ x y s t, L x → L y → x ++ s = y ++ t → x = y

/-- The same of what spells a value, and the value is one. -/
def Unambiguous {α : Type} (G : Grammar α) : Prop :=
  ∀ x y a b s t, G x a → G y b → x ++ s = y ++ t → x = y ∧ a = b

section

variable {α : Type} {U : Grammar Nat} {L M : Bytes → Prop} {G : Grammar α} {N : α → Bytes → Prop}

/-- The basic languages are prefix-free. -/
theorem prefixFree_nothing : PrefixFree Nothing := by
  rintro _ _ s t rfl rfl -
  rfl

/-- Without a word there is no choice. -/
theorem prefixFree_never : PrefixFree Never := fun _ _ _ _ h => h.elim

/-- All words have one length. -/
theorem prefixFree_bytes (count : Nat) : PrefixFree (Bytes_ count) := by
  intro x y s t hx hy heq
  exact (List.append_inj heq (hx.trans hy.symm)).1

/-- The last group is the first without the continuation bit. -/
theorem prefixFree_groups (limit : Nat) : PrefixFree (Groups limit) := by
  rintro x y s t ⟨⟨n, hx⟩, -⟩ ⟨⟨m, hy⟩, -⟩ heq
  exact (hx.append_inj hy heq).1

/-- The operations keep it: the first part ends in one place, and then the second does. -/
theorem PrefixFree.append (hL : PrefixFree L) (hM : PrefixFree M) : PrefixFree (Then L M) := by
  rintro _ _ s t ⟨x, y, rfl, hx, hy⟩ ⟨x', y', rfl, hx', hy'⟩ heq
  rw [List.append_assoc, List.append_assoc] at heq
  obtain rfl := hL _ _ _ _ hx hx' heq
  rw [hM _ _ _ _ hy hy' (List.append_cancel_left heq)]

/-- What is read is one, and so is what follows. -/
theorem Unambiguous.prefixFree (hG : Unambiguous G) (hN : ∀ a, PrefixFree (N a)) :
    PrefixFree (After G N) := by
  rintro _ _ s t ⟨x, y, a, rfl, hx, hy⟩ ⟨x', y', a', rfl, hx', hy'⟩ heq
  rw [List.append_assoc, List.append_assoc] at heq
  obtain ⟨rfl, rfl⟩ := hG _ _ _ _ _ _ hx hx' heq
  rw [hN a _ _ _ _ hy hy' (List.append_cancel_left heq)]

/-- By induction on the number. -/
theorem PrefixFree.times (hL : PrefixFree L) (count : Nat) : PrefixFree (Times L count) := by
  induction count with
  | zero => exact prefixFree_nothing
  | succ count ih => exact hL.append ih

/-- The condition is the same for both words. -/
theorem PrefixFree.ite {c : Prop} [Decidable c] (hL : PrefixFree L) (hM : PrefixFree M) :
    PrefixFree (if c then L else M) := by
  by_cases h : c
  · rwa [if_pos h]
  · rwa [if_neg h]

/-- A byte is read in one way. -/
theorem unambiguous_byte : Unambiguous Byte := by
  rintro _ _ a b s t rfl rfl heq
  obtain ⟨rfl, -⟩ := List.cons.inj heq
  exact ⟨rfl, rfl⟩

/-- So is a number, of any number of groups. -/
theorem unambiguous_encodes : Unambiguous Encodes := by
  intro x y a b s t hx hy heq
  obtain ⟨hbytes, hvalue, -⟩ := hx.append_inj hy heq
  exact ⟨hbytes, hvalue⟩

/-- So each of the languages is prefix-free, where numbers are unambiguous. -/
theorem prefixFree_heapType : PrefixFree HeapType := prefixFree_groups 5

/-- The first byte decides what follows. -/
theorem prefixFree_valueType : PrefixFree ValueType :=
  unambiguous_byte.prefixFree fun _ => prefixFree_heapType.ite (prefixFree_nothing.ite prefixFree_never)

/-- No block type is the beginning of another. -/
theorem prefixFree_blockType : PrefixFree BlockType :=
  unambiguous_byte.prefixFree fun _ =>
    prefixFree_heapType.ite ((prefixFree_groups 4).ite prefixFree_nothing)

variable (hU : Unambiguous U)

include hU

/-- A number whose value is of no interest. -/
theorem prefixFree_index : PrefixFree (Index U) := hU.prefixFree fun _ => prefixFree_nothing

/-- The alignment decides whether an index follows. -/
theorem prefixFree_memoryArgument : PrefixFree (MemoryArgument U) :=
  hU.prefixFree fun _ => ((prefixFree_index hU).ite prefixFree_nothing).append (prefixFree_groups 10)

/-- Case by case. -/
theorem prefixFree_simdImmediates (code : Nat) : PrefixFree (SimdImmediates U code) := by
  unfold SimdImmediates
  refine (prefixFree_memoryArgument hU).ite ?_
  refine (prefixFree_bytes 16).ite ?_
  refine (prefixFree_bytes 1).ite ?_
  refine ((prefixFree_memoryArgument hU).append (prefixFree_bytes 1)).ite ?_
  exact prefixFree_never.ite prefixFree_nothing

/-- The kind decides whether a tag follows. -/
theorem prefixFree_catchClause : PrefixFree (CatchClause U) :=
  unambiguous_byte.prefixFree fun _ => prefixFree_never.ite <|
    ((prefixFree_index hU).ite prefixFree_nothing).append (prefixFree_index hU)

/-- Case by case. -/
theorem prefixFree_atomicImmediates (code : Nat) : PrefixFree (AtomicImmediates U code) := by
  unfold AtomicImmediates
  exact (prefixFree_bytes 1).ite ((prefixFree_memoryArgument hU).ite prefixFree_never)

/-- Case by case. -/
theorem prefixFree_bulkImmediates (code : Nat) : PrefixFree (BulkImmediates U code) := by
  unfold BulkImmediates
  refine prefixFree_nothing.ite ?_
  refine ((prefixFree_index hU).times 2).ite ?_
  exact (prefixFree_index hU).ite prefixFree_never

/-- Case by case, along the opcode. -/
theorem prefixFree_immediates (op : UInt8) : PrefixFree (Immediates U op) := by
  unfold Immediates
  refine prefixFree_nothing.ite ?_
  refine prefixFree_blockType.ite ?_
  refine (prefixFree_index hU).ite ?_
  refine PrefixFree.ite (hU.prefixFree fun length => (prefixFree_index hU).times (length + 1)) ?_
  refine PrefixFree.ite (hU.prefixFree fun length => prefixFree_valueType.times length) ?_
  refine PrefixFree.ite (prefixFree_blockType.append
    (hU.prefixFree fun length => (prefixFree_catchClause hU).times length)) ?_
  refine (prefixFree_groups 10).ite ?_
  refine (prefixFree_bytes 4).ite ?_
  refine (prefixFree_bytes 8).ite ?_
  refine prefixFree_heapType.ite ?_
  refine PrefixFree.ite (hU.prefixFree (prefixFree_simdImmediates hU)) ?_
  refine PrefixFree.ite (hU.prefixFree (prefixFree_atomicImmediates hU)) ?_
  refine (prefixFree_memoryArgument hU).ite ?_
  exact prefixFree_never.ite prefixFree_nothing

end

end Binary
