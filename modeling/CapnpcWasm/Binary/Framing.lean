import CapnpcWasm.Binary.Writer

/-!
# Framing

Runs of a `Writer`.  A slot stands where it was reserved and is filled later, possibly from a
writer made meanwhile, so what is written is a text with holes: its layout does not depend on
what the slots are filled with.
-/

namespace Binary

open TsSdk Leb

/-! ## Runs -/

inductive Op where
  | byte (value : UInt8)
  | bytes (data : Bytes)
  | u32 (value : Nat)
  | append (other : Writer)
  | slot
  /-- Fills the slot reserved as the `k`-th. -/
  | fill (k : Nat) (content : Writer)

/-- A writer and the numbers its slots were reserved under. -/
structure Writing where
  writer : Writer
  slots : List Nat

namespace Writing

def start : Writing := ⟨.empty, []⟩

def perform (s : Writing) : Op → Option Writing
  | .byte value => some { s with writer := s.writer.byte value }
  | .bytes data => some { s with writer := s.writer.bytes data }
  | .u32 value => some { s with writer := s.writer.u32 value }
  | .append other => some { s with writer := s.writer.append other }
  | .slot => some ⟨s.writer.slot.2, s.slots ++ [s.writer.slot.1]⟩
  | .fill k content => do
      let slot ← s.slots[k]?
      let writer ← s.writer.fill slot content
      some { s with writer := writer }

def run : Writing → List Op → Option Writing
  | s, [] => some s
  | s, op :: ops => do
      let s ← s.perform op
      run s ops

end Writing

/-! ## What is written -/

/-- The contents of the slots, by the order they were reserved in. -/
abbrev Env := Nat → Bytes

namespace Op

/-- The text of an operation after so many slots. -/
def text (env : Env) (n : Nat) : Op → Bytes
  | .byte value => [value]
  | .bytes data => data
  | .u32 value => leb value
  | .append other => other.contents
  | .slot => env n
  | .fill _ _ => []

def reserved : Op → Nat
  | .slot => 1
  | _ => 0

/-- What the slots hold after the operation. -/
def after (env : Env) : Op → Env
  | .fill k content => Function.update env k content.contents
  | _ => env

/-- Only slots reserved before are filled. -/
def Allowed (n : Nat) : Op → Prop
  | .fill k _ => k < n
  | _ => True

end Op

/-- The text of the operations in order. -/
def written (env : Env) : Nat → List Op → Bytes
  | _, [] => []
  | n, op :: ops => op.text env n ++ written env (n + op.reserved) ops

def filled : Env → List Op → Env
  | env, [] => env
  | env, op :: ops => filled (op.after env) ops

def Slotted : Nat → List Op → Prop
  | _, [] => True
  | n, op :: ops => op.Allowed n ∧ Slotted (n + op.reserved) ops

/-! ## Layouts -/

/-- A part of the output: what was written, or the place of a slot. -/
inductive Piece where
  | text (bytes : Bytes)
  | hole (k : Nat)

def Piece.fill (env : Env) : Piece → Bytes
  | .text bytes => bytes
  | .hole k => env k

def spell (env : Env) (layout : List Piece) : Bytes := (layout.map (Piece.fill env)).flatten

/-- The parts of the writer are the layout with the slots filled, and each slot is where it was
reserved. -/
structure Tracks (env : Env) (layout : List Piece) (s : Writing) : Prop where
  parts : s.writer.parts = layout.map (Piece.fill env)
  places : ∀ i k, layout[i]? = some (Piece.hole k) ↔ s.slots[k]? = some i
  blank : ∀ k, s.slots.length ≤ k → env k = []

/-- The operation can be performed, and adds its text for any contents of the slots. -/
def Steps (env : Env) (layout : List Piece) (s : Writing) (op : Op) : Prop :=
  ∃ s' layout', s.perform op = some s' ∧ Tracks (op.after env) layout' s' ∧
    s'.slots.length = s.slots.length + op.reserved ∧
    ∀ env', spell env' layout' ++ s'.writer.pending =
      spell env' layout ++ s.writer.pending ++ op.text env' s.slots.length

section

variable {env : Env} {layout : List Piece} {s s' : Writing} {op : Op}

theorem spell_append (env : Env) (layout layout' : List Piece) :
    spell env (layout ++ layout') = spell env layout ++ spell env layout' := by
  rw [spell, List.map_append, List.flatten_append]
  rfl

theorem map_fill_text (env : Env) (texts : List Bytes) :
    (texts.map Piece.text).map (Piece.fill env) = texts := by
  rw [List.map_map]
  exact List.map_id texts

theorem spell_text (env : Env) (texts : List Bytes) : spell env (texts.map .text) = texts.flatten := by
  rw [spell, map_fill_text]

/-- No hole among the new pieces. -/
theorem getElem?_append_text {i k : Nat} (texts : List Bytes) :
    (layout ++ texts.map Piece.text)[i]? = some (.hole k) ↔ layout[i]? = some (Piece.hole k) := by
  rw [List.getElem?_append]
  split
  · exact Iff.rfl
  · next hle =>
    rw [List.getElem?_map, List.getElem?_eq_none (Nat.le_of_not_lt hle)]
    refine iff_of_false (fun hhole => ?_) nofun
    obtain ⟨bytes, -, hbytes⟩ := Option.map_eq_some_iff.mp hhole
    cases hbytes

theorem tracks_start : Tracks (fun _ => []) [] .start where
  parts := rfl
  places _ _ := iff_of_false nofun nofun
  blank _ _ := rfl

/-- A layout that goes on with written text. -/
theorem Tracks.text {w : Writer} {texts : List Bytes} (h : Tracks env layout s)
    (hparts : w.parts = s.writer.parts ++ texts) :
    Tracks env (layout ++ texts.map .text) { s with writer := w } where
  parts := by
    rw [hparts, h.parts, List.map_append, map_fill_text]
  places i k := (getElem?_append_text texts).trans (h.places i k)
  blank := h.blank

/-- An operation that adds to the writer. -/
theorem Tracks.adds {w : Writer} {data : Bytes} (h : Tracks env layout s)
    (hadds : s.writer.Adds w data) (hperform : s.perform op = some { s with writer := w })
    (hafter : op.after env = env) (hreserved : op.reserved = 0)
    (htext : ∀ env' n, op.text env' n = data) : Steps env layout s op := by
  obtain ⟨texts, hparts, hdata⟩ := hadds
  refine ⟨_, _, hperform, hafter.symm ▸ h.text hparts, by rw [hreserved]; rfl, fun env' => ?_⟩
  rw [spell_append, spell_text, List.append_assoc, hdata, htext, List.append_assoc]

/-- What stands in a list with one more element. -/
theorem getElem?_snoc {α : Type} (l : List α) (a b : α) (i : Nat) :
    (l ++ [a])[i]? = some b ↔ l[i]? = some b ∨ i = l.length ∧ b = a := by
  rcases Nat.lt_trichotomy i l.length with hlt | rfl | hlt
  · rw [List.getElem?_append_left hlt]
    exact ⟨.inl, fun h => h.resolve_right fun heq => Nat.ne_of_lt hlt heq.1⟩
  · rw [List.getElem?_concat_length, List.getElem?_eq_none (Nat.le_refl _), Option.some.injEq]
    exact ⟨fun heq => .inr ⟨rfl, heq.symm⟩, fun h => (h.resolve_left nofun).2.symm⟩
  · have hlong : (l ++ [a]).length ≤ i := by
      rw [List.length_append]
      exact hlt
    rw [List.getElem?_eq_none hlong, List.getElem?_eq_none (Nat.le_of_lt hlt)]
    refine iff_of_false nofun fun h => ?_
    rcases h with h | h
    · cases h
    · exact Nat.ne_of_gt hlt h.1

/-- A place after the parts. -/
theorem Tracks.reserve {w : Writer} (h : Tracks env layout s) (hparts : w.parts = s.writer.parts ++ [[]]) :
    Tracks env (layout ++ [.hole s.slots.length]) ⟨w, s.slots ++ [s.writer.parts.length]⟩ where
  parts := by
    show w.parts = _
    have hblank : [[]] = [.hole s.slots.length].map (Piece.fill env) := by
      show _ = [env s.slots.length]
      rw [h.blank _ (Nat.le_refl _)]
    rw [hparts, List.map_append, ← hblank, h.parts]
  places i k := by
    show _ ↔ (s.slots ++ [s.writer.parts.length])[k]? = some i
    have hlength : s.writer.parts.length = layout.length := by rw [h.parts, List.length_map]
    rw [getElem?_snoc, getElem?_snoc, h.places, hlength, Piece.hole.injEq, and_comm]
  blank k hk := by
    have hlong : (s.slots ++ [s.writer.parts.length]).length ≤ k := hk
    rw [List.length_append] at hlong
    exact h.blank k (Nat.le_of_succ_le hlong)

theorem Tracks.slot (h : Tracks env layout s) : Steps env layout s .slot := by
  obtain ⟨texts, hparts, hdata⟩ := s.writer.adds_flush
  rw [Writer.pending_flush, List.append_nil, List.append_nil] at hdata
  have hreserve := (h.text hparts).reserve (w := s.writer.slot.2) rfl
  refine ⟨_, _, rfl, hreserve, List.length_append, fun env' => ?_⟩
  show _ ++ [] = _
  rw [List.append_nil, spell_append, spell_append, spell_text, hdata]
  refine congrArg (spell env' layout ++ s.writer.pending ++ ·) ?_
  exact List.append_nil (env' s.slots.length)

/-- A slot gets its contents where it was reserved. -/
theorem Tracks.fill {k : Nat} {content : Writer} (h : Tracks env layout s) (hk : k < s.slots.length) :
    Steps env layout s (.fill k content) := by
  obtain ⟨i, hi⟩ : ∃ i, s.slots[k]? = some i := ⟨_, List.getElem?_eq_getElem hk⟩
  have hhole := (h.places i k).mpr hi
  have hlt : i < s.writer.parts.length := by
    rw [h.parts, List.length_map]
    exact (List.getElem?_eq_some_iff.mp hhole).1
  have hfill : ∃ w, s.writer.fill i content = some w ∧
      w.parts = s.writer.parts.set i content.contents ∧ w.pending = s.writer.pending := by
    rw [Writer.fill, content.finish_eq]
    dsimp only
    rw [dif_pos hlt]
    exact ⟨_, rfl, rfl, rfl⟩
  obtain ⟨w, hw, hparts, hpending⟩ := hfill
  have hperform : s.perform (.fill k content) = some { s with writer := w } := by
    show (s.slots[k]?.bind fun _ => _) = _
    rw [hi, Option.bind_some, hw]
    rfl
  refine ⟨_, layout, hperform, ⟨?_, h.places, fun k' hk' => ?_⟩, rfl, fun env' => ?_⟩
  · show w.parts = layout.map (Piece.fill (Function.update env k content.contents))
    rw [hparts, h.parts]
    refine List.ext_getElem? fun j => ?_
    rw [List.getElem?_set, List.getElem?_map, List.length_map]
    by_cases hj : i = j
    · subst hj
      rw [if_pos rfl, if_pos (List.getElem?_eq_some_iff.mp hhole).1, List.getElem?_map, hhole]
      show _ = some (Function.update env k content.contents k)
      rw [Function.update_self]
    · rw [if_neg hj, List.getElem?_map]
      refine Option.map_congr fun piece hpiece => ?_
      cases piece with
      | text bytes => rfl
      | hole k' =>
          have hne : k' ≠ k := by
            rintro rfl
            have hj' := (h.places j k').mp hpiece
            rw [hi] at hj'
            exact hj (Option.some.inj hj')
          exact (Function.update_of_ne hne _ _).symm
  · have hne : k' ≠ k := fun heq => Nat.not_le_of_lt hk (heq ▸ hk')
    show Function.update env k content.contents k' = []
    rw [Function.update_of_ne hne]
    exact h.blank k' hk'
  · show _ ++ w.pending = _ ++ []
    rw [hpending, List.append_nil]

theorem Tracks.perform (h : Tracks env layout s) (hop : op.Allowed s.slots.length) :
    Steps env layout s op := by
  cases op with
  | byte value => exact h.adds (s.writer.adds_byte value) rfl rfl rfl fun _ _ => rfl
  | bytes data => exact h.adds (s.writer.adds_bytes data) rfl rfl rfl fun _ _ => rfl
  | u32 value => exact h.adds (s.writer.adds_u32 value) rfl rfl rfl fun _ _ => rfl
  | append other => exact h.adds (s.writer.adds_append other) rfl rfl rfl fun _ _ => rfl
  | slot => exact h.slot
  | fill k content => exact h.fill hop

/-- A run can be performed, and its writer has the text of the operations, whatever the slots will
hold. -/
theorem Tracks.run {ops : List Op} (h : Tracks env layout s) (hops : Slotted s.slots.length ops) :
    ∃ s' layout', s.run ops = some s' ∧ Tracks (filled env ops) layout' s' ∧
      ∀ env', spell env' layout' ++ s'.writer.pending =
        spell env' layout ++ s.writer.pending ++ written env' s.slots.length ops := by
  induction ops generalizing env layout s with
  | nil => exact ⟨s, layout, rfl, h, fun env' => (List.append_nil _).symm⟩
  | cons op ops ih =>
      obtain ⟨hop, hrest⟩ := hops
      obtain ⟨t, layoutt, hperform, ht, hslots, htext⟩ := h.perform hop
      rw [← hslots] at hrest
      obtain ⟨s', layout', hrun, hs', hspell⟩ := ih ht hrest
      refine ⟨s', layout', ?_, hs', fun env' => ?_⟩
      · show ((s.perform op).bind fun s => s.run ops) = _
        rw [hperform, Option.bind_some, hrun]
      · rw [hspell, htext, hslots, List.append_assoc]
        rfl

theorem Tracks.contents (h : Tracks env layout s) :
    s.writer.contents = spell env layout ++ s.writer.pending := by
  rw [Writer.contents, h.parts]
  rfl

end

/-! ## Round trips -/

section

variable {r : Reader} {more : Bytes}

theorem u32_leb {n : Nat} (hn : n < 2 ^ 32) (h : r.rest = leb n ++ more) :
    r.u32 = .ok (n, r.advance (leb n).length) := by
  have henc : Encodes (leb n) n := by
    rw [leb_eq]
    exact encodes_unsigned n
  have hlength : (leb n).length ≤ 5 := by
    rw [leb_eq]
    exact length_unsigned_le (by decide) (Nat.lt_trans hn (by decide))
  exact Reader.u32_ok.mpr ⟨leb n, ⟨more, h.symm⟩, henc, hlength, hn, rfl⟩

theorem s32_signedLeb {value : BitVec 32} (h : r.rest = signedLeb value ++ more) :
    r.s32 = .ok (value, r.advance (signedLeb value).length) := by
  have hlength : (signedLeb value).length ≤ 5 := by
    have hmin := value.le_toInt
    have hmax := value.toInt_lt
    exact length_signedLeb (k := 4) value ⟨by omega, by omega⟩
  have hread := Reader.s32_ok (encodes_signedLeb value) ⟨more, h.symm⟩ hlength
  rwa [BitVec.ofInt_toInt] at hread

end

/-- The reader inverts the writer and accepts every encoding of a number below `2 ^ 32` in five
bytes, and a writer with slots writes its operations in order, as many bytes as its length. -/
theorem leb_and_framing :
    (∀ n < 2 ^ 32, (Writer.empty.u32 n).finish = some (leb n) ∧ ∀ (r : Reader) (more : Bytes),
      r.rest = leb n ++ more → r.u32 = .ok (n, r.advance (leb n).length)) ∧
    (∀ value : BitVec 32, ∃ bytes, (Writer.empty.s32 value).finish = some bytes ∧
      ∀ (r : Reader) (more : Bytes), r.rest = bytes ++ more →
        r.s32 = .ok (value, r.advance bytes.length)) ∧
    (∀ (r r' : Reader) (n : Nat), r.u32 = .ok (n, r') ↔ ∃ bytes, bytes <+: r.rest ∧
      Encodes bytes n ∧ bytes.length ≤ 5 ∧ n < 2 ^ 32 ∧ r' = r.advance bytes.length) ∧
    ∀ ops, Slotted 0 ops → ∃ s, Writing.start.run ops = some s ∧
      s.writer.finish = some (written (filled (fun _ => []) ops) 0 ops) ∧
      s.writer.length = (written (filled (fun _ => []) ops) 0 ops).length := by
  refine ⟨fun n hn => ⟨?_, fun r more h => u32_leb hn h⟩, fun value => ?_, fun r r' n => Reader.u32_ok,
    fun ops hops => ?_⟩
  · rw [Writer.finish_eq, (Writer.empty.adds_u32 n).contents]
    rfl
  · refine ⟨signedLeb value, ?_, fun r more h => s32_signedLeb h⟩
    rw [Writer.finish_eq, (Writer.empty.adds_s32 value).contents]
    rfl
  · obtain ⟨s, layout, hrun, htracks, hspell⟩ := tracks_start.run hops
    have hcontents : s.writer.contents = written (filled (fun _ => []) ops) 0 ops := by
      rw [htracks.contents, hspell]
      rfl
    refine ⟨s, hrun, ?_, ?_⟩
    · rw [Writer.finish_eq, hcontents]
    · rw [← hcontents, Writer.length_contents]

/-- A section whose size is written before its contents. -/
def sized : List Op := [.byte 3, .slot, .bytes [7, 7], .fill 0 (Writer.empty.u32 300), .byte 11]

theorem leb_and_framing_sized : ∃ s, Writing.start.run sized = some s ∧
    s.writer.finish = some [3, 172, 2, 7, 7, 11] ∧ s.writer.length = 6 := by
  obtain ⟨s, hrun, hfinish, hlength⟩ := leb_and_framing.2.2.2 sized
    ⟨trivial, trivial, trivial, Nat.zero_lt_one, trivial, trivial⟩
  have hcontent : (Writer.empty.u32 300).contents = [172, 2] := by
    rw [(Writer.empty.adds_u32 300).contents, leb, if_pos (by decide), leb, if_neg (by decide)]
    decide
  have htext : written (filled (fun _ => []) sized) 0 sized = [3, 172, 2, 7, 7, 11] := by
    show [3] ++ (Function.update (fun _ : Nat => ([] : Bytes)) 0 (Writer.empty.u32 300).contents 0 ++
      ([7, 7] ++ ([] ++ ([11] ++ [])))) = _
    rw [Function.update_self, hcontent]
    rfl
  rw [htext] at hfinish hlength
  exact ⟨s, hrun, hfinish, hlength⟩

end Binary
