import CapnpcWasm.Binary.Pages
import CapnpcWasm.Binary.Passes

/-!
# Accepted modules

What is known of a module that `instrument` accepts and of its output: the output is sections one after the
other, and the module has one memory, which `boundMemory` and the Go SDK accept as well.
-/

namespace Binary

open TsSdk Leb

/-! ## The output -/

section

variable {maximum interval : Nat} {s s' : State}

/-- Sections one after the other, whether the place of the function section was filled or not. -/
theorem textWith_sections {hole : Bytes} (hhole : hole = [] ∨ ∃ payload, hole = Emitted.bytes (3, payload))
    (entries : List (Option Emitted)) :
    ∃ emitted : List Emitted, textWith hole entries = emitted.flatMap Emitted.bytes := by
  induction entries with
  | nil => exact ⟨[], rfl⟩
  | cons entry entries ih =>
      obtain ⟨emitted, hemitted⟩ := ih
      cases entry with
      | some e => exact ⟨e :: emitted, congrArg (e.bytes ++ ·) hemitted⟩
      | none =>
          obtain rfl | ⟨payload, rfl⟩ := hhole
          · exact ⟨emitted, hemitted⟩
          · exact ⟨(3, payload) :: emitted, congrArg (Emitted.bytes (3, payload) ++ ·) hemitted⟩

/-- What is accepted was walked through to its end. -/
theorem instrument_ok {module output : Bytes} {counts : Counts}
    (h : instrument module maximum interval = .ok (output, counts)) :
    (1 ≤ interval ∧ interval ≤ 2 ^ 31 - 1) ∧ ∃ (hheader : header <+: module) (s s' : State),
      walk (State.pass maximum (.ofNat 32 interval)) (sections module (length_header hheader)) .start = .ok s ∧
        s.conclude (.ofNat 32 interval) = .ok s' ∧ output = s'.output.contents := by
  rw [instrument] at h
  split at h
  · cases h
  · next hinterval =>
    split at h
    · cases h
    · next s' hbytes =>
      rw [Writer.finish_eq] at h
      cases h
      rw [instrumentBytes] at hbytes
      split at hbytes
      · cases hbytes
      · next bytes hmodule =>
        obtain ⟨rfl, hheader⟩ := moduleBytes_ok.mp hmodule
        obtain ⟨s, hwalk, hconclude⟩ := Checks.bind_ok hbytes
        exact ⟨by omega, hheader, s, s', hwalk, hconclude, rfl⟩

theorem conclude_ok {interval : BitVec 32} (hs : s.Sections) (h : s.conclude interval = .ok s') :
    s'.Sections ∧ s.memorySeen = true := by
  obtain ⟨s₁, hbefore, h⟩ := Checks.bind_ok h
  obtain ⟨s₂, hbefore', hsynthesized, -⟩ := State.Synthesized.before hs interval 14
  obtain rfl := Except.ok.inj (hbefore.symm.trans hbefore')
  split at h
  · cases h
  · next hseen =>
    split at h
    · cases h
    · cases h
      rw [Bool.not_eq_false, (State.Keeps.of_synthesized hsynthesized).memorySeen] at hseen
      exact ⟨hsynthesized.sections hs, hseen⟩

/-- Whatever module is accepted, the output is the header and sections one after the other.  The bytes
of a module that was walked through fill what `finish` allocates for them, and no more. -/
theorem instrument_framed (module : Bytes) (maximum interval : Nat) :
    (∀ output counts, instrument module maximum interval = .ok (output, counts) →
      (1 ≤ interval ∧ interval ≤ 2 ^ 31 - 1) ∧
        ∃ emitted : List Emitted, output = header ++ emitted.flatMap Emitted.bytes) ∧
    ∀ s, instrumentBytes module maximum (.ofNat 32 interval) = .ok s →
      ∃ output, s.output.finish = some output ∧ output.length = s.output.length := by
  constructor
  · intro output counts h
    obtain ⟨hinterval, _, s, s', hwalk, hconclude, rfl⟩ := instrument_ok h
    have hreached : Reached maximum interval s := Reached.walk .start hwalk
    obtain ⟨⟨entries, hole, hout, hhole⟩, -⟩ := conclude_ok hreached.placed.sections hconclude
    obtain ⟨emitted, hemitted⟩ := textWith_sections hhole entries
    refine ⟨hinterval, emitted, ?_⟩
    rw [hout.contents, hemitted]
  · intro s _
    exact ⟨s.output.contents, s.output.finish_eq, s.output.length_contents⟩

end

/-- Its one section is passed. -/
theorem pass_onePage (h : 8 ≤ onePage.length) : ∃ sec r' s s', nextSection (sections onePage h) = .ok (sec, r') ∧
    ¬r'.position < r'.bytes.length ∧ State.start.pass 4 (.ofNat 32 100) sec = .ok s ∧
      s.conclude (.ofNat 32 100) = .ok s' := by
  have hall : ∃ s', (nextSection (sections onePage h) >>= fun x =>
      if x.2.position < x.2.bytes.length then .error (typeError "") else
        State.start.pass 4 (.ofNat 32 100) x.1 >>= State.conclude (.ofNat 32 100)) = .ok s' := by
    refine Checks.ok_of_isSome ?_
    revert h
    decide +kernel
  obtain ⟨s', hall⟩ := hall
  obtain ⟨⟨sec, r'⟩, hsection, hall⟩ := Checks.bind_ok hall
  dsimp only at hall
  split at hall
  · cases hall
  · next hend =>
    obtain ⟨s, hpass, hconclude⟩ := Checks.bind_ok hall
    exact ⟨sec, r', s, s', hsection, hend, hpass, hconclude⟩

theorem instrumentBytes_onePage : ∃ s, instrumentBytes onePage 4 (.ofNat 32 100) = .ok s := by
  have hbytes : moduleBytes onePage = .ok onePage := moduleBytes_ok.mpr ⟨rfl, [5, 3, 1, 0, 1], rfl⟩
  rw [instrumentBytes]
  split
  · next e he => cases hbytes.symm.trans he
  · next bytes he =>
    obtain rfl := Except.ok.inj (hbytes.symm.trans he)
    obtain ⟨sec, r', s, s', hsection, hend, hpass, hconclude⟩ := pass_onePage (length_moduleBytes he)
    have hmore : (sections onePage (length_moduleBytes he)).position <
        (sections onePage (length_moduleBytes he)).bytes.length := show 8 < onePage.length by decide
    refine ⟨s', ?_⟩
    rw [Binary.walk, if_pos hmore]
    split
    · next e herror => cases hsection.symm.trans herror
    · next sec₁ r₁ hok =>
      obtain ⟨rfl, rfl⟩ := Prod.mk.inj (Except.ok.inj (hsection.symm.trans hok))
      rw [hpass, Checks.ok_bind, Binary.walk, if_neg hend, Checks.ok_bind, hconclude]

theorem instrument_onePage : ∃ output counts, instrument onePage 4 100 = .ok (output, counts) := by
  obtain ⟨s, hs⟩ := instrumentBytes_onePage
  refine ⟨s.output.contents, s.result, ?_⟩
  rw [instrument, if_neg (by decide), hs]
  dsimp only
  rw [Writer.finish_eq]

theorem instrument_framed_onePage : ∃ output counts s, instrument onePage 4 100 = .ok (output, counts) ∧
    (∃ emitted : List Emitted, output = header ++ emitted.flatMap Emitted.bytes) ∧
    instrumentBytes onePage 4 (.ofNat 32 100) = .ok s ∧
    ∃ finished, s.output.finish = some finished ∧ finished.length = s.output.length := by
  obtain ⟨output, counts, h⟩ := instrument_onePage
  obtain ⟨s, hs⟩ := instrumentBytes_onePage
  obtain ⟨hframed, hfinish⟩ := instrument_framed onePage 4 100
  exact ⟨output, counts, s, h, (hframed output counts h).2, hs, hfinish s hs⟩

/-! ## The memory -/

section

variable {maximum interval : Nat} {s s' : State} {r : Reader} {sec : Section}

/-- Another section leaves the order and what is known of the memory. -/
theorem State.Placed.numbered_kept {interval : BitVec 32} (hs : s.Placed)
    (horder : sectionOrder sec.id = some s.lastOrder) (hsealed : 10 < s.lastOrder → s.sealed_ = true)
    (hid : sec.id ≠ 5) (h : s.numbered maximum interval sec.id sec.payload = .ok s') :
    s'.lastOrder = s.lastOrder ∧ s'.memorySeen = s.memorySeen := by
  have hkept {s' : State} (h : s.Keeps s') : s'.lastOrder = s.lastOrder ∧ s'.memorySeen = s.memorySeen :=
    ⟨h.lastOrder, h.memorySeen⟩
  rw [State.numbered] at h
  rw [sectionOrder] at horder
  split at h
  · exact hkept (.types_ h)
  · obtain ⟨-, pending, payload, ⟨imported, importTypes, exitFunction, globals, rfl⟩, rfl⟩ := imports_ok h
    exact ⟨rfl, rfl⟩
  · obtain ⟨types, bytes, rfl⟩ := functionSection_ok h
    exact ⟨rfl, rfl⟩
  · exact hkept (.tables h)
  · next hfive => exact absurd (UInt8.toNat_inj.mp hfive) hid
  · exact hkept (.globals h)
  · exact hkept (.exports h)
  · exact hkept (.start_ h)
  · exact hkept (.elements hs.sections h)
  · next hid =>
    rw [hid] at horder
    have hlast : 12 = s.lastOrder := Option.some.inj horder
    exact hkept (.code (hsealed (by omega)) h)
  · cases h
    exact hkept (.emit s _ _)

/-- A memory section comes before everything behind it, and other sections leave it unseen. -/
theorem Reached.pass_kept (hs : Reached maximum interval s)
    (h : s.pass maximum (.ofNat 32 interval) sec = .ok s') :
    s.lastOrder ≤ s'.lastOrder ∧ (sec.id ≠ 5 → s'.memorySeen = s.memorySeen) ∧
      (sec.id = 5 → s.lastOrder < 5 ∧ s'.lastOrder = 5 ∧
        ∃ payload, boundedMemory sec.payload maximum = .ok payload) := by
  by_cases hid : sec.id = 0
  · rw [State.pass, if_pos hid] at h
    have hkeeps := State.Keeps.custom h
    refine ⟨hkeeps.lastOrder.ge, fun _ => hkeeps.memorySeen, fun hfive => ?_⟩
    rw [hfive] at hid
    cases hid
  · obtain ⟨order, s₁, horder, hlt, hsynthesized, hsealed, hnumbered⟩ := hs.placed.pass hid h
    have hkeeps := State.Keeps.of_synthesized hsynthesized
    have hlast : s₁.lastOrder = order := hkeeps.lastOrder
    by_cases hfive : sec.id = 5
    · rw [hfive] at horder hnumbered
      obtain rfl : 5 = order := Option.some.inj horder
      obtain ⟨hmemory, hpayload⟩ := State.Keeps.memory hnumbered
      have hafter : s'.lastOrder = 5 := hmemory.lastOrder.trans hlast
      exact ⟨by omega, fun hne => absurd hfive hne, fun _ => ⟨hlt, hafter, hpayload⟩⟩
    · obtain ⟨hafter, hmemory⟩ := ((hs.placed.later hlt).keeps hkeeps).numbered_kept (hlast ▸ horder)
        (fun hlate => hsealed (hlast ▸ hlate)) hfive hnumbered
      exact ⟨by omega, fun _ => hmemory.trans hkeeps.memorySeen, fun h => absurd h hfive⟩

/-- Behind the place of the memory there is no memory. -/
theorem Reached.behind (hs : Reached maximum interval s) (hend : r.end_ = r.bytes.length)
    (hlast : 5 ≤ s.lastOrder) (h : Binary.walk (State.pass maximum (.ofNat 32 interval)) r s = .ok s') :
    ∃ after, (∀ f ∈ after, f.id ≠ 5) ∧ r.rest = text after := by
  induction hn : r.rest.length using Nat.strongRecOn generalizing r s with
  | ind n ih =>
      subst hn
      rcases walk_cases (State.pass maximum (.ofNat 32 interval)) s hend with
        ⟨hrest, -⟩ | ⟨e, -, hwalk⟩ | ⟨f, more, sec, hrest, hat, hwalk⟩
      · exact ⟨[], List.forall_mem_nil _, hrest⟩
      · rw [hwalk] at h
        cases h
      · rw [hwalk] at h
        obtain ⟨s₁, hpass, h⟩ := Checks.bind_ok h
        obtain ⟨hle, -, hfive⟩ := hs.pass_kept hpass
        have hid : f.id ≠ 5 := fun hid => by
          obtain ⟨hlt, -⟩ := hfive (hat.id.trans hid)
          omega
        obtain ⟨after, hafter, hmore⟩ := @ih _ (length_rest_frame hrest) s₁ (r.advance f.bytes.length)
          (.pass hs hpass) hend (hlast.trans hle) h rfl
        refine ⟨f :: after, List.forall_mem_cons.mpr ⟨hid, hafter⟩, ?_⟩
        rw [text_cons, ← hmore, Reader.rest_advance_append hrest, hrest]

/-- Where a memory is found in the end, there is one memory section, and its limits are valid. -/
theorem Reached.found (hs : Reached maximum interval s) (hend : r.end_ = r.bytes.length)
    (hbefore : s.memorySeen = false) (hseen : s'.memorySeen = true)
    (h : Binary.walk (State.pass maximum (.ofNat 32 interval)) r s = .ok s') :
    ∃ (before after : List Frame) (memory : Frame) (initial declared : Nat),
      r.rest = text before ++ (memory.bytes ++ text after) ∧ (∀ f ∈ before, f.id ≠ 5) ∧ memory.id = 5 ∧
        (∀ f ∈ after, f.id ≠ 5) ∧ MemoryLimits memory.payload initial declared ∧ initial ≤ maximum := by
  induction hn : r.rest.length using Nat.strongRecOn generalizing r s with
  | ind n ih =>
      subst hn
      rcases walk_cases (State.pass maximum (.ofNat 32 interval)) s hend with
        ⟨-, hwalk⟩ | ⟨e, -, hwalk⟩ | ⟨f, more, sec, hrest, hat, hwalk⟩
      · rw [hwalk] at h
        cases h
        rw [hbefore] at hseen
        cases hseen
      · rw [hwalk] at h
        cases h
      · rw [hwalk] at h
        obtain ⟨s₁, hpass, h⟩ := Checks.bind_ok h
        obtain ⟨-, hother, hfive⟩ := hs.pass_kept hpass
        have hmore := Reader.rest_advance_append hrest
        by_cases hid : f.id = 5
        · obtain ⟨-, hlast, payload, hpayload⟩ := hfive (hat.id.trans hid)
          obtain ⟨after, hafter, htext⟩ := Reached.behind (r := r.advance f.bytes.length) (.pass hs hpass) hend
            hlast.ge h
          obtain ⟨initial, declared, hlimits⟩ := boundedMemory_limits hpayload
          have hle : initial ≤ maximum := by
            refine Nat.le_of_not_lt fun hover => ?_
            rw [boundedMemory_of hlimits, if_pos hover] at hpayload
            cases hpayload
          rw [hat.payload] at hlimits
          refine ⟨[], after, f, initial, declared, ?_, List.forall_mem_nil _, hid, hafter, hlimits, hle⟩
          rw [← htext, hmore, hrest]
          rfl
        · obtain ⟨before, after, memory, initial, declared, htext, hothers, hrest'⟩ :=
            @ih _ (length_rest_frame hrest) s₁ (r.advance f.bytes.length) (.pass hs hpass) hend
              ((hother fun h => hid (hat.id.symm.trans h)).trans hbefore) h rfl
          refine ⟨f :: before, after, memory, initial, declared, ?_, List.forall_mem_cons.mpr ⟨hid, hothers⟩, hrest'⟩
          rw [text_cons, List.append_assoc, ← htext, hmore, hrest]

/-- What `instrument` accepts, `boundMemory` accepts under the same limit. -/
theorem instrument_bounded {module output : Bytes} {counts : Counts}
    (h : instrument module maximum interval = .ok (output, counts)) :
    ∃ bounded, boundMemory module maximum = .ok bounded ∧
      ∃ pages ≤ maximum, initialMemoryPages module = some pages ∧ initialMemoryPages bounded = some pages := by
  obtain ⟨-, ⟨tail, htail⟩, s, s', hwalk, hconclude, -⟩ := instrument_ok h
  have hreached : Reached maximum interval s := Reached.walk .start hwalk
  obtain ⟨-, hseen⟩ := conclude_ok hreached.placed.sections hconclude
  obtain ⟨before, after, memory, initial, declared, htext, hbefore, hid, hafter, hlimits, hle⟩ :=
    Reached.found .start rfl rfl hseen hwalk
  rw [rest_sections htail.symm] at htext
  have hprefixed : Prefixed module before memory (text after) initial declared :=
    ⟨by rw [← htail, htext], hbefore, hid, hlimits⟩
  obtain ⟨memory', hbounded⟩ := hprefixed.bounded hle
  exact ⟨_, hprefixed.bounds hafter hle, initial, hle, hprefixed.pages, hbounded.pages⟩

end

theorem instrument_bounded_onePage : ∃ output counts bounded, instrument onePage 4 100 = .ok (output, counts) ∧
    boundMemory onePage 4 = .ok bounded ∧
      ∃ pages ≤ 4, initialMemoryPages onePage = some pages ∧ initialMemoryPages bounded = some pages := by
  obtain ⟨output, counts, h⟩ := instrument_onePage
  obtain ⟨bounded, hbounded, hpages⟩ := instrument_bounded h
  exact ⟨output, counts, bounded, h, hbounded, hpages⟩

end Binary
