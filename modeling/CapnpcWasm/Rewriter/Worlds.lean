import CapnpcWasm.Rewriter.Frames

/-!
# The world around the two instances

The host of the simulation never throws, ends the run at `proc_exit`, treats
function references as handles and answers every poll with zero.  Its states may
differ between the two runs by what it keeps of handles and polls, which a relation
`S` says.  With such a host the two worlds stay related: the stores up to the change
`instrument` makes, the calls of the original imports the same.  The injected
sequences run through in related worlds.
-/

namespace Rewriter

open Wasm
open Run (Steps)

/-- What the simulation expects of the host.  `S` relates its state in the original
run to its state in the instrumented one. -/
structure QuietHost {σ : Type} (S : σ → σ → Prop) (h : Host σ) (ctx : Context) : Prop where
  /-- A call sees functions as handles: renumbering them renumbers what it answers. -/
  handles : ∀ s s' fn args v, S s s' → fn ≠ ctx.interrupt →
    (h.call s' fn (args.map (Val.rename ctx.image)) (v.rename ctx.image)).view =
        (h.call s fn args v).view.rename ctx.image ∧
      (h.call s' fn (args.map (Val.rename ctx.image)) (v.rename ctx.image)).reply =
        (h.call s fn args v).reply.rename ctx.image ∧
      S (h.call s fn args v).state
        (h.call s' fn (args.map (Val.rename ctx.image)) (v.rename ctx.image)).state
  returns : ∀ s fn args v e, (h.call s fn args v).reply ≠ .throw e
  exits : ∀ s f args v, (h.call s (.imported f procExit) args v).reply = .exit
  /-- A poll answers zero and leaves the instance as it is. -/
  passes : ∀ s s' v, S s s' → (h.call s' ctx.interrupt [] v).reply = .ret [.i32 0] ∧
    (h.call s' ctx.interrupt [] v).view = v ∧ S s (h.call s' ctx.interrupt [] v).state

/-- The change `instrument` makes. -/
def changeOf (m : Module) (maximum interval : Nat) : Change where
  rename := (contextOf m interval).image
  memory := m.importedMemories.length
  maximum := maximum
  segments := (declareThunks (contextOf m interval)).length

/-- The worlds of the two instances. -/
structure WorldRel {σ : Type} (S : σ → σ → Prop) (m : Module) (maximum interval : Nat)
    (w w' : World σ) : Prop where
  store : ∃ countdown, w'.store = (changeOf m maximum interval).store countdown w.store
  host : S w.host w'.host
  log : w'.log.filter (fun c => c.fn ≠ (contextOf m interval).interrupt) =
    w.log.map (HostCall.rename (contextOf m interval).image)
  globals : w.store.globals.length = m.globalTypes.length
  elems : w.store.elems.length = m.elems.length

/-! ## Views -/

/-- A host that changes nothing leaves the store as it was. -/
theorem absorb_view {σ : Type} (m : Module) (st : Store) (s : σ) (r : Reply) :
    m.absorb st ⟨s, m.view st, none, r⟩ = st := by
  have ht : ∀ tables : List Table,
      tables.zipWith (fun table elems => { table with elems }) (tables.map (·.elems)) =
        tables := by
    intro tables
    induction tables with
    | nil => rfl
    | cons t ts ih => simp [ih]
  simp [Module.absorb, Module.view, ht]

section

variable {σ : Type} {S : σ → σ → Prop} {m m' : Module} {h : Host σ} {maximum interval : Nat}
  (hi : Instruments m m' maximum interval)

theorem counter_eq : (contextOf m interval).counter = m.globalTypes.length := by
  simp [Module.globalTypes]

include hi

/-- The host sees the image of what it saw. -/
theorem view_store (cd : BitVec 32) {st : Store} (hg : st.globals.length = m.globalTypes.length) :
    m'.view ((changeOf m maximum interval).store cd st) =
      (m.view st).rename (contextOf m interval).image := by
  have hv : m.visibleGlobals st = st.globals.length := by
    rw [Module.visibleGlobals, hi.countdown?_original, Option.getD_none]
  have hv' : m'.visibleGlobals ((changeOf m maximum interval).store cd st) =
      st.globals.length := by
    rw [Module.visibleGlobals, hi.countdown?, Option.getD_some, counter_eq, hg]
  rw [Module.view, Module.view, hv, hv', Change.store_bytes]
  simp only [View.rename, Change.store, changeOf, List.map_map, Function.comp_def, Table.rename,
    List.take_length]
  rw [List.take_append_of_le_length (by simp), List.take_of_length_le (by simp)]

/-- What the host leaves is the image of what it left. -/
theorem absorb_store (cd : BitVec 32) {st : Store} (hg : st.globals.length = m.globalTypes.length)
    (ans ans' : Answer σ) (hans : ans'.view = ans.view.rename (contextOf m interval).image) :
    m'.absorb ((changeOf m maximum interval).store cd st) ans' =
      (changeOf m maximum interval).store (ans'.countdown.getD cd) (m.absorb st ans) := by
  have hv : m.visibleGlobals st = st.globals.length := by
    rw [Module.visibleGlobals, hi.countdown?_original, Option.getD_none]
  have hv' : m'.visibleGlobals ((changeOf m maximum interval).store cd st) =
      st.globals.length := by
    rw [Module.visibleGlobals, hi.countdown?, Option.getD_some, counter_eq, hg]
  have htake : ((changeOf m maximum interval).store cd st).globals.take st.globals.length =
      st.globals.map (Val.rename (contextOf m interval).image) := by
    simp only [Change.store, changeOf]
    rw [List.take_append_of_le_length (by simp), List.take_of_length_le (by simp)]
  have hdrop : ((changeOf m maximum interval).store cd st).globals.drop st.globals.length =
      [.i32 cd] := by
    simp [Change.store]
  have htables : ((changeOf m maximum interval).store cd st).tables.zipWith
        (fun table elems => { table with elems })
        (overwrite (((changeOf m maximum interval).store cd st).tables.map (·.elems))
          (ans.view.tables.map fun t => t.map (Ref.rename (contextOf m interval).image))) =
      (st.tables.zipWith (fun table elems => { table with elems })
        (overwrite (st.tables.map (·.elems)) ans.view.tables)).map
          (Table.rename (contextOf m interval).image) := by
    have helems : ((changeOf m maximum interval).store cd st).tables.map (·.elems) =
        (st.tables.map (·.elems)).map fun t => t.map (Ref.rename (contextOf m interval).image) := by
      simp [Change.store, changeOf, Function.comp_def, Table.rename]
    rw [helems, overwrite_map]
    simp only [Change.store, changeOf, List.zipWith_map, List.map_zipWith]
    rfl
  simp only [Module.absorb, hans, View.rename, hv, hv', htake, hdrop, htables,
    Change.store_setBytes, overwrite_map, List.take_length, List.drop_length]
  simp only [Change.store, changeOf, Store.setBytes]
  cases ans'.countdown <;> cases ans.countdown <;> simp

/-! ## Host calls -/

/-- Calls of anything but the interrupt function are the same in both worlds. -/
theorem hostCall_rel (hq : QuietHost S h (contextOf m interval)) {w w' : World σ}
    (hw : WorldRel S m maximum interval w w') {fn : HostFn}
    (hfn : fn ≠ (contextOf m interval).interrupt) (args : List Val) :
    (hostCall m' h w' fn (args.map (Val.rename (contextOf m interval).image))).2 =
        (hostCall m h w fn args).2.rename (contextOf m interval).image ∧
      WorldRel S m maximum interval (hostCall m h w fn args).1
        (hostCall m' h w' fn (args.map (Val.rename (contextOf m interval).image))).1 := by
  obtain ⟨cd, hstore⟩ := hw.store
  obtain ⟨hview, hreply, hstate⟩ := hq.handles w.host w'.host fn args (m.view w.store) hw.host hfn
  rw [← view_store hi cd hw.globals, ← hstore] at hview hreply hstate
  have hab := absorb_store hi cd hw.globals _ _ hview
  rw [← hstore] at hab
  refine ⟨hreply, ⟨_, hab⟩, hstate, ?_, ?_, hw.elems⟩
  · simp only [hostCall]
    rw [List.filter_append, hw.log]
    simp [hfn, HostCall.rename]
  · have hv : m.visibleGlobals w.store = w.store.globals.length := by
      rw [Module.visibleGlobals, hi.countdown?_original, Option.getD_none]
    simp only [hostCall, Module.absorb, hv, List.length_append, overwrite_length, List.take_length,
      List.drop_length]
    rw [hw.globals]
    cases (h.call w.host fn args (m.view w.store)).countdown <;> rfl

/-- A poll is answered zero, and only the log and the host tell. -/
theorem interrupt_rel (hq : QuietHost S h (contextOf m interval)) {w w' : World σ}
    (hw : WorldRel S m maximum interval w w') :
    ∃ w₁', hostCall m' h w' (contextOf m interval).interrupt [] = (w₁', .ret [.i32 0]) ∧
      WorldRel S m maximum interval w w₁' := by
  obtain ⟨cd, hstore⟩ := hw.store
  obtain ⟨hreply, hview, hstate⟩ := hq.passes w.host w'.host (m'.view w'.store) hw.host
  refine ⟨_, Prod.ext rfl hreply, ?_, hstate, ?_, hw.globals, hw.elems⟩
  · have hsame := absorb_store hi cd hw.globals ⟨w.host, m.view w.store, none, .exit⟩
      (h.call w'.host (contextOf m interval).interrupt [] (m'.view w'.store)) (by rw [hview, hstore, view_store hi cd hw.globals])
    rw [absorb_view, ← hstore] at hsame
    exact ⟨_, hsame⟩
  · simp only [hostCall]
    rw [List.filter_append, hw.log]
    simp

omit hi in
/-- The countdown is the last global. -/
theorem countdown_get {w w' : World σ} (hw : WorldRel S m maximum interval w w') :
    ∃ c, w'.store.globals[(contextOf m interval).counter]? = some (.i32 c) := by
  obtain ⟨cd, hstore⟩ := hw.store
  refine ⟨cd, ?_⟩
  rw [hstore, counter_eq, ← hw.globals]
  simp [Change.store]

omit hi in
theorem countdown_lt {w w' : World σ} (hw : WorldRel S m maximum interval w w') :
    (contextOf m interval).counter < w'.store.globals.length := by
  obtain ⟨c, hc⟩ := countdown_get hw
  exact (List.getElem?_eq_some_iff.mp hc).1

omit hi in
/-- The original has no countdown to tell by. -/
theorem setCountdown_rel {w w' : World σ} (hw : WorldRel S m maximum interval w w')
    (c : BitVec 32) :
    WorldRel S m maximum interval w (w'.setGlobal (contextOf m interval).counter (.i32 c)) := by
  obtain ⟨cd, hstore⟩ := hw.store
  refine ⟨⟨c, ?_⟩, hw.host, hw.log, hw.globals, hw.elems⟩
  simp only [World.setGlobal]
  rw [hstore, counter_eq, ← hw.globals]
  simp [Change.store]

/-! ## Sequences that pass -/

/-- A sequence runs through in related worlds, back to the operands it found. -/
def Passes (S : σ → σ → Prop) (m m' : Module) (P : Prims) (h : Host σ)
    (maximum interval : Nat) (seq : List Instr) : Prop :=
  ∀ {w w' : World σ}, WorldRel S m maximum interval w w' →
    ∀ (fn : Nat) (is : List Instr) (vs : List Val) (ls : List Label) (xs : List Val) (n : Nat)
      (cs : List Frame), ∃ k w₁',
      Steps (step m' P h) k ⟨w', ⟨fn, seq ++ is, vs, ls, xs, n⟩, cs⟩
        ⟨w₁', ⟨fn, is, vs, ls, xs, n⟩, cs⟩ ∧
      WorldRel S m maximum interval w w₁'

omit hi in
theorem passes_nil (P : Prims) : Passes S m m' P h maximum interval [] :=
  fun {_ w'} hw _ _ _ _ _ _ _ => ⟨0, w', .refl _, hw⟩

/-- A check runs through, by a tick or by a poll. -/
theorem passes_check (P : Prims) (hq : QuietHost S h (contextOf m interval)) :
    Passes S m m' P h maximum interval (contextOf m interval).check := by
  intro w w' hw fn is vs ls xs n cs
  obtain ⟨c, hc⟩ := countdown_get hw
  by_cases hz : c = 0
  · obtain ⟨w₁', hcall, hw₁⟩ := interrupt_rel hi hq hw
    exact ⟨_, _, check_answered hi.polls (hz ▸ hc) hcall (countdown_lt hw₁),
      setCountdown_rel hw₁ _⟩
  · exact ⟨_, _, check_tick hc hz, setCountdown_rel hw _⟩

/-- A charge runs through, keeping its size in the added local. -/
theorem charge_passes (P : Prims) (hq : QuietHost S h (contextOf m interval)) {w w' : World σ}
    (hw : WorldRel S m maximum interval w w') {scratch : Nat} {xs : List Val}
    (hx : scratch < xs.length) (shift : Nat) (size : BitVec 32) (fn : Nat) (is : List Instr)
    (vs : List Val) (ls : List Label) (n : Nat) (cs : List Frame) :
    ∃ k w₁', Steps (step m' P h) k
        ⟨w', ⟨fn, (contextOf m interval).charge scratch shift ++ is, .i32 size :: vs, ls, xs, n⟩,
          cs⟩
        ⟨w₁', ⟨fn, is, .i32 size :: vs, ls, xs.set scratch (.i32 size), n⟩, cs⟩ ∧
      WorldRel S m maximum interval w w₁' := by
  obtain ⟨c, hc⟩ := countdown_get hw
  cases hs : (unit_ shift).ule size with
  | false => exact ⟨_, _, charge_small hx hs, hw⟩
  | true =>
      cases ht : c.ule (ticks shift size) with
      | false => exact ⟨_, _, charge_tick hc hx hs ht, setCountdown_rel hw _⟩
      | true =>
          obtain ⟨w₁', hcall, hw₁⟩ := interrupt_rel hi hq hw
          exact ⟨_, _, charge_answered hi.polls hc hx hs ht hcall (countdown_lt hw₁),
            setCountdown_rel hw₁ _⟩

end

end Rewriter
