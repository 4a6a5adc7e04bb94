import CapnpcWasm.Worker.Kept

/-!
# What a session can do

What a worker does, how a session begins and ends, and how a reply finds its exchange.

Four things happen to a session without any exchange changing its stage: its worker takes a message,
answers it or polls (`Session.Moves`); a start-up makes it ready; it is opened; it is terminated while
nothing is pending.  `Swap s s' k` is what they have in common, and `Swap.sound` that such a change
keeps `Sound`.

A reply is handed to every listener of the worker, so to all exchanges that were begun with the
session, in order.  All but one are closed and ignore it, and it answers the open one
(`Inv.deliver_eq`).

`Inv.began` is the other half of an exchange: what holds once its message is on its way to a worker
on which nothing was in flight.
-/

namespace Worker

/-! ## Changes of a session -/

/-- A change of the session `k` and of no exchange. -/
structure Swap (s s' : State) (k : Nat) : Prop where
  /-- No exchange changes. -/
  exchanges : s'.exchanges = s.exchanges
  begun : s'.begun = s.begun
  sequence : s'.sequence = s.sequence
  cancel : s'.cancel = s.cancel
  /-- And no other session. -/
  elsewhere : ∀ j, j ≠ k → s'.sessions j = s.sessions j
  /-- A session may be opened. -/
  opened : s.opened ≤ s'.opened
  unopened : ∀ j, s'.opened ≤ j → s'.sessions j = { Session.start s'.shared with live := false }
  /-- A worker is alive exactly while its session is the current one. -/
  current : ∀ j, (s'.sessions j).live = true ↔ s'.session = some j
  bound : ∀ j, s'.session = some j → j < s'.opened
  /-- While something is open, the session stays the one in use and its cell as it is. -/
  kept : ∀ e, s.Open e → s'.session = s.session ∧ (s'.sessions k).cell = (s.sessions k).cell
  settling : (s'.sessions k).settling = (s.sessions k).settling
  /-- No token comes into the cell, and no worker comes back to life. -/
  cell : ∀ v, (s'.sessions k).cell = some v → v ≠ 0 →
    (s.sessions k).cell = some v ∧ ((s'.sessions k).live = true → (s.sessions k).live = true)
  /-- Nothing comes into flight. -/
  flight : ∀ i ∈ (s'.sessions k).inFlight, i ∈ (s.sessions k).inFlight
  /-- No message is forgotten. -/
  history : ∀ i ∈ (s'.sessions k).posted,
    i ∈ (s'.sessions k).answered ∨ i ∈ (s'.sessions k).inFlight
  /-- A job that saw its token was cancelled. -/
  stopped : ∀ i ∈ (s'.sessions k).stopped, i ∈ (s.sessions k).stopped ∨ ∃ e, e < s.begun ∧
    (s.exchanges e).session = k ∧ (s.exchanges e).id = i ∧ (s.exchanges e).outcomes = [.rejected]
  /-- A worker keeps its engine. -/
  loaded : (s.sessions k).loaded = true → (s'.sessions k).loaded = true
  /-- A good answer is from a worker with an engine. -/
  answers : ∀ r ∈ (s'.sessions k).outbox, r.ok = true →
    r ∈ (s.sessions k).outbox ∨ (s'.sessions k).loaded = true
  ready : (s'.sessions k).ready = true → (s'.sessions k).loaded = true

namespace Swap

variable {s s' : State} {k : Nat}

/-- The same exchanges are open. -/
theorem open_iff (hw : Swap s s' k) (e : Nat) : s'.Open e ↔ s.Open e := by
  rw [State.Open, State.Open, hw.exchanges]

/-- Nothing comes into flight on any session. -/
theorem flights (hw : Swap s s' k) (j : Nat) {i : Nat} (hi : i ∈ (s'.sessions j).inFlight) :
    i ∈ (s.sessions j).inFlight := by
  by_cases hj : j = k
  · rw [hj] at hi ⊢
    exact hw.flight i hi
  · rwa [hw.elsewhere j hj] at hi

/-- Every worker keeps its engine. -/
theorem loads (hw : Swap s s' k) (j : Nat) (h : (s.sessions j).loaded = true) :
    (s'.sessions j).loaded = true := by
  by_cases hj : j = k
  · rw [hj] at h ⊢
    exact hw.loaded h
  · rwa [hw.elsewhere j hj]

/-- A change of a session keeps what holds. -/
theorem sound (hw : Swap s s' k) (h : Sound s) : Sound s' where
  unused e hle := by
    rw [hw.exchanges]
    exact h.unused e (hw.begun ▸ hle)
  unopened := hw.unopened
  current := hw.current
  bound := hw.bound
  alone e ho := by
    rw [hw.open_iff] at ho
    rw [(hw.kept e ho).1, hw.exchanges]
    exact h.alone e ho
  only e e' ho ho' := h.only e e' ((hw.open_iff e).mp ho) ((hw.open_iff e').mp ho')
  orderly e hlt := by
    rw [hw.exchanges]
    exact h.orderly e (hw.begun ▸ hlt)
  placed e hlt := by
    rw [hw.exchanges]
    exact Nat.lt_of_lt_of_le (h.placed e (hw.begun ▸ hlt)) hw.opened
  token e hlt := by
    rw [hw.exchanges]
    exact h.token e (hw.begun ▸ hlt)
  bounded e hlt := by
    rw [hw.exchanges, hw.sequence]
    exact h.bounded e (hw.begun ▸ hlt)
  increasing e e' hlt hlt' := by
    rw [hw.exchanges]
    exact h.increasing e e' hlt (hw.begun ▸ hlt')
  hooked j e := by
    rw [hw.exchanges]
    by_cases hj : j = k
    · rw [hj, hw.settling]
      exact h.hooked k e
    · rw [hw.elsewhere j hj]
      exact h.hooked j e
  cancel e := by
    rw [hw.cancel, hw.exchanges]
    exact h.cancel e
  cell j v hcell hv := by
    -- What is in a cell was there before.
    have hold : (s.sessions j).cell = some v ∧
        ((s'.sessions j).live = true → (s.sessions j).live = true) := by
      by_cases hj : j = k
      · rw [hj] at hcell ⊢
        exact hw.cell v hcell hv
      · rw [hw.elsewhere j hj] at hcell ⊢
        exact ⟨hcell, fun hlive => hlive⟩
    obtain ⟨e, hlt, hplace, htoken, hrejected, hflight, hstopping⟩ := h.cell j v hold.1 hv
    refine ⟨e, ?_⟩
    rw [State.Cancelled, hw.exchanges, hw.begun]
    exact ⟨hlt, hplace, htoken, hrejected, fun i hi => hflight i (hw.flights j hi),
      fun hlive => hstopping (hold.2 hlive)⟩
  stored e hstopping v hcell := by
    rw [hw.exchanges] at hstopping hcell ⊢
    refine h.stored e hstopping v ?_
    by_cases hj : (s.exchanges e).session = k
    · rw [hj] at hcell ⊢
      rwa [(hw.kept e (by simp [State.Open, hstopping])).2] at hcell
    · rwa [hw.elsewhere _ hj] at hcell
  history j i hi := by
    by_cases hj : j = k
    · rw [hj] at hi ⊢
      exact hw.history i hi
    · rw [hw.elsewhere j hj] at hi ⊢
      exact h.history j i hi
  owned j i hi := by
    rw [hw.exchanges, hw.begun]
    exact h.owned j i (hw.flights j hi)
  stopped j i hi := by
    rw [hw.exchanges, hw.begun]
    by_cases hj : j = k
    · rw [hj] at hi ⊢
      rcases hw.stopped i hi with hold | hnew
      · exact h.stopped k i hold
      · exact hnew
    · rw [hw.elsewhere j hj] at hi
      exact h.stopped j i hi
  answers j r hr hok := by
    by_cases hj : j = k
    · rw [hj] at hr ⊢
      rcases hw.answers r hr hok with hold | hloaded
      · exact hw.loaded (h.answers k r hold hok)
      · exact hloaded
    · rw [hw.elsewhere j hj] at hr ⊢
      exact h.answers j r hr hok
  ready j hready := by
    by_cases hj : j = k
    · rw [hj] at hready ⊢
      exact hw.ready hready
    · rw [hw.elsewhere j hj] at hready ⊢
      exact h.ready j hready
  resolved e i hresolved := by
    rw [hw.exchanges] at hresolved ⊢
    exact hw.loads _ (h.resolved e i hresolved)

end Swap

/-! ## The worker -/

/-- A step of a worker, or a reply of a terminated one. -/
structure Session.Moves (old new : Session) : Prop where
  /-- What only the client changes. -/
  live : new.live = old.live
  ready : new.ready = old.ready
  cell : new.cell = old.cell
  settling : new.settling = old.settling
  posted : new.posted = old.posted
  /-- Nothing comes into flight. -/
  flight : ∀ i ∈ new.inFlight, i ∈ old.inFlight
  /-- While the worker is alive, its messages only move between the queues. -/
  alive : old.live = true → new.inFlight.Perm old.inFlight
  /-- A message is answered, or still in flight. -/
  history : ∀ i, i ∈ old.answered ∨ i ∈ old.inFlight → i ∈ new.answered ∨ i ∈ new.inFlight
  /-- A worker keeps its engine. -/
  loaded : old.loaded = true → new.loaded = true
  /-- It answers well only with one. -/
  answers : ∀ r ∈ new.outbox, r.ok = true → r ∈ old.outbox ∨ new.loaded = true

section

variable {s : State} {e k : Nat} {new old : Session} {m : Message} {reply : Reply}

/-- A step that moves messages between the queues of the worker. -/
theorem Session.Moves.of_perm (hnew : new.inFlight.Perm old.inFlight)
    (hsame : new.live = old.live ∧ new.ready = old.ready ∧ new.cell = old.cell ∧
      new.settling = old.settling ∧ new.posted = old.posted ∧ new.answered = old.answered)
    (hloaded : old.loaded = true → new.loaded = true)
    (hanswers : ∀ r ∈ new.outbox, r.ok = true → r ∈ old.outbox ∨ new.loaded = true) :
    old.Moves new where
  live := hsame.1
  ready := hsame.2.1
  cell := hsame.2.2.1
  settling := hsame.2.2.2.1
  posted := hsame.2.2.2.2.1
  flight _ := hnew.mem_iff.mp
  alive _ := hnew
  history i h := by
    rw [hsame.2.2.2.2.2, hnew.mem_iff]
    exact h
  loaded := hloaded
  answers := hanswers

/-- A message leaves the inbox, and the worker has it. -/
theorem Session.moves_take (h : old.take = some new) : old.Moves new ∧ new.stopped = old.stopped := by
  cases hinbox : old.inbox with
  | nil =>
      rw [take, hinbox] at h
      cases h
  | cons m inbox =>
      rw [take, hinbox] at h
      cases h
      refine ⟨.of_perm ?_ (by simp) (fun h => h) fun r hr _ => .inl hr, rfl⟩
      simp [inFlight, hinbox]

/-- It leaves the worker, and its reply is in the outbox.  A start-up that succeeds gives the
worker its engine, and without one no job does. -/
theorem Session.moves_finish {ok : Bool} (h : old.finish m ok = some new) :
    old.Moves new ∧ new.stopped = old.stopped := by
  obtain ⟨⟨hmem, hengine⟩, h⟩ := Option.ite_none_right_eq_some.mp h
  cases h
  refine ⟨.of_perm ?_ (by simp) (fun hloaded => by simp [hloaded]) fun r hr hok => ?_, rfl⟩
  -- The id leaves the messages at work and comes into the outbox.
  · have hperm := (List.perm_cons_erase hmem).map (·.id)
    simp only [inFlight, List.map_append, List.append_assoc]
    refine List.Perm.append_left _ ?_
    exact (hperm.symm.append_right _)
  · rcases List.mem_append.mp hr with hr | hr
    · exact .inl hr
    · obtain rfl := List.mem_singleton.mp hr
      have hok : ok = true := hok
      right
      cases hkind : m.kind with
      | init => simp [hok]
      | job => simp [hengine hkind hok]

/-- A poll moves nothing.  It has found the token of its own job in the cell. -/
theorem Session.moves_poll (h : old.poll m = some new) : old.Moves new ∧
    m ∈ old.working ∧ old.cell = some (toInt32 m.id) ∧ new.stopped = old.stopped ++ [m.id] := by
  obtain ⟨⟨hmem, -, -, hcell⟩, h⟩ := Option.ite_none_right_eq_some.mp h
  cases h
  exact ⟨.of_perm (.refl _) (by simp) (fun h => h) fun r hr _ => .inl hr, hmem, hcell, rfl⟩

/-- A reply of a terminated worker. -/
theorem Session.moves_late (hlive : old.live = false) (reply : Reply) : old.Moves
    { old with outbox := old.outbox.erase reply, answered := old.answered ++ [reply.id] } where
  live := rfl
  ready := rfl
  cell := rfl
  settling := rfl
  posted := rfl
  flight i hi := by
    rcases List.mem_append.mp hi with hi | hi
    · obtain ⟨r, hr, rfl⟩ := List.mem_map.mp hi
      exact List.mem_append_left _ (List.mem_map_of_mem (List.mem_of_mem_erase hr))
    · exact List.mem_append_right _ hi
  alive h := by
    rw [hlive] at h
    cases h
  history i h := by
    simp only [Session.inFlight, List.mem_append, List.mem_map] at h ⊢
    rcases h with h | ⟨r, hr, rfl⟩ | h
    · exact .inl (.inl h)
    · by_cases heq : r = reply
      · exact .inl (.inr (by simp [heq]))
      · exact .inr (.inl ⟨r, (List.mem_erase_of_ne heq).mpr hr, rfl⟩)
    · exact .inr (.inr h)
  loaded h := h
  answers r hr _ := .inl (List.mem_of_mem_erase hr)

/-- A step of a worker changes nothing else. -/
theorem Inv.moves (h : Inv s) (hk : k < s.opened) (hm : (s.sessions k).Moves new)
    (hstopped : ∀ i ∈ new.stopped, i ∈ (s.sessions k).stopped ∨ ∃ e, e < s.begun ∧
      (s.exchanges e).session = k ∧ (s.exchanges e).id = i ∧
        (s.exchanges e).outcomes = [.rejected]) : Inv (s.setSession k new) := by
  have hself : (s.setSession k new).sessions k = new := Function.update_self ..
  have helse : ∀ j, j ≠ k → (s.setSession k new).sessions j = s.sessions j :=
    fun j hj => Function.update_of_ne hj _ _
  have hlive : ∀ j, ((s.setSession k new).sessions j).live = (s.sessions j).live := by
    intro j
    by_cases hj : j = k
    · rw [hj, hself, hm.live]
    · rw [helse j hj]
  constructor
  case toSound =>
    refine Swap.sound (k := k) ?_ h.toSound
    constructor
    case exchanges | begun | sequence | cancel => rfl
    case elsewhere => exact helse
    case opened => exact Nat.le_refl _
    case unopened =>
      intro j hj
      rw [helse j (show j ≠ k from fun heq => Nat.not_le.mpr hk (heq ▸ hj))]
      exact h.unopened j hj
    case current =>
      intro j
      rw [hlive]
      exact h.current j
    case bound => exact h.bound
    all_goals rw [hself]
    case kept => exact fun e _ => ⟨rfl, hm.cell⟩
    case settling => exact hm.settling
    case cell =>
      rw [hm.cell, hm.live]
      exact fun v hcell _ => ⟨hcell, fun hyes => hyes⟩
    case flight => exact hm.flight
    case history =>
      rw [hm.posted]
      exact fun i hi => hm.history i (h.history k i hi)
    case stopped => exact hstopped
    case loaded => exact hm.loaded
    case answers => exact hm.answers
    case ready =>
      rw [hm.ready]
      exact fun hready => hm.loaded (h.ready k hready)
  -- an open exchange is the one thing in flight on its session, before and after
  case pending =>
    intro e ho
    have hold := h.pending e ho
    show ((s.setSession k new).sessions (s.exchanges e).session).inFlight = [(s.exchanges e).id]
    by_cases hj : (s.exchanges e).session = k
    · rw [hj] at hold ⊢
      have hperm := hm.alive ((h.current k).mpr (hj ▸ h.alone e ho))
      rw [hold] at hperm
      rw [hself]
      exact List.perm_singleton.mp hperm
    · rw [helse _ hj]
      exact hold
  case quiet =>
    intro j hj hnone
    have hold := h.quiet j hj hnone
    by_cases heq : j = k
    · rw [heq] at hj hold ⊢
      have hperm := hm.alive ((h.current k).mpr hj)
      rw [hold] at hperm
      rw [hself]
      exact List.perm_nil.mp hperm
    · rw [helse j heq]
      exact hold

/-- A job sees only the token that cancelled it. -/
theorem Inv.poll (h : Inv s) (hmem : m ∈ (s.sessions k).working)
    (hcell : (s.sessions k).cell = some (toInt32 m.id)) : ∃ e, e < s.begun ∧
      (s.exchanges e).session = k ∧ (s.exchanges e).id = m.id ∧
        (s.exchanges e).outcomes = [.rejected] := by
  have hflight : m.id ∈ (s.sessions k).inFlight :=
    List.mem_append_right _ (List.mem_append_left _ (List.mem_map_of_mem hmem))
  -- The job is one of an exchange, so its token is not the zero of an idle cell; a token in the
  -- cell is that of a cancelled exchange, and of no other message in flight.
  obtain ⟨e', hlt', -, hid'⟩ := h.owned k _ hflight
  have htoken := h.token e' hlt'
  rw [hid'] at htoken
  obtain ⟨e, hlt, hsession, -, hrejected, hall, -⟩ := h.cell k _ hcell htoken
  exact ⟨e, hlt, hsession, (hall _ hflight).symm, hrejected⟩

end

/-! ## Replies -/

section

variable {s : State} {e k : Nat} {reply : Reply}

/-- A reply that reaches a closed exchange is ignored. -/
theorem State.receive_closed (h : ¬s.Open e) : s.receive e reply = s := by
  rw [State.receive]
  split
  · rfl
  · rw [not_not.mp h]

/-- A round of the delivery to all exchanges. -/
def State.round (k : Nat) (reply : Reply) (s : State) (e : Nat) : State :=
  if (s.exchanges e).session = k then s.receive e reply else s

/-- A reply passes over the exchanges that are closed. -/
theorem State.rounds_closed {es : List Nat}
    (h : ∀ e ∈ es, (s.exchanges e).session = k → ¬s.Open e) :
    es.foldl (State.round k reply) s = s := by
  induction es with
  | nil => rfl
  | cons e es ih =>
      rw [List.forall_mem_cons] at h
      have hround : State.round k reply s e = s := by
        rw [State.round]
        split
        · next heq => exact State.receive_closed (h.1 heq)
        · rfl
      rw [List.foldl_cons, hround, ih h.2]

/-- What a reply does when it reaches its exchange. -/
theorem State.receive_eq {x : Exchange} (hx : s.exchanges e = x) (hid : reply.id = x.id)
    (ho : x.stage ≠ .closed) (hcancel : s.cancel = some (.exchange e) ↔ x.stage = .running)
    (hsettling : (s.sessions x.session).settling = if x.stage = .stopping then some e else none) :
    s.receive e reply =
      let k := s.sessions x.session
      { s with
        exchanges := Function.update s.exchanges e
          (x.ended (if reply.ok then .resolved reply.id else .failed reply.id))
        sessions := Function.update s.sessions x.session { k with
          settling := none
          cell := if x.stage = .stopping then k.cell.map fun _ => 0 else k.cell }
        deadlines := Function.update s.deadlines e (s.deadlines e).clear
        graces := Function.update s.graces e (s.graces e).clear
        cancel := if s.cancel = some (.exchange e) then none else s.cancel } := by
  cases hstage : x.stage with
  | running =>
      simp only [hstage, reduceCtorEq, if_false] at hsettling
      have hsame : ({ s.sessions x.session with settling := none } : Session) =
          s.sessions x.session := by rw [← hsettling]
      simp [State.receive, hx, hid, hstage, State.close, State.release, State.setDeadline,
        State.setGrace, State.setExchange, State.settle, hcancel.mpr hstage, hsettling,
        Exchange.ended, hsame]
  | stopping =>
      have hne : s.cancel ≠ some (.exchange e) := by
        rw [ne_eq, hcancel, hstage]
        simp
      simp only [hstage, if_true] at hsettling
      simp [State.receive, hx, hid, hstage, State.close, State.release, State.setDeadline,
        State.setGrace, State.setExchange, State.setSession, hne, hsettling, Exchange.ended]
  | closed => exact absurd hstage ho

/-- A reply reaches the open exchange, which it answers. -/
theorem Inv.deliver_eq (h : Inv s) (ho : s.Open e)
    (hreply : reply ∈ (s.sessions (s.exchanges e).session).outbox) :
    (s.setSession (s.exchanges e).session { s.sessions (s.exchanges e).session with
      outbox := (s.sessions (s.exchanges e).session).outbox.erase reply
      answered := (s.sessions (s.exchanges e).session).answered ++ [reply.id] }).deliver
        (s.exchanges e).session reply = s.answered e reply := by
  obtain ⟨hid, -⟩ := Session.inFlight_erase (h.pending e ho) hreply
  have hlt := h.lt_begun ho
  have hothers : ∀ e', e' ≠ e → ¬s.Open e' := fun e' hne ho' => hne (h.only e' e ho' ho)
  obtain ⟨before, after, hsplit⟩ := List.append_of_mem (List.mem_range.mpr hlt)
  have hnodup := List.nodup_range (n := s.begun)
  rw [hsplit, List.nodup_append, List.nodup_cons] at hnodup
  obtain ⟨-, ⟨hafter, -⟩, hbefore⟩ := hnodup
  -- The state in which the reply has left the outbox. The listeners are called in this one.
  generalize hpassed : (s.setSession (s.exchanges e).session _ : State) = passed
  have hexchanges : passed.exchanges = s.exchanges := by rw [← hpassed]; rfl
  have hbegun : passed.begun = s.begun := by rw [← hpassed]; rfl
  show (List.range passed.begun).foldl (State.round _ reply) passed = _
  -- The exchanges before the open one ignore the reply, it answers the open one, and those after
  -- it ignore it again.
  rw [hbegun, hsplit, List.foldl_append, @State.rounds_closed _ _ _ before fun e' he' _ => ?first,
    List.foldl_cons]
  case first =>
    rw [State.Open, hexchanges]
    exact hothers e' fun heq => hbefore e' he' e List.mem_cons_self heq
  have hround : State.round (s.exchanges e).session reply passed e = s.answered e reply := by
    rw [State.round, hexchanges, if_pos rfl, State.receive_eq (by rw [hexchanges]) hid ho]
    · rw [← hpassed, State.setSession, State.answered]
      simp [Session.replied]
    · rw [← hpassed]
      exact h.cancel e
    · rw [← hpassed, State.setSession]
      simpa using h.settling ho
  rw [hround]
  refine State.rounds_closed fun e' he' _ ho' => ?_
  have hne : e' ≠ e := fun heq => hafter (heq ▸ he')
  rw [State.Open, (Sound.change_answered h ho hreply).others e' hne] at ho'
  exact hothers e' hne ho'

end

/-! ## Begin and end -/

section

variable {s : State} {e k : Nat}

/-- An id is never zero as an Int32: of two successive numbers one is not. -/
theorem nextId_token (sequence : Nat) : toInt32 (nextId sequence) ≠ 0 := by
  rw [nextId]
  split
  · next hzero =>
    intro hnext
    have hsum : toInt32 (sequence + 2) = toInt32 (sequence + 1) + 1 :=
      BitVec.ofNat_add (sequence + 1) 1
    rw [hsum, hzero] at hnext
    revert hnext
    decide
  · next hne => exact hne

/-- Ids grow. -/
theorem lt_nextId (sequence : Nat) : sequence < nextId sequence := by
  rw [nextId]
  split <;> omega

/-- The exchange that begins with a session, and whether its message is posted. -/
def State.began (s : State) (kind : Kind) (current : Nat) (posted : Bool) : State :=
  let id := nextId s.sequence
  let k := s.sessions current
  { s with
    sequence := id
    begun := s.begun + 1
    cancel := some (.exchange s.begun)
    exchanges := Function.update s.exchanges s.begun ⟨current, id, kind, .running, [], none⟩
    deadlines := Function.update s.deadlines s.begun .armed
    sessions := Function.update s.sessions current (if posted then k.post ⟨kind, id⟩ else k) }

section

variable {kind : Kind} {current : Nat} {posted : Bool}

/-- The new exchange runs, with an id of its own. -/
theorem State.began_self : (s.began kind current posted).exchanges s.begun =
    ⟨current, nextId s.sequence, kind, .running, [], none⟩ := Function.update_self ..

/-- The others are as they were. -/
theorem State.began_other (h : e ≠ s.begun) :
    (s.began kind current posted).exchanges e = s.exchanges e := Function.update_of_ne h _ _

/-- So are the other sessions. -/
theorem State.began_elsewhere (h : k ≠ current) :
    (s.began kind current posted).sessions k = s.sessions k := Function.update_of_ne h _ _

/-- Its session has the message, if it was posted. -/
theorem State.began_session : (s.began kind current posted).sessions current =
    if posted then (s.sessions current).post ⟨kind, nextId s.sequence⟩ else s.sessions current :=
  Function.update_self ..

/-- A post changes no more than what was posted. -/
theorem State.began_kept (k : Nat) : let new := (s.began kind current posted).sessions k
    let old := s.sessions k
    new.live = old.live ∧ new.ready = old.ready ∧ new.cell = old.cell ∧ new.settling = old.settling ∧
      new.answered = old.answered ∧ new.outbox = old.outbox ∧ new.stopped = old.stopped ∧
        new.loaded = old.loaded := by
  by_cases hk : k = current
  · subst hk
    dsimp only
    rw [State.began_session]
    split <;> exact ⟨rfl, rfl, rfl, rfl, rfl, rfl, rfl, rfl⟩
  · dsimp only
    rw [State.began_elsewhere hk]
    exact ⟨rfl, rfl, rfl, rfl, rfl, rfl, rfl, rfl⟩

/-- It is the one that is open. -/
theorem State.began_open (hnone : ∀ e, ¬s.Open e) (ho : (s.began kind current posted).Open e) :
    e = s.begun := by
  by_contra hne
  rw [State.Open, State.began_other hne] at ho
  exact hnone e ho

/-- An exchange that has begun, its message posted or not. -/
theorem Inv.began (h : Inv s) (hsession : s.session = some current) (hnone : ∀ e, ¬s.Open e)
    (posted : Bool) : Sound (s.began kind current posted) := by
  have hbound := h.bound current hsession
  have hlive := (h.current current).mpr hsession
  have hstage : ∀ e, (s.exchanges e).stage = .closed := fun e => not_not.mp (hnone e)
  -- The new message is all that comes into flight.
  have hinFlight : ∀ j, ∀ i ∈ ((s.began kind current posted).sessions j).inFlight,
      i ∈ (s.sessions j).inFlight ∨ (j = current ∧ i = nextId s.sequence) := by
    intro j i hi
    by_cases hj : j = current
    · subst hj
      rw [State.began_session] at hi
      split at hi
      · simp only [Session.inFlight, Session.post, List.map_append, List.mem_append, List.map_cons,
          List.map_nil, List.mem_singleton] at hi ⊢
        grind
      · exact .inl hi
    · rw [State.began_elsewhere hj] at hi
      exact .inl hi
  constructor
  case unused =>
    intro e hle
    have hle : s.begun + 1 ≤ e := hle
    rw [State.began_other (by omega)]
    exact h.unused e (by omega)
  case unopened =>
    intro j hj
    rw [State.began_elsewhere (show j ≠ current from fun heq => Nat.not_le.mpr hbound (heq ▸ hj))]
    exact h.unopened j hj
  case current =>
    intro j
    rw [(State.began_kept j).1]
    exact h.current j
  case bound => exact h.bound
  case alone =>
    intro e ho
    obtain rfl := State.began_open hnone ho
    rw [State.began_self]
    exact hsession
  case only =>
    exact fun e e' ho ho' => (State.began_open hnone ho).trans (State.began_open hnone ho').symm
  case orderly =>
    intro e hlt
    have hlt : e < s.begun + 1 := hlt
    by_cases heq : e = s.begun
    · rw [heq, State.began_self]
      exact ⟨rfl, rfl⟩
    · rw [State.began_other heq]
      exact h.orderly e (by omega)
  case placed =>
    intro e hlt
    have hlt : e < s.begun + 1 := hlt
    by_cases heq : e = s.begun
    · rw [heq, State.began_self]
      exact hbound
    · rw [State.began_other heq]
      exact h.placed e (by omega)
  case token =>
    intro e hlt
    have hlt : e < s.begun + 1 := hlt
    by_cases heq : e = s.begun
    · rw [heq, State.began_self]
      exact nextId_token _
    · rw [State.began_other heq]
      exact h.token e (by omega)
  case bounded =>
    intro e hlt
    have hlt : e < s.begun + 1 := hlt
    show _ ≤ nextId s.sequence
    by_cases heq : e = s.begun
    · rw [heq, State.began_self]
    · rw [State.began_other heq]
      exact (h.bounded e (by omega)).trans (Nat.le_of_lt (lt_nextId _))
  case increasing =>
    intro e e' hlt hlt'
    have hlt' : e' < s.begun + 1 := hlt'
    rw [State.began_other (show e ≠ s.begun by omega)]
    by_cases heq : e' = s.begun
    · rw [heq, State.began_self]
      exact Nat.lt_of_le_of_lt (h.bounded e (by omega)) (lt_nextId _)
    · rw [State.began_other heq]
      exact h.increasing e e' hlt (by omega)
  case hooked =>
    intro j e
    rw [(State.began_kept j).2.2.2.1, h.hooked, hstage e]
    by_cases heq : e = s.begun
    · rw [heq, State.began_self]
      simp
    · rw [State.began_other heq, hstage e]
  case cancel =>
    intro e
    show some (Hook.exchange s.begun) = _ ↔ _
    by_cases heq : e = s.begun
    · rw [heq, State.began_self]
      simp
    · rw [State.began_other heq, hstage e]
      simp [Ne.symm heq]
  case cell =>
    intro j v hcell hv
    rw [(State.began_kept j).2.2.1] at hcell
    obtain ⟨e, hlt, hplace, htoken, hrejected, hflight, hstopping⟩ := h.cell j v hcell hv
    have hj : j ≠ current := by
      rintro rfl
      -- A token in the cell of the session in use would be that of a job that stops, and nothing
      -- is open.
      have hopen := hstopping hlive
      rw [hstage e] at hopen
      cases hopen
    refine ⟨e, ?_⟩
    rw [State.Cancelled, State.began_other (Nat.ne_of_lt hlt), State.began_elsewhere hj]
    exact ⟨Nat.lt_succ_of_lt hlt, hplace, htoken, hrejected, hflight, hstopping⟩
  case stored =>
    intro e hstopping
    have ho : (s.began kind current posted).Open e := by simp [State.Open, hstopping]
    obtain rfl := State.began_open hnone ho
    rw [State.began_self] at hstopping
    cases hstopping
  case history =>
    intro j i hi
    by_cases hj : j = current
    · subst hj
      rw [State.began_session] at hi ⊢
      split at hi
      · next hposted =>
        rw [if_pos hposted]
        have hold := h.history j i
        simp only [Session.post, Session.inFlight, List.map_append, List.mem_append, List.map_cons,
          List.map_nil, List.mem_singleton] at hi hold ⊢
        grind
      · next hposted =>
        rw [if_neg hposted]
        exact h.history j i hi
    · rw [State.began_elsewhere hj] at hi ⊢
      exact h.history j i hi
  case owned =>
    intro j i hi
    rcases hinFlight j i hi with hold | ⟨rfl, rfl⟩
    · obtain ⟨e, hlt, hplace, hid⟩ := h.owned j i hold
      refine ⟨e, Nat.lt_succ_of_lt hlt, ?_⟩
      rw [State.began_other (Nat.ne_of_lt hlt)]
      exact ⟨hplace, hid⟩
    · refine ⟨s.begun, Nat.lt_succ_self _, ?_⟩
      rw [State.began_self]
      exact ⟨rfl, rfl⟩
  case stopped =>
    intro j i hi
    rw [(State.began_kept j).2.2.2.2.2.2.1] at hi
    obtain ⟨e, hlt, hrest⟩ := h.stopped j i hi
    refine ⟨e, Nat.lt_succ_of_lt hlt, ?_⟩
    rw [State.began_other (Nat.ne_of_lt hlt)]
    exact hrest
  case answers =>
    intro j r hr hok
    rw [(State.began_kept j).2.2.2.2.2.1] at hr
    rw [(State.began_kept j).2.2.2.2.2.2.2]
    exact h.answers j r hr hok
  case ready =>
    intro j hready
    rw [(State.began_kept j).2.1] at hready
    rw [(State.began_kept j).2.2.2.2.2.2.2]
    exact h.ready j hready
  case resolved =>
    intro e i hresolved
    rw [(State.began_kept _).2.2.2.2.2.2.2]
    by_cases heq : e = s.begun
    · rw [heq, State.began_self] at hresolved
      cases hresolved
    · rw [State.began_other heq] at hresolved ⊢
      exact h.resolved e i hresolved

/-- An exchange whose message was posted. -/
theorem Inv.began_posted (h : Inv s) (hsession : s.session = some current)
    (hnone : ∀ e, ¬s.Open e) : Inv (s.began kind current true) where
  toSound := h.began hsession hnone true
  pending e ho := by
    obtain rfl := State.began_open hnone ho
    rw [State.began_self, State.began_session, if_pos rfl]
    have hquiet := h.quiet current hsession hnone
    simp only [Session.inFlight, List.append_eq_nil_iff] at hquiet
    simp [Session.inFlight, Session.post, hquiet]
  quiet j hj hnone' := by
    refine absurd ?_ (hnone' s.begun)
    rw [State.Open, State.began_self]
    simp

end

/-! ### Opening and stopping -/

/-- A session whose worker is terminated while nothing is pending. -/
def State.dropped (s : State) (k : Nat) : State :=
  { s with
    sessions := Function.update s.sessions k (s.sessions k).killed
    session := if s.session = some k then none else s.session }

/-- A session that is stopped while nothing is pending has no job to settle. -/
theorem Sound.stop_eq (h : Sound s) (hnone : ∀ e, ¬s.Open e) (k : Nat) : s.stop k = s.dropped k := by
  have hsettling : (s.sessions k).settling = none := by
    cases hsettling : (s.sessions k).settling with
    | none => rfl
    | some e =>
        have hstage := ((h.hooked k e).mp hsettling).1
        exact absurd (by simp [State.Open, hstage]) (hnone e)
  by_cases hk : s.session = some k
  · simp [State.stop, State.setSession, State.dropped, Session.killed, hsettling, hk]
  · simp [State.stop, State.setSession, State.dropped, Session.killed, hsettling, hk]

/-- It is terminated, and what is in flight on it reaches nobody. -/
theorem Inv.dropped (h : Inv s) (hnone : ∀ e, ¬s.Open e) (k : Nat) : Inv (s.dropped k) := by
  have hself : (s.dropped k).sessions k = (s.sessions k).killed := Function.update_self ..
  have helse : ∀ j, j ≠ k → (s.dropped k).sessions j = s.sessions j :=
    fun j hj => Function.update_of_ne hj _ _
  have hsession : ∀ j, (s.dropped k).session = some j ↔ j ≠ k ∧ s.session = some j := by
    intro j
    show (if s.session = some k then none else s.session) = some j ↔ _
    split
    · next heq =>
      rw [heq]
      simp
      exact fun hne => Ne.symm hne
    · next hne =>
      refine ⟨fun hj => ⟨?_, hj⟩, fun hj => hj.2⟩
      rintro rfl
      exact hne hj
  constructor
  case toSound =>
    refine Swap.sound (k := k) ?_ h.toSound
    constructor
    case exchanges | begun | sequence | cancel => rfl
    case elsewhere => exact helse
    case opened => exact Nat.le_refl _
    case unopened =>
      intro j hj
      have hold := h.unopened j hj
      by_cases heq : j = k
      · rw [heq] at hold ⊢
        rw [hself, hold]
        rfl
      · rw [helse j heq]
        exact hold
    case current =>
      intro j
      rw [hsession]
      by_cases heq : j = k
      · rw [heq, hself]
        simp [Session.killed]
      · rw [helse j heq, h.current]
        simp [heq]
    case bound => exact fun j hj => h.bound j ((hsession j).mp hj).2
    all_goals rw [hself]
    case kept => exact fun e ho => absurd ho (hnone e)
    case settling =>
      cases hsettling : (s.sessions k).settling with
      | none => rfl
      | some e =>
          have hstage := ((h.hooked k e).mp hsettling).1
          exact absurd (by simp [State.Open, hstage]) (hnone e)
    case cell => exact fun v hcell _ => ⟨hcell, fun hlive => by cases hlive⟩
    case flight => exact fun i hi => hi
    case history => exact h.history k
    case stopped => exact fun i hi => .inl hi
    case loaded => exact fun hloaded => hloaded
    case answers => exact fun r hr _ => .inl hr
    case ready => exact fun hready => by cases hready
  case pending => exact fun e ho => absurd ho (hnone e)
  case quiet =>
    intro j hj _
    obtain ⟨hne, hj⟩ := (hsession j).mp hj
    rw [helse j hne]
    exact h.quiet j hj hnone

/-- A session whose worker has its engine is ready. -/
theorem Inv.readied (h : Inv s) (hloaded : (s.sessions k).loaded = true) (hk : k < s.opened) :
    Inv (s.setSession k { s.sessions k with ready := true }) := by
  have hself : (s.setSession k { s.sessions k with ready := true }).sessions k =
      { s.sessions k with ready := true } := Function.update_self ..
  have helse : ∀ j, j ≠ k → (s.setSession k { s.sessions k with ready := true }).sessions j =
      s.sessions j := fun j hj => Function.update_of_ne hj _ _
  have hparts : ∀ j, ((s.setSession k { s.sessions k with ready := true }).sessions j).live =
      (s.sessions j).live ∧ ((s.setSession k { s.sessions k with ready := true }).sessions j).inFlight =
        (s.sessions j).inFlight := by
    intro j
    by_cases hj : j = k
    · rw [hj, hself]
      exact ⟨rfl, rfl⟩
    · rw [helse j hj]
      exact ⟨rfl, rfl⟩
  constructor
  case toSound =>
    refine Swap.sound (k := k) ?_ h.toSound
    constructor
    case exchanges | begun | sequence | cancel => rfl
    case elsewhere => exact helse
    case opened => exact Nat.le_refl _
    case unopened =>
      intro j hj
      rw [helse j (show j ≠ k from fun heq => Nat.not_le.mpr hk (heq ▸ hj))]
      exact h.unopened j hj
    case current =>
      intro j
      rw [(hparts j).1]
      exact h.current j
    case bound => exact h.bound
    all_goals rw [hself]
    case kept => exact fun e _ => ⟨rfl, rfl⟩
    case cell => exact fun v hcell _ => ⟨hcell, fun hlive => hlive⟩
    case flight => exact fun i hi => hi
    case history => exact h.history k
    case stopped => exact fun i hi => .inl hi
    case loaded => exact fun hyes => hyes
    case answers => exact fun r hr _ => .inl hr
    case ready => exact fun _ => hloaded
  case pending =>
    intro e ho
    rw [(hparts _).2]
    exact h.pending e ho
  case quiet =>
    intro j hj hnone
    rw [(hparts _).2]
    exact h.quiet j hj hnone

/-- The state with a new session. -/
theorem Inv.renewed (h : Inv s) (hsession : s.session = none) :
    Inv ({ s with session := some s.opened, opened := s.opened + 1 }.setSession s.opened
      (.start s.shared)) := by
  have hnone : ∀ e, ¬s.Open e := by
    intro e ho
    have halone := h.alone e ho
    rw [hsession] at halone
    cases halone
  generalize hnew : State.setSession _ _ _ = new
  have hself : new.sessions s.opened = .start s.shared := by
    rw [← hnew]
    exact Function.update_self ..
  have helse : ∀ j, j ≠ s.opened → new.sessions j = s.sessions j := by
    intro j hj
    rw [← hnew]
    exact Function.update_of_ne hj _ _
  have hcurrent : new.session = some s.opened := by rw [← hnew]; rfl
  have hopened : new.opened = s.opened + 1 := by rw [← hnew]; rfl
  have hexchanges : new.exchanges = s.exchanges := by rw [← hnew]; rfl
  -- A number that was never used stands for a session that is not alive and has seen nothing.
  have hold := h.unopened s.opened (Nat.le_refl _)
  constructor
  case toSound =>
    refine Swap.sound (k := s.opened) ?_ h.toSound
    constructor
    case exchanges => exact hexchanges
    case begun | sequence | cancel =>
      rw [← hnew]
      rfl
    case elsewhere => exact helse
    case opened => rw [hopened]; exact Nat.le_succ _
    case unopened =>
      intro j hj
      rw [hopened] at hj
      rw [helse j (by omega), ← hnew]
      exact h.unopened j (by omega)
    case current =>
      intro j
      rw [hcurrent]
      by_cases heq : j = s.opened
      · rw [heq, hself]
        simp [Session.start]
      · rw [helse j heq, h.current, hsession]
        simp [Ne.symm heq]
    case bound =>
      intro j hj
      rw [hcurrent] at hj
      cases hj
      rw [hopened]
      exact Nat.lt_succ_self _
    all_goals rw [hself]
    case kept => exact fun e ho => absurd ho (hnone e)
    case settling => rw [hold]
    case cell =>
      intro v hcell hv
      simp only [Session.start] at hcell
      split at hcell
      · exact absurd (Option.some.inj hcell).symm hv
      · cases hcell
    case flight => exact fun i hi => absurd hi List.not_mem_nil
    case history => exact fun i hi => absurd hi List.not_mem_nil
    case stopped => exact fun i hi => absurd hi List.not_mem_nil
    case loaded =>
      rw [hold]
      exact fun hloaded => by cases hloaded
    case answers => exact fun r hr => absurd hr List.not_mem_nil
    case ready => exact fun hready => by cases hready
  case pending =>
    intro e ho
    rw [State.Open, hexchanges] at ho
    exact absurd ho (hnone e)
  case quiet =>
    intro j hj _
    rw [hcurrent] at hj
    cases hj
    rw [hself]
    rfl

/-- A session is open, or a new one is. -/
theorem Inv.open_ (h : Inv s) : Inv s.open_.2 ∧ s.open_.2.session = some s.open_.1 := by
  rw [State.open_]
  cases hsession : s.session with
  | some k => exact ⟨h, hsession⟩
  | none => exact ⟨h.renewed hsession, rfl⟩

end

end Worker
