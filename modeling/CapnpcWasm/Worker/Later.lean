import CapnpcWasm.Worker.Client

/-!
# What no step takes back

An exchange keeps its session, its id and its kind, a settled promise stays settled, and a disposed
client stays disposed.

`State.Continues` is a preorder, and every function of the client goes up in it, in whatever state it
is called: no invariant is needed.  So each lemma is the composition of those of the functions that
the function calls, and `State.Continues.step` of those of the callbacks.  `settled_once` and
`disposed_quiet` use it along runs.
-/

namespace Worker

section

variable {s s' : State} {e k : Nat} {ev : Event}

/-- The same exchange, later. -/
def Exchange.Continues (x y : Exchange) : Prop :=
  y.session = x.session ∧ y.id = x.id ∧ y.kind = x.kind ∧ x.outcomes <+: y.outcomes

/-- The order is reflexive, and transitive. -/
theorem Exchange.Continues.refl (x : Exchange) : x.Continues x :=
  ⟨rfl, rfl, rfl, List.prefix_refl _⟩

/-- Outcomes are only added to. -/
theorem Exchange.Continues.trans {x y z : Exchange} (h : x.Continues y) (h' : y.Continues z) :
    x.Continues z :=
  ⟨h'.1.trans h.1, h'.2.1.trans h.2.1, h'.2.2.1.trans h.2.2.1, h.2.2.2.trans h'.2.2.2⟩

/-- A later state: settled promises stay settled. -/
structure State.Continues (s s' : State) : Prop where
  begun : s.begun ≤ s'.begun
  disposed : s.disposed = true → s'.disposed = true
  exchanges : ∀ e, e < s.begun → (s.exchanges e).Continues (s'.exchanges e)

namespace State.Continues

variable {t : State} {x : Exchange}

/-- So is the order of states. -/
theorem refl (s : State) : s.Continues s := ⟨Nat.le_refl _, id, fun _ _ => .refl _⟩

/-- An exchange that was begun still is. -/
theorem trans (h : s.Continues s') (h' : s'.Continues t) : s.Continues t :=
  ⟨h.begun.trans h'.begun, h'.disposed ∘ h.disposed, fun e he =>
    (h.exchanges e he).trans (h'.exchanges e (he.trans_le h.begun))⟩

/-- What does not touch the exchanges. -/
theorem of_same (hbegun : s'.begun = s.begun) (hdisposed : s.disposed = true → s'.disposed = true)
    (hexchanges : s'.exchanges = s.exchanges) : s.Continues s' :=
  ⟨hbegun.ge, hdisposed, fun _ _ => hexchanges ▸ .refl _⟩

/-- An exchange is changed to a later one. -/
theorem setExchange (hx : (s.exchanges e).Continues x) : s.Continues (s.setExchange e x) := by
  refine ⟨Nat.le_refl _, id, fun e' _ => ?_⟩
  show (s.exchanges e').Continues (Function.update s.exchanges e x e')
  rw [Function.update_apply]
  split
  · next heq => exact heq ▸ hx
  · exact .refl _

/-- A session may change in any way. -/
theorem setSession (s : State) (k : Nat) (x : Session) : s.Continues (s.setSession k x) :=
  .of_same rfl id rfl

/-- So may the timers. -/
theorem setDeadline (s : State) (e : Nat) (timer : Timer) : s.Continues (s.setDeadline e timer) :=
  .of_same rfl id rfl

theorem setGrace (s : State) (e : Nat) (timer : Timer) : s.Continues (s.setGrace e timer) :=
  .of_same rfl id rfl

/-- Listeners and hooks are no part of the order. -/
theorem release (s : State) (e : Nat) : s.Continues (s.release e) := by
  rw [State.release]
  split <;> exact .of_same rfl id rfl

/-- The stage and the wait for the end change.  Neither is an outcome. -/
theorem close (s : State) (e : Nat) : s.Continues (s.close e) := by
  -- Each assignment of `close` in turn.
  have hstage : s.Continues (s.setExchange e { s.exchanges e with stage := .closed }) :=
    setExchange ⟨rfl, rfl, rfl, List.prefix_refl _⟩
  have hclosed := (hstage.trans (release _ e)).trans (setGrace _ e
    (((s.setExchange e { s.exchanges e with stage := .closed }).release e).graces e).clear)
  rw [State.close]
  dsimp only
  split
  · exact (hclosed.trans (setSession _ _ _)).trans (setExchange ⟨rfl, rfl, rfl, List.prefix_refl _⟩)
  · exact hclosed.trans (setExchange ⟨rfl, rfl, rfl, List.prefix_refl _⟩)

/-- An outcome comes behind those there are.  That there are none yet is said elsewhere. -/
theorem settle (s : State) (e : Nat) (outcome : Outcome) : s.Continues (s.settle e outcome) :=
  setExchange ⟨rfl, rfl, rfl, List.prefix_append _ _⟩

/-- A stopping job is closed. -/
theorem settleThis (s : State) (e : Nat) : s.Continues (s.settleThis e) := by
  rw [State.settleThis]
  split
  · exact close s e
  · exact .refl s

/-- A worker is terminated, and a stopping job closed. -/
theorem stop (s : State) (k : Nat) : s.Continues (s.stop k) := by
  -- The session is dropped only if it is the current one.
  have hdropped : ∀ t : State, t.Continues (if t.session = some k then { t with session := none }
      else t) := by
    intro t
    split
    · exact .of_same rfl id rfl
    · exact .refl _
  have hkilled := setSession s k { s.sessions k with live := false, ready := false }
  rw [State.stop]
  split
  · exact hkilled.trans (hdropped _)
  · exact (hkilled.trans (hdropped _)).trans (settleThis _ _)

/-- The exchange is closed, its worker stopped, and its promise may be rejected. -/
theorem terminate (s : State) (e : Nat) : s.Continues (s.terminate e) := by
  rw [State.terminate]
  dsimp only
  split
  · exact .refl _
  · split
    · exact ((close s e).trans (stop _ _)).trans (settle _ _ _)
    · exact (close s e).trans (stop _ _)

/-- It ends, or begins to stop. -/
theorem interrupt (s : State) (e : Nat) (timedOut : Bool) : s.Continues (s.interrupt e timedOut) := by
  rw [State.interrupt]
  dsimp only
  split
  · exact .refl _
  · split
    · exact terminate s e
    · have hstage : s.Continues (s.setExchange e { s.exchanges e with stage := .stopping }) :=
        setExchange ⟨rfl, rfl, rfl, List.prefix_refl _⟩
      refine .trans ?_ (setGrace _ e .armed)
      exact (((hstage.trans (release _ e)).trans (settle _ e _)).trans (setSession _ _ _)).trans
        (setExchange ⟨rfl, rfl, rfl, List.prefix_refl _⟩)

/-- It ends with a reply, or its report ends it. -/
theorem receive (s : State) (e : Nat) (reply : Reply) : s.Continues (s.receive e reply) := by
  rw [State.receive]
  dsimp only
  split
  · exact .refl _
  · split
    · exact (setSession s _ _).trans (close _ e)
    · exact .refl _
    · exact (close s e).trans (settle _ _ _)

/-- A reply is received by one exchange after the other. -/
theorem deliver (s : State) (k : Nat) (reply : Reply) : s.Continues (s.deliver k reply) := by
  rw [State.deliver]
  generalize List.range s.begun = es
  -- The induction is on the listeners that are left.
  induction es generalizing s with
  | nil => exact .refl _
  | cons e es ih =>
      rw [List.foldl_cons]
      split
      · exact (receive s e reply).trans (ih _)
      · exact ih s

/-- The wait of a call ends. -/
theorem finish (s : State) (ok : Bool) : s.Continues (s.finish ok) := by
  rw [State.finish]
  split
  · exact .of_same rfl id rfl
  · exact .refl _

/-- A session may be opened. -/
theorem open_ (s : State) : s.Continues s.open_.2 := by
  rw [State.open_]
  split
  · exact .refl _
  · exact .of_same rfl id rfl

/-- The number of the new exchange was not in use. -/
theorem exchange (s : State) (kind : Kind) (aborted posts : Bool) :
    s.Continues (s.exchange kind aborted posts).2 := by
  -- The assignments that begin an exchange, whatever came before.
  have hbegin : ∀ (t : State) (id : Nat) (x : Exchange),
      t.Continues (({ t with
        sequence := id, begun := t.begun + 1, cancel := some (.exchange t.begun) }.setExchange
          t.begun x).setDeadline t.begun .armed) := by
    intro t id x
    refine ⟨Nat.le_succ _, fun h => h, fun e he => ?_⟩
    show (t.exchanges e).Continues (Function.update t.exchanges t.begun x e)
    rw [Function.update_of_ne he.ne]
    exact .refl _
  rw [State.exchange]
  dsimp only
  split
  · exact .refl s
  · split
    · exact ((open_ s).trans (hbegin _ _ _)).trans (setSession _ _ _)
    · exact ((open_ s).trans (hbegin _ _ _)).trans (terminate _ _)

/-- The start-up exchange begins. -/
theorem initialize_ (s : State) (aborted posts : Bool) (awaiting : Nat → Phase) :
    s.Continues (s.initialize_ aborted posts awaiting) := by
  have hexchange := (open_ s).trans (exchange s.open_.2 .init aborted posts)
  rw [State.initialize_]
  dsimp only
  split
  · next e t ht =>
    rw [ht] at hexchange
    exact hexchange.trans (.of_same rfl id rfl)
  · next t ht =>
    rw [ht] at hexchange
    exact hexchange.trans (.of_same rfl id rfl)

/-- The job's exchange begins. -/
theorem post (s : State) (late aborted posts : Bool) : s.Continues (s.post late aborted posts) := by
  have hexchange := exchange s .job aborted posts
  rw [State.post]
  split
  · exact .of_same rfl id rfl
  · split
    · next e t ht =>
      rw [ht] at hexchange
      exact hexchange.trans (.of_same rfl id rfl)
    · next t ht =>
      rw [ht] at hexchange
      exact hexchange.trans (.of_same rfl id rfl)

/-- The one or the other. -/
theorem start (s : State) (late aborted posts : Bool) :
    s.Continues (s.start late aborted posts) := by
  rw [State.start]
  split
  · exact .of_same rfl id rfl
  · split
    · exact post s late aborted posts
    · exact initialize_ s aborted posts _

/-- The start-up ends. -/
theorem initialized {returns throws : State → State} (hreturns : ∀ t : State, t.Continues (returns t))
    (hthrows : ∀ t : State, t.Continues (throws t)) (hs : s.initialized e returns throws = some s') :
    s.Continues s' := by
  rw [State.initialized] at hs
  dsimp only at hs
  split at hs
  · cases hs
  · cases hs
    exact (setSession s _ _).trans (hreturns _)
  · cases hs
    exact (stop s _).trans (hthrows _)

/-- The call goes on. -/
theorem resume {late aborted posts : Bool} (hs : s.resume late aborted posts = some s') :
    s.Continues s' := by
  rw [State.resume] at hs
  split at hs
  · refine initialized ?_ ?_ hs <;> exact fun t => .of_same rfl id rfl
  · cases hs
    exact start s late aborted posts
  · cases hs
    exact .of_same rfl id rfl
  · cases hs
    exact start s late aborted posts
  · refine initialized ?_ ?_ hs <;> exact fun t => .of_same rfl id rfl
  · cases hs
    exact post s late aborted posts
  · split at hs
    · cases hs
    · cases hs
      exact .of_same rfl id rfl
  · cases hs
    exact .of_same rfl id rfl
  · cases hs
    exact (stop s _).trans (.of_same rfl id rfl)
  · cases hs

/-- A client that is disposed of. -/
theorem dispose (s : State) : s.Continues s.dispose := by
  have hpending : ∀ t : State, t.Continues t.cancelPending := by
    intro t
    rw [State.cancelPending]
    split
    · exact .refl t
    · exact interrupt t _ false
    · exact finish t false
  have hdisposed : s.Continues { s with disposed := true } := .of_same rfl (fun _ => rfl) rfl
  rw [State.dispose]
  split
  · exact hdisposed.trans (hpending _)
  · exact (hdisposed.trans (hpending _)).trans (stop _ _)

/-- No event takes anything back. -/
theorem step (hs : s.step ev = some s') : s.Continues s' := by
  rw [State.step.eq_def] at hs
  cases ev with
  | create posts =>
      obtain ⟨-, rfl⟩ : s.phase = .fresh ∧ s.initialize_ false posts .creating = s' := by
        simpa using hs
      exact initialize_ s false posts _
  | call =>
      obtain ⟨-, rfl⟩ : s.usable = true ∧ s.runJob = s' := by simpa using hs
      rw [State.runJob]
      split
      · exact .refl s
      · dsimp only
        split <;> exact .of_same rfl id rfl
  | resume late aborted posts => exact resume hs
  | timer e =>
      obtain ⟨-, hs⟩ := Option.ite_none_right_eq_some.mp hs
      cases hs
      exact (interrupt s e true).trans (setDeadline _ e .idle)
  | abort e =>
      obtain ⟨-, rfl⟩ : e < s.begun ∧ s.interrupt e false = s' := by simpa using hs
      exact interrupt s e false
  | grace e =>
      obtain ⟨-, hs⟩ := Option.ite_none_right_eq_some.mp hs
      cases hs
      refine .trans ?_ (setGrace _ e .idle)
      rw [State.grace]
      split
      · exact terminate s e
      · exact .refl s
  | fail e =>
      obtain ⟨-, rfl⟩ : e < s.begun ∧ s.terminate e = s' := by simpa using hs
      exact terminate s e
  | expire =>
      obtain ⟨-, hs⟩ := Option.ite_none_right_eq_some.mp hs
      cases hs
      exact (finish s false).trans (.of_same rfl id rfl)
  | abandon =>
      cases hs
      exact finish s false
  | wake =>
      dsimp only at hs
      split at hs
      · obtain ⟨-, hs⟩ := Option.ite_none_right_eq_some.mp hs
        cases hs
        exact finish s true
      · cases hs
  | dispose =>
      obtain ⟨-, rfl⟩ : s.usable = true ∧ s.dispose = s' := by simpa using hs
      exact dispose s
  | take k =>
      obtain ⟨-, new, -, rfl⟩ : k < s.opened ∧ ∃ new, (s.sessions k).take = some new ∧
          s.setSession k new = s' := by simpa using hs
      exact setSession s k new
  | finish k m ok =>
      obtain ⟨-, new, -, rfl⟩ : k < s.opened ∧ ∃ new, (s.sessions k).finish m ok = some new ∧
          s.setSession k new = s' := by simpa using hs
      exact setSession s k new
  | poll k m =>
      obtain ⟨-, new, -, rfl⟩ : k < s.opened ∧ ∃ new, (s.sessions k).poll m = some new ∧
          s.setSession k new = s' := by simpa using hs
      exact setSession s k new
  | deliver k reply =>
      obtain ⟨-, hs⟩ := Option.ite_none_right_eq_some.mp hs
      cases hs
      exact (setSession s k _).trans (deliver _ k reply)

end State.Continues

end

end Worker
