import CapnpcWasm.Rewriter.Sequences
import CapnpcWasm.Rewriter.Validity

/-!
# The countdown never loses a poll

One global counts for two kinds of sequences, which test it differently: a check for
zero, a charge against its ticks.  Between them the host may set it to zero at any time.
Whatever their order, the countdown stays between zero and the interval, and what is
charged from one poll to the next is at most the interval.

An operation is the sequence of its instructions, run by the machine; whether it polled
is read off the log of host calls.
-/

namespace Rewriter

open Wasm
open Run (Steps Halts)

/-! ## Operations on the countdown -/

/-- The operations a charge is for. -/
inductive Bulk where
  | memory
  | table
deriving DecidableEq, Repr

def Bulk.shift : Bulk → Nat
  | .memory => memoryChargeShift
  | .table => tableChargeShift

/-- What happens to the countdown. -/
inductive Op where
  | check
  | charge (bulk : Bulk) (size : BitVec 32)
  /-- The host sets the exported countdown to zero. -/
  | zero
deriving DecidableEq, Repr

namespace Op

/-- What an operation costs. -/
def ticks : Op → Nat
  | .check => 1
  | .charge bulk size => size.toNat >>> bulk.shift
  | .zero => 0

/-- Whether an operation has to poll at the countdown `c`. -/
def MustPoll (c : Nat) : Op → Prop
  | .check => c = 0
  | .charge bulk size => 1 ≤ ticks (.charge bulk size) ∧ c ≤ ticks (.charge bulk size)
  | .zero => False

/-- The countdown a poll leaves, for the interval `interval`: a check takes its tick from
the new one. -/
def restart (interval : Nat) : Op → Nat
  | .check => interval - 1
  | _ => interval

/-- What an operation takes from the countdown, given whether it polled. -/
def charged (polled : Bool) (op : Op) : Nat :=
  match op, polled with
  | .check, _ => 1
  | op, false => op.ticks
  | _, true => 0

theorem charged_false (op : Op) : op.charged false = op.ticks := by
  cases op <;> rfl

/-- A new countdown pays for the operation that started it. -/
theorem charged_restart (op : Op) {interval : Nat} (h : 1 ≤ interval) :
    op.charged true + op.restart interval = interval := by
  cases op <;> simp only [charged, restart] <;> omega

/-- The emitted instructions, none for what the host does. -/
def code (ctx : Context) (scratch : Nat) : Op → List Instr
  | .check => ctx.check
  | .charge bulk _ => ctx.charge scratch bulk.shift
  | .zero => []

/-- What the emitted instructions find on the stack and leave there. -/
def operands : Op → List Val
  | .charge _ size => [.i32 size]
  | _ => []

end Op

/-- The host answers a poll with a number. -/
def Answers {σ : Type} (h : Host σ) (ctx : Context) : Prop :=
  ∀ s v, ∃ a, (h.call s ctx.interrupt [] v).reply = .ret [.i32 a]

section

variable {σ : Type} {m : Module} {P : Prims} {h : Host σ} {ctx : Context} {w w' : World σ}

/-- The value of the countdown. -/
def Countdown (ctx : Context) (w : World σ) (c : BitVec 32) : Prop :=
  w.store.globals[ctx.counter]? = some (.i32 c)

/-! ## Ticks as numbers -/

theorem ticks_toNat (bulk : Bulk) (size : BitVec 32) :
    (ticks bulk.shift size).toNat = (Op.charge bulk size).ticks := by
  cases bulk <;> simp [ticks, Op.ticks, Bulk.shift, memoryChargeShift, tableChargeShift]

theorem unit_ule (bulk : Bulk) (size : BitVec 32) :
    (unit_ bulk.shift).ule size = decide (1 ≤ (Op.charge bulk size).ticks) := by
  rw [BitVec.ule, decide_eq_decide]
  cases bulk <;>
    simp only [unit_, Op.ticks, Bulk.shift, memoryChargeShift, tableChargeShift,
      Nat.shiftRight_eq_div_pow, BitVec.toNat_ofNat] <;> omega

theorem countdown_lt_length {c : BitVec 32} (hc : Countdown ctx w c) :
    ctx.counter < w.store.globals.length := (List.getElem?_eq_some_iff.mp hc).1

theorem setGlobal_self {c : BitVec 32} (hc : Countdown ctx w c) :
    w.setGlobal ctx.counter (.i32 c) = w := by
  have hset : w.store.globals.set ctx.counter (.i32 c) = w.store.globals := by
    obtain ⟨hlt, hget⟩ := List.getElem?_eq_some_iff.mp hc
    rw [← hget, List.set_getElem_self]
  simp only [World.setGlobal, hset]

theorem countdown_setGlobal {c d : BitVec 32} (hc : Countdown ctx w c) :
    Countdown ctx (w.setGlobal ctx.counter (.i32 d)) d := setGlobal_get (countdown_lt_length hc)

/-! ## One operation -/

variable {fn n : Nat} {is : List Instr} {vs xs : List Val} {ls : List Label} {cs : List Frame}
  {scratch : Nat} {op : Op} {c : BitVec 32}

/-- An operation that need not poll takes its ticks from the countdown, which has them. -/
theorem op_ticks (hop : op ≠ .zero) (hc : Countdown ctx w c) (hx : scratch < xs.length)
    (hno : ¬ op.MustPoll c.toNat) :
    ∃ k xs' d, Steps (step m P h) k
        ⟨w, ⟨fn, op.code ctx scratch ++ is, op.operands ++ vs, ls, xs, n⟩, cs⟩
        ⟨w.setGlobal ctx.counter (.i32 d), ⟨fn, is, op.operands ++ vs, ls, xs', n⟩, cs⟩ ∧
      d.toNat + op.ticks = c.toNat := by
  cases op with
  | zero => exact absurd rfl hop
  | check =>
      have hne : c ≠ 0 := fun h => hno (by rw [h]; rfl)
      refine ⟨_, _, _, check_tick hc hne, ?_⟩
      have hpos : c.toNat ≠ 0 := fun h => hne (BitVec.eq_of_toNat_eq h)
      show (c - 1).toNat + 1 = c.toNat
      bv_omega
  | charge bulk size =>
      simp only [Op.MustPoll, not_and, Nat.not_le] at hno
      by_cases hs : 1 ≤ (Op.charge bulk size).ticks
      · have ht : c.ule (ticks bulk.shift size) = false := by
          rw [BitVec.ule, decide_eq_false_iff_not, ticks_toNat]
          exact Nat.not_le.mpr (hno hs)
        refine ⟨_, _, _, charge_tick hc hx (by rw [unit_ule]; exact decide_eq_true hs) ht, ?_⟩
        have := hno hs
        rw [← ticks_toNat] at this ⊢
        bv_omega
      · refine ⟨5, xs.set scratch (.i32 size), c, ?_, ?_⟩
        · rw [setGlobal_self hc]
          exact charge_small hx (by rw [unit_ule]; exact decide_eq_false hs)
        · omega

/-- What an operation has to do when it polls and the host answers zero: it goes on
from a new countdown. -/
theorem op_answered (hp : Polls m ctx) (hb : 1 ≤ ctx.interval ∧ ctx.interval ≤ 2 ^ 31 - 1)
    (hc : Countdown ctx w c) (hx : scratch < xs.length) (hpoll : op.MustPoll c.toNat)
    (hcall : hostCall m h w ctx.interrupt [] = (w', .ret [.i32 0]))
    (hlen : ctx.counter < w'.store.globals.length) :
    ∃ k xs' d, Steps (step m P h) k
        ⟨w, ⟨fn, op.code ctx scratch ++ is, op.operands ++ vs, ls, xs, n⟩, cs⟩
        ⟨w'.setGlobal ctx.counter (.i32 d), ⟨fn, is, op.operands ++ vs, ls, xs', n⟩, cs⟩ ∧
      d.toNat = op.restart ctx.interval := by
  have hfull : ctx.full.toNat = ctx.interval := by
    simp only [Context.full, BitVec.toNat_ofNat]
    omega
  cases op with
  | zero => exact hpoll.elim
  | check =>
      have hz : c = 0 := BitVec.eq_of_toNat_eq hpoll
      refine ⟨_, _, _, check_answered hp (hz ▸ hc) hcall hlen, ?_⟩
      show (ctx.full - 1).toNat = ctx.interval - 1
      bv_omega
  | charge bulk size =>
      obtain ⟨hs, ht⟩ := hpoll
      rw [← ticks_toNat] at ht
      exact ⟨_, _, _, charge_answered hp hc hx (by rw [unit_ule]; exact decide_eq_true hs)
        (decide_eq_true ht) hcall hlen, hfull⟩

/-- An operation whose poll is answered with a number other than zero: it traps. -/
theorem op_stopped (hp : Polls m ctx) (hc : Countdown ctx w c) (hx : scratch < xs.length)
    (hpoll : op.MustPoll c.toNat) {v : BitVec 32} (hv : v ≠ 0)
    (hcall : hostCall m h w ctx.interrupt [] = (w', .ret [.i32 v])) :
    Halts (step m P h) ⟨w, ⟨fn, op.code ctx scratch ++ is, op.operands ++ vs, ls, xs, n⟩, cs⟩
      (.trap, w') := by
  cases op with
  | zero => exact hpoll.elim
  | check =>
      have hz : c = 0 := BitVec.eq_of_toNat_eq hpoll
      exact check_stopped hp hv (hz ▸ hc) hcall
  | charge bulk size =>
      obtain ⟨hs, ht⟩ := hpoll
      rw [← ticks_toNat] at ht
      exact charge_stopped hp hv hc hx (by rw [unit_ule]; exact decide_eq_true hs)
        (decide_eq_true ht) hcall

/-- A poll is a call of the host, whose answer is a number. -/
theorem poll_call (hans : Answers h ctx) (w : World σ) :
    ∃ v w₁, hostCall m h w ctx.interrupt [] = (w₁, .ret [.i32 v]) ∧
      w₁.log = w.log ++ [⟨ctx.interrupt, []⟩] ∧
      w₁.store.globals.length = w.store.globals.length := by
  obtain ⟨v, hv⟩ := hans w.host (m.view w.store)
  refine ⟨v, _, Prod.ext rfl hv, rfl, ?_⟩
  simp only [hostCall, Module.absorb, List.length_append, overwrite_length]
  cases (h.call w.host ctx.interrupt [] (m.view w.store)).countdown <;>
    simp only [List.length_set, ← List.length_append, List.take_append_drop]

/-! ## Runs of operations -/

variable (m P h ctx) in
/-- An operation, executed in some frame to its end. -/
def Op.Executes (op : Op) (w w' : World σ) : Prop :=
  match op with
  | .zero => w' = w.setGlobal ctx.counter (.i32 0)
  | op => ∃ fn vs ls xs xs' n cs scratch k, scratch < xs.length ∧
      Steps (step m P h) k ⟨w, ⟨fn, op.code ctx scratch, op.operands ++ vs, ls, xs, n⟩, cs⟩
        ⟨w', ⟨fn, [], op.operands ++ vs, ls, xs', n⟩, cs⟩

/-- Whether the host was asked between two worlds. -/
def polled (w w' : World σ) : Bool := w.log.length < w'.log.length

variable (m P h ctx) in
/-- Operations one after the other, each with whether it polled. -/
inductive Runs : World σ → List (Op × Bool) → World σ → Prop where
  | nil (w : World σ) : Runs w [] w
  | cons {op : Op} {es : List (Op × Bool)} {w w₁ w₂ : World σ} : op.Executes m P h ctx w w₁ →
      Runs w₁ es w₂ → Runs w ((op, polled w w₁) :: es) w₂

/-- What an executed operation did to the countdown. -/
theorem executes_countdown (hp : Polls m ctx)
    (hb : 1 ≤ ctx.interval ∧ ctx.interval ≤ 2 ^ 31 - 1) (hans : Answers h ctx)
    (hc : Countdown ctx w c) (he : op.Executes m P h ctx w w') :
    ∃ d, Countdown ctx w' d ∧
      ((polled w w' = false ∧ ¬ op.MustPoll c.toNat ∧ d.toNat + op.ticks ≤ c.toNat) ∨
        (polled w w' = true ∧ op.MustPoll c.toNat ∧ d.toNat = op.restart ctx.interval)) := by
  by_cases hzero : op = .zero
  · subst hzero
    cases he
    refine ⟨0, countdown_setGlobal hc, .inl ⟨?_, id, Nat.zero_le _⟩⟩
    simp [polled, World.setGlobal]
  · obtain ⟨fn, vs, ls, xs, xs', n, cs, scratch, k, hx, hrun⟩ : ∃ fn vs ls xs xs' n cs scratch k,
        scratch < xs.length ∧
        Steps (step m P h) k ⟨w, ⟨fn, op.code ctx scratch ++ [], op.operands ++ vs, ls, xs, n⟩, cs⟩
          ⟨w', ⟨fn, [], op.operands ++ vs, ls, xs', n⟩, cs⟩ := by
      cases op with
      | zero => exact absurd rfl hzero
      | check | charge bulk size => simpa only [Op.Executes, List.append_nil] using he
    have hend : ∀ {u : World σ} {ys : List Val},
        step m P h ⟨u, ⟨fn, [], op.operands ++ vs, ls, ys, n⟩, cs⟩ = .halt (.stuck, u) := rfl
    by_cases hpoll : op.MustPoll c.toNat
    · obtain ⟨v, w₁, hcall, hlog, hlen⟩ := poll_call (m := m) hans w
      have hlt : ctx.counter < w₁.store.globals.length := hlen ▸ countdown_lt_length hc
      by_cases hv : v = 0
      · subst hv
        obtain ⟨j, ys, d, hrun', hd⟩ : ∃ j ys d, Steps (step m P h) j
            ⟨w, ⟨fn, op.code ctx scratch ++ [], op.operands ++ vs, ls, xs, n⟩, cs⟩
            ⟨w₁.setGlobal ctx.counter (.i32 d), ⟨fn, [], op.operands ++ vs, ls, ys, n⟩, cs⟩ ∧
          d.toNat = op.restart ctx.interval := op_answered hp hb hc hx hpoll hcall hlt
        have heq := Halts.last_unique hrun hend hrun' hend
        cases heq
        refine ⟨d, setGlobal_get hlt, .inr ⟨?_, hpoll, hd⟩⟩
        simp [polled, World.setGlobal, hlog]
      · -- a trap is not the end of the sequence
        have hstop : Halts (step m P h)
            ⟨w, ⟨fn, op.code ctx scratch ++ [], op.operands ++ vs, ls, xs, n⟩, cs⟩ (.trap, w₁) :=
          op_stopped hp hc hx hpoll hv hcall
        cases hstop.unique (.of_steps hrun (.now hend))
    · obtain ⟨j, ys, d, hrun', hd⟩ : ∃ j ys d, Steps (step m P h) j
          ⟨w, ⟨fn, op.code ctx scratch ++ [], op.operands ++ vs, ls, xs, n⟩, cs⟩
          ⟨w.setGlobal ctx.counter (.i32 d), ⟨fn, [], op.operands ++ vs, ls, ys, n⟩, cs⟩ ∧
        d.toNat + op.ticks = c.toNat := op_ticks hzero hc hx hpoll
      have heq := Halts.last_unique hrun hend hrun' hend
      cases heq
      refine ⟨d, countdown_setGlobal hc, .inl ⟨?_, hpoll, Nat.le_of_eq hd⟩⟩
      simp [polled, World.setGlobal]

/-- A run is a run to any of its worlds and a run from there. -/
theorem Runs.append {es es' : List (Op × Bool)} (hr : Runs m P h ctx w (es ++ es') w') :
    ∃ w₁, Runs m P h ctx w es w₁ ∧ Runs m P h ctx w₁ es' w' := by
  induction es generalizing w with
  | nil => exact ⟨w, .nil w, hr⟩
  | cons e es ih =>
      cases hr with
      | cons he hr =>
          obtain ⟨w₁, h₁, h₂⟩ := ih hr
          exact ⟨w₁, .cons he h₁, h₂⟩

/-- The countdown stays within the interval. -/
theorem Runs.countdown_le (hp : Polls m ctx)
    (hb : 1 ≤ ctx.interval ∧ ctx.interval ≤ 2 ^ 31 - 1) (hans : Answers h ctx)
    {es : List (Op × Bool)} (hr : Runs m P h ctx w es w') :
    ∀ {c}, Countdown ctx w c → c.toNat ≤ ctx.interval →
      ∃ d, Countdown ctx w' d ∧ d.toNat ≤ ctx.interval := by
  induction hr with
  | nil => exact fun hc hle => ⟨_, hc, hle⟩
  | @cons op es w w₁ w₂ he _ ih =>
      intro c hc hle
      obtain ⟨d, hd, ⟨-, -, h⟩ | ⟨-, -, h⟩⟩ := executes_countdown hp hb hans hc he
      · exact ih hd (by omega)
      · refine ih hd ?_
        cases op <;> simp only [Op.restart] at h <;> omega

/-- While nothing polls, the countdown pays for what is charged. -/
theorem Runs.charged_le (hp : Polls m ctx)
    (hb : 1 ≤ ctx.interval ∧ ctx.interval ≤ 2 ^ 31 - 1) (hans : Answers h ctx)
    {es : List (Op × Bool)} (hr : Runs m P h ctx w es w') (hno : ∀ e ∈ es, e.2 = false) :
    ∀ {c}, Countdown ctx w c →
      ∃ d, Countdown ctx w' d ∧
        d.toNat + (es.map fun e => e.1.charged e.2).sum ≤ c.toNat := by
  induction hr with
  | nil => exact fun hc => ⟨_, hc, by simp⟩
  | @cons op es w w₁ w₂ he _ ih =>
      intro c hc
      have hfalse : polled w w₁ = false := hno _ List.mem_cons_self
      obtain ⟨d, hd, ⟨-, -, h⟩ | ⟨htrue, -, -⟩⟩ := executes_countdown hp hb hans hc he
      · obtain ⟨d', hd', hsum⟩ := ih (fun e he => hno e (List.mem_cons_of_mem _ he)) hd
        refine ⟨d', hd', ?_⟩
        simp only [List.map_cons, List.sum_cons, hfalse, op.charged_false]
        omega
      · rw [hfalse] at htrue
        cases htrue

/-- From one poll to the next, what is charged is at most the interval: the poll and the
operations after it that do not poll. -/
theorem Runs.window_le (hp : Polls m ctx)
    (hb : 1 ≤ ctx.interval ∧ ctx.interval ≤ 2 ^ 31 - 1) (hans : Answers h ctx)
    {e : Op × Bool} {es : List (Op × Bool)} (hr : Runs m P h ctx w (e :: es) w')
    (hno : ∀ e ∈ es, e.2 = false) (hc : Countdown ctx w c) (hle : c.toNat ≤ ctx.interval) :
    e.1.charged e.2 + (es.map fun e => e.1.charged e.2).sum ≤ ctx.interval := by
  cases hr with
  | @cons op _ _ w₁ _ he hr =>
      obtain ⟨d, hd, h⟩ := executes_countdown hp hb hans hc he
      obtain ⟨d', -, hsum⟩ := hr.charged_le hp hb hans hno hd
      simp only
      rcases h with ⟨hfalse, -, h⟩ | ⟨htrue, -, h⟩
      · rw [hfalse, op.charged_false]
        omega
      · rw [htrue]
        have := op.charged_restart hb.1
        omega

end

/-! ## No poll is lost -/

/-- After every run of checks, charges and writes of the host, the countdown is between
zero and the interval, no more than the interval was charged from one poll to the next,
and the next operation, in whatever frame, polls before it goes on if it has to and takes
its ticks if not.  Any answer but zero traps. -/
theorem countdown_never_loses_a_poll {σ : Type} {m m' : Module} {P : Prims} {h : Host σ}
    {maximum interval : Nat} (hm : instrument m maximum interval = some m')
    (hans : Answers h (contextOf m interval)) {w w' : World σ} {c : BitVec 32}
    (hc : Countdown (contextOf m interval) w c) (hle : c.toNat ≤ interval)
    {es : List (Op × Bool)} (hr : Runs m' P h (contextOf m interval) w es w') :
    ∃ d, Countdown (contextOf m interval) w' d ∧ d.toNat ≤ interval ∧
      (∀ es₁ e es₂ es₃, es = es₁ ++ (e :: es₂ ++ es₃) → (∀ x ∈ es₂, x.2 = false) →
        e.1.charged e.2 + (es₂.map fun x => x.1.charged x.2).sum ≤ interval) ∧
      ∀ op : Op, op ≠ .zero → ∀ fn is vs ls xs n cs scratch, scratch < xs.length →
        let start : Config σ := ⟨w', ⟨fn, op.code (contextOf m interval) scratch ++ is,
          op.operands ++ vs, ls, xs, n⟩, cs⟩
        (¬ op.MustPoll d.toNat → ∃ k xs' d', Steps (step m' P h) k start
            ⟨w'.setGlobal (contextOf m interval).counter (.i32 d'),
              ⟨fn, is, op.operands ++ vs, ls, xs', n⟩, cs⟩ ∧
            d'.toNat + op.ticks = d.toNat) ∧
        (op.MustPoll d.toNat → ∃ v w₁,
          hostCall m' h w' (contextOf m interval).interrupt [] = (w₁, .ret [.i32 v]) ∧
          (v = 0 → ∃ k xs' d', Steps (step m' P h) k start
              ⟨w₁.setGlobal (contextOf m interval).counter (.i32 d'),
                ⟨fn, is, op.operands ++ vs, ls, xs', n⟩, cs⟩ ∧
              d'.toNat = op.restart interval) ∧
          (v ≠ 0 → Halts (step m' P h) start (.trap, w₁))) := by
  have hi := Instruments.of_instrument hm
  have hp := hi.polls
  have hb := hi.accepted_interval
  obtain ⟨d, hd, hdle⟩ := hr.countdown_le hp hb hans hc hle
  refine ⟨d, hd, hdle, ?_, ?_⟩
  · rintro es₁ e es₂ es₃ rfl hno
    obtain ⟨w₁, h₁, hr⟩ := hr.append
    obtain ⟨w₂, hr, -⟩ := hr.append
    obtain ⟨c₁, hc₁, hle₁⟩ := h₁.countdown_le hp hb hans hc hle
    exact hr.window_le hp hb hans hno hc₁ hle₁
  · intro op hop fn is vs ls xs n cs scratch hx
    refine ⟨fun hno => op_ticks hop hd hx hno, fun hpoll => ?_⟩
    obtain ⟨v, w₁, hcall, -, hlen⟩ := poll_call (m := m') hans w'
    refine ⟨v, w₁, hcall, ?_, fun hv => op_stopped hp hd hx hpoll hv hcall⟩
    rintro rfl
    exact op_answered hp hb hd hx hpoll hcall (hlen ▸ countdown_lt_length hd)

theorem countdown_never_loses_a_poll_sample :
    let m' := (instrument sample 16 1000).get sample_instrumented
    let ctx := contextOf sample 1000
    let w : World Unit := ⟨⟨[], [], [.i32 1000], [], [], [], []⟩, (), []⟩
    ∃ es w' d, es.map (·.1) = [.zero, .check] ∧ Runs m' samplePrims sampleHost ctx w es w' ∧
      Countdown ctx w' d ∧ d.toNat ≤ 1000 := by
  intro m' ctx w
  have hm : instrument sample 16 1000 = some m' := (Option.some_get _).symm
  have hans : Answers sampleHost ctx := by
    intro s v
    have hne : interruptImport ≠ procExit := by decide +kernel
    exact ⟨0, by simp [sampleHost, Context.interrupt, hne]⟩
  have hc : Countdown ctx w 1000 := rfl
  have hzero : Countdown ctx (w.setGlobal ctx.counter (.i32 0)) 0 := countdown_setGlobal hc
  -- the host has set the countdown to zero, so the check polls
  obtain ⟨v, w₁, hcall, -, hlen⟩ := poll_call (m := m') hans (w.setGlobal ctx.counter (.i32 0))
  have hv : v = 0 := by
    have hne : interruptImport ≠ procExit := by decide +kernel
    have hreply := congrArg Prod.snd hcall
    simp [hostCall, sampleHost, Context.interrupt, hne] at hreply
    exact hreply.symm
  subst hv
  obtain ⟨k, xs', d, hrun, -⟩ : ∃ k xs' d, Steps (step m' samplePrims sampleHost) k
      ⟨w.setGlobal ctx.counter (.i32 0),
        ⟨0, Op.check.code ctx 0 ++ [], Op.check.operands ++ [], [], [.i32 0], 0⟩, []⟩
      ⟨w₁.setGlobal ctx.counter (.i32 d), ⟨0, [], Op.check.operands ++ [], [], xs', 0⟩, []⟩ ∧
    d.toNat = Op.check.restart ctx.interval :=
    op_answered (Instruments.of_instrument hm).polls (by decide) hzero (by decide) rfl hcall
      (hlen ▸ countdown_lt_length hzero)
  have hcheck : Op.check.Executes m' samplePrims sampleHost ctx
      (w.setGlobal ctx.counter (.i32 0)) (w₁.setGlobal ctx.counter (.i32 d)) :=
    ⟨0, [], [], [.i32 0], xs', 0, [], 0, k, by decide, by simpa using hrun⟩
  have hwrite : Op.zero.Executes m' samplePrims sampleHost ctx w
      (w.setGlobal ctx.counter (.i32 0)) := rfl
  have hruns := Runs.cons hwrite (Runs.cons hcheck (.nil _))
  obtain ⟨d, hd, hle, -⟩ := countdown_never_loses_a_poll hm hans hc (by decide) hruns
  exact ⟨_, _, d, rfl, hruns, hd, hle⟩

end Rewriter
