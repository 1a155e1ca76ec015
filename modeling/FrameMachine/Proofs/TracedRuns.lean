import FrameMachine.Proofs.Collision
import FrameMachine.Proofs.Stepping
import FrameMachine.Proofs.StoreMap
/-!
# Traced runs

A machine that traces into a store goes through the replay of its program: each completed
instruction adds one record, and one that stops adds none. So the store of a traced run tells every
state that stepping the program again would pass through.
-/
namespace FrameMachine

open TraceStore

def TraceStore.recorder [Codec] : Tracer TraceStore := tracer id fun store _ => store

/-- A logger, if any, beside a tracer that records every step in a store. -/
def Observers.traced [Codec] {σ : Type} (logger : Option (Logger σ)) : Observers (σ × TraceStore) :=
  .apart logger (some recorder)

namespace Machine

def completed (m : Machine) (flow : Flow) (core : Core) : Machine :=
  { m with core := core, steps := m.steps + 1, halted := m.halted || flow = .halt }

/-- The machine after `k` steps that nobody observes. -/
def replay (m : Machine) (k : Nat) : Machine :=
  (Session.performAll ({} : Observers Unit) (List.replicate k .step) ⟨m, ()⟩).machine

theorem replay_succ (m : Machine) (k : Nat) :
    m.replay (k + 1) = (Session.step {} ⟨m.replay k, ()⟩).2.machine := by
  have hstep (s : Session Unit) : Session.performAll {} (List.replicate (k + 1) .step) s =
      (Session.step {} (Session.performAll {} (List.replicate k .step) s)).2 := by
    induction k generalizing s with
    | zero => rfl
    | succ k ih => exact ih (s.step {}).2
  rw [replay, hstep]
  rfl

theorem step_unobserved {m : Machine} (hhalted : m.halted = false) (hfailure : m.failure = none)
    {insn : Instruction} {flow : Flow} {core : Core} (hfetch : m.core.fetch? m.code = some insn)
    (hrun : m.core.carryOut insn = .ok flow core) :
    (Session.step {} ⟨m, ()⟩).2.machine = m.completed flow core := by
  rw [Session.step_of_running {} hhalted hfailure, Action.run_cycle]
  simp only [hfetch, hrun]
  obtain ⟨_, _, _, _, _, _⟩ := m
  cases hhalted
  cases flow <;> rfl

end Machine

namespace Session

variable {σ : Type}

/-- Nothing has changed but the world of the logger and the width of its marks. -/
structure EqButLog (s t : Session (σ × TraceStore)) : Prop where
  noted : s.machine.Noted t.machine
  steps : t.machine.steps = s.machine.steps
  halted : t.machine.halted = s.machine.halted
  store : t.world.2 = s.world.2

structure Traces [Codec] (insn : Instruction) (flow : Flow) (after : Core)
    (s t : Session (σ × TraceStore)) : Prop where
  code : t.machine.code = s.machine.code
  core : t.machine.core = after
  failure : t.machine.failure = s.machine.failure
  steps : t.machine.steps = s.machine.steps + 1
  halted : t.machine.halted = (s.machine.halted || flow = .halt)
  store : t.world.2 = (s.world.2.trace (s.machine.steps + 1) insn after.snapshot).2

end Session

namespace Action

variable [Codec] {σ : Type} {logger : Option (Logger σ)}
  (returning : ∀ l ∈ logger, ∀ line world, (l line world).1 = .returned ())

include returning

private theorem run_log_traced (indent mark : String) (text : Core → String)
    (s : Session (σ × TraceStore)) :
    ∃ t, (log (.traced logger) indent mark text).run s = .ok () t ∧ s.EqButLog t := by
  rw [run_log]
  cases logger with
  | none => exact ⟨s, rfl, .refl _, rfl, rfl, rfl⟩
  | some l =>
      have hcall := returning l rfl (lineOf s.machine indent mark text) s.world.1
      simp only [Observers.traced, Observers.apart, Option.map_some, hcall]
      exact ⟨_, rfl, ⟨rfl, rfl, rfl⟩, rfl, rfl, rfl⟩

private theorem run_halt_traced {α : Type} (indent : String) (cause : Failure)
    (s : Session (σ × TraceStore)) :
    ∃ t, (halt (.traced logger) indent cause : Action _ α).run s = .error (.halt cause) t ∧
      s.EqButLog t := by
  obtain ⟨t, hlog, heq⟩ := run_log_traced returning indent "#"
    (fun _ => "halt error: " ++ cause.message) s
  refine ⟨t, ?_, heq⟩
  rw [run_halt, hlog]

omit returning in
private theorem run_trace_traced (logger : Option (Logger σ)) (insn : Instruction)
    {s : Session (σ × TraceStore)} (hopen : s.world.2.isOpen = true) :
    ∃ t, (trace (.traced logger) insn).run s = .ok none t ∧ t.machine = s.machine ∧
      t.world.2 = (s.world.2.trace s.machine.steps insn s.machine.core.snapshot).2 := by
  rw [run_trace]
  simp only [Observers.traced, Observers.apart, Option.map_some, recorder, tracer, id,
    trace_of_open hopen]
  exact ⟨_, rfl, rfl, rfl⟩

private theorem run_report_traced (indent : String) (here : Word) (insn : Instruction)
    {s : Session (σ × TraceStore)} (hopen : s.world.2.isOpen = true) :
    ∃ t, (report (.traced logger) indent here insn).run s = .ok () t ∧
      s.Traces insn .next s.machine.core t := by
  obtain ⟨u, hlog, heq⟩ := run_log_traced returning indent "exec" (execText here insn)
    ⟨{ s.machine with steps := s.machine.steps + 1 }, s.world⟩
  have hopen' : u.world.2.isOpen = true := by rw [heq.store, hopen]
  obtain ⟨t, htrace, hmachine, hstore⟩ := run_trace_traced logger insn hopen'
  refine ⟨t, ?_, ?_⟩
  · rw [report, Exec.run_bind, run_countStep]
    dsimp only
    rw [Exec.run_bind, hlog]
    dsimp only
    rw [Exec.run_bind, htrace]
    rfl
  · rw [heq.store, heq.steps, heq.noted.core] at hstore
    refine ⟨?_, ?_, ?_, ?_, ?_, hstore⟩ <;> rw [hmachine]
    · exact heq.noted.code
    · exact heq.noted.core
    · exact heq.noted.failure
    · exact heq.steps
    · simp [heq.halted]

private theorem run_conclude_traced (indent : String) (here : Word) (insn : Instruction)
    (flow : Flow) {s : Session (σ × TraceStore)} (hopen : s.world.2.isOpen = true) :
    ∃ t, (conclude (.traced logger) indent here insn flow).run s = .ok () t ∧
      s.Traces insn flow s.machine.core t := by
  cases flow with
  | next => exact run_report_traced returning indent here insn hopen
  | halt =>
      obtain ⟨u, hlog, heq⟩ := run_log_traced returning indent "#" (haltText here)
        ⟨{ s.machine with halted := true }, s.world⟩
      have hopen' : u.world.2.isOpen = true := by rw [heq.store, hopen]
      obtain ⟨t, hreport, htraces⟩ := run_report_traced returning indent here insn hopen'
      refine ⟨t, ?_, ?_⟩
      · rw [conclude, if_pos rfl, Exec.run_bind, run_setHalted]
        dsimp only
        rw [Exec.run_bind, hlog]
        exact hreport
      · refine ⟨htraces.code.trans heq.noted.code, htraces.core.trans heq.noted.core,
          htraces.failure.trans heq.noted.failure, ?_, ?_, ?_⟩
        · rw [htraces.steps, heq.steps]
        · simp [htraces.halted, heq.halted]
        · rw [htraces.store, heq.store, heq.steps, heq.noted.core]

private theorem run_cycle_traced (indent : String) {s : Session (σ × TraceStore)}
    (hopen : s.world.2.isOpen = true) :
    (∃ insn flow core t, s.machine.core.fetch? s.machine.code = some insn ∧
      s.machine.core.carryOut insn = .ok flow core ∧
      (cycle (.traced logger) indent).run s = .ok () t ∧ s.Traces insn flow core t) ∨
    (s.machine.core.next? s.machine.code = none ∧ ∃ e t,
      (cycle (.traced logger) indent).run s = .error e t ∧
      t.machine.steps = s.machine.steps ∧ t.world.2 = s.world.2) := by
  rw [run_cycle, Core.next?]
  cases hfetch : s.machine.core.fetch? s.machine.code with
  | none =>
      obtain ⟨t, hhalt, heq⟩ := run_halt_traced returning indent
        (.counterOutOfCode s.machine.core.regs.pc) s
      exact .inr ⟨rfl, _, t, hhalt, heq.steps, heq.store⟩
  | some insn =>
      dsimp only
      cases hrun : s.machine.core.carryOut insn with
      | ok flow core =>
          obtain ⟨t, hconclude, htraces⟩ := run_conclude_traced returning indent
            s.machine.core.regs.pc insn flow (s := withCore s core) hopen
          exact .inl ⟨insn, flow, core, t, rfl, hrun, hconclude, htraces.code, htraces.core,
            htraces.failure, htraces.steps, htraces.halted, htraces.store⟩
      | error stop core =>
          refine .inr ⟨by simp [hrun], ?_⟩
          cases stop with
          | fault f => exact ⟨_, _, rfl, rfl, rfl⟩
          | refusal cause =>
              obtain ⟨t, hhalt, heq⟩ := run_halt_traced returning indent cause
                (withCore s core)
              exact ⟨_, t, hhalt, heq.steps, heq.store⟩

end Action

def Core.completions (code : Array Instruction) (begun : List Core) : Nat :=
  begun.countP fun core => (core.next? code).isSome

theorem Core.completions_append (code : Array Instruction) (begun more : List Core) :
    completions code (begun ++ more) = completions code begun + completions code more :=
  List.countP_append

/-- What a tracer would have seen of the first `n` unobserved steps, the last one first. -/
inductive Machine.Retraced (m : Machine) : Nat → List Observation → Prop where
  | nil : Retraced m 0 []
  | cons {n : Nat} {seen : List Observation} {insn : Instruction} (earlier : Retraced m n seen)
      (fetched : (m.replay n).fetch? = some insn)
      (counted : (m.replay (n + 1)).steps = .ofNat (n + 1))
      (short : (m.replay (n + 1)).core.mem.size ≤ Cbor.maxElements) :
      Retraced m (n + 1) (⟨.ofNat (n + 1), insn, (m.replay (n + 1)).core.snapshot⟩ :: seen)

namespace Machine.Retraced

variable {m : Machine} {n : Nat} {seen : List Observation}

private theorem length (h : m.Retraced n seen) : seen.length = n := by
  induction h with
  | nil => rfl
  | cons _ _ _ _ ih => rw [List.length_cons, ih]

private theorem step_of_mem (h : m.Retraced n seen) {o : Observation} (ho : o ∈ seen) :
    ∃ k < n, o.step = .ofNat (k + 1) := by
  induction h with
  | nil => cases ho
  | @cons n _ _ _ _ _ _ ih =>
      rcases List.mem_cons.mp ho with rfl | ho
      · exact ⟨n, Nat.lt_succ_self n, rfl⟩
      · obtain ⟨k, hk, hstep⟩ := ih ho
        exact ⟨k, Nat.lt_succ_of_lt hk, hstep⟩

private theorem exists_mem (h : m.Retraced n seen) {k : Nat} (hk : k < n) :
    (m.replay (k + 1)).steps = .ofNat (k + 1) ∧
    (m.replay (k + 1)).core.mem.size ≤ Cbor.maxElements ∧
    ∃ insn, (m.replay k).fetch? = some insn ∧
      ⟨.ofNat (k + 1), insn, (m.replay (k + 1)).core.snapshot⟩ ∈ seen := by
  induction h with
  | nil => cases hk
  | @cons n _ insn _ fetched counted short ih =>
      rcases Nat.lt_succ_iff_lt_or_eq.mp hk with hk | rfl
      · obtain ⟨hcounted, hshort, insn, hfetch, hmem⟩ := ih hk
        exact ⟨hcounted, hshort, insn, hfetch, List.mem_cons_of_mem _ hmem⟩
      · exact ⟨counted, short, insn, fetched, List.mem_cons_self⟩

private theorem digests (h : m.Retraced n seen) :
    seen.reverse.map (fun o => o.snap.digest) =
      (List.range n).map fun k => (m.replay (k + 1)).core.snapshot.digest := by
  induction h with
  | nil => rfl
  | cons _ _ _ _ ih =>
      rw [List.reverse_cons, List.map_append, ih, List.range_succ, List.map_append]
      rfl

private theorem step_lt (h : m.Retraced n seen) (hn : n + 1 < 2 ^ 64) :
    ∀ o ∈ seen, o.step < .ofNat (n + 1) := by
  intro o ho
  obtain ⟨k, hk, hstep⟩ := h.step_of_mem ho
  rw [hstep, UInt64.lt_iff_toNat_lt, UInt64.toNat_ofNat', UInt64.toNat_ofNat']
  omega

end Machine.Retraced

namespace Session

variable [codec : Codec] {σ : Type} {m : Machine} {size n : Nat} {s : Session (σ × TraceStore)}

/-- The count and the store are those of `n` completed instructions. -/
structure StoresReplay (m : Machine) (n : Nat) (s : Session (σ × TraceStore)) : Prop where
  steps : s.machine.steps = .ofNat n
  isOpen : s.world.2.isOpen = true
  retraced : ∃ seen, s.world.2.Holds seen ∧ m.Retraced n seen

/-- The machine has not failed and is where `n` unobserved steps lead. -/
structure TracksReplay (m : Machine) (size n : Nat) (s : Session (σ × TraceStore)) : Prop where
  stores : s.StoresReplay m n
  code : s.machine.code = m.code
  failure : s.machine.failure = none
  clear : s.machine.core.Clear size
  replayed : m.replay n = { s.machine with markWidth := m.markWidth }

private theorem StoresReplay.traces {insn : Instruction} {flow : Flow} {core : Core}
    {t : Session (σ × TraceStore)} (bounded : codec.Bounded) (h : s.StoresReplay m n)
    (hn : n + 1 < 2 ^ 64) (ht : s.Traces insn flow core t)
    (hfetched : (m.replay n).fetch? = some insn)
    (hcore : (m.replay (n + 1)).core = core) (hcounted : (m.replay (n + 1)).steps = .ofNat (n + 1))
    (hshort : core.mem.size ≤ Cbor.maxElements) : t.StoresReplay m (n + 1) := by
  obtain ⟨hsteps, hopen, seen, hholds, hretraced⟩ := h
  have hcount : s.machine.steps + 1 = .ofNat (n + 1) := by
    rw [hsteps, UInt64.ofNat_add]
    rfl
  have hsliced : Observation.Sliced ⟨.ofNat (n + 1), insn, core.snapshot⟩ := by
    have hencoded := core.snapshot.length_encode_le rfl
    have hwritten : core.snapshot.marshal.length ≤ _ := bounded core.snapshot.encode
    rw [Cbor.maxElements] at hshort
    simp only [Observation.Sliced]
    omega
  have hholds' := hholds.trace hopen hsliced
  rw [Observation.place_of_newest (hretraced.step_lt hn)] at hholds'
  have hretraced' := hretraced.cons hfetched hcounted (hcore ▸ hshort)
  rw [hcore] at hretraced'
  refine ⟨ht.steps.trans hcount, ?_, _, ?_, hretraced'⟩
  · rw [ht.store, trace_of_open hopen]
    exact hopen
  · rw [ht.store, hcount]
    exact hholds'

private theorem TracksReplay.traces {insn : Instruction} {flow : Flow} {core : Core}
    {t : Session (σ × TraceStore)} (bounded : codec.Bounded) (h : s.TracksReplay m size n)
    (hsize : size ≤ Cbor.maxElements)
    (hn : n + 1 < 2 ^ 64) (hrunning : s.machine.halted = false)
    (hfetch : s.machine.core.fetch? s.machine.code = some insn)
    (hrun : s.machine.core.carryOut insn = .ok flow core) (ht : s.Traces insn flow core t) :
    t.TracksReplay m size (n + 1) := by
  have hclear : core.Clear size := Core.Completes.clear ⟨insn, flow, hfetch, hrun⟩ h.clear
  have hfetched : (m.replay n).fetch? = some insn := by
    rw [h.replayed]
    exact hfetch
  -- the unobserved machine takes the same step
  have hreplayed : m.replay (n + 1) = { t.machine with markWidth := m.markWidth } := by
    rw [Machine.replay_succ, h.replayed,
      Machine.step_unobserved (m := { s.machine with markWidth := m.markWidth }) hrunning
        h.failure hfetch hrun]
    simp only [Machine.completed, ht.code, ht.core, ht.failure, ht.steps, ht.halted]
  have hcore : (m.replay (n + 1)).core = core := by rw [hreplayed, ← ht.core]
  have hcounted : (m.replay (n + 1)).steps = .ofNat (n + 1) := by
    rw [hreplayed, UInt64.ofNat_add, ← h.stores.steps]
    exact ht.steps
  have hshort : core.mem.size ≤ Cbor.maxElements := by rwa [hclear.size_eq]
  refine ⟨h.stores.traces bounded hn ht hfetched hcore hcounted hshort, ht.code.trans h.code,
    ht.failure.trans h.failure, ?_, hreplayed⟩
  rw [ht.core]
  exact hclear

/-- In step, or stopped for good with count and store of the instructions completed. -/
def TracksOrFailed (m : Machine) (size n : Nat) (s : Session (σ × TraceStore)) : Prop :=
  s.TracksReplay m size n ∨ s.StoresReplay m n ∧ s.machine.failure.isSome

private theorem StoresReplay.stopWith (h : s.StoresReplay m n) (cause : Failure) :
    StoresReplay m n ⟨s.machine.stopWith cause, s.world⟩ :=
  ⟨h.steps, h.isOpen, h.retraced⟩

def Ended {α : Type} (m : Machine) (size n : Nat) :
    EStateM.Result Abrupt (Session (σ × TraceStore)) α → Prop
  | .ok _ t => t.TracksReplay m size n
  | .error _ t => t.StoresReplay m n

private theorem Ended.attempt {name : String} {act : Action (σ × TraceStore) (Option Failure)}
    (hfailure : s.machine.failure = none) (h : Ended m size n (act.run s)) :
    (s.attempt name act).2.TracksOrFailed m size n := by
  rw [attempt_of_none hfailure, Action.final]
  cases hrun : act.run s with
  | ok outcome t =>
      rw [hrun] at h
      cases outcome with
      | none => exact .inl h
      | some cause => exact .inr ⟨h.stores.stopWith cause, rfl⟩
  | error e t =>
      rw [hrun] at h
      exact .inr ⟨h.stopWith _, rfl⟩

private theorem TracksOrFailed.stores (h : s.TracksOrFailed m size n) : s.StoresReplay m n := by
  rcases h with h | ⟨h, -⟩
  · exact h.stores
  · exact h

variable (bounded : codec.Bounded) {logger : Option (Logger σ)}
  (returning : ∀ l ∈ logger, ∀ line world, (l line world).1 = .returned ())

include bounded returning

private theorem TracksReplay.cycle (h : s.TracksReplay m size n) (hsize : size ≤ Cbor.maxElements)
    (hrunning : s.machine.halted = false) (indent : String)
    (hfew : n + Core.completions m.code [s.machine.core] < 2 ^ 64) :
    Ended m size (n + Core.completions m.code [s.machine.core])
      ((Action.cycle (.traced logger) indent).run s) := by
  rcases Action.run_cycle_traced returning indent h.stores.isOpen with
    ⟨insn, flow, core, t, hfetch, hrun, hcycle, htraces⟩ | ⟨hnone, e, t, hcycle, hsteps, hstore⟩
  · have hone : Core.completions m.code [s.machine.core] = 1 := by
      rw [← h.code]
      simp [Core.completions, Core.next?, hfetch, hrun]
    rw [hcycle, hone]
    rw [hone] at hfew
    exact h.traces bounded hsize hfew hrunning hfetch hrun htraces
  · have hzero : Core.completions m.code [s.machine.core] = 0 := by
      rw [← h.code]
      simp [Core.completions, hnone]
    rw [hcycle, hzero]
    refine ⟨hsteps.trans h.stores.steps, ?_, ?_⟩
    · rw [hstore]
      exact h.stores.isOpen
    · rw [hstore]
      exact h.stores.retraced

private theorem TracksReplay.loop (h : s.TracksReplay m size n) (hsize : size ≤ Cbor.maxElements)
    (cause : Failure) (budget : Nat)
    (hfew : n + Core.completions m.code (Action.visits (.traced logger) budget s) < 2 ^ 64) :
    Ended m size (n + Core.completions m.code (Action.visits (.traced logger) budget s))
      ((Action.loop (.traced logger) cause budget).run s) := by
  induction budget generalizing s n with
  | zero =>
      rw [Action.run_loop_zero]
      exact h
  | succ budget ih =>
      rw [Action.visits] at hfew ⊢
      rw [Action.run_loop_succ]
      cases hhalted : s.machine.halted with
      | true => exact h
      | false =>
          rw [hhalted, if_neg Bool.false_ne_true] at hfew
          rw [if_neg Bool.false_ne_true, if_neg Bool.false_ne_true]
          rw [← List.singleton_append, Core.completions_append, ← Nat.add_assoc] at hfew ⊢
          have hcycle := h.cycle bounded returning hsize hhalted "\t" (by omega)
          cases hrun : (Action.cycle (.traced logger) "\t").run s with
          | ok u t =>
              rw [hrun] at hcycle hfew
              exact ih hcycle hfew
          | error e t =>
              rw [hrun] at hcycle
              exact hcycle

private theorem TracksOrFailed.perform (h : s.TracksOrFailed m size n)
    (hsize : size ≤ Cbor.maxElements) (call : Call)
    (hfew : n + Core.completions m.code (s.visits (.traced logger) call) < 2 ^ 64) :
    (s.perform (.traced logger) call).TracksOrFailed m size
      (n + Core.completions m.code (s.visits (.traced logger) call)) := by
  rcases h with h | ⟨hstores, hfailed⟩
  · unfold visits at hfew ⊢
    rw [h.failure, Option.isSome_none, if_neg Bool.false_ne_true] at hfew ⊢
    cases call with
    | step =>
        rw [Session.perform, step]
        cases hhalted : s.machine.halted with
        | true => exact .inl h
        | false =>
            simp only [hhalted, Bool.false_eq_true, if_false] at hfew ⊢
            have hcycle := h.cycle bounded returning hsize hhalted "" hfew
            apply Ended.attempt h.failure
            rw [Exec.run_bind]
            cases hrun : (Action.cycle (.traced logger) "").run s with
            | ok u t =>
                rw [hrun] at hcycle
                exact hcycle
            | error e t =>
                rw [hrun] at hcycle
                exact hcycle
    | run budget cause =>
        rw [Session.perform, run_snd]
        exact Ended.attempt h.failure (h.loop bounded returning hsize cause budget hfew)
  · obtain ⟨cause, hcause⟩ := Option.isSome_iff_exists.mp hfailed
    rw [perform_of_failure _ hcause, visits_of_failure _ hcause]
    exact .inr ⟨hstores, hfailed⟩

private theorem TracksOrFailed.performAll (h : s.TracksOrFailed m size n)
    (hsize : size ≤ Cbor.maxElements) (calls : List Call)
    (hfew : n + Core.completions m.code (history (.traced logger) calls s) < 2 ^ 64) :
    (performAll (.traced logger) calls s).TracksOrFailed m size
      (n + Core.completions m.code (history (.traced logger) calls s)) := by
  induction calls generalizing s n with
  | nil => exact h
  | cons call calls ih =>
      rw [history, Core.completions_append, ← Nat.add_assoc] at hfew ⊢
      exact ih (h.perform bounded returning hsize call (by omega)) hfew

end Session

private theorem Plan.tracks_of_build [Codec] {σ : Type} {plan : Plan (σ × TraceStore)}
    {code : Array Instruction} {m : Machine} (built : plan.build code = .ok m) (world : σ) :
    Session.TracksOrFailed m plan.words.toNatClampNeg 0 ⟨m, (world, ({} : TraceStore).opened)⟩ := by
  have hinitial := plan.build_eq_initial built
  have hstores : Session.StoresReplay m 0 ⟨m, (world, ({} : TraceStore).opened)⟩ := by
    refine ⟨?_, rfl, [], ⟨rfl, .nil, nofun⟩, .nil⟩
    rw [hinitial]
    rfl
  refine .inl ⟨hstores, rfl, ?_, plan.clear_of_build built, rfl⟩
  rw [hinitial]
  rfl

/-- Whatever calls are made on a machine that traces into a fresh store, the store holds one entry
for every instruction that was completed, and nothing else. The entry of step `k` tells the
instruction that the same machine fetches as its `k`-th when nobody observes it, and the state
that machine is in after `k` steps. -/
theorem traced_run_replays [codec : Codec] (roundTrips : codec.RoundTrips)
    (bounded : codec.Bounded) {σ : Type} {plan : Plan (σ × TraceStore)}
    {logger : Option (Logger σ)} (tracing : plan.observers = .traced logger)
    (returning : ∀ l ∈ logger, ∀ line world, (l line world).1 = .returned ())
    {code : Array Instruction} {m : Machine} (built : plan.build code = .ok m)
    (small : plan.words ≤ 131072) (world : σ) (calls : List Call)
    (few : Core.completions code
      (Session.history plan.observers calls ⟨m, (world, ({} : TraceStore).opened)⟩) < 2 ^ 64) :
    let start : Session (σ × TraceStore) := ⟨m, (world, ({} : TraceStore).opened)⟩
    let s := Session.performAll plan.observers calls start
    let steps := s.machine.steps.toNat
    steps = Core.completions code (Session.history plan.observers calls start) ∧
    s.world.2.size = .ok steps ∧
    (∀ k < steps, ∃ insn e, (m.replay k).fetch? = some insn ∧
      (m.replay (k + 1)).steps = .ofNat (k + 1) ∧
      s.world.2.entry (.ofNat (k + 1)) = .ok e ∧ e.step = .ofNat (k + 1) ∧ e.insn = insn ∧
      e.digest = (m.replay (k + 1)).core.snapshot.digest ∧
      s.world.2.snapshot (.ofNat (k + 1)) = .ok (m.replay (k + 1)).core.snapshot) ∧
    (∀ step, step = 0 ∨ s.machine.steps < step → s.world.2.entry step = .error .noSuchStep) ∧
    s.world.2.digests =
      (((List.range steps).map fun k =>
        (m.replay (k + 1)).core.snapshot.digest).toArray, none) := by
  intro start s steps
  have hcode : m.code = code := by rw [Plan.build_eq_initial built, Machine.initial]
  have hsize : plan.words.toNatClampNeg ≤ Cbor.maxElements := by
    have hle := Int64.le_iff_toInt_le.mp small
    rw [show (131072 : Word).toInt = 131072 from rfl] at hle
    rw [Int64.toNatClampNeg, Cbor.maxElements]
    omega
  have htracks := (plan.tracks_of_build built world).performAll bounded returning hsize calls
  rw [hcode, Nat.zero_add, ← tracing] at htracks
  obtain ⟨hsteps, hopen, seen, hholds, hretraced⟩ := (htracks few).stores
  have hcount : Core.completions code (Session.history plan.observers calls start) = steps := by
    simp only [steps, s, start]
    rw [hsteps, UInt64.toNat_ofNat', Nat.mod_eq_of_lt few]
  rw [hcount] at hretraced
  refine ⟨hcount.symm, ?_, ?_, ?_, ?_⟩
  · rw [hholds.size hopen, hretraced.length]
  · intro k hk
    obtain ⟨hcounted, hshort, insn, hfetch, hmem⟩ := hretraced.exists_mem hk
    have hentry := hholds.entry_of_mem hopen hmem
    have hsnapshot := hholds.snapshot_of_mem roundTrips hopen hmem (by rintro ws ⟨⟩; exact hshort)
    exact ⟨insn, _, hfetch, hcounted, hentry, rfl, rfl, rfl, hsnapshot⟩
  · intro step hstep
    apply hholds.entry_of_not_mem hopen
    rintro o ho rfl
    obtain ⟨k, hk, hnumber⟩ := hretraced.step_of_mem ho
    rw [hnumber, UInt64.lt_iff_toNat_lt, ← UInt64.toNat_inj, UInt64.toNat_ofNat'] at hstep
    have hlt : steps < 2 ^ 64 := s.machine.steps.toNat_lt
    rcases hstep with hzero | hlarge
    · rw [UInt64.toNat_zero] at hzero
      omega
    · omega
  · rw [hholds.digests hopen, hretraced.digests]

theorem traced_run_replays_until_fault :
    let plan : Plan (Unit × TraceStore) := ⟨4, .traced none⟩
    let m : Machine := .initial divideByZero 4
    let s := Session.performAll plan.observers [.step, .run 5 .canceled]
      ⟨m, ((), ({} : TraceStore).opened)⟩
    Zstd.stored.RoundTrips ∧ Zstd.stored.Bounded ∧ plan.build divideByZero = .ok m ∧
    s.machine.failure = some (.panicFailure "run" (.fault .divisionByZero)) ∧
    s.machine.steps = 2 ∧ s.world.2.size = .ok 2 ∧
    (∃ e, s.world.2.entry 2 = .ok e ∧ e.insn = .ofOpcode .loadc 0) ∧
    s.world.2.snapshot 2 = .ok ⟨⟨2, 1, -1, -1, 4⟩, some #[7, 0, 0, 0]⟩ ∧
    s.world.2.entry 3 = .error .noSuchStep ∧
    s.world.2.digests =
      (#[(m.replay 1).core.snapshot.digest, (m.replay 2).core.snapshot.digest], none) := by
  intro plan m s
  have hbuilt : plan.build divideByZero = .ok m := rfl
  have hsteps : s.machine.steps = 2 := by decide +kernel
  have hfetch : (m.replay 1).fetch? = some (.ofOpcode .loadc 0) := by decide +kernel
  have hstate : (m.replay (1 + 1)).core.snapshot = ⟨⟨2, 1, -1, -1, 4⟩, some #[7, 0, 0, 0]⟩ := by
    decide +kernel
  obtain ⟨-, hsize, hentries, habsent, hdigests⟩ := traced_run_replays Zstd.stored_roundTrips
    Zstd.stored_bounded rfl nofun hbuilt (by decide) () [.step, .run 5 .canceled]
    (by decide +kernel)
  obtain ⟨insn, e, hinsn, -, hentry, -, hsame, -, hsnapshot⟩ := hentries 1 (by decide +kernel)
  rw [hfetch] at hinsn
  cases hinsn
  rw [hstate] at hsnapshot
  rw [show UInt64.ofNat (1 + 1) = 2 from rfl] at hentry hsnapshot
  simp only [s] at hsteps ⊢
  refine ⟨Zstd.stored_roundTrips, Zstd.stored_bounded, hbuilt, by decide +kernel, hsteps, ?_,
    ⟨e, hentry, hsame⟩, hsnapshot, ?_, ?_⟩
  · rw [hsize, hsteps]
    rfl
  · apply habsent
    rw [hsteps]
    decide
  · rw [hdigests, hsteps]
    rfl

end FrameMachine
