import FrameMachine.Proofs.ObservedRuns
/-!
# Observers do not interfere

Two sessions of one machine whose observers take everything they are told go on alike, whatever
the observers do with it. One of the two may have no observers at all, and what a tracer was shown
is what the machine goes through when nobody watches.
-/
namespace FrameMachine

def Stop.toFailure (name : String) : Stop → Failure
  | fault f => .panicFailure name (.fault f)
  | refusal cause => cause

namespace Observers

variable {σ : Type} {obs : Observers σ}

private theorem Approving.reply_of_canReply (h : obs.Approving) {x : Exchange}
    (hx : obs.CanReply x) :
    x.reply = .normal := by
  rcases x with ⟨text | ⟨step, insn, snap⟩, reply⟩
  · obtain ⟨logger, hlogger, world, hreply⟩ := hx
    rw [h.logger logger hlogger] at hreply
    exact hreply
  · obtain ⟨tracer, htracer, world, hreply⟩ := hx
    rw [h.tracer tracer htracer] at hreply
    exact hreply

end Observers

namespace Action

variable {σ τ α : Type} {obs : Observers σ} {other : Observers τ}

private theorem bare_unaudited (r : EStateM.Result Abrupt (Session (Audited σ)) α) :
    bare (unaudited r) = bare r := by
  cases r <;> rfl

theorem bare_eq_ok {r : EStateM.Result Abrupt (Session σ) α} {a : α} {m : Machine}
    (h : bare r = .ok a m) : ∃ s : Session σ, r = .ok a s ∧ s.machine.unmarked = m := by
  cases r with
  | error e s => cases h
  | ok a s =>
      cases h
      exact ⟨s, rfl, rfl⟩

theorem bare_eq_error {r : EStateM.Result Abrupt (Session σ) α} {e : Abrupt} {m : Machine}
    (h : bare r = .error e m) : ∃ s : Session σ, r = .error e s ∧ s.machine.unmarked = m := by
  cases r with
  | ok a s => cases h
  | error e s =>
      cases h
      exact ⟨s, rfl, rfl⟩

/-- Observers that approve leave an instruction to itself. -/
theorem bare_cycle (h : obs.Approving) (indent : String) (s : Session σ) :
    bare ((cycle obs indent).run s) = s.machine.unmarked.cycled := by
  have houtcome := CycleOutcome.cycle obs indent s.audited
  change bare ((cycle obs indent).run s.audited.unaudited) = _
  rw [Audits.cycle, bare_unaudited]
  generalize (cycle obs.audited indent).run s.audited = r at houtcome ⊢
  cases houtcome with
  | uninterrupted _ hbare => exact hbare
  | interrupted x _ _ habnormal hgiven => exact absurd (h.reply_of_canReply hgiven) habnormal

private theorem bare_single (h : obs.Approving) (s : Session σ) :
    bare ((do cycle obs ""; pure none : Action σ (Option Failure)).run s) =
      match s.machine.unmarked.cycled with
      | .ok _ after => .ok none after
      | .error e after => .error e after := by
  rw [Exec.run_bind, ← bare_cycle h ""]
  cases (cycle obs "").run s <;> rfl

private theorem bare_loop (h : obs.Approving) (h' : other.Approving) (cause : Failure)
    (budget : Nat) {s : Session σ} {t : Session τ} (hst : s.machine.unmarked = t.machine.unmarked) :
    bare ((loop obs cause budget).run s) = bare ((loop other cause budget).run t) := by
  induction budget generalizing s t with
  | zero =>
      rw [run_loop_zero, run_loop_zero, bare, bare, hst, Machine.halted_of_unmarked hst]
  | succ budget ih =>
      -- the machines halt together, so that both loops begin the same instructions
      rw [run_loop_succ, run_loop_succ, Machine.halted_of_unmarked hst]
      by_cases hstopped : t.machine.halted = true
      · rw [if_pos hstopped, if_pos hstopped, bare, bare, hst]
      rw [if_neg hstopped, if_neg hstopped]
      have hcycle : bare ((cycle obs "\t").run s) = bare ((cycle other "\t").run t) := by
        rw [bare_cycle h, bare_cycle h', hst]
      cases hs : (cycle obs "\t").run s with
      | ok u s' =>
          rw [hs] at hcycle
          obtain ⟨t', ht, hnext⟩ := bare_eq_ok hcycle.symm
          rw [ht]
          exact ih hnext.symm
      | error e s' =>
          rw [hs] at hcycle
          obtain ⟨t', ht, hnext⟩ := bare_eq_error hcycle.symm
          rw [ht, bare, bare, hnext]

end Action

namespace Session

variable {σ τ : Type} {obs : Observers σ} {other : Observers τ} {s : Session σ} {t : Session τ}

private theorem attempt_alike {act : Action σ (Option Failure)} {act' : Action τ (Option Failure)}
    (name : String) (hst : s.machine.unmarked = t.machine.unmarked)
    (h : Action.bare (act.run s) = Action.bare (act'.run t)) :
    (s.attempt name act).1 = (t.attempt name act').1 ∧
    (s.attempt name act).2.machine.unmarked = (t.attempt name act').2.machine.unmarked := by
  have hfailure := Machine.failure_of_unmarked hst
  cases hf : t.machine.failure with
  | some cause =>
      rw [attempt_of_failure (hfailure.trans hf), attempt_of_failure hf]
      exact ⟨rfl, hst⟩
  | none =>
      rw [attempt_of_none (hfailure.trans hf), attempt_of_none hf, Action.final, Action.final]
      have hstop {s : Session σ} {t : Session τ} (h : s.machine.unmarked = t.machine.unmarked)
          (cause : Failure) :
          (s.machine.stopWith cause).unmarked = (t.machine.stopWith cause).unmarked :=
        congrArg (Machine.stopWith · cause) h
      cases hs : act.run s with
      | ok outcome s' =>
          rw [hs] at h
          obtain ⟨t', ht, hnext⟩ := Action.bare_eq_ok h.symm
          rw [ht]
          cases outcome with
          | none => exact ⟨rfl, hnext.symm⟩
          | some cause => exact ⟨rfl, hstop hnext.symm cause⟩
      | error e s' =>
          rw [hs] at h
          obtain ⟨t', ht, hnext⟩ := Action.bare_eq_error h.symm
          rw [ht]
          exact ⟨rfl, hstop hnext.symm _⟩

private theorem perform_alike (h : obs.Approving) (h' : other.Approving)
    (hst : s.machine.unmarked = t.machine.unmarked) (call : Call) :
    s.answer obs call = t.answer other call ∧
    (s.perform obs call).machine.unmarked = (t.perform other call).machine.unmarked := by
  cases call with
  | step =>
      simp only [answer, perform, step]
      rw [Machine.halted_of_unmarked hst]
      by_cases hhalted : t.machine.halted = true
      · rw [if_pos hhalted, if_pos hhalted, Machine.failure_of_unmarked hst]
        exact ⟨rfl, hst⟩
      · rw [if_neg hhalted, if_neg hhalted]
        have hsingle := (Action.bare_single h s).trans (hst ▸ (Action.bare_single h' t).symm)
        obtain ⟨hanswer, hleft⟩ := attempt_alike "step" hst hsingle
        exact ⟨congrArg _ hanswer, hleft⟩
  | run budget cause =>
      obtain ⟨hanswer, hleft⟩ := attempt_alike "run" hst (Action.bare_loop h h' cause budget hst)
      simp only [answer, perform, run]
      rcases hs : s.attempt "run" (Action.loop obs cause budget) with ⟨_ | _, s'⟩ <;>
        rcases ht : t.attempt "run" (Action.loop other cause budget) with ⟨_ | _, t'⟩ <;>
        rw [hs, ht] at hanswer hleft <;> cases hanswer
      · dsimp only
        rw [show s'.machine.core = t'.machine.core from Machine.core_of_unmarked hleft]
        exact ⟨rfl, hleft⟩
      · exact ⟨rfl, hleft⟩

theorem step_of_fetched (h : obs.Approving) (hhalted : s.machine.halted = false)
    (hfailure : s.machine.failure = none) {insn : Instruction}
    (hinsn : s.machine.fetch? = some insn) :
    match s.machine.core.carryOut insn with
    | .ok flow core => (s.step obs).1 = none ∧
        (s.step obs).2.machine.unmarked = (s.machine.completed flow core).unmarked
    | .error stop core => (s.step obs).1 = some (stop.toFailure "step") ∧
        (s.step obs).2.machine.unmarked =
          ({ s.machine with core := core }.stopWith (stop.toFailure "step")).unmarked := by
  have hcycle := Action.bare_cycle h "" s
  have hfetch : s.machine.unmarked.core.fetch? s.machine.unmarked.code = some insn := hinsn
  have hcore : s.machine.unmarked.core = s.machine.core := rfl
  simp only [Machine.cycled, hfetch] at hcycle
  rw [hcore] at hcycle
  rw [step_of_running obs hhalted hfailure]
  cases hrun : s.machine.core.carryOut insn with
  | ok flow core =>
      rw [hrun] at hcycle
      obtain ⟨t, ht, hafter⟩ := Action.bare_eq_ok hcycle
      rw [ht]
      exact ⟨rfl, hafter⟩
  | error stop core =>
      rw [hrun] at hcycle
      cases stop <;>
        obtain ⟨t, ht, hafter⟩ := Action.bare_eq_error hcycle <;>
        rw [ht] <;>
        exact ⟨rfl, congrArg (Machine.stopWith · _) hafter⟩

private theorem performAll_alike (h : obs.Approving) (h' : other.Approving)
    (hst : s.machine.unmarked = t.machine.unmarked) (calls : List Call) :
    answers obs calls s = answers other calls t ∧
    (performAll obs calls s).machine.unmarked = (performAll other calls t).machine.unmarked := by
  induction calls generalizing s t with
  | nil => exact ⟨rfl, hst⟩
  | cons call calls ih =>
      obtain ⟨hanswer, hleft⟩ := perform_alike h h' hst call
      obtain ⟨hanswers, hleft⟩ := ih hleft
      rw [answers, answers, hanswer, hanswers]
      exact ⟨rfl, hleft⟩

end Session

/-- Observers that return normally from every call, whatever they do with what they are told, leave
the machine as it is without them, and every call answers the same. A tracer is called once for
each completed instruction and for no other: its `k`-th call carries the number `k`, the
instruction fetched at the `k`-th step, and the state after `k` steps when nobody watches. -/
theorem observers_do_not_interfere {σ : Type} {plan : Plan σ} {code : Array Instruction}
    {m : Machine} (built : plan.build code = .ok m) (approving : plan.observers.Approving)
    (world : σ) (calls : List Call) :
    let start : Session σ := ⟨m, world⟩
    let watched := Session.performAll plan.observers calls start
    let alone := Session.performAll {} calls (⟨m, ()⟩ : Session Unit)
    let done := Core.completions code (Session.history plan.observers calls start)
    let seen := observations (Session.exchanges plan.observers calls start)
    watched.machine.unmarked = alone.machine.unmarked ∧
    Session.answers plan.observers calls start = Session.answers {} calls (⟨m, ()⟩ : Session Unit) ∧
    watched.machine.steps = .ofNat done ∧
    if plan.observers.tracer.isSome then
      seen.length = done ∧
      ∀ k < done, ∃ insn, (m.replay k).fetch? = some insn ∧
        seen[k]? = some ⟨.ofNat (k + 1), insn, (m.replay (k + 1)).core.snapshot⟩
    else seen = [] := by
  intro start watched alone done seen
  obtain ⟨hanswers, hmachine⟩ := Session.performAll_alike (s := start) (t := ⟨m, ()⟩) approving
    Observers.approving_empty rfl calls
  refine ⟨hmachine, hanswers, ?_⟩
  have hcode : m.code = code := by rw [Plan.build_eq_initial built, Machine.initial]
  have hdone : Core.completions m.code
      (Session.history plan.observers.audited calls start.audited) = done := by
    rw [← Session.history_audited, hcode]
    rfl
  rcases (Plan.atReplay_of_build built world).performAll calls with
    hupTo | ⟨before, call, after, x, last, e, -, hinterrupted⟩
  · have hsteps := hupTo.steps
    have hseen := hupTo.seen
    rw [Nat.zero_add, hdone] at hsteps hseen
    refine ⟨?_, hseen⟩
    change (Session.performAll plan.observers calls start.audited.unaudited).machine.steps = _
    rw [Session.performAll_audited]
    exact hsteps
  · exact absurd (approving.reply_of_canReply hinterrupted.stops.given) hinterrupted.stops.abnormal

theorem observers_do_not_interfere_with_fault :
    let m : Machine := .initial divideByZero 4
    let start : Session (List String × Nat) := ⟨m, ([], 0)⟩
    let calls : List Call := [.step, .run 5 .canceled, .step]
    let fault : Failure := .panicFailure "run" (.fault .divisionByZero)
    let watched := Session.performAll collectingPlan.observers calls start
    let seen := observations (Session.exchanges collectingPlan.observers calls start)
    collectingPlan.build divideByZero = .ok m ∧ collectingPlan.observers.Approving ∧
    watched.machine.core = ⟨⟨3, 1, -1, -1, 4⟩, #[7, 0, 0, 0]⟩ ∧
    watched.machine.steps = 2 ∧ watched.machine.failure = some fault ∧
    Session.answers collectingPlan.observers calls start =
      [.stepped none, .ran (.error fault), .stepped (some fault)] ∧
    seen.length = 2 ∧
    seen[1]? = some ⟨2, .ofOpcode .loadc 0, ⟨⟨2, 1, -1, -1, 4⟩, some #[7, 0, 0, 0]⟩⟩ := by
  intro m start calls fault watched seen
  have hbuilt : collectingPlan.build divideByZero = .ok m := rfl
  have happroving : collectingPlan.observers.Approving := by
    constructor
    · rintro _ ⟨⟩ line world
      rfl
    · rintro _ ⟨⟩ step insn snap world
      rfl
  have hdone : Core.completions divideByZero
      (Session.history collectingPlan.observers calls start) = 2 := by decide +kernel
  have hfetch : (m.replay 1).fetch? = some (.ofOpcode .loadc 0) := by decide +kernel
  have hstate : (m.replay (1 + 1)).core.snapshot = ⟨⟨2, 1, -1, -1, 4⟩, some #[7, 0, 0, 0]⟩ := by
    decide +kernel
  obtain ⟨hmachine, hanswers, hsteps, hseen⟩ :=
    observers_do_not_interfere hbuilt happroving ([], 0) calls
  rw [hdone] at hsteps hseen
  obtain ⟨hlength, hshown⟩ := hseen
  obtain ⟨insn, hinsn, hsecond⟩ := hshown 1 Nat.one_lt_two
  rw [hfetch] at hinsn
  cases hinsn
  rw [hstate] at hsecond
  simp only [watched, seen, start]
  refine ⟨hbuilt, happroving, ?_, hsteps, ?_, ?_, hlength, hsecond⟩
  · rw [Machine.core_of_unmarked hmachine]
    decide +kernel
  · rw [Machine.failure_of_unmarked hmachine]
    decide +kernel
  · rw [hanswers]
    decide +kernel

end FrameMachine
