import FrameMachine.Proofs.Exchanges
/-!
# A halted machine stays halted

However a machine came to its end, later calls find it as it is and repeat its last answer. A run
always brings a machine to its end, and the failure that a call reports is the one that stays.
-/
namespace FrameMachine

def Machine.lastAnswer (m : Machine) : Call → Answer
  | .step => .stepped (some (m.failure.getD .alreadyHalted))
  | .run _ _ => .ran (match m.failure with
    | none => .ok m.core.result
    | some cause => .error cause)

private theorem Action.halted_of_loop {σ : Type} {obs : Observers σ} {cause : Failure}
    {budget : Nat} {s t : Session σ} (h : (loop obs cause budget).run s = .ok none t) :
    t.machine.halted = true := by
  induction budget generalizing s with
  | zero =>
      rw [run_loop_zero] at h
      by_cases hhalted : s.machine.halted = true
      · rw [if_pos hhalted] at h
        cases h
        exact hhalted
      · rw [if_neg hhalted] at h
        cases h
  | succ budget ih =>
      rw [run_loop_succ] at h
      by_cases hhalted : s.machine.halted = true
      · rw [if_pos hhalted] at h
        cases h
        exact hhalted
      · rw [if_neg hhalted] at h
        cases hcycle : (cycle obs "\t").run s with
        | ok u next =>
            rw [hcycle] at h
            exact ih h
        | error e next =>
            rw [hcycle] at h
            cases h

namespace Session

variable {σ : Type} {s : Session σ}

private theorem perform_of_halted (obs : Observers σ) (h : s.machine.halted = true) (call : Call) :
    s.perform obs call = s ∧ s.answer obs call = s.machine.lastAnswer call := by
  cases call with
  | step =>
      rw [perform, answer, step, if_pos h]
      exact ⟨rfl, rfl⟩
  | run budget cause =>
      rw [perform, answer, Machine.lastAnswer]
      cases hf : s.machine.failure with
      | none =>
          rw [run_of_halted obs h hf]
          exact ⟨rfl, rfl⟩
      | some stored =>
          rw [run, attempt_of_failure hf]
          exact ⟨rfl, rfl⟩

private theorem performAll_of_halted (obs : Observers σ) (h : s.machine.halted = true)
    (later : List Call) :
    performAll obs later s = s ∧ answers obs later s = later.map s.machine.lastAnswer := by
  induction later with
  | nil => exact ⟨rfl, rfl⟩
  | cons call later ih =>
      obtain ⟨hsame, hanswer⟩ := perform_of_halted obs h call
      rw [performAll, answers, List.map_cons, hsame, hanswer]
      exact ⟨ih.1, congrArg _ ih.2⟩

private theorem exchanges_of_halted (obs : Observers σ) (h : s.machine.halted = true)
    (later : List Call) :
    exchanges obs later s = [] := by
  rw [exchanges, (performAll_of_halted obs.audited (s := s.audited) h later).1, audited]

private theorem attempt_stores {name : String} {act : Action σ (Option Failure)} {cause : Failure}
    (h : (s.attempt name act).1 = some cause) :
    (s.attempt name act).2.machine.failure = some cause := by
  cases hf : s.machine.failure with
  | some stored =>
      rw [attempt_of_failure hf] at h ⊢
      exact hf.trans h
  | none =>
      rw [attempt_of_none hf] at h ⊢
      cases hverdict : verdict name (act.run s) with
      | none =>
          rw [hverdict] at h
          cases h
      | some stored =>
          rw [hverdict] at h
          exact h

variable {obs : Observers σ}

private theorem failure_of_answer (hrunning : s.machine.halted = false) {call : Call}
    {cause : Failure} (h : (s.answer obs call).failure? = some cause) :
    (s.perform obs call).machine.failure = some cause := by
  cases call with
  | step =>
      rw [answer, step, hrunning, if_neg Bool.false_ne_true] at h
      rw [perform, step, hrunning, if_neg Bool.false_ne_true]
      exact attempt_stores h
  | run budget limit =>
      rw [perform, run_snd]
      apply attempt_stores
      rw [answer, run] at h
      rcases hattempt : s.attempt "run" (Action.loop obs limit budget) with ⟨_ | stored, t⟩
      · rw [hattempt] at h
        cases h
      · rw [hattempt] at h
        exact h

theorem run_halts (hs : s.machine.failure.isSome → s.machine.halted = true) (budget : Nat)
    (cause : Failure) : (s.run obs budget cause).2.machine.halted = true := by
  rw [run_snd]
  cases hf : s.machine.failure with
  | some stored =>
      rw [attempt_of_failure hf]
      apply hs
      rw [hf, Option.isSome_some]
  | none =>
      rw [attempt_of_none hf, Action.final]
      cases hloop : (Action.loop obs cause budget).run s with
      | ok outcome t =>
          cases outcome with
          | none => exact Action.halted_of_loop hloop
          | some stored => rfl
      | error e t => rfl

end Session

/-- Once a machine is halted, for whatever reason and whatever its observers do, later calls of
any kind and number change nothing and are told to nobody: a step fails with the stored failure or
because the machine has halted, a run fails with the stored failure or answers the word at address
zero. Every run leaves the machine halted, and a call that fails on a machine not yet halted leaves
its failure stored. -/
theorem halting_is_final {σ : Type} {plan : Plan σ} {code : Array Instruction} {m : Machine}
    (built : plan.build code = .ok m) (world : σ) (calls : List Call) :
    let obs := plan.observers
    let s := Session.performAll obs calls ⟨m, world⟩
    (s.machine.halted = true → ∀ later,
      Session.performAll obs later s = s ∧ Session.exchanges obs later s = [] ∧
      Session.answers obs later s = later.map s.machine.lastAnswer) ∧
    (∀ budget cause, (s.run obs budget cause).2.machine.halted = true) ∧
    (s.machine.halted = false → ∀ call cause, (s.answer obs call).failure? = some cause →
      (s.perform obs call).machine.failure = some cause ∧
      (s.perform obs call).machine.halted = true) := by
  intro obs s
  have hleads : Session.Leads ⟨m, world⟩ s (Session.history obs calls ⟨m, world⟩) :=
    Plan.leads_of_build built world calls
  refine ⟨?_, ?_, ?_⟩
  · intro hhalted later
    obtain ⟨hsame, hanswers⟩ := Session.performAll_of_halted obs hhalted later
    exact ⟨hsame, Session.exchanges_of_halted obs hhalted later, hanswers⟩
  · intro budget cause
    exact Session.run_halts hleads.halted budget cause
  · intro hrunning call cause hcause
    have hstored := Session.failure_of_answer hrunning hcause
    refine ⟨hstored, (Session.perform_leads obs hleads.halted call).halted ?_⟩
    rw [hstored, Option.isSome_some]

/-- A tracer that abandons its task in the second call stops the machine in the middle of a run. -/
def desertingPlan : Plan Nat :=
  ⟨4, { tracer := some fun _ _ _ count =>
    (if count = 1 then .exited else .returned none, count + 1) }⟩

theorem halting_is_final_after_exit :
    let s := Session.performAll desertingPlan.observers [.step, .run 5 .canceled]
      ⟨.initial divideByZero 4, 0⟩
    let later : List Call := [.run 3 .deadlineExceeded, .step, .run 0 .canceled]
    desertingPlan.build divideByZero = .ok (.initial divideByZero 4) ∧
    s.machine.halted = true ∧ s.machine.steps = 2 ∧ s.world = 2 ∧
    Session.performAll desertingPlan.observers later s = s ∧
    Session.exchanges desertingPlan.observers later s = [] ∧
    Session.answers desertingPlan.observers later s =
      [.ran (.error (.exited "run")), .stepped (some (.exited "run")),
        .ran (.error (.exited "run"))] := by
  intro s later
  have hbuilt : desertingPlan.build divideByZero = .ok (.initial divideByZero 4) := rfl
  have hhalted : s.machine.halted = true := by decide +kernel
  have hfailure : s.machine.failure = some (.exited "run") := by decide +kernel
  obtain ⟨hfinal, -⟩ := halting_is_final hbuilt 0 [.step, .run 5 .canceled]
  obtain ⟨hsame, hquiet, hanswers⟩ := hfinal hhalted later
  refine ⟨hbuilt, hhalted, by decide +kernel, by decide +kernel, hsame, hquiet, ?_⟩
  rw [hanswers]
  simp only [later, List.map_cons, List.map_nil, Machine.lastAnswer]
  rw [show (Session.performAll desertingPlan.observers [.step, .run 5 .canceled]
    ⟨.initial divideByZero 4, 0⟩).machine.failure = some (.exited "run") from hfailure]
  rfl

end FrameMachine
