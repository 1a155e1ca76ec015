import FrameMachine.Proofs.Cycle
import FrameMachine.Setting
import Mathlib.Data.List.Chain
/-!
# Courses of a machine

A machine moves by calls of two kinds. The instructions that the calls begin, one after the
other, form a course: each is completed and leads to the next, up to the last, which may have
stopped the machine for good. The observers have no part in it.
-/
namespace FrameMachine

def Abrupt.toFailure (name : String) : Abrupt → Failure
  | halt cause => cause
  | panic value => value.toFailure name
  | exit => .exited name

inductive Call where
  | step
  | run (budget : Nat) (cause : Failure)
  deriving DecidableEq, Repr, Inhabited

/-- The cores at which instructions were begun and completed, from the first core to the second. -/
inductive Core.Course (code : Array Instruction) : Core → List Core → Core → Prop where
  | nil (core : Core) : Course code core [] core
  | cons {first next last : Core} {rest : List Core} (completes : first.Completes code next)
      (course : Course code next rest last) : Course code first (first :: rest) last

/-- A course whose last instruction may have stopped. -/
def Core.Path (code : Array Instruction) (first : Core) (begun : List Core) (last : Core) : Prop :=
  Course code first begun last ∨
    ∃ done core, begun = done ++ [core] ∧ Course code first done core ∧ core.Breaks code last

private theorem Core.Course.append {code : Array Instruction} {first middle last : Core}
    {begun more : List Core} (h : Course code first begun middle)
    (h' : Course code middle more last) : Course code first (begun ++ more) last := by
  induction h with
  | nil => exact h'
  | cons completes _ ih => exact .cons completes (ih h')

private theorem Core.Course.isChain {code : Array Instruction} {first last : Core}
    {begun : List Core} (h : Course code first begun last) :
    (begun ++ [last]).IsChain (Completes code) ∧ (begun ++ [last]).head? = some first := by
  induction h with
  | nil core => exact ⟨.singleton core, rfl⟩
  | @cons first next last rest completes _ ih =>
      obtain ⟨hchain, hhead⟩ := ih
      refine ⟨?_, rfl⟩
      rw [List.cons_append, List.isChain_cons]
      refine ⟨fun core hcore => ?_, hchain⟩
      rw [hhead] at hcore
      cases hcore
      exact completes

theorem Core.Path.isChain {code : Array Instruction} {first last : Core} {begun : List Core}
    (h : Path code first begun last) :
    (begun ++ [last]).IsChain (Attempts code) ∧ (begun ++ [last]).head? = some first := by
  have hcourse {begun : List Core} {last : Core} (h : Course code first begun last) :
      (begun ++ [last]).IsChain (Attempts code) :=
    h.isChain.1.imp fun _ _ => .inl
  rcases h with h | ⟨done, core, rfl, h, hbreaks⟩
  · exact ⟨hcourse h, h.isChain.2⟩
  · refine ⟨?_, ?_⟩
    · rw [List.append_assoc, List.singleton_append, List.isChain_append_cons_cons]
      exact ⟨hcourse h, .inr hbreaks, .singleton last⟩
    · rw [List.head?_append, h.isChain.2, Option.some_or]

namespace Action

variable {σ : Type} (obs : Observers σ)

def visits : Nat → Session σ → List Core
  | 0, _ => []
  | budget + 1, s =>
    if s.machine.halted then []
    else s.machine.core ::
      match (cycle obs "\t").run s with
      | .ok _ t => visits budget t
      | .error _ _ => []

theorem run_loop_zero (cause : Failure) (s : Session σ) :
    (loop obs cause 0).run s = .ok (if s.machine.halted then none else some cause) s := by
  rw [loop, Exec.run_bind, run_isHalted]
  cases s.machine.halted <;> rfl

theorem run_loop_succ (cause : Failure) (budget : Nat) (s : Session σ) :
    (loop obs cause (budget + 1)).run s =
      if s.machine.halted then .ok none s
      else match (cycle obs "\t").run s with
        | .ok _ t => (loop obs cause budget).run t
        | .error e t => .error e t := by
  rw [loop, Exec.run_bind, run_isHalted]
  cases s.machine.halted with
  | true => rfl
  | false =>
      dsimp only
      rw [if_neg Bool.false_ne_true, if_neg Bool.false_ne_true, Exec.run_bind]
      cases (cycle obs "\t").run s <;> rfl

/-- The action keeps the code and the stored failure and begins instructions at the given cores.
They form a course, which may stop in its last instruction unless the action ends normally. -/
def Follows {α : Type} (act : Action σ α) (s : Session σ) (begun : List Core) : Prop :=
  (act.final s).machine.code = s.machine.code ∧
  (act.final s).machine.failure = s.machine.failure ∧
  match act.run s with
  | .ok _ t => Core.Course s.machine.code s.machine.core begun t.machine.core
  | .error _ t => Core.Path s.machine.code s.machine.core begun t.machine.core

theorem cycle_follows (indent : String) (s : Session σ) :
    (do cycle obs indent; pure none : Action σ (Option Failure)).Follows s [s.machine.core] := by
  obtain ⟨hcode, hfailure, hatt⟩ := cycle_attempts obs indent s
  rw [Follows, final, Exec.run_bind]
  rw [final] at hcode hfailure hatt
  cases hcycle : (cycle obs indent).run s with
  | ok u t =>
      simp only [hcycle] at hcode hfailure hatt
      exact ⟨hcode, hfailure, .cons (completes_of_cycle hcycle) (.nil _)⟩
  | error e t =>
      simp only [hcycle] at hcode hfailure hatt
      refine ⟨hcode, hfailure, ?_⟩
      rcases hatt with hdone | hbreaks
      · exact .inl (.cons hdone (.nil _))
      · exact .inr ⟨[], _, rfl, .nil _, hbreaks⟩

theorem loop_follows (cause : Failure) (budget : Nat) (s : Session σ) :
    (loop obs cause budget).Follows s (visits obs budget s) := by
  induction budget generalizing s with
  | zero =>
      simp only [Follows, final, run_loop_zero]
      exact ⟨trivial, trivial, .nil _⟩
  | succ budget ih =>
      by_cases hhalted : s.machine.halted = true
      · simp only [Follows, final, run_loop_succ, visits, if_pos hhalted]
        exact ⟨trivial, trivial, .nil _⟩
      obtain ⟨hcode, hfailure, hatt⟩ := cycle_attempts obs "\t" s
      simp only [Follows, final, run_loop_succ, visits, if_neg hhalted]
      rw [final] at hcode hfailure hatt
      cases hcycle : (cycle obs "\t").run s with
      | ok u t =>
          have hdone := completes_of_cycle hcycle
          simp only [hcycle] at hcode hfailure hatt ⊢
          obtain ⟨hcode', hfailure', hrest⟩ := ih t
          rw [final] at hcode' hfailure'
          refine ⟨hcode'.trans hcode, hfailure'.trans hfailure, ?_⟩
          rw [hcode] at hrest
          cases hloop : (loop obs cause budget).run t with
          | ok o last =>
              rw [hloop] at hrest
              exact .cons hdone hrest
          | error e last =>
              rw [hloop] at hrest
              rcases hrest with hcourse | ⟨done, core, hbegun, hcourse, hbreaks⟩
              · exact .inl (.cons hdone hcourse)
              · refine .inr ⟨s.machine.core :: done, core, ?_, .cons hdone hcourse, hbreaks⟩
                rw [hbegun, List.cons_append]
      | error e t =>
          simp only [hcycle] at hcode hfailure hatt ⊢
          refine ⟨hcode, hfailure, ?_⟩
          rcases hatt with hdone | hbreaks
          · exact .inl (.cons hdone (.nil _))
          · exact .inr ⟨[], _, rfl, .nil _, hbreaks⟩

end Action

namespace Session

variable {σ : Type} (obs : Observers σ)

def perform : Call → Session σ → Session σ
  | .step, s => (s.step obs).2
  | .run budget cause, s => (s.run obs budget cause).2

def visits (call : Call) (s : Session σ) : List Core :=
  if s.machine.failure.isSome then []
  else match call with
    | .step => if s.machine.halted then [] else [s.machine.core]
    | .run budget _ => Action.visits obs budget s

def performAll : List Call → Session σ → Session σ
  | [], s => s
  | call :: calls, s => performAll calls (s.perform obs call)

def history : List Call → Session σ → List Core
  | [], _ => []
  | call :: calls, s => s.visits obs call ++ history calls (s.perform obs call)

def states (calls : List Call) (s : Session σ) : List Core :=
  history obs calls s ++ [(performAll obs calls s).machine.core]

def verdict (name : String) : EStateM.Result Abrupt (Session σ) (Option Failure) → Option Failure
  | .ok outcome _ => outcome
  | .error e _ => some (e.toFailure name)

theorem attempt_of_failure {s : Session σ} {cause : Failure} (h : s.machine.failure = some cause)
    (name : String) (act : Action σ (Option Failure)) : s.attempt name act = (some cause, s) := by
  rw [attempt, h]

theorem attempt_of_none {s : Session σ} (h : s.machine.failure = none) (name : String)
    (act : Action σ (Option Failure)) :
    s.attempt name act =
      match verdict name (act.run s) with
      | none => (none, act.final s)
      | some cause =>
        (some cause, ⟨(act.final s).machine.stopWith cause, (act.final s).world⟩) := by
  rw [attempt, h, Action.final]
  rcases act.run s with ⟨_ | _, t⟩ | ⟨_ | _ | _, t⟩ <;> rfl

theorem step_of_running {s : Session σ} (hhalted : s.machine.halted = false)
    (hf : s.machine.failure = none) :
    s.step obs =
      match (Action.cycle obs "").run s with
      | .ok _ t => (none, t)
      | .error e t =>
        (some (e.toFailure "step"), ⟨t.machine.stopWith (e.toFailure "step"), t.world⟩) := by
  rw [step, hhalted, if_neg Bool.false_ne_true, attempt_of_none hf, Action.final, Exec.run_bind]
  cases (Action.cycle obs "").run s <;> rfl

theorem cycle_of_step {s t : Session σ} (h : s.step obs = (none, t)) :
    s.machine.halted = false ∧ s.machine.failure = none ∧
      (Action.cycle obs "").run s = .ok () t := by
  cases hhalted : s.machine.halted with
  | true =>
      rw [step, hhalted, if_pos rfl] at h
      cases h
  | false =>
      cases hf : s.machine.failure with
      | some cause =>
          rw [step, hhalted, if_neg Bool.false_ne_true, attempt_of_failure hf] at h
          cases h
      | none =>
          rw [step_of_running obs hhalted hf] at h
          cases hcycle : (Action.cycle obs "").run s with
          | ok u t' =>
              rw [hcycle] at h
              cases h
              exact ⟨rfl, rfl, rfl⟩
          | error e t' =>
              rw [hcycle] at h
              cases h

theorem step_core_of_running {s : Session σ} (hhalted : s.machine.halted = false)
    (hf : s.machine.failure = none) :
    (s.step obs).2.machine.core = ((Action.cycle obs "").final s).machine.core := by
  rw [step_of_running obs hhalted hf, Action.final]
  cases (Action.cycle obs "").run s <;> rfl

/-- From the first session the second was reached by beginning instructions at the given cores. -/
structure Leads (s t : Session σ) (begun : List Core) : Prop where
  code : t.machine.code = s.machine.code
  path : Core.Path s.machine.code s.machine.core begun t.machine.core
  course : t.machine.failure = none →
    Core.Course s.machine.code s.machine.core begun t.machine.core
  halted : t.machine.failure.isSome → t.machine.halted = true

private theorem Leads.refl {s : Session σ}
    (h : s.machine.failure.isSome → s.machine.halted = true) :
    s.Leads s [] :=
  ⟨rfl, .inl (.nil _), fun _ => .nil _, h⟩

theorem Leads.failure_eq_none {s t : Session σ} {begun : List Core} (h : s.Leads t begun)
    (running : t.machine.halted = false) : t.machine.failure = none := by
  by_contra hsome
  rw [h.halted (Option.isSome_iff_ne_none.mpr hsome)] at running
  cases running

private theorem attempt_leads {s : Session σ} (hs : s.machine.failure = none) {name : String}
    {act : Action σ (Option Failure)} {begun : List Core} (h : act.Follows s begun) :
    s.Leads (s.attempt name act).2 begun := by
  obtain ⟨hcode, hfailure, hcourse⟩ := h
  rw [attempt_of_none hs]
  rw [Action.final] at hcode hfailure ⊢
  cases hrun : act.run s with
  | ok outcome t =>
      simp only [hrun] at hcode hfailure hcourse
      cases outcome with
      | none =>
          refine ⟨hcode, .inl hcourse, fun _ => hcourse, fun hsome => ?_⟩
          simp only [verdict, hfailure, hs] at hsome
          cases hsome
      | some cause =>
          refine ⟨hcode, .inl hcourse, fun hnone => ?_, fun _ => rfl⟩
          cases hnone
  | error e t =>
      simp only [hrun] at hcode hcourse
      refine ⟨hcode, hcourse, fun hnone => ?_, fun _ => rfl⟩
      cases hnone

theorem run_snd (budget : Nat) (cause : Failure) (s : Session σ) :
    (s.run obs budget cause).2 = (s.attempt "run" (Action.loop obs cause budget)).2 := by
  rw [run]
  rcases s.attempt "run" (Action.loop obs cause budget) with ⟨_ | _, t⟩ <;> rfl

theorem perform_of_failure {s : Session σ} {cause : Failure} (h : s.machine.failure = some cause)
    (call : Call) : s.perform obs call = s := by
  cases call with
  | step =>
      rw [perform, step]
      split
      · rfl
      · rw [attempt_of_failure h]
  | run budget cause => rw [perform, run_snd, attempt_of_failure h]

theorem visits_of_failure {s : Session σ} {cause : Failure} (h : s.machine.failure = some cause)
    (call : Call) : s.visits obs call = [] := by
  simp [visits, h]

theorem perform_leads {s : Session σ} (hs : s.machine.failure.isSome → s.machine.halted = true)
    (call : Call) : s.Leads (s.perform obs call) (s.visits obs call) := by
  cases hf : s.machine.failure with
  | some cause =>
      rw [perform_of_failure obs hf, visits_of_failure obs hf]
      exact .refl hs
  | none =>
      unfold visits
      rw [hf, Option.isSome_none, if_neg Bool.false_ne_true]
      cases call with
      | step =>
          rw [perform, step]
          by_cases hhalted : s.machine.halted = true
          · simp only [if_pos hhalted]
            exact .refl hs
          · simp only [if_neg hhalted]
            exact attempt_leads hf (Action.cycle_follows obs "" s)
      | run budget cause =>
          rw [perform, run_snd]
          exact attempt_leads hf (Action.loop_follows obs cause budget s)

theorem performAll_of_failure {s : Session σ} {cause : Failure}
    (h : s.machine.failure = some cause) (calls : List Call) :
    performAll obs calls s = s ∧ history obs calls s = [] := by
  induction calls with
  | nil => exact ⟨rfl, rfl⟩
  | cons call calls ih =>
      rw [performAll, history, perform_of_failure obs h, visits_of_failure obs h]
      exact ⟨ih.1, ih.2⟩

/-- So does a sequence of calls: once a call has failed, no later call begins anything. -/
theorem performAll_leads {s : Session σ} (hs : s.machine.failure.isSome → s.machine.halted = true)
    (calls : List Call) : s.Leads (performAll obs calls s) (history obs calls s) := by
  induction calls generalizing s with
  | nil => exact .refl hs
  | cons call calls ih =>
      have hfirst := perform_leads obs hs call
      rw [performAll, history]
      cases hf : (s.perform obs call).machine.failure with
      | some cause =>
          obtain ⟨hall, hbegun⟩ := performAll_of_failure obs hf calls
          rw [hall, hbegun, List.append_nil]
          exact hfirst
      | none =>
          have hrest := ih hfirst.halted
          have hcourse := hfirst.course hf
          have hpath := hrest.path
          have hcourse' := hrest.course
          rw [hfirst.code] at hpath hcourse'
          refine ⟨hrest.code.trans hfirst.code, ?_, fun h => hcourse.append (hcourse' h),
            hrest.halted⟩
          rcases hpath with hpath | ⟨done, core, hbegun, hdone, hbreaks⟩
          · exact .inl (hcourse.append hpath)
          · refine .inr ⟨_, core, ?_, hcourse.append hdone, hbreaks⟩
            rw [hbegun, List.append_assoc]

end Session

namespace Plan

variable {σ : Type} {plan : Plan σ} {code : Array Instruction} {m : Machine}

theorem build_eq_initial (h : plan.build code = .ok m) :
    m = .initial code plan.words.toNatClampNeg := by
  rw [build] at h
  split at h
  · cases h
  · cases h
    rfl

theorem words_pos (plan : Plan σ) : 0 < plan.words := by
  rw [words]
  split
  · decide
  · rename_i h
    exact Int64.not_le.mp h

theorem core_of_build (h : plan.build code = .ok m) :
    m.core = ⟨⟨0, -1, -1, -1, plan.words⟩, .zeroed plan.words.toNatClampNeg⟩ := by
  rw [build_eq_initial h, Machine.initial, Core.initial, Registers.initial,
    Int64.ofNat_toNatClampNeg _ (Int64.le_of_lt plan.words_pos)]

/-- Whatever calls are made on a built machine, they follow a course from its first core. -/
theorem leads_of_build (h : plan.build code = .ok m) (world : σ) (calls : List Call) :
    Session.Leads ⟨m, world⟩ (Session.performAll plan.observers calls ⟨m, world⟩)
      (Session.history plan.observers calls ⟨m, world⟩) := by
  apply Session.performAll_leads
  rw [build_eq_initial h]
  nofun

theorem states_of_build (h : plan.build code = .ok m) (world : σ) (calls : List Call) :
    (∃ rest, Session.states plan.observers calls ⟨m, world⟩ = m.core :: rest) ∧
    (Session.states plan.observers calls ⟨m, world⟩).IsChain (Core.Attempts code) := by
  obtain ⟨hchain, hhead⟩ := (leads_of_build h world calls).path.isChain
  have hcode : m.code = code := by rw [build_eq_initial h, Machine.initial]
  exact ⟨List.head?_eq_some_iff.mp hhead, hcode ▸ hchain⟩

end Plan
end FrameMachine
