import FrameMachine.Proofs.Course
/-!
# Runs as repeated steps

A run under a budget does what that many steps would do. To compare the two call by call, the
observers are made to keep a record of everything they are told. What remains different is the
tab in front of every line that is logged during a run, the name under which a run reports a
fault, and the failure of a run whose budget is used up.
-/
namespace FrameMachine

inductive Event where
  | line (text : String)
  | traced (step : UInt64) (insn : Instruction) (snap : Snapshot)
  deriving DecidableEq

def Event.indented : Event → Event
  | line text => .line ("\t" ++ text)
  | traced step insn snap => .traced step insn snap

structure Recorded (σ : Type) where
  world : σ
  events : List Event

/-- After a common past both records go on with the same events, those of the second indented. -/
def Recorded.EqUpToIndent {σ : Type} (past : List Event) (r r' : Recorded σ) : Prop :=
  ∃ news, r.events = past ++ news ∧ r'.events = past ++ news.map Event.indented

def Machine.fault? (m : Machine) : Option Fault :=
  match m.core.fetch? m.code with
  | none => none
  | some insn =>
    match m.core.carryOut insn with
    | .error (.fault f) _ => some f
    | _ => none

/-- Where stepping came to an end. A failed step is given with the session it began in. -/
inductive Stepping (σ : Type) where
  | halted (last : Session σ)
  | failed (first : Session σ) (cause : Failure) (last : Session σ)
  | spent (last : Session σ)

/-- What a run reports where a step of the machine failed: a fault is reported under the name
of the run, and anything else is reported as it is. -/
inductive Machine.Reports (m : Machine) : Failure → Failure → Prop where
  | fault {f : Fault} (faulty : m.fault? = some f) :
      Reports m (.panicFailure "step" (.fault f)) (.panicFailure "run" (.fault f))
  | same {cause : Failure} (sound : m.fault? = none) : Reports m cause cause

/-- The answer and the last session of a run match the end of the steps. -/
def Stepping.Matches {σ : Type} (past : List Event) (cause : Failure) :
    Stepping (Recorded σ) → Except Failure Word × Session (Recorded σ) → Prop
  | .halted s, (answer, t) =>
    answer = .ok s.machine.core.result ∧ s.machine.failure = none ∧ t.machine = s.machine ∧
      s.world.EqUpToIndent past t.world
  | .failed first failure s, (answer, t) =>
    ∃ reported, first.machine.Reports failure reported ∧ answer = .error reported ∧
      t.machine = s.machine.stopWith reported ∧ s.world.EqUpToIndent past t.world
  | .spent s, (answer, t) =>
    answer = .error cause ∧ t.machine = s.machine.stopWith cause ∧ s.world.EqUpToIndent past t.world

namespace Observers

variable {σ : Type}

def recorded (obs : Observers σ) : Observers (Recorded σ) where
  logger := obs.logger.map fun logger line r =>
    let (ending, world) := logger line r.world
    (ending, ⟨world, r.events ++ [.line line]⟩)
  tracer := obs.tracer.map fun tracer step insn snap r =>
    let (ending, world) := tracer step insn snap r.world
    (ending, ⟨world, r.events ++ [.traced step insn snap]⟩)

/-- The observers return from every call. A tracer may return a failure. -/
structure Returning (obs : Observers σ) : Prop where
  logger : ∀ logger ∈ obs.logger, ∀ line world, (logger line world).1 = .returned ()
  tracer : ∀ tracer ∈ obs.tracer, ∀ step insn snap world,
    ∃ outcome, (tracer step insn snap world).1 = .returned outcome

/-- The observers return from every call, and the tracer returns no failure. -/
structure Approving (obs : Observers σ) : Prop where
  logger : ∀ logger ∈ obs.logger, ∀ line world, (logger line world).1 = .returned ()
  tracer : ∀ tracer ∈ obs.tracer, ∀ step insn snap world,
    (tracer step insn snap world).1 = .returned none

private theorem Approving.returning {obs : Observers σ} (h : obs.Approving) : obs.Returning :=
  ⟨h.logger, fun tracer htracer step insn snap world =>
    ⟨none, h.tracer tracer htracer step insn snap world⟩⟩

theorem approving_empty : ({} : Observers σ).Approving := ⟨nofun, nofun⟩

/-- What the tracer answers does not hinge on the tabs in front of logged lines, by which it could
tell a run from steps. Worlds that differ in no more than such tabs are alike. -/
structure Impartial (obs : Observers σ) (alike : σ → σ → Prop) : Prop where
  refl : ∀ world, alike world world
  logger : ∀ logger ∈ obs.logger, ∀ line world other, alike world other →
    alike (logger line world).2 (logger ("\t" ++ line) other).2
  tracer : ∀ tracer ∈ obs.tracer, ∀ step insn snap world other, alike world other →
    (tracer step insn snap world).1 = (tracer step insn snap other).1 ∧
    alike (tracer step insn snap world).2 (tracer step insn snap other).2

/-- A logger and a tracer that keep their worlds to themselves. -/
def apart {τ : Type} (logger : Option (Logger σ)) (tracer : Option (Tracer τ)) :
    Observers (σ × τ) where
  logger := logger.map fun logger line world =>
    let (ending, own) := logger line world.1
    (ending, (own, world.2))
  tracer := tracer.map fun tracer step insn snap world =>
    let (ending, own) := tracer step insn snap world.2
    (ending, (world.1, own))

theorem impartial_apart {τ : Type} (logger : Option (Logger σ))
    (tracer : Option (Tracer τ)) :
    (apart logger tracer).Impartial fun world other => world.2 = other.2 := by
  refine ⟨fun _ => rfl, ?_, ?_⟩
  · intro l hl line world other halike
    obtain ⟨_, _, rfl⟩ := Option.map_eq_some_iff.mp hl
    exact halike
  · intro t ht step insn snap world other halike
    obtain ⟨_, _, rfl⟩ := Option.map_eq_some_iff.mp ht
    dsimp only
    rw [halike]
    exact ⟨rfl, rfl⟩

theorem impartial_of_approving {obs : Observers σ}
    (h : ∀ tracer ∈ obs.tracer, ∀ step insn snap world,
      (tracer step insn snap world).1 = .returned none) :
    obs.Impartial fun _ _ => True := by
  refine ⟨fun _ => trivial, fun _ _ _ _ _ _ => trivial, ?_⟩
  intro tracer htracer step insn snap world other _
  exact ⟨(h tracer htracer ..).trans (h tracer htracer ..).symm, trivial⟩

end Observers

/-- Both sessions hold the same machine, and their observers were told the same but for tabs. -/
structure Session.EqUpToIndent {σ : Type} (alike : σ → σ → Prop) (past : List Event)
    (s t : Session (Recorded σ)) : Prop where
  machine : t.machine = s.machine
  world : alike s.world.world t.world.world
  events : s.world.EqUpToIndent past t.world

namespace Session.EqUpToIndent

variable {σ : Type} {alike : σ → σ → Prop} {past : List Event} {s t : Session (Recorded σ)}

private theorem edit (h : EqUpToIndent alike past s t) (f : Machine → Machine) :
    EqUpToIndent alike past ⟨f s.machine, s.world⟩ ⟨f t.machine, t.world⟩ :=
  ⟨congrArg f h.machine, h.world, h.events⟩

private theorem stopped (h : EqUpToIndent alike past s t) (failure reported : Failure) :
    t.machine.stopWith reported = (s.machine.stopWith failure).stopWith reported := by
  rw [h.machine]
  rfl

private theorem tell (h : EqUpToIndent alike past s t) {m : Machine} {world other : σ}
    (halike : alike world other) (event : Event) :
    EqUpToIndent alike past ⟨m, ⟨world, s.world.events ++ [event]⟩⟩
      ⟨m, ⟨other, t.world.events ++ [event.indented]⟩⟩ := by
  obtain ⟨news, hs, ht⟩ := h.events
  refine ⟨rfl, halike, news ++ [event], ?_, ?_⟩
  · rw [hs, List.append_assoc]
  · rw [ht, List.append_assoc, List.map_append, List.map_singleton]

end Session.EqUpToIndent

namespace Action

variable {σ α β : Type} {rel : Session σ → Session σ → Prop}

/-- Two actions ended alike in related sessions, normally or by stopping the machine. -/
inductive Agree (rel : Session σ → Session σ → Prop) :
    EStateM.Result Abrupt (Session σ) α → EStateM.Result Abrupt (Session σ) α → Prop where
  | ok {s t : Session σ} (a : α) (related : rel s t) : Agree rel (.ok a s) (.ok a t)
  | halt {s t : Session σ} (cause : Failure) (related : rel s t) :
      Agree rel (.error (.halt cause) s) (.error (.halt cause) t)

def Simulates (rel : Session σ → Session σ → Prop) (act other : Action σ α) : Prop :=
  ∀ s t, rel s t → Agree rel (act.run s) (other.run t)

private theorem Simulates.pure (a : α) : Simulates rel (pure a) (pure a) :=
  fun _ _ h => .ok a h

private theorem Simulates.bind {act other : Action σ α} {next next' : α → Action σ β}
    (h : Simulates rel act other) (hnext : ∀ a, Simulates rel (next a) (next' a)) :
    Simulates rel (act >>= next) (other >>= next') := by
  intro s t hst
  rw [Exec.run_bind, Exec.run_bind]
  have hfirst := h s t hst
  generalize act.run s = r at hfirst ⊢
  generalize other.run t = r' at hfirst ⊢
  cases hfirst with
  | ok a hrel => exact hnext a _ _ hrel
  | halt cause hrel => exact .halt cause hrel

variable {alike : σ → σ → Prop} {past : List Event} {obs : Observers σ}

private theorem Simulates.setHalted :
    Simulates (Session.EqUpToIndent alike past) setHalted setHalted :=
  fun _ _ h => .ok () (h.edit fun m => { m with halted := true })

private theorem Simulates.countStep :
    Simulates (Session.EqUpToIndent alike past) countStep countStep :=
  fun _ _ h => .ok () (h.edit fun m => { m with steps := m.steps + 1 })

private theorem lineOf_tab (m : Machine) (mark : String) (text : Core → String) :
    lineOf m "\t" mark text = "\t" ++ lineOf m "" mark text := by
  simp only [lineOf, String.append_assoc, String.empty_append]

private theorem Simulates.log (returning : obs.Returning) (impartial : obs.Impartial alike)
    (mark : String) (text : Core → String) :
    Simulates (Session.EqUpToIndent alike past) (log obs.recorded "" mark text)
      (log obs.recorded "\t" mark text) := by
  intro s t h
  rw [run_log, run_log, h.machine, lineOf_tab, Observers.recorded]
  cases hlogger : obs.logger with
  | none => exact .ok () h
  | some logger =>
      have hs := returning.logger logger hlogger (lineOf s.machine "" mark text) s.world.world
      have ht := returning.logger logger hlogger ("\t" ++ lineOf s.machine "" mark text)
        t.world.world
      have halike := impartial.logger logger hlogger (lineOf s.machine "" mark text) _ _ h.world
      simp only [Option.map_some, hs, ht]
      exact .ok () (h.tell halike (.line _))

private theorem Simulates.halt (returning : obs.Returning) (impartial : obs.Impartial alike)
    (cause : Failure) :
    Simulates (α := α) (Session.EqUpToIndent alike past) (halt obs.recorded "" cause)
      (halt obs.recorded "\t" cause) := by
  intro s t h
  rw [run_halt, run_halt]
  have hlog := Simulates.log returning impartial "#"
    (fun _ => "halt error: " ++ cause.message) s t h
  generalize (Action.log obs.recorded "" _ _).run s = r at hlog ⊢
  generalize (Action.log obs.recorded "\t" _ _).run t = r' at hlog ⊢
  cases hlog with
  | ok _ hrel => exact .halt cause hrel
  | halt _ hrel => exact .halt cause hrel

private theorem Simulates.trace (returning : obs.Returning) (impartial : obs.Impartial alike)
    (insn : Instruction) :
    Simulates (Session.EqUpToIndent alike past) (trace obs.recorded insn)
      (trace obs.recorded insn) := by
  intro s t h
  rw [run_trace, run_trace, h.machine, Observers.recorded]
  cases htracer : obs.tracer with
  | none => exact .ok none h
  | some tracer =>
      obtain ⟨outcome, hs⟩ := returning.tracer tracer htracer s.machine.steps insn
        s.machine.core.snapshot s.world.world
      obtain ⟨hsame, halike⟩ := impartial.tracer tracer htracer s.machine.steps insn
        s.machine.core.snapshot _ _ h.world
      have ht := hsame.symm.trans hs
      simp only [Option.map_some, hs, ht]
      exact .ok outcome (h.tell halike (.traced _ _ _))

private theorem Simulates.report (returning : obs.Returning) (impartial : obs.Impartial alike)
    (here : Word) (insn : Instruction) :
    Simulates (Session.EqUpToIndent alike past) (report obs.recorded "" here insn)
      (report obs.recorded "\t" here insn) := by
  refine .bind .countStep fun _ => .bind (.log returning impartial _ _) fun _ =>
    .bind (.trace returning impartial insn) fun outcome => ?_
  cases outcome with
  | none => exact .pure ()
  | some cause => exact .halt returning impartial cause

private theorem Simulates.conclude (returning : obs.Returning) (impartial : obs.Impartial alike)
    (here : Word) (insn : Instruction) (flow : Flow) :
    Simulates (Session.EqUpToIndent alike past) (conclude obs.recorded "" here insn flow)
      (conclude obs.recorded "\t" here insn flow) := by
  have hreport : Simulates (Session.EqUpToIndent alike past)
      (Action.report obs.recorded "" here insn) (Action.report obs.recorded "\t" here insn) :=
    .report returning impartial here insn
  unfold Action.conclude
  split
  · exact .bind .setHalted fun _ => .bind (.log returning impartial _ _) fun _ => hreport
  · exact hreport

private theorem cycle_agrees (returning : obs.Returning) (impartial : obs.Impartial alike)
    {s t : Session (Recorded σ)} (h : s.EqUpToIndent alike past t) :
    match s.machine.fault? with
    | none => Agree (Session.EqUpToIndent alike past) ((cycle obs.recorded "").run s)
        ((cycle obs.recorded "\t").run t)
    | some f => ∃ s' t', (cycle obs.recorded "").run s = .error (.panic (.failure (.fault f))) s' ∧
        (cycle obs.recorded "\t").run t = .error (.panic (.failure (.fault f))) t' ∧
        s'.EqUpToIndent alike past t' := by
  rw [run_cycle, run_cycle, h.machine, Machine.fault?]
  cases s.machine.core.fetch? s.machine.code with
  | none => exact Simulates.halt returning impartial _ s t h
  | some insn =>
      dsimp only
      cases s.machine.core.carryOut insn with
      | ok flow core =>
          exact Simulates.conclude returning impartial _ insn flow _ _
            (h.edit fun m => { m with core := core })
      | error stop core =>
          have hcore := h.edit fun m => { m with core := core }
          cases stop with
          | fault f => exact ⟨_, _, rfl, rfl, hcore⟩
          | refusal cause => exact Simulates.halt returning impartial cause _ _ hcore

end Action

namespace Session

variable {σ : Type} (obs : Observers σ)

/-- Steps until a step fails, the machine has halted or the budget is used up. -/
def stepping : Nat → Session σ → Stepping σ
  | 0, s => if s.machine.halted then .halted s else .spent s
  | budget + 1, s =>
    if s.machine.halted then .halted s
    else match s.step obs with
      | (none, t) => stepping budget t
      | (some cause, t) => .failed s cause t

theorem run_of_halted {s : Session σ} (hhalted : s.machine.halted = true)
    (hf : s.machine.failure = none) (budget : Nat) (cause : Failure) :
    s.run obs budget cause = (.ok s.machine.core.result, s) := by
  rw [run, attempt_of_none hf, Action.final]
  cases budget with
  | zero => rw [Action.run_loop_zero, if_pos hhalted, verdict]
  | succ budget => rw [Action.run_loop_succ, if_pos hhalted, verdict]

theorem run_zero {s : Session σ} (hhalted : s.machine.halted = false)
    (hf : s.machine.failure = none) (cause : Failure) :
    s.run obs 0 cause = (.error cause, ⟨s.machine.stopWith cause, s.world⟩) := by
  rw [run, attempt_of_none hf, Action.final, Action.run_loop_zero, hhalted]
  rfl

theorem run_succ {s : Session σ} (hhalted : s.machine.halted = false)
    (hf : s.machine.failure = none) (budget : Nat) (cause : Failure) :
    s.run obs (budget + 1) cause =
      match (Action.cycle obs "\t").run s with
      | .ok _ t => t.run obs budget cause
      | .error e t =>
        (.error (e.toFailure "run"), ⟨t.machine.stopWith (e.toFailure "run"), t.world⟩) := by
  have hkept := (Action.cycle_attempts obs "\t" s).2.1
  rw [Action.final] at hkept
  rw [run, attempt_of_none hf, Action.final, Action.run_loop_succ, hhalted,
    if_neg Bool.false_ne_true]
  cases hcycle : (Action.cycle obs "\t").run s with
  | ok u t =>
      rw [hcycle] at hkept
      dsimp only
      rw [run, attempt_of_none (hkept.trans hf), Action.final]
  | error e t => rfl

variable {obs} {alike : σ → σ → Prop} {past : List Event}

private theorem run_matches_halted (cause : Failure) (budget : Nat) {s t : Session (Recorded σ)}
    (h : s.EqUpToIndent alike past t) (hf : s.machine.failure = none)
    (hhalted : s.machine.halted = true) :
    (s.stepping obs.recorded budget).Matches past cause (t.run obs.recorded budget cause) := by
  have hstepping : s.stepping obs.recorded budget = .halted s := by
    cases budget <;> rw [stepping, if_pos hhalted]
  rw [hstepping, run_of_halted _ (h.machine ▸ hhalted) (h.machine ▸ hf)]
  exact ⟨congrArg (fun m => Except.ok m.core.result) h.machine, hf, h.machine, h.events⟩

private theorem run_matches_stepping (returning : obs.Returning) (impartial : obs.Impartial alike)
    (cause : Failure) (budget : Nat) {s t : Session (Recorded σ)} (h : s.EqUpToIndent alike past t)
    (hf : s.machine.failure = none) :
    (s.stepping obs.recorded budget).Matches past cause (t.run obs.recorded budget cause) := by
  induction budget generalizing s t with
  | zero =>
      cases hhalted : s.machine.halted with
      | true => exact run_matches_halted cause 0 h hf hhalted
      | false =>
          rw [stepping, hhalted, run_zero _ (h.machine ▸ hhalted) (h.machine ▸ hf)]
          exact ⟨rfl, congrArg (Machine.stopWith · cause) h.machine, h.events⟩
  | succ budget ih =>
      cases hhalted : s.machine.halted with
      | true => exact run_matches_halted cause (budget + 1) h hf hhalted
      | false =>
          have hcycle := Action.cycle_agrees returning impartial h
          have hkept := (Action.cycle_attempts obs.recorded "" s).2.1
          rw [Action.final] at hkept
          rw [stepping, hhalted, if_neg Bool.false_ne_true, step_of_running _ hhalted hf,
            run_succ _ (h.machine ▸ hhalted) (h.machine ▸ hf)]
          cases hfault : s.machine.fault? with
          | some f =>
              simp only [hfault] at hcycle
              obtain ⟨s', t', hs, ht, heq⟩ := hcycle
              rw [hs, ht]
              exact ⟨_, .fault hfault, rfl, heq.stopped _ _, heq.events⟩
          | none =>
              simp only [hfault] at hcycle
              generalize (Action.cycle obs.recorded "").run s = r at hcycle hkept ⊢
              generalize (Action.cycle obs.recorded "\t").run t = r' at hcycle ⊢
              cases hcycle with
              | ok u heq => exact ih heq (hkept.trans hf)
              | halt failure heq =>
                  exact ⟨failure, .same hfault, rfl, heq.stopped _ _, heq.events⟩

end Session

private theorem Stepping.Matches.answer_ok_iff {σ : Type} {past : List Event} {cause : Failure}
    {stepping : Stepping (Recorded σ)} {run : Except Failure Word × Session (Recorded σ)}
    (h : stepping.Matches past cause run) (result : Word) :
    run.1 = .ok result ↔ ∃ s, stepping = .halted s ∧ s.machine.core.result = result := by
  obtain ⟨answer, t⟩ := run
  cases stepping with
  | halted s =>
      obtain ⟨rfl, -⟩ := h
      constructor
      · intro hok
        cases hok
        exact ⟨s, rfl, rfl⟩
      · rintro ⟨_, ⟨⟩, rfl⟩
        rfl
  | failed first failure s =>
      obtain ⟨reported, -, rfl, -⟩ := h
      exact ⟨nofun, nofun⟩
  | spent s =>
      obtain ⟨rfl, -⟩ := h
      exact ⟨nofun, nofun⟩

private theorem Session.matches_of_reached {σ : Type} {plan : Plan σ} {code : Array Instruction}
    {m : Machine} (built : plan.build code = .ok m) (returning : plan.observers.Returning)
    {alike : σ → σ → Prop} (impartial : plan.observers.Impartial alike) {world : σ}
    {before : List Call} {s : Session (Recorded σ)}
    (reached : performAll plan.observers.recorded before ⟨m, ⟨world, []⟩⟩ = s)
    (running : s.machine.halted = false) (budget : Nat) (cause : Failure) :
    (s.stepping plan.observers.recorded budget).Matches s.world.events cause
      (s.run plan.observers.recorded budget cause) := by
  have hfresh : m.failure.isSome → m.halted = true := by
    rw [Plan.build_eq_initial built]
    nofun
  have hleads := performAll_leads (s := ⟨m, ⟨world, []⟩⟩) plan.observers.recorded hfresh before
  rw [reached] at hleads
  have hsame : s.EqUpToIndent alike s.world.events s :=
    ⟨rfl, impartial.refl _, [], (List.append_nil _).symm, (List.append_nil _).symm⟩
  exact run_matches_stepping returning impartial cause budget hsame
    (hleads.failure_eq_none running)

/-- On a machine that still runs, whatever calls came before, a run under a budget ends where
that many steps end: on HALT with the word at address zero, on the failure of a step, or on the
failure that stands for the used-up budget. Registers, memory and the count of steps are those
the steps leave, and the observers are told the same in the same order, but for one tab in front
of every line. -/
theorem run_is_iterated_step {σ : Type} {plan : Plan σ} {code : Array Instruction} {m : Machine}
    (built : plan.build code = .ok m) (returning : plan.observers.Returning)
    {alike : σ → σ → Prop} (impartial : plan.observers.Impartial alike) (world : σ)
    (before : List Call) {s : Session (Recorded σ)}
    (reached : Session.performAll plan.observers.recorded before ⟨m, ⟨world, []⟩⟩ = s)
    (running : s.machine.halted = false) (budget : Nat) (cause : Failure) :
    (s.stepping plan.observers.recorded budget).Matches s.world.events cause
      (s.run plan.observers.recorded budget cause) ∧
    ∀ result, (s.run plan.observers.recorded budget cause).1 = .ok result ↔
      ∃ t, s.stepping plan.observers.recorded budget = .halted t ∧
        t.machine.core.result = result := by
  have hmatches := Session.matches_of_reached built returning impartial reached running budget cause
  exact ⟨hmatches, hmatches.answer_ok_iff⟩

/-- Observers whose tracer returns no failure may share what they like: a run goes as the steps
do. -/
theorem run_is_iterated_step_of_approving {σ : Type} {plan : Plan σ} {code : Array Instruction}
    {m : Machine} (built : plan.build code = .ok m) (approving : plan.observers.Approving)
    (world : σ) (before : List Call) {s : Session (Recorded σ)}
    (reached : Session.performAll plan.observers.recorded before ⟨m, ⟨world, []⟩⟩ = s)
    (running : s.machine.halted = false) (budget : Nat) (cause : Failure) :
    (s.stepping plan.observers.recorded budget).Matches s.world.events cause
      (s.run plan.observers.recorded budget cause) ∧
    ∀ result, (s.run plan.observers.recorded budget cause).1 = .ok result ↔
      ∃ t, s.stepping plan.observers.recorded budget = .halted t ∧
        t.machine.core.result = result := by
  have himpartial := Observers.impartial_of_approving approving.tracer
  have hmatches := Session.matches_of_reached built approving.returning himpartial reached running
    budget cause
  exact ⟨hmatches, hmatches.answer_ok_iff⟩

def divideByZero : Array Instruction :=
  #[.ofOpcode .loadc 7, .ofOpcode .loadc 0, .ofOpcode .div 0, .ofOpcode .halt 0]

def collectingPlan : Plan (List String × Nat) :=
  ⟨4, .apart (some fun line lines => (.returned (), lines ++ [line]))
    (some fun _ _ _ count => (.returned none, count + 1))⟩

theorem run_is_iterated_step_divide_by_zero :
    let s := Session.performAll collectingPlan.observers.recorded [.step]
      ⟨.initial divideByZero 4, ⟨([], 0), []⟩⟩
    collectingPlan.build divideByZero = .ok (.initial divideByZero 4) ∧
    collectingPlan.observers.Returning ∧ s.machine.halted = false ∧
    (s.run collectingPlan.observers.recorded 5 .canceled).1 =
      .error (.panicFailure "run" (.fault .divisionByZero)) ∧
    (s.stepping collectingPlan.observers.recorded 5).Matches s.world.events .canceled
      (s.run collectingPlan.observers.recorded 5 .canceled) := by
  have hbuilt : collectingPlan.build divideByZero = .ok (.initial divideByZero 4) := rfl
  have hreturning : collectingPlan.observers.Returning := by
    constructor
    · rintro _ ⟨⟩ line world
      rfl
    · rintro _ ⟨⟩ step insn snap world
      exact ⟨none, rfl⟩
  have hrunning : (Session.performAll collectingPlan.observers.recorded [.step]
      ⟨.initial divideByZero 4, ⟨([], 0), []⟩⟩).machine.halted = false := by decide +kernel
  refine ⟨hbuilt, hreturning, hrunning, by decide +kernel, ?_⟩
  exact (run_is_iterated_step hbuilt hreturning (Observers.impartial_apart _ _) ([], 0) [.step] rfl
    hrunning 5 .canceled).1

end FrameMachine
