import FrameMachine.Proofs.CycleOutcomes
/-!
# Observed runs

A machine whose observers have replied normally so far is where as many unobserved steps would lead
it. From there every call leads it to such a state again, stops it for reasons of its own, or is
interrupted by an observer.
-/
namespace FrameMachine

open TraceStore

namespace Machine

variable {m after : Machine}

theorem cycled_ok (h : m.cycled = .ok () after) :
    ∃ insn flow core, m.core.fetch? m.code = some insn ∧
      m.core.carryOut insn = .ok flow core ∧ after = m.completed flow core := by
  rw [cycled] at h
  cases hfetch : m.core.fetch? m.code with
  | none => simp [hfetch] at h
  | some insn =>
      simp only [hfetch] at h
      cases hrun : m.core.carryOut insn with
      | error stop core => cases stop <;> simp [hrun] at h
      | ok flow core =>
          simp only [hrun] at h
          cases h
          exact ⟨insn, flow, core, rfl, hrun, rfl⟩

private theorem cycled_error {e : Abrupt} (h : m.cycled = .error e after) :
    m.core.next? m.code = none ∧ after.steps = m.steps := by
  rw [cycled] at h
  rw [Core.next?]
  cases hfetch : m.core.fetch? m.code with
  | none =>
      simp only [hfetch] at h
      cases h
      exact ⟨rfl, rfl⟩
  | some insn =>
      simp only [hfetch] at h
      cases hrun : m.core.carryOut insn with
      | ok flow core => simp [hrun] at h
      | error stop core =>
          refine ⟨by simp [hrun], ?_⟩
          cases stop <;> simp only [hrun] at h <;> cases h <;> rfl

private theorem step_alone (hhalted : m.halted = false) (hfailure : m.failure = none) :
    (Session.step {} ⟨m, ()⟩).2.machine =
      match m.cycled with
      | .ok _ after => after
      | .error e after => after.stopWith (e.toFailure "step") := by
  cases hcycled : m.cycled with
  | ok u after =>
      obtain ⟨insn, flow, core, hfetch, hrun, rfl⟩ := cycled_ok hcycled
      exact step_unobserved hhalted hfailure hfetch hrun
  | error e after =>
      rw [cycled] at hcycled
      rw [Session.step_of_running {} hhalted hfailure, Action.run_cycle]
      cases hfetch : m.core.fetch? m.code with
      | none =>
          simp only [hfetch] at hcycled ⊢
          cases hcycled
          rfl
      | some insn =>
          simp only [hfetch] at hcycled ⊢
          cases hrun : m.core.carryOut insn with
          | ok flow core => simp [hrun] at hcycled
          | error stop core =>
              cases stop <;> simp only [hrun] at hcycled ⊢ <;> cases hcycled <;> rfl

private theorem replay_of_cycled {n : Nat} (hhalted : (m.replay n).halted = false)
    (hfailure : (m.replay n).failure = none) :
    m.replay (n + 1) =
      match (m.replay n).cycled with
      | .ok _ after => after
      | .error e after => after.stopWith (e.toFailure "step") := by
  rw [replay_succ, step_alone hhalted hfailure]

private theorem Emits.steps_passed {indent : String} {event : Event}
    (h : m.Emits indent .announcement event) : m.passed.steps = m.steps + 1 := by
  cases h with
  | announcement _ hfetch hrun =>
      rw [passed, cycled_of_carryOut hfetch hrun]
      rfl

/-- A tracer was shown the first `n` instructions, as they come about when nobody watches. -/
def IsReplayTrace (m : Machine) (n : Nat) (seen : List Observation) : Prop :=
  seen.length = n ∧ ∀ k < n, ∃ insn, (m.replay k).fetch? = some insn ∧
    seen[k]? = some ⟨.ofNat (k + 1), insn, (m.replay (k + 1)).core.snapshot⟩

private theorem IsReplayTrace.concat {n : Nat} {seen : List Observation} {insn : Instruction}
    (h : m.IsReplayTrace n seen) (hfetch : (m.replay n).fetch? = some insn) :
    m.IsReplayTrace (n + 1)
      (seen ++ [⟨.ofNat (n + 1), insn, (m.replay (n + 1)).core.snapshot⟩]) := by
  obtain ⟨hlength, hseen⟩ := h
  refine ⟨by simp [hlength], ?_⟩
  intro k hk
  rcases Nat.lt_succ_iff_lt_or_eq.mp hk with hk | rfl
  · obtain ⟨insn', hfetch', hat⟩ := hseen k hk
    refine ⟨insn', hfetch', ?_⟩
    rw [List.getElem?_append_left (by omega), hat]
  · refine ⟨insn, hfetch, ?_⟩
    rw [← hlength, List.getElem?_concat_length]

end Machine

namespace Session

variable {σ : Type} {obs : Observers σ} {indent : String} {m : Machine} {n : Nat}
  {s t : Session (Audited σ)}

/-- All replies so far were normal, and count and traces are those of `n` completed
instructions. -/
structure NormalUpTo (obs : Observers σ) (m : Machine) (n : Nat) (s : Session (Audited σ)) :
    Prop where
  normal : ∀ x ∈ s.world.exchanges, x.reply = .normal
  steps : s.machine.steps = .ofNat n
  seen : if obs.tracer.isSome then m.IsReplayTrace n (observations s.world.exchanges)
    else observations s.world.exchanges = []

private theorem NormalUpTo.stopWith (h : s.NormalUpTo obs m n) (cause : Failure) :
    NormalUpTo obs m n ⟨s.machine.stopWith cause, s.world⟩ :=
  ⟨h.normal, h.steps, h.seen⟩

/-- The machine has not failed and is where `n` unobserved steps lead. -/
structure AtReplay (obs : Observers σ) (m : Machine) (n : Nat) (s : Session (Audited σ)) :
    Prop where
  upTo : s.NormalUpTo obs m n
  code : s.machine.code = m.code
  failure : s.machine.failure = none
  replayed : m.replay n = s.machine.unmarked

end Session

/-- The instruction after `last` unobserved steps was interrupted, and by then `done`
instructions were completed. -/
structure Interruption.Stops {σ : Type} (x : Interruption) (obs : Observers σ)
    (indent : String) (m : Machine) (last done : Nat) (e : Abrupt) (t : Session (Audited σ)) :
    Prop where
  exchanges : t.world.exchanges = x.earlier ++ x.exchange :: x.later
  normal : ∀ y ∈ x.earlier, y.reply = .normal
  abnormal : x.exchange.reply ≠ .normal
  given : obs.CanReply x.exchange
  emits : (m.replay last).Emits indent x.occasion x.exchange.event
  aftermath : ∀ name, Aftermath obs.logger.isSome name indent x.occasion x.exchange.reply
    x.later (e.toFailure name)
  core : t.machine.core = (m.replay (last + 1)).core
  steps : (if x.occasion = .announcement then t.machine.steps + 1 else t.machine.steps) =
    .ofNat done

private theorem Interruption.Stops.stopWith {σ : Type} {x : Interruption} {obs : Observers σ}
    {indent : String} {m : Machine} {last done : Nat} {e : Abrupt} {t : Session (Audited σ)}
    (h : x.Stops obs indent m last done e t) (cause : Failure) :
    x.Stops obs indent m last done e ⟨t.machine.stopWith cause, t.world⟩ :=
  ⟨h.exchanges, h.normal, h.abnormal, h.given, h.emits, h.aftermath, h.core, h.steps⟩

/-- How an action went that began instructions at the given cores. -/
inductive ActionOutcome {σ α : Type} (obs : Observers σ) (indent : String) (m : Machine)
    (past : List Exchange) (n : Nat) (begun : List Core) :
    EStateM.Result Abrupt (Session (Audited σ)) α → Prop where
  | completed {a : α} {t : Session (Audited σ)} (atReplay : t.AtReplay obs m (n + begun.length))
      (all : Core.completions m.code begun = begun.length) (since : past <+: t.world.exchanges) :
      ActionOutcome obs indent m past n begun (.ok a t)
  | stopped {e : Abrupt} {t : Session (Audited σ)}
      (upTo : t.NormalUpTo obs m (n + Core.completions m.code begun)) :
      ActionOutcome obs indent m past n begun (.error e t)
  | interrupted {e : Abrupt} {t : Session (Audited σ)} (x : Interruption) (last : Nat)
      (length : n + begun.length = last + 1) (since : past <+: x.earlier)
      (stops : x.Stops obs indent m last (n + Core.completions m.code begun) e t) :
      ActionOutcome obs indent m past n begun (.error e t)

private theorem ActionOutcome.cons {σ α : Type} {obs : Observers σ} {indent : String} {m : Machine}
    {past recent : List Exchange} {n : Nat} {core : Core} {begun : List Core}
    {r : EStateM.Result Abrupt (Session (Audited σ)) α}
    (h : ActionOutcome obs indent m recent (n + 1) begun r)
    (hcore : Core.completions m.code [core] = 1) (hpast : past <+: recent) :
    ActionOutcome obs indent m past n (core :: begun) r := by
  have hlength : n + (core :: begun).length = n + 1 + begun.length := by
    rw [List.length_cons]
    omega
  have hcount : n + Core.completions m.code (core :: begun) =
      n + 1 + Core.completions m.code begun := by
    rw [← List.singleton_append, Core.completions_append, hcore]
    omega
  cases h with
  | completed atReplay all since =>
      refine .completed (hlength ▸ atReplay) ?_ (hpast.trans since)
      rw [List.length_cons]
      omega
  | stopped upTo => exact .stopped (hcount ▸ upTo)
  | interrupted x last length since stops =>
      exact .interrupted x last (hlength.trans length) (hpast.trans since) (hcount ▸ stops)

namespace Session

variable {σ : Type} {obs : Observers σ} {indent : String} {m : Machine} {n : Nat}
  {s t : Session (Audited σ)}

private theorem AtReplay.replay_succ (h : s.AtReplay obs m n)
    (hrunning : s.machine.halted = false) :
    m.replay (n + 1) =
      match s.machine.unmarked.cycled with
      | .ok _ after => after
      | .error e after => after.stopWith (e.toFailure "step") := by
  rw [← h.replayed]
  apply Machine.replay_of_cycled <;> rw [h.replayed]
  · exact hrunning
  · exact h.failure

private theorem NormalUpTo.append {news : List Exchange} (h : s.NormalUpTo obs m n)
    (hexchanges : t.world.exchanges = s.world.exchanges ++ news)
    (hnews : ∀ x ∈ news, x.reply = .normal) : ∀ x ∈ t.world.exchanges, x.reply = .normal := by
  intro x hx
  rw [hexchanges] at hx
  rcases List.mem_append.mp hx with hx | hx
  · exact h.normal x hx
  · exact hnews x hx

private theorem AtReplay.completes {news : List Exchange} (h : s.AtReplay obs m n)
    (hrunning : s.machine.halted = false)
    (hcycled : s.machine.unmarked.cycled = .ok () t.machine.unmarked)
    (hexchanges : t.world.exchanges = s.world.exchanges ++ news)
    (hnews : ∀ x ∈ news, x.reply = .normal)
    (hseen : observations news =
      if obs.tracer.isSome then s.machine.unmarked.shown.toList else []) :
    t.AtReplay obs m (n + 1) := by
  have hreplay : m.replay (n + 1) = t.machine.unmarked := by
    rw [h.replay_succ hrunning, hcycled]
  obtain ⟨insn, flow, core, hfetch, hrun, hafter⟩ := Machine.cycled_ok hcycled
  have hsteps : t.machine.steps = .ofNat (n + 1) := by
    change t.machine.unmarked.steps = _
    rw [hafter, UInt64.ofNat_add, ← h.upTo.steps]
    rfl
  refine ⟨⟨h.upTo.append hexchanges hnews, hsteps, ?_⟩, ?_, ?_, hreplay⟩
  · have hpast := h.upTo.seen
    rw [hexchanges, observations_append, hseen]
    split
    · rename_i htracer
      rw [if_pos htracer] at hpast
      have hshown : s.machine.unmarked.shown =
          some ⟨.ofNat (n + 1), insn, (m.replay (n + 1)).core.snapshot⟩ := by
        rw [Machine.shown, hfetch, Option.bind_some, hrun, hreplay, hafter, ← hsteps]
        change _ = some (Observation.mk t.machine.unmarked.steps _ _)
        rw [hafter]
        rfl
      rw [hshown, Option.toList_some]
      apply hpast.concat
      rw [h.replayed]
      exact hfetch
    · rename_i htracer
      rw [if_neg htracer] at hpast
      rw [hpast, List.append_nil]
  · change t.machine.unmarked.code = m.code
    rw [hafter, ← h.code]
    rfl
  · change t.machine.unmarked.failure = none
    rw [hafter, ← h.failure]
    rfl

private theorem AtReplay.completions_of_ok {after : Machine} (h : s.AtReplay obs m n)
    (hcycled : s.machine.unmarked.cycled = .ok () after) :
    Core.completions m.code [s.machine.core] = 1 := by
  obtain ⟨insn, flow, core, hfetch, hrun, -⟩ := Machine.cycled_ok hcycled
  have hnext : s.machine.core.next? m.code = some core := by
    rw [← h.code]
    exact Core.completes_iff_next?.mp ⟨insn, flow, hfetch, hrun⟩
  simp [Core.completions, hnext]

private theorem AtReplay.completions_of_error {e : Abrupt} {after : Machine}
    (h : s.AtReplay obs m n) (hcycled : s.machine.unmarked.cycled = .error e after) :
    Core.completions m.code [s.machine.core] = 0 := by
  have hnext : s.machine.core.next? m.code = none := by
    rw [← h.code]
    exact (Machine.cycled_error hcycled).1
  simp [Core.completions, hnext]

private theorem AtReplay.steps_passed (h : s.AtReplay obs m n) :
    s.machine.unmarked.passed.steps =
      .ofNat (n + Core.completions m.code [s.machine.core]) := by
  rw [Machine.passed]
  cases hcycled : s.machine.unmarked.cycled with
  | ok u after =>
      obtain ⟨insn, flow, core, -, -, hafter⟩ := Machine.cycled_ok hcycled
      rw [h.completions_of_ok hcycled, UInt64.ofNat_add, ← h.upTo.steps]
      dsimp only
      rw [hafter]
      rfl
  | error e after =>
      rw [h.completions_of_error hcycled, Nat.add_zero, ← h.upTo.steps]
      exact (Machine.cycled_error hcycled).2

private theorem AtReplay.breaks {news : List Exchange} {e : Abrupt} (h : s.AtReplay obs m n)
    (hcycled : s.machine.unmarked.cycled = .error e t.machine.unmarked)
    (hexchanges : t.world.exchanges = s.world.exchanges ++ news)
    (hnews : ∀ x ∈ news, x.reply = .normal) (hseen : observations news = []) :
    t.NormalUpTo obs m (n + Core.completions m.code [s.machine.core]) := by
  rw [h.completions_of_error hcycled, Nat.add_zero]
  refine ⟨h.upTo.append hexchanges hnews, ?_, ?_⟩
  · rw [← h.upTo.steps]
    exact (Machine.cycled_error hcycled).2
  · rw [hexchanges, observations_append, hseen, List.append_nil]
    exact h.upTo.seen

private theorem AtReplay.cycle (h : s.AtReplay obs m n) (hrunning : s.machine.halted = false)
    (indent : String) :
    ActionOutcome obs indent m s.world.exchanges n [s.machine.core]
      ((Action.cycle obs.audited indent).run s) := by
  have houtcome := CycleOutcome.cycle obs indent s
  generalize (Action.cycle obs.audited indent).run s = r at houtcome ⊢
  cases houtcome with
  | uninterrupted news hbare hexchanges hnews hseen =>
      have hcycled := hbare.symm
      cases r with
      | ok u t =>
          have hsince : s.world.exchanges <+: t.world.exchanges := ⟨news, hexchanges.symm⟩
          exact .completed (h.completes hrunning hcycled hexchanges hnews hseen)
            (h.completions_of_ok hcycled) hsince
      | error e t =>
          rw [Machine.shown_of_error hcycled, Option.toList_none, ite_self] at hseen
          exact .stopped (h.breaks hcycled hexchanges hnews hseen)
  | interrupted x hexchanges hearlier habnormal hgiven hemits haftermath hcore hsteps =>
      refine .interrupted ⟨s.world.exchanges ++ x.earlier, x.exchange, x.later, x.occasion⟩ n rfl
        (List.prefix_append _ _) ⟨?_, ?_, habnormal, hgiven, ?_, haftermath, ?_, ?_⟩
      · rw [hexchanges, List.append_assoc]
      · intro y hy
        rcases List.mem_append.mp hy with hy | hy
        · exact h.upTo.normal y hy
        · exact hearlier y hy
      · rw [h.replayed]
        exact hemits
      · rw [hcore, h.replay_succ hrunning, Machine.passed]
        cases s.machine.unmarked.cycled <;> rfl
      · rw [hsteps, ← h.steps_passed]
        dsimp only
        split
        · rename_i hoccasion
          rw [hoccasion] at hemits
          exact hemits.steps_passed.symm
        · rfl

private theorem AtReplay.loop (h : s.AtReplay obs m n) (cause : Failure) (budget : Nat) :
    ActionOutcome obs "\t" m s.world.exchanges n (Action.visits obs.audited budget s)
      ((Action.loop obs.audited cause budget).run s) := by
  induction budget generalizing s n with
  | zero =>
      rw [Action.run_loop_zero]
      exact .completed h rfl (List.prefix_refl _)
  | succ budget ih =>
      rw [Action.run_loop_succ, Action.visits]
      by_cases hhalted : s.machine.halted = true
      · rw [if_pos hhalted, if_pos hhalted]
        exact .completed h rfl (List.prefix_refl _)
      rw [if_neg hhalted, if_neg hhalted]
      have hcycle := h.cycle (Bool.not_eq_true _ ▸ hhalted) "\t"
      generalize (Action.cycle obs.audited "\t").run s = r at hcycle ⊢
      cases hcycle with
      | completed hatReplay hall hsince => exact (ih hatReplay).cons hall hsince
      | stopped hupTo => exact .stopped hupTo
      | interrupted x last hlength hsince hstops => exact .interrupted x last hlength hsince hstops

end Session

inductive CallOutcome {σ : Type} (obs : Observers σ) (call : Call) (m : Machine)
    (past : List Exchange) (n : Nat) (begun : List Core) (answer : Option Failure)
    (t : Session (Audited σ)) : Prop where
  | completed (atReplay : t.AtReplay obs m (n + begun.length))
      (all : Core.completions m.code begun = begun.length) (since : past <+: t.world.exchanges)
  | stopped (upTo : t.NormalUpTo obs m (n + Core.completions m.code begun))
      (failed : t.machine.failure.isSome)
  | interrupted (x : Interruption) (last : Nat) (e : Abrupt) (length : n + begun.length = last + 1)
      (since : past <+: x.earlier)
      (stops : x.Stops obs call.indent m last (n + Core.completions m.code begun) e t)
      (answered : answer = some (e.toFailure call.name))
      (stored : t.machine.failure = some (e.toFailure call.name))

namespace Session

variable {σ : Type} {obs : Observers σ} {m : Machine} {n : Nat} {s t : Session (Audited σ)}

private theorem AtReplay.attempt {act : Action (Audited σ) (Option Failure)} {begun : List Core}
    (h : s.AtReplay obs m n) (call : Call)
    (hact : ActionOutcome obs call.indent m s.world.exchanges n begun (act.run s)) :
    CallOutcome obs call m s.world.exchanges n begun (s.attempt call.name act).1
      (s.attempt call.name act).2 := by
  rw [attempt_of_none h.failure, Action.final]
  generalize act.run s = r at hact ⊢
  cases hact with
  | @completed outcome t hatReplay hall hsince =>
      cases outcome with
      | none => exact .completed hatReplay hall hsince
      | some cause =>
          refine .stopped ?_ rfl
          rw [hall]
          exact hatReplay.upTo.stopWith cause
  | stopped hupTo =>
      exact .stopped (hupTo.stopWith _) rfl
  | interrupted x last hlength hsince hstops =>
      exact .interrupted x last _ hlength hsince (hstops.stopWith _) rfl rfl

private theorem AtReplay.perform (h : s.AtReplay obs m n) (call : Call) :
    CallOutcome obs call m s.world.exchanges n (s.visits obs.audited call)
      (s.answer obs.audited call).failure? (s.perform obs.audited call) := by
  unfold visits
  rw [h.failure, Option.isSome_none, if_neg Bool.false_ne_true]
  cases call with
  | step =>
      rw [answer, Session.perform, step]
      by_cases hhalted : s.machine.halted = true
      · simp only [if_pos hhalted]
        exact .completed h rfl (List.prefix_refl _)
      · simp only [if_neg hhalted]
        apply h.attempt .step
        rw [Exec.run_bind]
        have hcycle := h.cycle (Bool.not_eq_true _ ▸ hhalted) ""
        generalize (Action.cycle obs.audited "").run s = r at hcycle ⊢
        cases hcycle with
        | completed hatReplay hall hsince => exact .completed hatReplay hall hsince
        | stopped hupTo => exact .stopped hupTo
        | interrupted x last hlength hsince hstops =>
            exact .interrupted x last hlength hsince hstops
  | run budget cause =>
      have houtcome := h.attempt (.run budget cause) (h.loop cause budget)
      rw [Session.perform, run_snd, answer, run]
      rw [Call.name] at houtcome
      rcases hattempt : s.attempt "run" (Action.loop obs.audited cause budget) with ⟨_ | _, t⟩ <;>
        rw [hattempt] at houtcome <;> exact houtcome

/-- Of the calls made from a session, one was interrupted and was the last to do anything. -/
structure InterruptedBy (obs : Observers σ) (m : Machine) (n : Nat) (s : Session (Audited σ))
    (before : List Call) (call : Call) (after : List Call) (x : Interruption) (last : Nat)
    (e : Abrupt) : Prop where
  since : (performAll obs.audited before s).world.exchanges <+: x.earlier
  length : n + (history obs.audited (before ++ call :: after) s).length = last + 1
  stops : x.Stops obs call.indent m last
    (n + Core.completions m.code (history obs.audited (before ++ call :: after) s)) e
    (performAll obs.audited (before ++ call :: after) s)
  same : performAll obs.audited (before ++ call :: after) s =
    (performAll obs.audited before s).perform obs.audited call
  answered : ((performAll obs.audited before s).answer obs.audited call).failure? =
    some (e.toFailure call.name)
  stored : (performAll obs.audited (before ++ call :: after) s).machine.failure =
    some (e.toFailure call.name)

/-- After any calls all replies were normal and what was traced is the replay, unless one of the
calls was interrupted. -/
theorem AtReplay.performAll (h : s.AtReplay obs m n) (calls : List Call) :
    (performAll obs.audited calls s).NormalUpTo obs m
      (n + Core.completions m.code (history obs.audited calls s)) ∨
    ∃ before call after x last e, calls = before ++ call :: after ∧
      s.InterruptedBy obs m n before call after x last e := by
  induction calls generalizing s n with
  | nil => exact .inl h.upTo
  | cons call calls ih =>
      have houtcome := h.perform call
      rw [Session.performAll, history]
      -- a stored failure makes all later calls idle, so only a completed call goes on
      cases houtcome with
      | stopped hupTo hfailed =>
          obtain ⟨cause, hcause⟩ := Option.isSome_iff_exists.mp hfailed
          obtain ⟨hall, hbegun⟩ := performAll_of_failure obs.audited hcause calls
          rw [hall, hbegun, List.append_nil]
          exact .inl hupTo
      | interrupted x last e hlength hsince hstops hanswer hstored =>
          obtain ⟨hall, hbegun⟩ := performAll_of_failure obs.audited hstored calls
          refine .inr ⟨[], call, calls, x, last, e, rfl, hsince, ?_, ?_, hall, hanswer, ?_⟩ <;>
            rw [List.nil_append]
          · rw [history, hbegun, List.append_nil, hlength]
          · rw [history, Session.performAll, hbegun, hall, List.append_nil]
            exact hstops
          · rw [Session.performAll, hall]
            exact hstored
      | completed hatReplay hall hsince =>
          have hcount : n + (s.visits obs.audited call).length +
              Core.completions m.code (history obs.audited calls (s.perform obs.audited call)) =
              n + Core.completions m.code (s.visits obs.audited call ++
                history obs.audited calls (s.perform obs.audited call)) := by
            rw [Core.completions_append, hall, Nat.add_assoc]
          have hlength : n + (s.visits obs.audited call).length +
              (history obs.audited calls (s.perform obs.audited call)).length =
              n + (s.visits obs.audited call ++
                history obs.audited calls (s.perform obs.audited call)).length := by
            rw [List.length_append, Nat.add_assoc]
          rcases ih hatReplay with hupTo | ⟨before, other, after, x, last, e, rfl, hinterrupted⟩
          · rw [hcount] at hupTo
            exact .inl hupTo
          · have hstops := hinterrupted.stops
            rw [hcount] at hstops
            exact .inr ⟨call :: before, other, after, x, last, e, rfl, hinterrupted.since,
              hlength.symm.trans hinterrupted.length, hstops, hinterrupted.same,
              hinterrupted.answered, hinterrupted.stored⟩

end Session

theorem Plan.atReplay_of_build {σ : Type} {plan : Plan σ} {code : Array Instruction} {m : Machine}
    (built : plan.build code = .ok m) (world : σ) :
    (⟨m, world⟩ : Session σ).audited.AtReplay plan.observers m 0 := by
  rw [Plan.build_eq_initial built]
  refine ⟨⟨nofun, rfl, ?_⟩, rfl, rfl, rfl⟩
  by_cases htracer : plan.observers.tracer.isSome = true
  · rw [if_pos htracer]
    exact ⟨rfl, nofun⟩
  · rw [if_neg htracer]
    rfl

end FrameMachine
