import FrameMachine.Proofs.BlockCopy
/-!
# Shortcuts and their expansions

STORER, LOADR, LOADA and STOREA do in one instruction what can also be done by pushing an address
and then storing or loading one word through it. STORER does just that. The loads differ from their
expansions only where the word they read is the slot that the address is pushed to, and STOREA
spares that slot.
-/
namespace FrameMachine

namespace Core

def raised (core : Core) : Core := ⟨{ core.regs with sp := core.regs.sp + 1 }, core.mem⟩

@[simp] theorem mem_raised (core : Core) : core.raised.mem = core.mem := rfl

def pushed (core : Core) (w : Word) : Core :=
  ⟨core.raised.regs, core.mem.put (core.regs.sp + 1) w⟩

def pushing (core : Core) (w : Word) : EStateM.Result Stop Core Flow :=
  if core.mem.Covers (core.regs.sp + 1) then .ok .next (core.pushed w)
  else .error (.fault (.indexOutOfRange (core.regs.sp + 1) core.mem.size)) core.raised

def fetching (core : Core) (addr : Word) : EStateM.Result Stop Core Flow :=
  match core.mem.get? addr with
  | none => .error (.fault (.indexOutOfRange addr core.mem.size)) core.raised
  | some w => core.pushing w

/-- How a copy of one word ends, where the top of the stack is set afterwards. -/
def moving (core : Core) (src dst top : Word) : EStateM.Result Stop Core Flow :=
  match core.mem.get? src with
  | none => .error (.fault (.indexOutOfRange src core.mem.size)) core
  | some w =>
    if core.mem.Covers dst then .ok .next ⟨{ core.regs with sp := top }, core.mem.put dst w⟩
    else .error (.fault (.indexOutOfRange dst core.mem.size)) core

end Core

namespace Exec

variable {core : Core}

theorem run_push (value : Exec Word) (core : Core) :
    (push value).run core =
      match value.run core.raised with
      | .ok w after => (write (core.regs.sp + 1) w).run after
      | .error stop after => .error stop after := by
  have hset : (setSp (core.regs.sp + 1)).run core = .ok () core.raised := rfl
  rw [push, run_bind, run_regs]
  dsimp only
  rw [run_bind, hset]
  dsimp only
  rw [run_bind]
  cases value.run core.raised <;> rfl

theorem run_push_pure (w : Word) (core : Core) :
    (push (pure w)).run core =
      if core.mem.Covers (core.regs.sp + 1) then .ok () (core.pushed w)
      else .error (.fault (.indexOutOfRange (core.regs.sp + 1) core.mem.size)) core.raised := by
  rw [run_push, run_pure]
  dsimp only
  rw [run_write]
  rfl

private theorem run_push_next (w : Word) (core : Core) :
    (do push (pure w); pure Flow.next : Exec Flow).run core = core.pushing w := by
  rw [run_bind, run_push_pure, Core.pushing]
  by_cases hroom : core.mem.Covers (core.regs.sp + 1)
  · rw [if_pos hroom, if_pos hroom]
    rfl
  · rw [if_neg hroom, if_neg hroom]

private theorem run_push_read_next (addr : Word) (core : Core) :
    (do push (read addr); pure Flow.next : Exec Flow).run core = core.fetching addr := by
  rw [run_bind, run_push, run_read, Core.mem_raised, Core.fetching]
  cases core.mem.get? addr with
  | none => rfl
  | some w =>
      dsimp only
      rw [← run_push_next, run_bind, run_push]
      rfl

private theorem run_copy_one (src dst top : Word) (core : Core) :
    (do copy src dst 1; setSp top; pure Flow.next : Exec Flow).run core =
      core.moving src dst top := by
  rw [run_copy_setSp, run_copy_succ, Core.moving]
  cases core.mem.get? src with
  | none => rfl
  | some w =>
      dsimp only
      by_cases hdst : core.mem.Covers dst
      · rw [if_pos hdst, if_pos hdst]
        rfl
      · rw [if_neg hdst, if_neg hdst]

private theorem run_move {src dst top : Word} {finish : Exec Flow}
    (hfinish : ∀ mem, finish.run ⟨core.regs, mem⟩ = .ok .next ⟨{ core.regs with sp := top }, mem⟩) :
    (do let w ← read src; write dst w; finish : Exec Flow).run core = core.moving src dst top := by
  rw [run_bind, run_read, Core.moving]
  cases core.mem.get? src with
  | none => rfl
  | some w =>
      dsimp only
      rw [run_bind, run_write]
      by_cases hdst : core.mem.Covers dst
      · rw [if_pos hdst, if_pos hdst]
        exact hfinish _
      · rw [if_neg hdst, if_neg hdst]

end Exec

namespace Core

variable {core : Core} {insn : Instruction} {addr w p : Word}

private theorem carryOut_loadc (core : Core) (w : Word) :
    core.carryOut (.ofOpcode .loadc w) = core.advanced.pushing w := by
  rw [carryOut_ofOpcode]
  exact Exec.run_push_next w core.advanced

private theorem carryOut_loadrc (core : Core) (o : Word) :
    core.carryOut (.ofOpcode .loadrc o) = core.advanced.pushing (core.regs.fp + o) := by
  rw [carryOut_ofOpcode]
  exact Exec.run_push_next (core.regs.fp + o) core.advanced

private theorem carryOut_loada (core : Core) (a : Word) :
    core.carryOut (.ofOpcode .loada a) = core.advanced.fetching a := by
  rw [carryOut_ofOpcode]
  exact Exec.run_push_read_next a core.advanced

theorem carryOut_loadr (core : Core) (o : Word) :
    core.carryOut (.ofOpcode .loadr o) = core.advanced.fetching (core.regs.fp + o) := by
  rw [carryOut_ofOpcode]
  exact Exec.run_push_read_next (core.regs.fp + o) core.advanced

private theorem carryOut_load_one (hp : core.mem.get? core.regs.sp = some p) :
    core.carryOut (.ofOpcode .load 1) = core.advanced.moving p core.regs.sp core.regs.sp := by
  rw [carryOut_load hp, ← Exec.run_copy_one]
  simp

private theorem carryOut_store_one (hp : core.mem.get? core.regs.sp = some p) :
    core.carryOut (.ofOpcode .store 1) =
      core.advanced.moving (core.regs.sp - 1) p (core.regs.sp - 1) := by
  rw [carryOut_store hp, ← Exec.run_copy_one]
  rfl

theorem carryOut_storea (core : Core) (a : Word) :
    core.carryOut (.ofOpcode .storea a) =
      core.advanced.moving core.regs.sp a core.regs.sp := by
  rw [carryOut_ofOpcode, Opcode.exec, Exec.run_regs_bind]
  exact Exec.run_move fun _ => rfl

theorem carryOut_storer (core : Core) (o : Word) :
    core.carryOut (.ofOpcode .storer o) =
      if core.mem.Covers (core.regs.sp + 1) then
        (core.advanced.pushed (core.regs.fp + o)).moving core.regs.sp (core.regs.fp + o)
          core.regs.sp
      else .error (.fault (.indexOutOfRange (core.regs.sp + 1) core.mem.size))
        core.advanced.raised := by
  rw [carryOut_ofOpcode, Opcode.exec, Exec.run_regs_bind]
  dsimp only
  rw [Exec.run_bind, Exec.run_push_pure, mem_advanced, sp_advanced, fp_advanced]
  by_cases hroom : core.mem.Covers (core.regs.sp + 1)
  · rw [if_pos hroom, if_pos hroom]
    exact Exec.run_move fun _ => rfl
  · rw [if_neg hroom, if_neg hroom]

def uncounted (core : Core) : Core := ⟨{ core.regs with pc := 0 }, core.mem⟩

def ending : EStateM.Result Stop Core Flow → EStateM.Result Stop Core Unit
  | .ok _ after => .ok () after.uncounted
  | .error stop after => .error stop after.uncounted

/-- What becomes of instructions carried out one after the other, apart from the counter. -/
def outcome : List Instruction → Core → EStateM.Result Stop Core Unit
  | [], core => .ok () core.uncounted
  | insn :: rest, core =>
    match core.carryOut insn with
    | .ok _ after => after.outcome rest
    | .error stop after => .error stop after.uncounted

def Succeeds (insns : List Instruction) (core : Core) : Prop :=
  ∃ after, core.outcome insns = .ok () after

/-- The shortcut loads the word at the address when the expansion does, and both come to the same
unless the expansion has overwritten the word with its address before it is read. -/
structure LoadsAlike (shortcut expansion : List Instruction) (addr : Word) (core : Core) :
    Prop where
  together : core.Succeeds shortcut ↔ core.Succeeds expansion
  alike : core.Succeeds shortcut → (core.outcome shortcut = core.outcome expansion ↔
    addr ≠ core.regs.sp + 1 ∨ core.mem.get? (core.regs.sp + 1) = some (core.regs.sp + 1))

/-- Whenever the expansion succeeds, the shortcut does too, and they differ at most in the word
above the top of the stack. -/
def Spares (shortcut expansion : List Instruction) (core : Core) : Prop :=
  ∀ after, core.outcome expansion = .ok () after →
    ∃ spared, core.outcome shortcut = .ok () spared ∧ spared.regs = after.regs ∧
      spared.mem.size = after.mem.size ∧
      ∀ addr ≠ core.regs.sp + 1, spared.mem.get? addr = after.mem.get? addr

private theorem outcome_one (insn : Instruction) (core : Core) :
    core.outcome [insn] = ending (core.carryOut insn) := by
  rw [outcome]
  cases core.carryOut insn <;> rfl

private theorem ending_moving_advanced (core : Core) (src dst top : Word) :
    ending (core.advanced.moving src dst top) = ending (core.moving src dst top) := by
  rw [moving, moving, mem_advanced]
  cases core.mem.get? src with
  | none => rfl
  | some w =>
      dsimp only
      by_cases hdst : core.mem.Covers dst
      · rw [if_pos hdst, if_pos hdst]
        rfl
      · rw [if_neg hdst, if_neg hdst]
        rfl

private theorem outcome_push_cons (hpush : core.carryOut insn = core.advanced.pushing w)
    (rest : List Instruction) :
    core.outcome (insn :: rest) =
      if core.mem.Covers (core.regs.sp + 1) then (core.advanced.pushed w).outcome rest
      else .error (.fault (.indexOutOfRange (core.regs.sp + 1) core.mem.size))
        core.advanced.raised.uncounted := by
  rw [outcome, hpush, pushing, mem_advanced, sp_advanced]
  by_cases hroom : core.mem.Covers (core.regs.sp + 1)
  · rw [if_pos hroom, if_pos hroom]
  · rw [if_neg hroom, if_neg hroom]

private theorem get?_pushed (core : Core) (hroom : core.mem.Covers (core.regs.sp + 1)) :
    (core.pushed w).mem.get? (core.regs.sp + 1) = some w :=
  Memory.get?_put_self hroom

private theorem outcome_push_store (hpush : core.carryOut insn = core.advanced.pushing w) :
    core.outcome [insn, .ofOpcode .store 1] =
      if core.mem.Covers (core.regs.sp + 1) then
        ending ((core.advanced.pushed w).moving core.regs.sp w core.regs.sp)
      else .error (.fault (.indexOutOfRange (core.regs.sp + 1) core.mem.size))
        core.advanced.raised.uncounted := by
  rw [outcome_push_cons hpush]
  by_cases hroom : core.mem.Covers (core.regs.sp + 1)
  · have hback : (core.advanced.pushed w).regs.sp - 1 = core.regs.sp := Int64.add_sub_cancel ..
    rw [if_pos hroom, if_pos hroom, outcome_one,
      carryOut_store_one (core.advanced.get?_pushed hroom), ending_moving_advanced, hback]
  · rw [if_neg hroom, if_neg hroom]

/-- The pushed address is replaced by the word it addresses, which the push may have changed. -/
private theorem outcome_push_load (hpush : core.carryOut insn = core.advanced.pushing w)
    (hroom : core.mem.Covers (core.regs.sp + 1)) :
    core.outcome [insn, .ofOpcode .load 1] =
      match (core.pushed w).mem.get? w with
      | none => .error (.fault (.indexOutOfRange w core.mem.size)) (core.pushed w).uncounted
      | some v => .ok () (core.pushed v).uncounted := by
  have htop : (core.pushed w).mem.Covers (core.advanced.pushed w).regs.sp :=
    (Memory.covers_congr (Memory.size_put ..)).mpr hroom
  have hmem : (core.pushed w).mem.put (core.advanced.pushed w).regs.sp = (core.pushed · |>.mem) :=
    funext fun _ => Memory.put_put
  rw [outcome_push_cons hpush, if_pos hroom, outcome_one,
    carryOut_load_one (core.advanced.get?_pushed hroom), ending_moving_advanced, moving,
    show (core.advanced.pushed w).mem = (core.pushed w).mem from rfl]
  cases (core.pushed w).mem.get? w with
  | none =>
      rw [show (core.pushed w).mem.size = core.mem.size from Memory.size_put ..]
      rfl
  | some v =>
      dsimp only
      rw [if_pos htop, hmem]
      rfl

private theorem outcome_fetch (hfetch : core.carryOut insn = core.advanced.fetching addr) :
    core.outcome [insn] =
      match core.mem.get? addr with
      | none => .error (.fault (.indexOutOfRange addr core.mem.size)) core.raised.uncounted
      | some w =>
        if core.mem.Covers (core.regs.sp + 1) then .ok () (core.pushed w).uncounted
        else .error (.fault (.indexOutOfRange (core.regs.sp + 1) core.mem.size))
          core.raised.uncounted := by
  rw [outcome_one, hfetch, fetching, mem_advanced]
  cases core.mem.get? addr with
  | none => rfl
  | some w =>
      dsimp only
      rw [pushing, mem_advanced, sp_advanced]
      by_cases hroom : core.mem.Covers (core.regs.sp + 1)
      · rw [if_pos hroom, if_pos hroom]
        rfl
      · rw [if_neg hroom, if_neg hroom]
        rfl

private theorem pushed_uncounted_inj (hroom : core.mem.Covers (core.regs.sp + 1)) {v w : Word} :
    (core.pushed v).uncounted = (core.pushed w).uncounted ↔ v = w := by
  refine ⟨fun h => ?_, fun h => h ▸ rfl⟩
  have hmem : (core.pushed v).uncounted.mem = (core.pushed w).uncounted.mem := congrArg Core.mem h
  have hv := core.get?_pushed (w := v) hroom
  rw [show (core.pushed v).mem = (core.pushed w).mem from hmem] at hv
  exact Option.some.inj (hv.symm.trans (core.get?_pushed hroom))

private theorem not_succeeds_of_error {insns : List Instruction} {stop : Stop} {after : Core}
    (h : core.outcome insns = .error stop after) : ¬ core.Succeeds insns := by
  rintro ⟨other, hok⟩
  cases h.symm.trans hok

private theorem LoadsAlike.of_failures {shortcut expansion : List Instruction}
    (hshort : ¬ core.Succeeds shortcut) (hlong : ¬ core.Succeeds expansion) :
    core.LoadsAlike shortcut expansion addr :=
  ⟨iff_of_false hshort hlong, fun h => absurd h hshort⟩

private theorem LoadsAlike.of_pushed {shortcut expansion : List Instruction} {v w : Word}
    (hroom : core.mem.Covers (core.regs.sp + 1))
    (hshort : core.outcome shortcut = .ok () (core.pushed v).uncounted)
    (hlong : core.outcome expansion = .ok () (core.pushed w).uncounted)
    (h : v = w ↔
      addr ≠ core.regs.sp + 1 ∨ core.mem.get? (core.regs.sp + 1) = some (core.regs.sp + 1)) :
    core.LoadsAlike shortcut expansion addr := by
  refine ⟨iff_of_true ⟨_, hshort⟩ ⟨_, hlong⟩, fun _ => ?_⟩
  rw [hshort, hlong, ← h, ← pushed_uncounted_inj hroom]
  simp only [EStateM.Result.ok.injEq, true_and]

private theorem loadsAlike {push shortcut : Instruction}
    (hpush : core.carryOut push = core.advanced.pushing addr)
    (hfetch : core.carryOut shortcut = core.advanced.fetching addr) :
    core.LoadsAlike [shortcut] [push, .ofOpcode .load 1] addr := by
  have hshort := outcome_fetch hfetch
  by_cases hroom : core.mem.Covers (core.regs.sp + 1)
  · have hlong := outcome_push_load hpush hroom
    simp only [if_pos hroom] at hshort
    by_cases haddr : addr = core.regs.sp + 1
    · subst haddr
      obtain ⟨w, hw⟩ := Memory.covers_iff_get?.mp hroom
      rw [hw] at hshort
      rw [core.get?_pushed hroom] at hlong
      apply LoadsAlike.of_pushed hroom hshort hlong
      simp [hw]
    · rw [pushed, Memory.get?_put_of_ne (Ne.symm haddr)] at hlong
      cases hget : core.mem.get? addr with
      | none =>
          rw [hget] at hshort hlong
          exact .of_failures (not_succeeds_of_error hshort) (not_succeeds_of_error hlong)
      | some w =>
          rw [hget] at hshort hlong
          exact .of_pushed hroom hshort hlong (iff_of_true rfl (.inl haddr))
  · have hlong := outcome_push_cons hpush [.ofOpcode .load 1]
    simp only [if_neg hroom] at hshort hlong
    refine .of_failures ?_ (not_succeeds_of_error hlong)
    cases hget : core.mem.get? addr with
    | none => exact not_succeeds_of_error (by rw [hshort, hget])
    | some w => exact not_succeeds_of_error (by rw [hshort, hget])

private theorem ending_moving_eq_ok {src dst top : Word} {after : Core} :
    ending (core.moving src dst top) = .ok () after ↔
      ∃ w, core.mem.get? src = some w ∧ core.mem.Covers dst ∧
        after = ⟨{ core.regs with pc := 0, sp := top }, core.mem.put dst w⟩ := by
  rw [moving]
  cases core.mem.get? src with
  | none => simp [ending]
  | some w =>
      by_cases hdst : core.mem.Covers dst
      · simp [hdst, ending, uncounted, eq_comm]
      · simp [hdst, ending]

private theorem spares_storea (core : Core) (a : Word) :
    core.Spares [.ofOpcode .storea a] [.ofOpcode .loadc a, .ofOpcode .store 1] := by
  intro after h
  rw [outcome_push_store (carryOut_loadc core a)] at h
  by_cases hroom : core.mem.Covers (core.regs.sp + 1)
  · rw [if_pos hroom, ending_moving_eq_ok] at h
    obtain ⟨w, hw, ha, rfl⟩ := h
    have hslot : core.regs.sp + 1 ≠ core.regs.sp := by grind
    have hsize : (core.advanced.pushed a).mem.size = core.mem.size := Memory.size_put ..
    rw [show (core.advanced.pushed a).mem.get? core.regs.sp = core.mem.get? core.regs.sp from
      Memory.get?_put_of_ne hslot] at hw
    rw [Memory.covers_congr hsize] at ha
    refine ⟨⟨{ core.regs with pc := 0 }, core.mem.put a w⟩, ?_, rfl, ?_, ?_⟩
    · rw [outcome_one, carryOut_storea, ending_moving_advanced, ending_moving_eq_ok]
      exact ⟨w, hw, ha, rfl⟩
    · rw [Memory.size_put, Memory.size_put, hsize]
    · intro addr haddr
      by_cases heq : a = addr
      · subst heq
        rw [Memory.get?_put_self ha, Memory.get?_put_self ((Memory.covers_congr hsize).mpr ha)]
      · rw [Memory.get?_put_of_ne heq, Memory.get?_put_of_ne heq]
        exact (Memory.get?_put_of_ne (Ne.symm haddr)).symm
  · rw [if_neg hroom] at h
    cases h

end Core

/-- Apart from the counter, a shortcut does what its expansion does, with the exceptions that
`LoadsAlike` and `Spares` name. For STORER there is none: it also fails where its expansion fails,
and leaves the same behind. -/
theorem shortcuts_agree_with_expansions (core : Core) (o a : Word) :
    core.outcome [.ofOpcode .storer o] =
      core.outcome [.ofOpcode .loadrc o, .ofOpcode .store 1] ∧
    core.LoadsAlike [.ofOpcode .loadr o] [.ofOpcode .loadrc o, .ofOpcode .load 1]
      (core.regs.fp + o) ∧
    core.LoadsAlike [.ofOpcode .loada a] [.ofOpcode .loadc a, .ofOpcode .load 1] a ∧
    core.Spares [.ofOpcode .storea a] [.ofOpcode .loadc a, .ofOpcode .store 1] := by
  refine ⟨?_, Core.loadsAlike (core.carryOut_loadrc o) (core.carryOut_loadr o),
    Core.loadsAlike (core.carryOut_loadc a) (core.carryOut_loada a), core.spares_storea a⟩
  rw [Core.outcome_one, Core.carryOut_storer, Core.outcome_push_store (core.carryOut_loadrc o)]
  split <;> rfl

example :
    let core : Core := ⟨⟨0, 0, 0, 3, 4⟩, #[9, 5, 0, 0]⟩
    core.outcome [.ofOpcode .loadr 1] = .ok () ⟨⟨0, 1, 0, 3, 4⟩, #[9, 5, 0, 0]⟩ ∧
      core.outcome [.ofOpcode .loadrc 1, .ofOpcode .load 1] =
        .ok () ⟨⟨0, 1, 0, 3, 4⟩, #[9, 1, 0, 0]⟩ :=
  ⟨rfl, rfl⟩

end FrameMachine
