import FrameMachine.Proofs.Course
/-!
# Frames never reach the heap unnoticed

The frame's end stays below the heap through every completed instruction. An instruction that
stops leaves both where they were, except a RETURN to a frame that the heap has grown into.
-/
namespace FrameMachine

namespace Core

variable {code : Array Instruction} {before after : Core}

/-- The frame ends below the heap in a memory of the given size. -/
structure Clear (size : Nat) (core : Core) : Prop where
  size_eq : core.mem.size = size
  ep_lt_np : core.regs.ep < core.regs.np

/-- A RETURN at the first core restored a frame's end that the heap has reached, and stopped. -/
def ReturnCollides (code : Array Instruction) (before after : Core) : Prop :=
  before.opcode? code = some .ret ∧
  ∃ pc ep, before.mem.get? before.regs.fp = some pc ∧
    before.mem.get? (before.regs.fp - 2) = some ep ∧ before.regs.np ≤ ep ∧
    after = ⟨{ before.regs with pc := pc, ep := ep }, before.mem⟩

theorem Completes.clear {size : Nat} (h : before.Completes code after)
    (hclear : before.Clear size) : after.Clear size := by
  obtain ⟨hsize, hlt⟩ := hclear
  obtain ⟨insn, op, _, _, heffect⟩ := h.effect
  cases heffect with
  | confined _ hconf =>
      refine ⟨hconf.size.trans hsize, ?_⟩
      rw [hconf.ep, hconf.np]
      exact hlt
  | call _ => exact ⟨(Memory.size_put ..).trans hsize, hlt⟩
  | enter hfits => exact ⟨hsize, hfits⟩
  | ret _ _ hfits => exact ⟨hsize, hfits⟩
  | refused _ _ => exact ⟨(Memory.size_put ..).trans hsize, hlt⟩
  | granted _ _ hfits => exact ⟨(Memory.size_put ..).trans hsize, hfits⟩

private theorem Breaks.clear_or_collides {size : Nat} (h : before.Breaks code after)
    (hclear : before.Clear size) :
    after.Clear size ∨ (after.mem.size = size ∧ before.ReturnCollides code after) := by
  obtain ⟨hsize, hlt⟩ := hclear
  rcases h.cases with rfl | ⟨insn, stop, hfetch, hback⟩
  · exact .inl ⟨hsize, hlt⟩
  · cases hback with
    | still _ hep hnp hsize' =>
        refine .inl ⟨hsize'.trans hsize, ?_⟩
        rw [hep, hnp]
        exact hlt
    | ret hret hpc hep hcollides =>
        have hop := (opcode?_eq hfetch).trans hret
        exact .inr ⟨hsize, hop, _, _, hpc, hep, hcollides, rfl⟩

theorem Course.clear {size : Nat} {first last : Core} {begun : List Core}
    (h : Course code first begun last) (hclear : first.Clear size) :
    (∀ core ∈ begun, core.Clear size) ∧ last.Clear size := by
  induction h with
  | nil => exact ⟨nofun, hclear⟩
  | cons completes _ ih =>
      obtain ⟨hrest, hlast⟩ := ih (completes.clear hclear)
      exact ⟨List.forall_mem_cons.mpr ⟨hclear, hrest⟩, hlast⟩

theorem Path.clear {size : Nat} {first last : Core} {begun : List Core}
    (h : Path code first begun last) (hclear : first.Clear size) :
    (∀ core ∈ begun, core.Clear size) ∧ last.mem.size = size ∧
    (last.Clear size ∨
      ∃ core, begun.getLast? = some core ∧ core.ReturnCollides code last) := by
  rcases h with hcourse | ⟨done, core, rfl, hcourse, hbreaks⟩
  · obtain ⟨hbegun, hlast⟩ := hcourse.clear hclear
    exact ⟨hbegun, hlast.size_eq, .inl hlast⟩
  · obtain ⟨hdone, hcore⟩ := hcourse.clear hclear
    have hbegun : ∀ c ∈ done ++ [core], c.Clear size := by
      intro c hc
      rcases List.mem_append.mp hc with hc | hc
      · exact hdone c hc
      · rw [List.mem_singleton.mp hc]
        exact hcore
    refine ⟨hbegun, ?_⟩
    rcases hbreaks.clear_or_collides hcore with hlast | ⟨hsize, hcollides⟩
    · exact ⟨hlast.size_eq, .inl hlast⟩
    · exact ⟨hsize, .inr ⟨core, List.getLast?_concat, hcollides⟩⟩

private theorem ReturnCollides.get?_saved (h : before.ReturnCollides code after) :
    after.mem.get? (after.regs.fp - 2) = some after.regs.ep := by
  obtain ⟨_, pc, ep, _, hep, _, rfl⟩ := h
  exact hep

end Core

variable {σ : Type}

theorem Plan.clear_of_build {plan : Plan σ} {code : Array Instruction} {m : Machine}
    (h : plan.build code = .ok m) : m.core.Clear plan.words.toNatClampNeg := by
  rw [plan.core_of_build h]
  refine ⟨Array.size_replicate, ?_⟩
  have hpos := plan.words_pos
  change (-1 : Word) < plan.words
  grind

/-- However a machine is driven and watched, its memory has the size it was built with, every
instruction begins with the frame's end below the heap, and a machine without a failure stands
so as well. A failed machine is halted, and has the frame's end in the heap only when the last
instruction it began was a RETURN that found it there. -/
theorem collision_caught (plan : Plan σ) (code : Array Instruction) (m : Machine)
    (built : plan.build code = .ok m) (world : σ) (calls : List Call) :
    let begun := Session.history plan.observers calls ⟨m, world⟩
    let reached := (Session.performAll plan.observers calls ⟨m, world⟩).machine
    1 ≤ plan.words.toNatClampNeg ∧
    reached.core.mem.size = plan.words.toNatClampNeg ∧
    (∀ core ∈ begun, core.mem.size = plan.words.toNatClampNeg ∧ core.regs.ep < core.regs.np) ∧
    (reached.failure.isSome → reached.halted = true) ∧
    (reached.failure = none → reached.core.regs.ep < reached.core.regs.np) ∧
    (reached.failure.isSome → reached.core.regs.np ≤ reached.core.regs.ep →
      ∃ core, begun.getLast? = some core ∧ core.ReturnCollides code reached.core ∧
        reached.core.mem.get? (reached.core.regs.fp - 2) = some reached.core.regs.ep) := by
  intro begun reached
  have hcode : m.code = code := by rw [plan.build_eq_initial built, Machine.initial]
  have hclear := plan.clear_of_build built
  have hleads := plan.leads_of_build built world calls
  have hpos : 1 ≤ plan.words.toNatClampNeg :=
    Nat.succ_le_of_lt ((Int64.toNatClampNeg_pos_iff _).mpr plan.words_pos)
  obtain ⟨hbegun, hsize, hlast⟩ := hleads.path.clear hclear
  refine ⟨hpos, hsize, ?_, hleads.halted, ?_, ?_⟩
  · intro core hcore
    exact ⟨(hbegun core hcore).size_eq, (hbegun core hcore).ep_lt_np⟩
  · intro hnone
    exact ((hleads.course hnone).clear hclear).2.ep_lt_np
  · intro _ hle
    rcases hlast with hlast | ⟨core, hcore, hcollides⟩
    · exact absurd hlast.ep_lt_np (Int64.not_lt.mpr hle)
    · exact ⟨core, hcore, hcode ▸ hcollides, hcollides.get?_saved⟩

/-- Calls a subroutine from a frame that claims to end at address 9, and returns to it. -/
def overlongReturn : Array Instruction :=
  #[.ofOpcode .loadc 9, .ofOpcode .loadc 0, .ofOpcode .loadc 4, .ofOpcode .call 0, .ofOpcode .ret 0]

def quittingPlan : Plan Nat :=
  ⟨4, { logger := some fun _ count => (if count = 4 then .exited else .returned (), count + 1) }⟩

theorem collision_caught_on_return :
    let calls : List Call := [.step, .run 10 .canceled]
    let begun := Session.history quittingPlan.observers calls ⟨.initial overlongReturn 4, 0⟩
    let reached :=
      (Session.performAll quittingPlan.observers calls ⟨.initial overlongReturn 4, 0⟩).machine
    quittingPlan.build overlongReturn = .ok (.initial overlongReturn 4) ∧
    reached.failure = some (.exited "run") ∧ reached.core.regs = ⟨4, 2, 2, 9, 4⟩ ∧
    reached.halted = true ∧
    ∃ core, begun.getLast? = some core ∧ core.ReturnCollides overlongReturn reached.core ∧
      reached.core.mem.get? (reached.core.regs.fp - 2) = some reached.core.regs.ep := by
  have hbuilt : quittingPlan.build overlongReturn = .ok (.initial overlongReturn 4) := rfl
  have h := collision_caught quittingPlan overlongReturn _ hbuilt 0 [.step, .run 10 .canceled]
  dsimp only at h ⊢
  obtain ⟨-, -, -, hhalted, -, hreturn⟩ := h
  exact ⟨hbuilt, by decide +kernel, by decide +kernel, hhalted (by decide +kernel),
    hreturn (by decide +kernel) (by decide +kernel)⟩

end FrameMachine
