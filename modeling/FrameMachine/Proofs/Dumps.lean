import FrameMachine.Dump
import FrameMachine.Proofs.FrameChain
import FrameMachine.Proofs.StackOps
import Mathlib.Logic.Function.Iterate
/-!
# What a dump shows

A dump reads its addresses from registers and its frames from memory, and a program may have put
anything there. Every word it prints is a word of memory all the same, and the walk along the saved
frame pointers is the longest descending one that stays in memory. In a run that keeps to the
discipline of calls this walk goes through the bases of the active calls and ends at the outermost.
-/
namespace FrameMachine

namespace Dump

variable {mem : Memory} {fp : Word} {k : Nat}

/-- The frame pointer reached by following `k` saved frame pointers. -/
def link (mem : Memory) (fp : Word) (k : Nat) : Word := (fun f => mem.load (f - 1))^[k] fp

def Inside (mem : Memory) (f : Word) : Prop := 2 ≤ f ∧ f.toNatClampNeg < mem.size

def Cut (mem : Memory) (fp : Word) : Nat → Prop
  | 0 => ¬ Inside mem fp
  | k + 1 => ¬ Inside mem (link mem fp (k + 1)) ∨ link mem fp k ≤ link mem fp (k + 1)

private theorem Inside.get? (h : Inside mem fp) : mem.get? (fp - 1) = some (mem.load (fp - 1)) := by
  obtain ⟨htwo, hsize⟩ := h
  have hcov : mem.Covers fp := ⟨by grind, hsize⟩
  exact Memory.get?_eq_some_load (hcov.of_le (by grind) (by grind))

private theorem cut_succ (h : mem.load (fp - 1) < fp) :
    Cut mem fp (k + 1) ↔ Cut mem (mem.load (fp - 1)) k := by
  cases k with
  | zero =>
      change ¬ Inside mem (mem.load (fp - 1)) ∨ fp ≤ mem.load (fp - 1) ↔ _
      exact or_iff_left (Int64.not_le.mpr h)
  | succ k => exact Iff.rfl

/-- The frames found are those before the first cut, and the link of each of them was read inside
memory. -/
private theorem frames_eq_links (mem : Memory) (fp : Word) :
    ∃ n, frames mem fp = (List.range n).map (link mem fp) ∧ Cut mem fp n ∧
      ∀ k < n, ¬ Cut mem fp k ∧
        mem.get? (link mem fp k - 1) = some (link mem fp (k + 1)) := by
  fun_induction frames mem fp with
  | case1 fp hinside hdown ih =>
      obtain ⟨n, hframes, hcut, hbefore⟩ := ih
      refine ⟨n + 1, ?_, (cut_succ hdown).mpr hcut, fun k hk => ?_⟩
      · rw [hframes, List.range_succ_eq_map, List.map_cons, List.map_map]
        rfl
      · cases k with
        | zero => exact ⟨not_not.mpr hinside, Inside.get? hinside⟩
        | succ k =>
            obtain ⟨hnot, hread⟩ := hbefore k (by omega)
            exact ⟨fun h => hnot ((cut_succ hdown).mp h), hread⟩
  | case2 fp hinside hup =>
      refine ⟨1, rfl, .inr (Int64.not_lt.mp hup), fun k hk => ?_⟩
      obtain rfl : k = 0 := by omega
      exact ⟨not_not.mpr hinside, Inside.get? hinside⟩
  | case3 fp hout => exact ⟨0, rfl, hout, nofun⟩

def lastShown (core : Core) : Int :=
  min (max core.regs.sp.toInt core.regs.ep.toInt) (core.mem.size - 1)

private theorem stackWords_eq (core : Core) : stackWords core = (lastShown core + 1).toNat := by
  have hmax : (max core.regs.sp core.regs.ep).toInt =
      max core.regs.sp.toInt core.regs.ep.toInt := by
    have hdef : max core.regs.sp core.regs.ep =
        if core.regs.sp ≤ core.regs.ep then core.regs.ep else core.regs.sp := rfl
    rw [hdef]
    split <;> rename_i h <;> rw [Int64.le_iff_toInt_le] at h <;> omega
  simp only [stackWords, lastShown, Int64.le_iff_toInt_le, Int64.toInt_zero, hmax,
    Int64.toNatClampNeg]
  split <;> omega

private theorem stackAddresses_eq (core : Core) :
    stackAddresses core =
      if 0 ≤ lastShown core then List.range ((lastShown core).toNat + 1) else [] := by
  rw [stackAddresses, stackWords_eq]
  split
  · rw [show (lastShown core + 1).toNat = (lastShown core).toNat + 1 by omega]
  · rw [List.range_eq_nil]
    omega

private theorem heapAddresses_eq (core : Core) :
    heapAddresses core =
      if core.mem.Covers core.regs.np then
        List.range' core.regs.np.toNatClampNeg (core.mem.size - core.regs.np.toNatClampNeg)
      else [] := by
  rw [heapAddresses, heapStart?]
  by_cases hcov : core.mem.Covers core.regs.np
  · simp only [if_pos hcov]
  · simp only [if_neg hcov]

def underTitle (title : String) : List String → List String
  | [] => []
  | lines => title :: lines

private theorem lines_eq (m : Machine) :
    lines m = header m
      ++ underTitle "# Stack\n"
        ((stackAddresses m.core).map (wordLine m.core.mem (notes m.core)))
      ++ underTitle ("# Heap @" ++ m.core.regs.np.text ++ "\n")
        ((heapAddresses m.core).map (wordLine m.core.mem (notes m.core))) := by
  rw [lines, stackLines, heapLines]
  cases stackAddresses m.core <;> cases heapAddresses m.core <;> rfl

private theorem lt_size_of_shown {core : Core} {addr : Nat}
    (h : addr ∈ stackAddresses core ++ heapAddresses core) : addr < core.mem.size := by
  rcases List.mem_append.mp h with h | h
  · rw [stackAddresses, List.mem_range, stackWords_eq, lastShown] at h
    omega
  · rw [heapAddresses_eq] at h
    split at h
    · rename_i hcov
      have hlt := hcov.2
      rw [List.mem_range'_1] at h
      omega
    · cases h

/-- The line shows the word at the address: the address with blanks before it up to the width of
the last one, the word, and the notes on it. -/
def Shows (core : Core) (addr : Nat) (line : String) : Prop :=
  ∃ w blanks, core.mem.get? (.ofNat addr) = some w ∧
    blanks + addr.repr.length = (core.mem.size - 1).repr.length ∧
    line = "  @" ++ ("".pushn ' ' blanks ++ addr.repr) ++ " " ++ w.text
      ++ String.join (((notes core).filter (·.1 == .ofNat addr)).map (" " ++ ·.2)) ++ "\n"

private theorem length_repr_mono {m n : Nat} (h : m ≤ n) : m.repr.length ≤ n.repr.length := by
  have hpos : 0 < n.repr.length := Nat.length_repr_pos
  rw [Nat.length_repr_le_iff hpos]
  exact Nat.lt_of_le_of_lt h ((Nat.length_repr_le_iff hpos).mp (Nat.le_refl _))

private theorem wordLine_shows {core : Core} (hsize : core.mem.size < 2 ^ 63) {addr : Nat}
    (h : addr < core.mem.size) : Shows core addr (wordLine core.mem (notes core) addr) := by
  have hcov : core.mem.Covers (.ofNat addr) := (Memory.covers_ofNat (by omega)).mpr h
  have hwidth := length_repr_mono (show addr ≤ core.mem.size - 1 by omega)
  exact ⟨_, addressWidth core.mem - addr.repr.length, Memory.get?_eq_some_load hcov,
    Nat.sub_add_cancel hwidth, rfl⟩

/-- Where memory links nested frames, the walk meets their bases and stops after the last. -/
private theorem frames_of_links {frames : List Frame} (h : mem.Links fp frames)
    (hnested : frames.Pairwise fun inner outer => outer.base < inner.base - 2) :
    Dump.frames mem fp = frames.map Frame.base := by
  induction frames generalizing fp with
  | nil =>
      obtain rfl : fp = -1 := h
      rw [Dump.frames, dif_neg fun hinside => absurd hinside.1 (by decide)]
      rfl
  | cons frame outer ih =>
      have hbase := h.two_le_base (List.mem_cons_self ..)
      obtain ⟨rfl, hret, hsaved, -, houter⟩ := h
      obtain ⟨hbelow, hrest⟩ := List.pairwise_cons.mp hnested
      -- the saved pointer is the next outer base, or -1 in the outermost frame
      have hdown : frame.fp < frame.base := by
        cases outer with
        | nil =>
            obtain hfp : frame.fp = -1 := houter
            grind
        | cons next _ =>
            have hnext := hbelow next (List.mem_cons_self ..)
            have hfp : frame.fp = next.base := houter.1
            grind
      rw [Dump.frames, dif_pos ⟨hbase, (Memory.covers_of_get? hret).2⟩,
        Memory.load_of_get? hsaved, if_pos hdown, ih houter hrest, List.map_cons]

end Dump

namespace Core

variable {code : Array Instruction} {core after : Core} {frames : List Frame}

def attempted (code : Array Instruction) (core : Core) : Core :=
  match core.fetch? code with
  | none => core
  | some insn =>
    match core.carryOut insn with
    | .ok _ after => after
    | .error _ after => after

/-- The active calls after the attempt. An instruction that stops neither calls nor returns. -/
def active (code : Array Instruction) (frames : List Frame) (core : Core) : List Frame :=
  if (core.next? code).isSome then core.calls code frames else frames

/-- The attempt keeps to the discipline of calls: CALL finds the caller's registers saved above the
enclosing frame, any other instruction leaves the linkage words of active frames as they are, which
asks less than that it does not write there, and RETURN has a frame to return from. -/
structure Orderly (code : Array Instruction) (core : Core) (frames : List Frame) : Prop where
  marked : core.opcode? code = some .call →
    core.mem.get? (core.regs.sp - 2) = some core.regs.ep ∧
    core.mem.get? (core.regs.sp - 1) = some core.regs.fp ∧
    ∀ frame ∈ frames.head?, frame.base < core.regs.sp - 2
  intact : core.opcode? code ≠ some .call →
    ∀ frame ∈ frames, ∀ addr ∈ frame.words,
      (core.attempted code).mem.get? addr = core.mem.get? addr
  called : core.opcode? code = some .ret → frames ≠ []

def AllOrderly (code : Array Instruction) : List Core → List Frame → Prop
  | [], _ => True
  | core :: rest, frames =>
    core.Orderly code frames ∧ AllOrderly code rest (core.active code frames)

private theorem Attempts.eq_attempted (h : core.Attempts code after) :
    after = core.attempted code := by
  rw [attempted]
  cases hfetch : core.fetch? code with
  | some insn => exact h.eq_of_carryOut hfetch
  | none =>
      rcases h with ⟨_, _, hsome, _⟩ | ⟨_, hsame⟩ | ⟨_, _, hsome, _⟩
      · cases hfetch.symm.trans hsome
      · exact hsame
      · cases hfetch.symm.trans hsome

private theorem Breaks.next? (h : core.Breaks code after) : core.next? code = none := by
  rcases h with ⟨hfetch, -⟩ | ⟨insn, stop, hfetch, hrun⟩
  · rw [Core.next?, hfetch, Option.bind_none]
  · rw [Core.next?, hfetch, Option.bind_some, hrun]

private theorem Breaks.fp (h : core.Breaks code after) : after.regs.fp = core.regs.fp := by
  rcases h.cases with rfl | ⟨insn, stop, hfetch, hback⟩
  · rfl
  · cases hback with
    | still hfp => exact hfp
    | ret => rfl

private theorem Breaks.mem_of_call (h : core.Breaks code after)
    (hcall : core.opcode? code = some .call) :
    after.mem = core.mem := by
  rcases h with ⟨hfetch, rfl⟩ | ⟨insn, stop, hfetch, hrun⟩
  · rfl
  · rw [opcode?_eq hfetch] at hcall
    rw [carryOut_of_opcode hcall, Opcode.run_call] at hrun
    split at hrun <;> cases hrun
    rfl

private theorem Orderly.obeys (h : core.Orderly code frames)
    (hop : core.opcode? code = some .call ∨ core.opcode? code = some .ret) :
    core.Obeys code frames := by
  refine ⟨h.marked, ?_, h.called⟩
  rintro hcall frame - addr - ⟨insn, op, hfetch, hbyte, hwrites⟩
  have hret := hop.resolve_left hcall
  rw [opcode?_eq hfetch, hbyte] at hret
  cases hret
  exact hwrites

private theorem Completes.fp (h : core.Completes code after)
    (hcall : core.opcode? code ≠ some .call) (hret : core.opcode? code ≠ some .ret) :
    after.regs.fp = core.regs.fp := by
  obtain ⟨insn, op, hfetch, hop, heffect⟩ := h.effect
  rw [opcode?_eq hfetch, hop] at hcall hret
  cases heffect with
  | confined _ hconf => exact hconf.fp
  | call => exact absurd rfl hcall
  | ret => exact absurd rfl hret
  | enter | refused | granted => rfl

/-- One attempt that keeps to the discipline keeps the frames in memory and the active calls in
step, whether it completes or stops. -/
private theorem Threads.attempt (h : core.Threads frames) (horder : core.Orderly code frames)
    (hatt : core.Attempts code after) : after.Threads (core.active code frames) := by
  have hkept (hfp : after.regs.fp = core.regs.fp) (hcall : core.opcode? code ≠ some .call) :
      after.Threads frames := by
    refine ⟨?_, h.nested⟩
    rw [hfp]
    refine h.links.congr fun frame hframe addr hword => ?_
    rw [hatt.eq_attempted]
    exact horder.intact hcall frame hframe addr hword
  rcases hatt with hdone | hbreaks
  · rw [active, completes_iff_next?.mp hdone, Option.isSome_some, if_pos rfl]
    by_cases hop : core.opcode? code = some .call ∨ core.opcode? code = some .ret
    · exact h.completes (horder.obeys hop) hdone
    · rw [not_or] at hop
      have hcalls : core.calls code frames = frames := by
        rw [calls]
        split <;> simp_all
      rw [hcalls]
      exact hkept (hdone.fp hop.1 hop.2) hop.1
  · rw [active, hbreaks.next?, Option.isSome_none, if_neg Bool.false_ne_true]
    by_cases hcall : core.opcode? code = some .call
    · -- a CALL that stops has read the entry in vain and written nothing
      refine ⟨?_, h.nested⟩
      rw [hbreaks.fp, hbreaks.mem_of_call hcall]
      exact h.links
    · exact hkept hbreaks.fp hcall

private theorem Threads.attempts {first last : Core} {begun : List Core} (h : first.Threads frames)
    (hchain : (begun ++ [last]).IsChain (Attempts code))
    (hhead : (begun ++ [last]).head? = some first) (horder : AllOrderly code begun frames) :
    last.Threads (begun.foldl (active code) frames) := by
  induction begun generalizing first frames with
  | nil =>
      cases hhead
      exact h
  | cons core rest ih =>
      cases hhead
      rw [List.cons_append, List.isChain_cons] at hchain
      obtain ⟨hnext, hrest⟩ := hchain
      obtain ⟨hfirst, horder⟩ := horder
      have hne : rest ++ [last] ≠ [] := by simp
      have hhead := List.head?_eq_some_head hne
      exact ih (h.attempt hfirst (hnext _ hhead)) hrest hhead horder

instance (code : Array Instruction) (core : Core) (frames : List Frame) :
    Decidable (core.Orderly code frames) :=
  decidable_of_iff
    ((core.opcode? code = some .call →
      core.mem.get? (core.regs.sp - 2) = some core.regs.ep ∧
      core.mem.get? (core.regs.sp - 1) = some core.regs.fp ∧
      ∀ frame ∈ frames.head?, frame.base < core.regs.sp - 2) ∧
    (core.opcode? code ≠ some .call →
      frames.all fun frame => frame.words.all fun addr =>
        (core.attempted code).mem.get? addr = core.mem.get? addr) ∧
    (core.opcode? code = some .ret → frames ≠ [])) <| by
    simp only [List.all_eq_true, decide_eq_true_eq]
    exact ⟨fun h => ⟨h.1, h.2.1, h.2.2⟩, fun h => ⟨h.marked, h.intact, h.called⟩⟩

instance allOrderlyDecidable (code : Array Instruction) :
    ∀ begun frames, Decidable (AllOrderly code begun frames)
  | [], _ => .isTrue trivial
  | core :: rest, frames =>
    have := allOrderlyDecidable code rest (core.active code frames)
    inferInstanceAs (Decidable (core.Orderly code frames ∧ _))

end Core

/-- A dump of any machine shows, below its header, the words of memory from address zero to the last
one in use and the words of the heap, and notes the linkage of the frames that the saved frame
pointers lead to before they leave memory or stop descending. Whatever calls were made on a built
machine, as long as they kept to the discipline these frames are the active calls. -/
theorem dump_shows_words_and_active_frames :
    (∀ m : Machine, m.core.mem.size < 2 ^ 63 →
      let core := m.core
      let last := Dump.lastShown core
      let first := core.regs.np.toNatClampNeg
      let stack := if 0 ≤ last then List.range (last.toNat + 1) else []
      let heap :=
        if core.mem.Covers core.regs.np then List.range' first (core.mem.size - first) else []
      let line := Dump.wordLine core.mem (Dump.notes core)
      let link := Dump.link core.mem core.regs.fp
      let frames := Dump.frames core.mem core.regs.fp
      m.dump = String.join (Dump.header m ++ Dump.underTitle "# Stack\n" (stack.map line)
        ++ Dump.underTitle ("# Heap @" ++ core.regs.np.text ++ "\n") (heap.map line)) ∧
      (∀ addr ∈ stack ++ heap, Dump.Shows core addr (line addr)) ∧
      Dump.notes core =
        frames.flatMap (fun f => [(f - 2, "ep"), (f - 1, "fp"), (f, "ret")])
          ++ (if 0 ≤ core.regs.sp then [(core.regs.sp, "<sp")] else [])
          ++ (if 0 ≤ core.regs.ep ∧ core.regs.ep ≠ core.regs.sp then [(core.regs.ep, "<ep")]
            else []) ∧
      ∃ n, frames = (List.range n).map link ∧ Dump.Cut core.mem core.regs.fp n ∧
        ∀ k < n, ¬ Dump.Cut core.mem core.regs.fp k ∧
          core.mem.get? (link k - 1) = some (link (k + 1))) ∧
    (∀ (σ : Type) (plan : Plan σ) (code : Array Instruction) (m : Machine) (world : σ)
      (calls : List Call), plan.build code = .ok m →
      let begun := Session.history plan.observers calls ⟨m, world⟩
      let core := (Session.performAll plan.observers calls ⟨m, world⟩).machine.core
      Core.AllOrderly code begun [] →
      Dump.frames core.mem core.regs.fp = (begun.foldl (Core.active code) []).map Frame.base) := by
  refine ⟨fun m hsize => ?_, fun σ plan code m world calls built horder => ?_⟩
  · refine ⟨?_, fun addr haddr => ?_, rfl, Dump.frames_eq_links _ _⟩
    · rw [Machine.dump, Dump.lines_eq, Dump.stackAddresses_eq, Dump.heapAddresses_eq]
    · rw [← Dump.stackAddresses_eq, ← Dump.heapAddresses_eq] at haddr
      exact Dump.wordLine_shows hsize (Dump.lt_size_of_shown haddr)
  · have hcode : m.code = code := by rw [plan.build_eq_initial built, Machine.initial]
    have hfp : m.core.regs.fp = -1 := by rw [plan.core_of_build built]
    have hstart : m.core.Threads [] := ⟨hfp, .nil⟩
    obtain ⟨hchain, hhead⟩ := (plan.leads_of_build built world calls).path.isChain
    rw [hcode] at hchain
    have hend := hstart.attempts hchain hhead horder
    exact Dump.frames_of_links hend.links hend.nested

/-- A machine whose registers point out of memory and whose only frame is linked to itself, and two
nested calls, of which the inner one is about to return. -/
theorem dump_shows_words_of_stray_registers_and_nested_calls :
    (let stray : Machine := ⟨#[], ⟨⟨0, 9, 3, -7, 1⟩, #[5, 4, 3, 6]⟩, 0, false, none, 0⟩
    let line := Dump.wordLine stray.core.mem (Dump.notes stray.core)
    stray.dump = String.join (Dump.header stray
      ++ Dump.underTitle "# Stack\n" ((List.range 4).map line)
      ++ Dump.underTitle ("# Heap @" ++ stray.core.regs.np.text ++ "\n")
        ((List.range' 1 3).map line))) ∧
    (let plan : Plan Unit := ⟨8, {}⟩
    let s := Session.performAll plan.observers [.step, .run 5 .canceled]
      ⟨.initial nestedCalls 8, ()⟩
    Dump.frames s.machine.core.mem s.machine.core.regs.fp = [5, 2]) := by
  constructor
  · intro stray line
    have hlast : Dump.lastShown stray.core = 3 := by decide
    have hcov : stray.core.mem.Covers stray.core.regs.np := by decide
    obtain ⟨hdump, -⟩ := dump_shows_words_and_active_frames.1 stray (by decide)
    rw [hlast, if_pos hcov] at hdump
    exact hdump
  · have hbuilt : Plan.build (⟨8, {}⟩ : Plan Unit) nestedCalls =
        .ok (.initial nestedCalls 8) := rfl
    have horder : Core.AllOrderly nestedCalls (Session.history (⟨8, {}⟩ : Plan Unit).observers
        [.step, .run 5 .canceled] ⟨.initial nestedCalls 8, ()⟩) [] := by decide +kernel
    have hactive : ((Session.history (⟨8, {}⟩ : Plan Unit).observers
        [.step, .run 5 .canceled] ⟨.initial nestedCalls 8, ()⟩).foldl
          (Core.active nestedCalls) []).map Frame.base = [5, 2] := by decide +kernel
    have hframes := dump_shows_words_and_active_frames.2 Unit _ nestedCalls _ () _ hbuilt horder
    exact hframes.trans hactive

end FrameMachine
