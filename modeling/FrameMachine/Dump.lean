import FrameMachine.Machine
/-!
# Dumps

A dump is a text for people: the registers, the words of the stack up to the end of
the frame's reserved space, and the words of the heap. Linkage words of the active
frames are noted. The frame chain is read from memory that a program may have
overwritten, so the walk stops as soon as it no longer descends.
-/
namespace FrameMachine.Dump

/-- The frames found by following the saved frame pointers, innermost first. -/
def frames (mem : Memory) (fp : Word) : List Word :=
  if h : 2 ≤ fp ∧ fp.toNatClampNeg < mem.size then
    if mem.load (fp - 1) < fp then fp :: frames mem (mem.load (fp - 1)) else [fp]
  else []
termination_by fp.toNatClampNeg
decreasing_by
  rename_i hlt
  have hfp : (2 : Int) ≤ fp.toInt := Int64.le_iff_toInt_le.mp h.1
  have hnext := Int64.lt_iff_toInt_lt.mp hlt
  simp only [Int64.toNatClampNeg]
  omega

def linkage (fp : Word) : List (Word × String) := [(fp - 2, "ep"), (fp - 1, "fp"), (fp, "ret")]

/-- Every note with its address; notes on one word are shown in this order. -/
def notes (core : Core) : List (Word × String) :=
  let r := core.regs
  (frames core.mem r.fp).flatMap linkage
    ++ (if 0 ≤ r.sp then [(r.sp, "<sp")] else [])
    ++ (if 0 ≤ r.ep ∧ r.ep ≠ r.sp then [(r.ep, "<ep")] else [])

def stackWords (core : Core) : Nat :=
  let last := max core.regs.sp core.regs.ep
  if 0 ≤ last then min (last.toNatClampNeg + 1) core.mem.size else 0

def heapStart? (core : Core) : Option Nat :=
  if core.mem.Covers core.regs.np then some core.regs.np.toNatClampNeg else none

def stackAddresses (core : Core) : List Nat := List.range (stackWords core)

def heapAddresses (core : Core) : List Nat :=
  match heapStart? core with
  | some start => List.range' start (core.mem.size - start)
  | none => []

def addressWidth (mem : Memory) : Nat := (mem.size - 1).repr.length

def alignRight (width : Nat) (s : String) : String := "".pushn ' ' (width - s.length) ++ s

def wordLine (mem : Memory) (noted : List (Word × String)) (addr : Nat) : String :=
  let w := Int64.ofNat addr
  "  @" ++ alignRight (addressWidth mem) addr.repr ++ " " ++ (mem.load w).text
    ++ String.join ((noted.filter (·.1 == w)).map (" " ++ ·.2)) ++ "\n"

def header (m : Machine) : List String :=
  ["# Machine Dump\n", "  regs: " ++ m.core.regs.text ++ "\n", "  steps: " ++ m.steps.toNat.repr ++ "\n"]
    ++ match m.failure with
      | some cause => ["  error: " ++ cause.message ++ "\n"]
      | none => if m.halted then ["  halted\n"] else []

def stackLines (core : Core) : List String :=
  match stackAddresses core with
  | [] => []
  | addrs => "# Stack\n" :: addrs.map (wordLine core.mem (notes core))

def heapLines (core : Core) : List String :=
  match heapAddresses core with
  | [] => []
  | addrs => ("# Heap @" ++ core.regs.np.text ++ "\n") :: addrs.map (wordLine core.mem (notes core))

def lines (m : Machine) : List String := header m ++ stackLines m.core ++ heapLines m.core

end FrameMachine.Dump

namespace FrameMachine

def Machine.dump (m : Machine) : String := String.join (Dump.lines m)

end FrameMachine
