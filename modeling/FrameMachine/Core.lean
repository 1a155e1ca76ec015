/-!
# Words, registers and memory

Words, registers and addresses are 64-bit two's complement integers and every
operation wraps. Quotients are truncated toward zero and remainders take the sign of
the dividend. There are five index registers and one array of words. The stack
grows up from address zero, the heap grows down from the end. An address is a word;
those outside `0 .. size - 1` name nothing. A snapshot is a copy of the registers and
of all memory. The memory may be absent, which is different from being empty.
-/
namespace FrameMachine

abbrev Word := Int64

namespace Word

def ofBool (b : Bool) : Word := if b then 1 else 0

/-- The word of an integer that fits, and nothing for any other integer. -/
def ofInt? (n : Int) : Option Word :=
  if -0x8000000000000000 ≤ n ∧ n < 0x8000000000000000 then some (Int64.ofInt n) else none

def text (w : Word) : String := w.toInt.repr

end Word

/-- The counter `pc`, the top of the stack `sp`, the frame `fp`, the end of the
frame's reserved space `ep` and the lowest heap address `np`. -/
structure Registers where
  pc : Word := 0
  sp : Word := 0
  fp : Word := 0
  ep : Word := 0
  np : Word := 0
  deriving DecidableEq, Repr, Inhabited

namespace Registers

def initial (capacity : Word) : Registers := ⟨0, -1, -1, -1, capacity⟩

def text (r : Registers) : String :=
  "pc:" ++ r.pc.text ++ " sp:" ++ r.sp.text ++ " fp:" ++ r.fp.text
    ++ " ep:" ++ r.ep.text ++ " np:" ++ r.np.text

end Registers

abbrev Memory := Array Word

namespace Memory

def zeroed (capacity : Nat) : Memory := Array.replicate capacity 0

def Covers (mem : Memory) (addr : Word) : Prop :=
  0 ≤ addr ∧ addr.toNatClampNeg < mem.size

instance (mem : Memory) (addr : Word) : Decidable (mem.Covers addr) :=
  inferInstanceAs (Decidable (_ ∧ _))

def get? (mem : Memory) (addr : Word) : Option Word :=
  if 0 ≤ addr then mem[addr.toNatClampNeg]? else none

/-- The word at an address, or zero outside of memory. -/
def load (mem : Memory) (addr : Word) : Word := (mem.get? addr).getD 0

/-- Replaces one word; an address outside of memory changes nothing. -/
def put (mem : Memory) (addr w : Word) : Memory :=
  if 0 ≤ addr then mem.setIfInBounds addr.toNatClampNeg w else mem

@[simp] theorem size_put (mem : Memory) (addr w : Word) : (mem.put addr w).size = mem.size := by
  unfold put; split <;> simp

end Memory

structure Core where
  regs : Registers
  mem : Memory
  deriving DecidableEq, Inhabited

namespace Core

def initial (capacity : Nat) : Core :=
  ⟨.initial (Int64.ofNat capacity), .zeroed capacity⟩

def result (core : Core) : Word := core.mem.load 0

end Core

structure Snapshot where
  regs : Registers := {}
  mem : Option Memory := none
  deriving DecidableEq, Inhabited

def Core.snapshot (core : Core) : Snapshot := ⟨core.regs, some core.mem⟩

end FrameMachine
