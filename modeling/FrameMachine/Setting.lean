import FrameMachine.Machine
/-!
# Settings of a new machine

A setting changes the plan for a machine under construction. Settings apply in
order, so the last capacity, logger and tracer win.
-/
namespace FrameMachine

def defaultCapacity : Word := 8388608

/-- The largest number of words that can be reserved at all. -/
def capacityLimit : Word := 0x200000000000

structure Plan (σ : Type) where
  capacity : Word := 0
  observers : Observers σ := {}

abbrev Setting (σ : Type) := Plan σ → Plan σ

namespace Setting

variable {σ : Type}

def capacity (words : Word) : Setting σ := fun p => { p with capacity := words }

def logger (l : Option (Logger σ)) : Setting σ := fun p =>
  { p with observers := { p.observers with logger := l } }

def tracer (t : Option (Tracer σ)) : Setting σ := fun p =>
  { p with observers := { p.observers with tracer := t } }

def group (settings : List (Setting σ)) : Setting σ := fun p =>
  settings.foldl (fun p s => s p) p

def skip : Setting σ := id

end Setting

namespace Plan

variable {σ : Type}

def ofSetting (s : Setting σ) : Plan σ := s {}

/-- The capacity a machine gets: the default stands in for one that is not positive. -/
def words (p : Plan σ) : Word := if p.capacity ≤ 0 then defaultCapacity else p.capacity

/-- A fresh machine for a program, unless its memory cannot be reserved. -/
def build (p : Plan σ) (code : Array Instruction) : Except Fault Machine :=
  if capacityLimit < p.words then .error .allocationTooLarge
  else .ok (.initial code p.words.toNatClampNeg)

end Plan
end FrameMachine
