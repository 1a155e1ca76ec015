import FrameMachine.Toml.Statement
/-!
# Marks on paths

What is remembered of a path besides the table it leads to: whether that table is still
implicit, and whether the last definition was an array. A path without marks is like one
never seen.
-/
namespace FrameMachine.Toml

structure Mark where
  isImplicit : Bool := false
  isArray : Bool := false
  deriving DecidableEq, Repr, Inhabited

/-- The mark of a path, and those of the paths that go on from it. -/
inductive Marks where
  | node (here : Mark) (deeper : List (String × Marks))
  deriving Inhabited

namespace Marks

def empty : Marks := node {} []

def here : Marks → Mark
  | node m _ => m

def deeper : Marks → List (String × Marks)
  | node _ ms => ms

def get (ms : Marks) : Path → Mark
  | [] => ms.here
  | key :: rest =>
    match ms.deeper.lookup key with
    | some sub => get sub rest
    | none => {}

def replace (key : String) (sub : Marks) : List (String × Marks) → List (String × Marks)
  | [] => [(key, sub)]
  | (k, ms) :: rest => if k = key then (key, sub) :: rest else (k, ms) :: replace key sub rest

def modify (f : Mark → Mark) (ms : Marks) : Path → Marks
  | [] => node (f ms.here) ms.deeper
  | key :: rest =>
    node ms.here (replace key (modify f ((ms.deeper.lookup key).getD empty) rest) ms.deeper)

end Marks
end FrameMachine.Toml
