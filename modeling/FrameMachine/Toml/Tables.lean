import FrameMachine.Toml.Statement
/-!
# TOML tables

The tables of a document have numbers and refer to each other by them, because a table
may be reached along several paths. What is defined along one of them is there along all.
-/
namespace FrameMachine.Toml

abbrev TableId := Nat

inductive Node where
  | scalar (v : Scalar)
  | array
  | table (id : TableId)
  /-- An array of tables, which is never empty; the earlier elements come newest first. -/
  | elements (last : TableId) (earlier : List TableId)
  deriving DecidableEq, Repr, Inhabited

/-- The table behind a node; an array of tables stands for its last element. -/
def Node.table? : Node → Option TableId
  | table id => some id
  | elements last _ => some last
  | _ => none

abbrev Table := List (String × Node)

def Table.set (t : Table) (key : String) (node : Node) : Table :=
  if t.any (·.1 == key) then t.map fun (k, n) => if k == key then (k, node) else (k, n)
  else t ++ [(key, node)]

/-- The tables of a document by number; the root is the first. -/
structure Tables where
  all : Array Table := #[[]]
  deriving Inhabited

namespace Tables

def root : TableId := 0

def get (ts : Tables) (id : TableId) : Table := ts.all.getD id []

def add (ts : Tables) : TableId × Tables := (ts.all.size, ⟨ts.all.push []⟩)

def define (ts : Tables) (id : TableId) (key : String) (node : Node) : Tables :=
  ⟨ts.all.modify id fun t => t.set key node⟩

def find? (ts : Tables) (id : TableId) : Path → Option TableId
  | [] => some id
  | key :: rest =>
    match ((ts.get id).lookup key).bind Node.table? with
    | some sub => find? ts sub rest
    | none => none

end Tables
end FrameMachine.Toml
