import FrameMachine.Toml.Number
import FrameMachine.Toml.Quoted
/-!
# TOML statements

A document is a list of statements: table headers, and keys with the expressions
assigned to them. Whether the statements fit together is not looked at here.
-/
namespace FrameMachine.Toml

abbrev Path := List String

inductive Scalar where
  | string (s : String)
  | integer (n : Int)
  | float (lexeme : String)
  | boolean (b : Bool)
  | datetime (lexeme : String)
  deriving DecidableEq, Repr, Inhabited

inductive Expr where
  | scalar (v : Scalar)
  | array (items : List Expr)
  | table (entries : List (Path × Expr))
  deriving Inhabited

inductive Statement where
  | header (path : Path)
  | element (path : Path)
  | assign (path : Path) (value : Expr)
  deriving Inhabited

abbrev Reader (α : Type) := List Char → Option (α × List Char)

def skipBlanks (input : List Char) : List Char := input.dropWhile isBlank

/-- Skips blanks, newlines and comments; `inComment` says that a comment has begun. -/
def skipLayout (inComment : Bool) : List Char → List Char
  | [] => []
  | c :: rest =>
    if inComment then skipLayout (c != '\n') rest
    else if isBlank c || c == '\n' then skipLayout false rest
    else if c == '#' then skipLayout true rest
    else c :: rest

def keyPart : Reader String
  | '"' :: rest => lineString '"' rest
  | '\'' :: rest => lineString '\'' rest
  | input =>
    let (name, rest) := Numeral.spanFront isBareKeyChar input
    if name = [] then none else some (String.ofList name, rest)

def path : (fuel : Nat) → Reader Path
  | 0, _ => none
  | fuel + 1, input => do
    let (part, rest) ← keyPart (skipBlanks input)
    match skipBlanks rest with
    | '.' :: rest =>
      let (parts, rest) ← path fuel rest
      some (part :: parts, rest)
    | rest => some ([part], rest)

def pathBefore (mark : Char) (input : List Char) : Option (Path × List Char) :=
  match path (input.length + 1) input with
  | some (p, c :: rest) => if c = mark then some (p, rest) else none
  | _ => none

def plainScalar (input : List Char) : Option (Scalar × List Char) :=
  match input with
  | 't' :: 'r' :: 'u' :: 'e' :: rest => some (.boolean true, rest)
  | 'f' :: 'a' :: 'l' :: 's' :: 'e' :: rest => some (.boolean false, rest)
  | _ => do
    let (numeral, rest) ← Numeral.read input
    match numeral with
    | .integer lexeme => (integer? lexeme).map fun n => (.integer n, rest)
    | .float lexeme => if isFloat lexeme then some (.float (String.ofList lexeme), rest) else none
    | .datetime lexeme =>
      if isDatetime lexeme then some (.datetime (String.ofList lexeme), rest) else none

def scalar : Reader Scalar
  | '"' :: '"' :: '"' :: rest => (blockString '"' rest).map fun (s, rest) => (.string s, rest)
  | '"' :: rest => (lineString '"' rest).map fun (s, rest) => (.string s, rest)
  | '\'' :: '\'' :: '\'' :: rest => (blockString '\'' rest).map fun (s, rest) => (.string s, rest)
  | '\'' :: rest => (lineString '\'' rest).map fun (s, rest) => (.string s, rest)
  | input => plainScalar input

/-- The items of an array behind its opening bracket or a comma; a last comma is allowed. -/
def arrayItems (item : Reader Expr) : (fuel : Nat) → List Expr → Reader (List Expr)
  | 0, _, _ => none
  | fuel + 1, done, input =>
    match skipLayout false input with
    | ']' :: rest => some (done.reverse, rest)
    | input => do
      let (value, rest) ← item input
      match skipLayout false rest with
      | ',' :: rest => arrayItems item fuel (value :: done) rest
      | ']' :: rest => some ((value :: done).reverse, rest)
      | _ => none

def tableEntries (item : Reader Expr) : (fuel : Nat) → List (Path × Expr) → Reader (List (Path × Expr))
  | 0, _, _ => none
  | fuel + 1, done, input => do
    let (key, rest) ← pathBefore '=' input
    let (value, rest) ← item (skipBlanks rest)
    match skipBlanks rest with
    | ',' :: rest => tableEntries item fuel ((key, value) :: done) rest
    | '\x7d' :: rest => some (((key, value) :: done).reverse, rest)
    | _ => none

/-- An expression; the fuel bounds how deep arrays and inline tables nest. -/
def expr : (fuel : Nat) → Reader Expr
  | 0, _ => none
  | fuel + 1, input =>
    match input with
    | '[' :: rest =>
      (arrayItems (expr fuel) (rest.length + 1) [] rest).map fun (items, rest) => (.array items, rest)
    | '\x7b' :: rest =>
      match skipBlanks rest with
      | '\x7d' :: rest => some (.table [], rest)
      | rest =>
        (tableEntries (expr fuel) (rest.length + 1) [] rest).map fun (es, rest) => (.table es, rest)
    | input => (scalar input).map fun (v, rest) => (.scalar v, rest)

namespace Statement

def read : Reader Statement
  | '[' :: '[' :: rest => do
    let (p, rest) ← pathBefore ']' rest
    match rest with
    | ']' :: rest => some (element p, rest)
    | _ => none
  | '[' :: rest => do
    let (p, rest) ← pathBefore ']' rest
    some (header p, rest)
  | input => do
    let (p, rest) ← pathBefore '=' input
    let (value, rest) ← expr (rest.length + 1) (skipBlanks rest)
    some (assign p value, rest)

def lineEnds (input : List Char) : Bool :=
  match skipBlanks input with
  | [] | '\n' :: _ | '#' :: _ => true
  | _ => false

/-- All statements up to the end of the text, newest first in `done`. -/
def readAll : (fuel : Nat) → List Statement → List Char → Option (List Statement)
  | 0, _, _ => none
  | fuel + 1, done, input =>
    match skipLayout false input with
    | [] => some done.reverse
    | input => do
      let (s, rest) ← read input
      if lineEnds rest then readAll fuel (s :: done) rest else none

end Statement

def statements? (bytes : List UInt8) : Option (List Statement) :=
  (characters? bytes).bind fun cs => Statement.readAll (cs.length + 1) [] cs

end FrameMachine.Toml
