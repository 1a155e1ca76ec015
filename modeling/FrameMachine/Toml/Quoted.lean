import FrameMachine.Toml.Text
import FrameMachine.Toml.Number
/-!
# TOML strings

Basic strings stand in double quotes and know escapes, literal strings stand in single
quotes and know none. Either kind may run over several lines in threefold quotes, where
up to two quotes may stand next to the closing ones.
-/
namespace FrameMachine.Toml

def codePoint? (digits : List Char) : Option Char :=
  let n := digitsValue 16 digits
  if digits.all isHexDigit ∧ n.isValidChar then some (Char.ofNat n) else none

def escape? : List Char → Option (Char × List Char)
  | 'b' :: rest => some ('\x08', rest)
  | 't' :: rest => some ('\t', rest)
  | 'n' :: rest => some ('\n', rest)
  | 'f' :: rest => some ('\x0c', rest)
  | 'r' :: rest => some ('\r', rest)
  | '"' :: rest => some ('"', rest)
  | '\\' :: rest => some ('\\', rest)
  | 'u' :: rest =>
    if rest.length < 4 then none else (codePoint? (rest.take 4)).map fun c => (c, rest.drop 4)
  | 'U' :: rest =>
    if rest.length < 8 then none else (codePoint? (rest.take 8)).map fun c => (c, rest.drop 8)
  | _ => none

/-- The backslash before this text ends a line: only blanks come before the next newline. -/
def endsLine (rest : List Char) : Bool := (rest.dropWhile isBlank).head? == some '\n'

/-- Replaces escapes. Between `multiline` quotes a backslash at the end of a line removes
all white space up to the next character. -/
def unescape (multiline : Bool) : (fuel : Nat) → (done : List Char) → List Char → Option (List Char)
  | _, done, [] => some done.reverse
  | 0, _, _ => none
  | fuel + 1, done, '\\' :: rest =>
    if multiline && endsLine rest then
      unescape multiline fuel done (rest.dropWhile fun c => isBlank c || c == '\n')
    else do
      let (c, rest) ← escape? rest
      unescape multiline fuel (c :: done) rest
  | fuel + 1, done, c :: rest => unescape multiline fuel (c :: done) rest

def singleLine (quote : Char) (escapes : Bool) : List Char → List Char → Option (List Char × List Char)
  | _, [] => none
  | done, c :: rest =>
    if c == '\n' then none
    else if c == quote then some (done.reverse, rest)
    else if escapes && c == '\\' then
      match rest with
      | [] => none
      | d :: rest => if d == '\n' then none else singleLine quote escapes (d :: c :: done) rest
    else singleLine quote escapes (c :: done) rest

/-- Two quotes came directly before, and no backslash before those. -/
def twoQuotesBefore (quote : Char) (escapes : Bool) : List Char → Bool
  | a :: b :: before => a == quote && b == quote && !(escapes && before.head? == some '\\')
  | _ => false

/-- The raw content of a string on several lines up to its three closing quotes. -/
def manyLines (quote : Char) (escapes : Bool) : List Char → List Char → Option (List Char × List Char)
  | _, [] => none
  | done, c :: rest =>
    if c == quote then
      match rest with
      | d :: e :: after =>
        if d == quote && e == quote then
          if after.head? == some quote then
            if twoQuotesBefore quote escapes done then none
            else manyLines quote escapes (c :: done) rest
          else some (done.reverse, after)
        else manyLines quote escapes (c :: done) rest
      | _ => none
    else if escapes && c == '\\' then
      match rest with
      | [] => none
      | d :: rest => manyLines quote escapes (d :: c :: done) rest
    else manyLines quote escapes (c :: done) rest

/-- A newline right behind the opening quotes does not count. -/
def dropFirstNewline : List Char → List Char
  | '\n' :: rest => rest
  | s => s

def meaning (escapes multiline : Bool) (raw : List Char) : Option (List Char) :=
  if escapes then unescape multiline (raw.length + 1) [] raw else some raw

def lineString (quote : Char) (input : List Char) : Option (String × List Char) := do
  let (raw, rest) ← singleLine quote (quote == '"') [] input
  let s ← meaning (quote == '"') false raw
  return (String.ofList s, rest)

def blockString (quote : Char) (input : List Char) : Option (String × List Char) := do
  let (raw, rest) ← manyLines quote (quote == '"') [] input
  let s ← meaning (quote == '"') true (dropFirstNewline raw)
  return (String.ofList s, rest)

end FrameMachine.Toml
