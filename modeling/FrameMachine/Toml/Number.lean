import FrameMachine.Toml.Text
/-!
# TOML numbers and times

A number is first cut out of the text by its characters alone and then checked.
Integers must fit 64 bits, floats must be finite when written in digits, and dates
must exist.
-/
namespace FrameMachine.Toml

/-- A value written without quotes or brackets, as far as its characters tell. -/
inductive Numeral where
  | integer (lexeme : List Char)
  | float (lexeme : List Char)
  | datetime (lexeme : List Char)
  deriving DecidableEq, Repr, Inhabited

namespace Numeral

def isFloatChar (c : Char) : Bool :=
  isDigit c || c == '_' || c == '.' || c == '-' || c == '+' || c == 'e' || c == 'E'

def isTimeChar (c : Char) : Bool :=
  isDigit c || c == '-' || c == ':' || c == 'T' || c == 't' || c == ' ' || c == '.' || c == 'Z'
    || c == 'z' || c == '+'

def startsFraction (c : Char) : Bool := c == '.' || c == 'e' || c == 'E'

def spanFront (p : Char → Bool) (input : List Char) : List Char × List Char :=
  (input.takeWhile p, input.dropWhile p)

def floatFrom (front input : List Char) : Numeral × List Char :=
  let (more, rest) := spanFront isFloatChar input
  (float (front ++ more), rest)

def decimalFrom (front input : List Char) : Numeral × List Char :=
  let (digits, rest) := spanFront (fun c => isDigit c || c == '_') input
  if rest.head?.any startsFraction then floatFrom (front ++ digits) rest
  else (integer (front ++ digits), rest)

/-- The blanks behind a time do not belong to it. -/
def trimTime (lexeme : List Char) : List Char := (lexeme.reverse.dropWhile (· == ' ')).reverse

/-- Digits decide by what follows them whether they begin a time, a float or an integer. -/
def decimalOrTime (input : List Char) : Numeral × List Char :=
  let (digits, rest) := spanFront isDigit input
  match rest with
  | c :: _ =>
    if c == '-' || c == ':' then
      let (more, rest) := spanFront isTimeChar rest
      (datetime (trimTime (digits ++ more)), rest)
    else decimalFrom digits rest
  | [] => (integer digits, [])

def based (mark : Char) (p : Char → Bool) (input : List Char) : Option (Numeral × List Char) :=
  if input.head?.any p then
    let (digits, rest) := spanFront (fun c => p c || c == '_') input
    some (integer ('0' :: mark :: digits), rest)
  else none

def signed (sign : Char) : List Char → Option (Numeral × List Char)
  | 'i' :: 'n' :: 'f' :: rest => some (float [sign, 'i', 'n', 'f'], rest)
  | 'n' :: 'a' :: 'n' :: rest => some (float [sign, 'n', 'a', 'n'], rest)
  | '0' :: 'b' :: _ => none
  | '0' :: 'o' :: _ => none
  | '0' :: 'x' :: _ => none
  | c :: rest => if isDigit c then some (decimalFrom [sign, c] rest) else none
  | [] => none

def read : List Char → Option (Numeral × List Char)
  | '+' :: rest => signed '+' rest
  | '-' :: rest => signed '-' rest
  | 'i' :: 'n' :: 'f' :: rest => some (float ['i', 'n', 'f'], rest)
  | 'n' :: 'a' :: 'n' :: rest => some (float ['n', 'a', 'n'], rest)
  | '0' :: 'b' :: rest => based 'b' (fun c => c == '0' || c == '1') rest
  | '0' :: 'o' :: rest => based 'o' (fun c => '0' ≤ c && c ≤ '7') rest
  | '0' :: 'x' :: rest => based 'x' isHexDigit rest
  | '0' :: rest =>
    -- a lone zero begins no time
    if rest.head?.any isDigit then some (decimalOrTime ('0' :: rest))
    else some (decimalFrom ['0'] rest)
  | c :: rest => if isDigit c then some (decimalOrTime (c :: rest)) else none
  | [] => none

end Numeral

/-- Every underscore has a digit on both sides; `before` says whether a digit came last. -/
def underscoresOk (before : Bool) : List Char → Bool
  | [] => before
  | '_' :: rest => before && underscoresOk false rest
  | c :: rest => underscoresOk (isHexDigit c) rest

def hasLeadingZero : List Char → Bool
  | '0' :: c :: _ => !(c == 'b' || c == 'o' || c == 'x')
  | '-' :: '0' :: _ :: _ | '+' :: '0' :: _ :: _ => true
  | _ => false

def digitValue (c : Char) : Nat :=
  if isDigit c then c.toNat - '0'.toNat
  else if 'a' ≤ c then c.toNat - 'a'.toNat + 10
  else c.toNat - 'A'.toNat + 10

def digitsValue (base : Nat) (digits : List Char) : Nat :=
  (digits.filter (· != '_')).foldl (fun n c => n * base + digitValue c) 0

def integer? (lexeme : List Char) : Option Int :=
  if underscoresOk false lexeme && !hasLeadingZero lexeme then
    let n : Int := match lexeme with
      | '0' :: 'b' :: digits => digitsValue 2 digits
      | '0' :: 'o' :: digits => digitsValue 8 digits
      | '0' :: 'x' :: digits => digitsValue 16 digits
      | '-' :: digits => -(digitsValue 10 digits : Int)
      | '+' :: digits => digitsValue 10 digits
      | digits => digitsValue 10 digits
    if -0x8000000000000000 ≤ n ∧ n < 0x8000000000000000 then some n else none
  else none

namespace FloatLexeme

/-- Every point is followed by a digit. -/
def pointsOk : List Char → Bool
  | [] => true
  | '.' :: rest => rest.head?.any isDigit && pointsOk rest
  | _ :: rest => pointsOk rest

def parts (lexeme : List Char) : List (List Char) :=
  (lexeme.splitOnP Numeral.startsFraction).filter (· ≠ [])

def unsigned : List Char → List Char
  | '+' :: rest | '-' :: rest => rest
  | s => s

/-- The least number that rounds past the largest double. -/
def limit : Nat := (1 <<< 1024) - (1 <<< 970)

def overflows (significand : Nat) (exponent : Int) : Bool :=
  let length : Int := (Nat.toDigits 10 significand).length
  if significand = 0 ∨ length + exponent ≤ 308 then false
  else if 311 ≤ length + exponent then true
  else if 0 ≤ exponent then limit ≤ significand * Nat.pow 10 exponent.toNat
  else limit * Nat.pow 10 (-exponent).toNat ≤ significand

/-- The size of an exponent. Its digits are passed over once it has reached ten thousand. -/
def exponentSize (digits : List Char) : Nat :=
  digits.foldl (fun e c => if e < 10000 then 10 * e + digitValue c else e) 0

def estimateDigits : Nat := 19

def keptDigits : Nat := 800

/-- The decimal rounds to a finite double. Its first digits decide, taken as they are and one
higher in the last place if others than zeros follow. Where these two disagree the kept
digits decide, and no more of the whole part than was kept counts for its size. -/
def isFinite (whole fraction : List Char) (exponent : Int) : Bool :=
  let digits := (whole ++ fraction).dropWhile (· == '0')
  let point : Int := (digits.length : Int) - fraction.length
  let first := digits.take estimateDigits
  let kept := digits.take keptDigits
  let estimate := digitsValue 10 first
  let place := point + exponent - first.length
  if overflows estimate place then false
  else if (digits.drop estimateDigits).all (· == '0') || !overflows (estimate + 1) place then true
  else !overflows (digitsValue 10 kept) (min point keptDigits + exponent - kept.length)

def isDecimal (lexeme : List Char) : Bool :=
  let (mantissa, power) := Numeral.spanFront (fun c => c != 'e' && c != 'E') (unsigned lexeme)
  let (whole, fraction) := Numeral.spanFront (· != '.') mantissa
  let fraction := fraction.drop 1
  let exponent := unsigned (power.drop 1)
  let size : Int := exponentSize exponent
  whole ++ fraction ≠ [] && (whole ++ fraction ++ exponent).all isDigit
    && (power.isEmpty || !exponent.isEmpty)
    && isFinite whole fraction (if (power.drop 1).head? = some '-' then -size else size)

end FloatLexeme

def isFloat (lexeme : List Char) : Bool :=
  let word := FloatLexeme.unsigned lexeme
  if word = ['i', 'n', 'f'] ∨ word = ['n', 'a', 'n'] then true
  else
    let parts := FloatLexeme.parts lexeme
    parts.all (underscoresOk false) && !(parts.head?.any hasLeadingZero) && FloatLexeme.pointsOk lexeme
      && FloatLexeme.isDecimal (lexeme.filter (· != '_'))

namespace Datetime

def isLeapYear (y : Nat) : Bool := y % 4 == 0 && (y % 100 != 0 || y % 400 == 0)

def daysInMonth (y m : Nat) : Nat :=
  if m = 2 then if isLeapYear y then 29 else 28
  else if m = 4 ∨ m = 6 ∨ m = 9 ∨ m = 11 then 30 else 31

def digits? (n : Nat) (input : List Char) : Option (Nat × List Char) :=
  let front := input.take n
  if front.length = n ∧ front.all isDigit then some (digitsValue 10 front, input.drop n) else none

def expect? (c : Char) : List Char → Option (List Char)
  | d :: rest => if c = d then some rest else none
  | [] => none

def date? (input : List Char) : Option (List Char) := do
  let (y, rest) ← digits? 4 input
  let rest ← expect? '-' rest
  let (m, rest) ← digits? 2 rest
  let rest ← expect? '-' rest
  let (d, rest) ← digits? 2 rest
  if 1 ≤ m ∧ m ≤ 12 ∧ 1 ≤ d ∧ d ≤ daysInMonth y m then some rest else none

/-- The hour may be written with one digit. -/
def hour? (input : List Char) : Option (Nat × List Char) :=
  (digits? 2 input) <|> digits? 1 input

def skipFraction : List Char → List Char
  | '.' :: c :: rest => if isDigit c then rest.dropWhile isDigit else '.' :: c :: rest
  | rest => rest

def time? (input : List Char) : Option (List Char) := do
  let (h, rest) ← hour? input
  let rest ← expect? ':' rest
  let (m, rest) ← digits? 2 rest
  let rest ← expect? ':' rest
  let (s, rest) ← digits? 2 rest
  if h < 24 ∧ m < 60 ∧ s < 60 then some (skipFraction rest) else none

def isZone (input : List Char) : Bool :=
  match input with
  | [] | ['Z'] => true
  | sign :: rest => (sign == '+' || sign == '-') && ((do
      let (h, rest) ← digits? 2 rest
      let rest ← expect? ':' rest
      let (m, rest) ← digits? 2 rest
      if h ≤ 24 ∧ m ≤ 60 ∧ rest = [] then some () else none) : Option Unit).isSome

/-- The marks in their usual form: a blank or small letter may stand for them. -/
def standardForm (lexeme : List Char) : List Char :=
  lexeme.map fun c => if c == 'z' then 'Z' else if c == 't' || c == ' ' then 'T' else c

end Datetime

open Datetime in
def isDatetime (lexeme : List Char) : Bool :=
  let s := standardForm lexeme
  match date? s with
  | some [] => true
  | some rest => (((expect? 'T' rest).bind time?).map isZone).getD false
  | none => time? s = some []

end FrameMachine.Toml
