/-!
# Byte strings

Numbers as bytes in both orders, portions of fixed size and exact prefixes.
-/
namespace FrameMachine.Bytes

/-- The number in exactly `width` bytes, most significant first. -/
def bigEndian : (width : Nat) → Nat → List UInt8
  | 0, _ => []
  | width + 1, n => UInt8.ofNat (n >>> (8 * width)) :: bigEndian width n

def ofBigEndian (bytes : List UInt8) : Nat := bytes.foldl (fun n b => n * 256 + b.toNat) 0

def littleEndian : (width : Nat) → Nat → List UInt8
  | 0, _ => []
  | width + 1, n => UInt8.ofNat n :: littleEndian width (n / 256)

def ofLittleEndian (bytes : List UInt8) : Nat := bytes.foldr (fun b n => b.toNat + 256 * n) 0

@[simp] theorem length_bigEndian (width n : Nat) : (bigEndian width n).length = width := by
  induction width with
  | zero => rfl
  | succ width ih => simp [bigEndian, ih]

@[simp] theorem length_littleEndian (width n : Nat) : (littleEndian width n).length = width := by
  induction width generalizing n with
  | zero => rfl
  | succ width ih => simp [littleEndian, ih]

def take? (n : Nat) (bytes : List UInt8) : Option (List UInt8 × List UInt8) :=
  let (front, rest) := bytes.splitAt n
  if front.length = n then some (front, rest) else none

/-- Cuts into portions of `size + 1` bytes, the last one possibly shorter. -/
def portions (size : Nat) (bytes : List UInt8) : List (List UInt8) :=
  go bytes []
where
  go (bytes : List UInt8) (done : List (List UInt8)) : List (List UInt8) :=
    match bytes with
    | [] => done.reverse
    | b :: rest => go (rest.drop size) ((b :: rest.take size) :: done)
  termination_by bytes.length
  decreasing_by simp only [List.length_drop, List.length_cons]; omega

def ofString (s : String) : List UInt8 := s.toUTF8.data.toList

def toString? (bytes : List UInt8) : Option String := String.fromUTF8? ⟨bytes.toArray⟩

end FrameMachine.Bytes
