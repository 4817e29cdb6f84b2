/-!
Numbers as JSON texts write them. A number that is written as digits alone is a natural number;
every other number is read as a double, and one that is too large for a double cannot be read. A
reader keeps as many leading digits as fit into a word of 64 bits and scales the rounded word by a
rounded power of ten, so these two roundings decide what is too large.
-/
namespace Respell.Json

structure Number where
  negative : Bool
  whole : List Nat
  fraction : Option (List Nat)
  exponent : Option (Bool × List Nat)
  deriving DecidableEq, Repr

namespace Number

def ofDigits (digits : List Nat) : Nat := digits.foldl (fun n d => n * 10 + d) 0

/-- The natural number that is written, unless a sign, a fraction or an exponent is written too. -/
def natural? (n : Number) : Option Nat :=
  match n.negative, n.fraction, n.exponent with
  | false, none, none => some (ofDigits n.whole)
  | _, _, _ => none

/-- Appends digits to a word of 64 bits while it can hold them; the second part is what is left. -/
def absorb : Nat → List Nat → Nat × List Nat
  | word, [] => (word, [])
  | word, d :: rest =>
    if word * 10 + d < UInt64.size then absorb (word * 10 + d) rest else (word, d :: rest)

/-- The nearest natural number that a double can hold, when the exponent is large enough; ties go
to the even significand. -/
def roundToDouble (n : Nat) : Nat :=
  let unit := 1 <<< (n.log2 - 52)
  let quotient := n / unit
  let remainder := n % unit
  let up := 2 * remainder > unit ∨ (2 * remainder = unit ∧ quotient % 2 = 1)
  (if up then quotient + 1 else quotient) * unit

def infinityBound : Nat := 1 <<< 1024 - 1 <<< 970

/-- The leading digits that fit into a word, and the power of ten that scales them. -/
def significand (n : Number) : Nat × Int :=
  let (word, left) := absorb 0 n.whole
  let digits := n.fraction.getD []
  let (word, unread) := absorb word digits
  let written : Int := match n.exponent with
    | none => 0
    | some (negative, digits) => if negative then -(ofDigits digits : Int) else ofDigits digits
  (word, (left.length : Int) - ((digits.length - unread.length : Nat) : Int) + written)

def inRange (n : Number) : Bool :=
  let (word, power) := n.significand
  word = 0 || power < 0 ||
    (power ≤ 308 && roundToDouble word * roundToDouble (Nat.pow 10 power.toNat) < infinityBound)

end Number
end Respell.Json
