import Classwright.JavaType.Kind

/-!
# Numbers

The values of primitive types as bit patterns, with the arithmetic of 32- and 64-bit integers.
Arithmetic on floating-point numbers is left open: a floating-point unit is any choice of the
operations on bit patterns, and what is proved holds for each.
-/

namespace Classwright

inductive Number where
  | int (bits : BitVec 32)
  | long (bits : BitVec 64)
  | float (bits : BitVec 32)
  | double (bits : BitVec 64)
  deriving DecidableEq

structure FloatFormat (w : Nat) where
  add : BitVec w → BitVec w → BitVec w
  sub : BitVec w → BitVec w → BitVec w
  mul : BitVec w → BitVec w → BitVec w
  div : BitVec w → BitVec w → BitVec w
  rem : BitVec w → BitVec w → BitVec w
  neg : BitVec w → BitVec w
  /-- The order of two numbers; they are unordered if one is a NaN. -/
  compare : BitVec w → BitVec w → Option Ordering

/-- Arithmetic on floats and doubles, with the conversions from and to integers. -/
structure FloatUnit where
  single : FloatFormat 32
  double : FloatFormat 64
  intToSingle : BitVec 32 → BitVec 32
  intToDouble : BitVec 32 → BitVec 64
  longToSingle : BitVec 64 → BitVec 32
  longToDouble : BitVec 64 → BitVec 64
  singleToInt : BitVec 32 → BitVec 32
  singleToLong : BitVec 32 → BitVec 64
  singleToDouble : BitVec 32 → BitVec 64
  doubleToInt : BitVec 64 → BitVec 32
  doubleToLong : BitVec 64 → BitVec 64
  doubleToSingle : BitVec 64 → BitVec 32

/-- What an operation on numbers gives; division of integers by zero traps. -/
inductive Answer where
  | value (n : Number)
  | trap
  deriving DecidableEq

inductive Outcome where
  | returned (n : Number)
  | finished
  | trapped
  deriving DecidableEq

inductive Effect (σ : Type) where
  /-- Goes on with what follows. -/
  | next (s : σ)
  /-- Goes on where the step branches to. -/
  | branch (s : σ)
  | stop (outcome : Outcome)

namespace Number

def kind : Number → Kind
  | int _ => .int
  | long _ => .long
  | float _ => .float
  | double _ => .double

end Number

namespace Integer

variable {w : Nat}

/-- The quotient rounded towards zero; none by zero. -/
def div (a b : BitVec w) : Option (BitVec w) := if b = 0 then none else some (a.sdiv b)

/-- The remainder with the sign of the dividend; none by zero. -/
def rem (a b : BitVec w) : Option (BitVec w) := if b = 0 then none else some (a.srem b)

/-- Shifts to the left; only the bits of the count that are less than the width matter. -/
def shl (a : BitVec w) (count : BitVec 32) : BitVec w := a <<< (count.toNat % w)

def shr (a : BitVec w) (count : BitVec 32) : BitVec w := a.sshiftRight (count.toNat % w)

def ushr (a : BitVec w) (count : BitVec 32) : BitVec w := a >>> (count.toNat % w)

def narrow (bits : Nat) (a : BitVec w) : BitVec w := (a.setWidth bits).signExtend w

def order (a b : BitVec w) : Ordering :=
  if a.toInt < b.toInt then .lt else if a.toInt = b.toInt then .eq else .gt

end Integer

def Answer.ofBits {w : Nat} (make : BitVec w → Number) : Option (BitVec w) → Answer
  | some bits => .value (make bits)
  | none => .trap

end Classwright
