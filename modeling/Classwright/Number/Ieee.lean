/-!
# Floating-point numbers as bit patterns

Floats are kept as their IEEE 754 bits, so that every pattern survives unchanged.  Comparison as
numbers is decided on the bits: a NaN equals nothing, and the two zeros are equal.
-/

namespace Classwright.Ieee

def isNaN32 (bits : UInt32) : Bool := bits.toNat % 0x80000000 > 0x7f800000

/-- Whether two 32-bit patterns are equal as numbers. -/
def eq32 (a b : UInt32) : Bool :=
  !isNaN32 a && !isNaN32 b &&
    (a == b || (a.toNat % 0x80000000 == 0 && b.toNat % 0x80000000 == 0))

def isNaN64 (bits : UInt64) : Bool := bits.toNat % 0x8000000000000000 > 0x7ff0000000000000

def eq64 (a b : UInt64) : Bool :=
  !isNaN64 a && !isNaN64 b &&
    (a == b || (a.toNat % 0x8000000000000000 == 0 && b.toNat % 0x8000000000000000 == 0))

end Classwright.Ieee
