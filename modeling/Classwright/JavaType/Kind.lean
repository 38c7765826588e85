import Classwright.JavaType.Basic

/-!
# Kinds

Instructions do not distinguish all types.  Arithmetic knows four kinds, the operand stack and the
locals know five, and array elements know nine.
-/

namespace Classwright

/-- The kinds of arithmetic; all types narrower than `int` are `int`s. -/
inductive NumKind where
  | int
  | long
  | float
  | double
  deriving DecidableEq

inductive Kind where
  | int
  | long
  | float
  | double
  | reference
  deriving DecidableEq

inductive ElemKind where
  | boolean
  | byte
  | char
  | short
  | int
  | long
  | float
  | double
  | reference
  deriving DecidableEq

namespace NumKind

def name : NumKind → String
  | int => "Int"
  | long => "Long"
  | float => "Float"
  | double => "Double"

def toKind : NumKind → Kind
  | int => .int
  | long => .long
  | float => .float
  | double => .double

end NumKind

namespace Kind

def name : Kind → String
  | int => "Int"
  | long => "Long"
  | float => "Float"
  | double => "Double"
  | reference => "Reference"

def isWide : Kind → Bool
  | long | double => true
  | _ => false

def width (k : Kind) : Nat := if k.isWide then 2 else 1

end Kind

namespace ElemKind

def name : ElemKind → String
  | boolean => "Boolean"
  | byte => "Byte"
  | char => "Char"
  | short => "Short"
  | int => "Int"
  | long => "Long"
  | float => "Float"
  | double => "Double"
  | reference => "Reference"

/-- The operand of the instruction that allocates an array of primitives. -/
def typeCode? : ElemKind → Option UInt8
  | boolean => some 4
  | char => some 5
  | float => some 6
  | double => some 7
  | byte => some 8
  | short => some 9
  | int => some 10
  | long => some 11
  | reference => none

end ElemKind

def Primitive.numKind? : Primitive → Option NumKind
  | .boolean | .byte | .char | .short | .int => some .int
  | .long => some .long
  | .float => some .float
  | .double => some .double
  | .void => none

namespace JavaType

def numKind? (t : JavaType) : Option NumKind := t.primitive?.bind Primitive.numKind?

/-- The kind of the values of a type; there is none for `void`. -/
def kind? (t : JavaType) : Option Kind :=
  if t.isReference then some .reference else t.numKind?.map NumKind.toKind

def elemKind? : JavaType → Option ElemKind
  | .primitive p =>
    match p with
    | .boolean => some .boolean
    | .byte => some .byte
    | .char => some .char
    | .short => some .short
    | .int => some .int
    | .long => some .long
    | .float => some .float
    | .double => some .double
    | .void => none
  | _ => some .reference

end JavaType

end Classwright
