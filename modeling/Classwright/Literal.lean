import Classwright.JavaType.Basic
import Classwright.Number.Ieee

/-!
# Literals

Constant values: the initial values of fields and the operands of constant loads.  Floats are
given by their bits.
-/

namespace Classwright

inductive Literal where
  | boolean (value : Bool)
  | byte (value : Int8)
  | short (value : Int16)
  | char (value : UInt16)
  | int (value : Int32)
  | long (value : Int64)
  | float (bits : UInt32)
  | double (bits : UInt64)
  | string (value : String)
  | null
  /-- The constant `name` of the enumeration `owner`. -/
  | enum (owner : ClassType) (name : String)
  | array (component : JavaType) (elements : List Literal)
  deriving Inhabited

namespace Literal

/-- The literal's own type; `null` counts as an object. -/
def type : Literal → JavaType
  | boolean _ => .boolean
  | byte _ => .byte
  | short _ => .short
  | char _ => .char
  | int _ => .int
  | long _ => .long
  | float _ => .float
  | double _ => .double
  | string _ => .string
  | null => .javaLangObject
  | enum owner _ => .object owner
  | array component _ => .array component

/-- Arrays and enumeration constants can only be the initial value of a field by running code. -/
def needsCode : Literal → Bool
  | enum .. | array .. => true
  | _ => false

mutual

/-- Equality, with floats compared as numbers. -/
protected def beq : Literal → Literal → Bool
  | boolean a, boolean b => a == b
  | byte a, byte b => a == b
  | short a, short b => a == b
  | char a, char b => a == b
  | int a, int b => a == b
  | long a, long b => a == b
  | float a, float b => Ieee.eq32 a b
  | double a, double b => Ieee.eq64 a b
  | string a, string b => a == b
  | null, null => true
  | enum a m, enum b n => a == b && m == n
  | array a xs, array b ys => a == b && Literal.beqList xs ys
  | _, _ => false

protected def beqList : List Literal → List Literal → Bool
  | [], [] => true
  | x :: xs, y :: ys => Literal.beq x y && Literal.beqList xs ys
  | _, _ => false

end

instance : BEq Literal := ⟨Literal.beq⟩

end Literal

end Classwright
