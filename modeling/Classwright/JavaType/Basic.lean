/-!
# Types

The types of fields, locals, parameters and results: primitives, classes and arrays.  A class
type carries the names of all its supertypes, as far as they are known where it is used; two class
types are the same when their names are.
-/

namespace Classwright

/-- The primitive types, and `void` for methods without a result. -/
inductive Primitive where
  | boolean
  | byte
  | char
  | short
  | int
  | long
  | float
  | double
  | void
  deriving DecidableEq

namespace Primitive

def letter : Primitive → Char
  | boolean => 'Z'
  | byte => 'B'
  | char => 'C'
  | short => 'S'
  | int => 'I'
  | long => 'J'
  | float => 'F'
  | double => 'D'
  | void => 'V'

def name : Primitive → String
  | boolean => "boolean"
  | byte => "byte"
  | char => "char"
  | short => "short"
  | int => "int"
  | long => "long"
  | float => "float"
  | double => "double"
  | void => "void"

def wrapper? : Primitive → Option String
  | boolean => some "java/lang/Boolean"
  | byte => some "java/lang/Byte"
  | char => some "java/lang/Character"
  | short => some "java/lang/Short"
  | int => some "java/lang/Integer"
  | long => some "java/lang/Long"
  | float => some "java/lang/Float"
  | double => some "java/lang/Double"
  | void => none

/-- `long` and `double` take two words. -/
def isWide : Primitive → Bool
  | long | double => true
  | _ => false

/-- Boxes of these types are numbers. -/
def isNumeric : Primitive → Bool
  | byte | short | int | long | float | double => true
  | _ => false

/-- Boxes of these types can describe themselves as constants. -/
def isConstantDesc : Primitive → Bool
  | int | long | float | double => true
  | _ => false

end Primitive

/-- A class or interface with the names of all its known supertypes. -/
structure ClassType where
  /-- The internal name, such as `java/lang/String`. -/
  name : String
  isInterface : Bool := false
  supertypes : List String := []
  deriving Inhabited

namespace ClassType

/-- Class types are compared by name. -/
instance : BEq ClassType where
  beq a b := a.name == b.name

def isSubtypeOf (c : ClassType) (name : String) : Bool :=
  c.name == name || c.supertypes.contains name

end ClassType

inductive JavaType where
  | primitive (p : Primitive)
  | object (c : ClassType)
  | array (component : JavaType)
  deriving Inhabited

namespace JavaType

abbrev boolean : JavaType := .primitive .boolean
abbrev byte : JavaType := .primitive .byte
abbrev char : JavaType := .primitive .char
abbrev short : JavaType := .primitive .short
abbrev int : JavaType := .primitive .int
abbrev long : JavaType := .primitive .long
abbrev float : JavaType := .primitive .float
abbrev double : JavaType := .primitive .double
abbrev void : JavaType := .primitive .void

def javaLangObject : JavaType := .object { name := "java/lang/Object" }

def string : JavaType :=
  .object
    { name := "java/lang/String"
      supertypes :=
        ["java/lang/Object", "java/io/Serializable", "java/lang/Comparable",
          "java/lang/CharSequence", "java/lang/constant/Constable",
          "java/lang/constant/ConstantDesc"] }

def boxedSupertypes (p : Primitive) : List String :=
  ["java/lang/Object", "java/io/Serializable", "java/lang/Comparable"] ++
    (if p.isNumeric then ["java/lang/Number"] else []) ++
    ["java/lang/constant/Constable"] ++
    (if p.isConstantDesc then ["java/lang/constant/ConstantDesc"] else [])

def boxed? (p : Primitive) : Option JavaType :=
  p.wrapper?.map fun name => .object { name, supertypes := boxedSupertypes p }

/-- Types are the same when they have the same shape and name the same classes. -/
protected def beq : JavaType → JavaType → Bool
  | .primitive p, .primitive q => p == q
  | .object c, .object d => c == d
  | .array s, .array t => JavaType.beq s t
  | _, _ => false

instance : BEq JavaType := ⟨JavaType.beq⟩

/-- A primitive type that has values. -/
def isPrimitive : JavaType → Bool
  | .primitive .void => false
  | .primitive _ => true
  | _ => false

def isVoid : JavaType → Bool
  | .primitive .void => true
  | _ => false

def isReference : JavaType → Bool
  | .primitive _ => false
  | _ => true

def isArray : JavaType → Bool
  | .array _ => true
  | _ => false

def isWide : JavaType → Bool
  | .primitive p => p.isWide
  | _ => false

/-- The words that a value takes in the locals or on the operand stack. -/
def width : JavaType → Nat
  | .primitive .void => 0
  | t => if t.isWide then 2 else 1

/-- The words that values of the given types take after `start` others.  They are counted in 16 bits;
there is no number if those do not suffice. -/
def countWords? (start : UInt16) (types : List JavaType) : Option UInt16 :=
  types.foldlM (fun words t =>
    if words.toNat + t.width < 65536 then some (words + UInt16.ofNat t.width) else none) start

def primitive? : JavaType → Option Primitive
  | .primitive p => some p
  | _ => none

def classType? : JavaType → Option ClassType
  | .object c => some c
  | _ => none

def component? : JavaType → Option JavaType
  | .array c => some c
  | _ => none

def arrayOf (t : JavaType) : Nat → JavaType
  | 0 => t
  | n + 1 => .array (arrayOf t n)

/-- Whether a value of the second type can be stored where the first is expected without any
conversion, judged by the recorded supertypes. -/
def accepts : JavaType → JavaType → Bool
  | .primitive p, .primitive q => p == q
  | .object target, .object source =>
    target.name == "java/lang/Object" || source.isSubtypeOf target.name
  | .object target, .array _ =>
    ["java/lang/Object", "java/lang/Cloneable", "java/io/Serializable"].contains target.name
  | .array target, .array source => accepts target source
  | _, _ => false

end JavaType

end Classwright
