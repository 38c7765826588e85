import Classwright.Generate.Error
import Classwright.Instruction.Basic
import Classwright.JavaType.Descriptor

/-!
# Conversions that statements do not spell out

The result of a call is unboxed when it is stored into a primitive local, and a returned reference
is cast to the declared type.
-/

namespace Classwright.JavaType

/-- The supertypes of boxes as which a box may be known and still be unboxed. -/
def unboxable : List String :=
  ["java/lang/Object", "java/lang/Number", "java/lang/Comparable", "java/io/Serializable",
    "java/lang/constant/Constable", "java/lang/constant/ConstantDesc"]

/-- Whether a value of the first type may be the box of a value of the second. -/
def mayBox (source target : JavaType) : Bool :=
  match source.classType?, target.primitive?.bind boxed? with
  | some c, some box =>
    c.name == box.internalName || (unboxable.contains c.name && source.accepts box)
  | _, _ => false

def unbox (p : Primitive) : Pooling (List Instr) :=
  match p.wrapper? with
  | none => throw (.cannotUnbox (.primitive p))
  | some wrapper => do
    let box ← pooled (Pool.classInfo wrapper)
    let method ←
      pooled (Pool.methodRef wrapper (p.name ++ "Value") (methodDescriptor [] (.primitive p)))
    return [.checkCast box, .invokeVirtual method]

/-- Turns the result of a call into a value for a local of the second type. -/
def adaptResult (source target : JavaType) : Pooling (List Instr) :=
  if source.isVoid then throw (.resultTypeMismatch source target)
  else if source.isReference then
    match target with
    | .primitive p =>
      if mayBox source target then unbox p
      else if p = .void then throw (.cannotUnbox target)
      else throw (.resultTypeMismatch source target)
    | _ => return []
  else if source.kind? = target.kind? then return []
  else throw (.resultTypeMismatch source target)

def castReturn (declared : JavaType) : Pooling (List Instr) :=
  if declared.isReference then
    return [.checkCast (← pooled (Pool.classInfo declared.internalName))]
  else return []

end Classwright.JavaType
