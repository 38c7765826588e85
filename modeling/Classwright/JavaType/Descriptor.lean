import Classwright.JavaType.Basic

/-!
# Descriptors and names of types

A descriptor is the form of a type in class files: a letter for a primitive, `L`, name and `;`
for a class, `[` before the component of an array.  A method descriptor lists the parameters in
parentheses and then the result.
-/

namespace Classwright.JavaType

def descriptorChars : JavaType → List Char
  | .primitive p => [p.letter]
  | .object c => 'L' :: (c.name.toList ++ [';'])
  | .array c => '[' :: descriptorChars c

/-- The type's descriptor, such as `[Ljava/lang/String;`. -/
def descriptor (t : JavaType) : String := String.ofList t.descriptorChars

/-- The name of the type in a class entry of the constant pool: the class name, or the descriptor
of any other type. -/
def internalName : JavaType → String
  | .object c => c.name
  | t => t.descriptor

/-- The name of the type in messages: dots between packages, and `[]` after a component. -/
def display : JavaType → String
  | .primitive p => p.name
  | .object c => c.name.map fun ch => if ch = '/' then '.' else ch
  | .array c => display c ++ "[]"

def methodDescriptorChars (parameters : List JavaType) (result : JavaType) : List Char :=
  '(' :: (parameters.flatMap descriptorChars ++ ')' :: result.descriptorChars)

/-- A method's descriptor, such as `(IJ)V`. -/
def methodDescriptor (parameters : List JavaType) (result : JavaType) : String :=
  String.ofList (methodDescriptorChars parameters result)

end Classwright.JavaType
