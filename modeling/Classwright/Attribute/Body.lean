import Classwright.Attribute.Code
import Classwright.Attribute.ElementValue
import Classwright.Attribute.StackMap

/-!
# Bodies by name

The attributes whose bodies have a known form.
-/

namespace Classwright

inductive AttributeBody where
  | code (code : Code)
  | constantValue (index : UInt16)
  | sourceFile (index : UInt16)
  | localVariables (table : List LocalVariable)
  | annotations (list : List StoredAnnotation)
  | parameterAnnotations (table : List (List StoredAnnotation))
  | stackMap (frames : List MapFrame)

namespace AttributeBody

def encode : AttributeBody → List UInt8
  | code c => c.encode
  | constantValue index => Bytes.u16 index
  | sourceFile index => Bytes.u16 index
  | localVariables table => Bytes.counted16 LocalVariable.encode table
  | annotations list => StoredAnnotation.encodeList list
  | parameterAnnotations table => StoredAnnotation.encodeTable table
  | stackMap frames => Bytes.counted16 MapFrame.encode frames

/-- The reader of the bodies of attributes with the given name. -/
def reader? (name : String) : Option (Reader AttributeBody) :=
  match name with
  | "Code" => some do return code (← Code.read)
  | "ConstantValue" => some do return constantValue (← Reader.u16)
  | "SourceFile" => some do return sourceFile (← Reader.u16)
  | "LocalVariableTable" => some do
    return localVariables (← Reader.counted16 LocalVariable.read)
  | "RuntimeVisibleAnnotations" | "RuntimeInvisibleAnnotations" => some do
    return annotations (← StoredAnnotation.readList)
  | "RuntimeVisibleParameterAnnotations" | "RuntimeInvisibleParameterAnnotations" => some do
    return parameterAnnotations (← StoredAnnotation.readTable)
  | "StackMapTable" => some do return stackMap (← Reader.counted16 MapFrame.read)
  | _ => none

/-- The body of an attribute with the given name; bytes after it are ignored. -/
def decode? (name : String) (bytes : List UInt8) : Option (Except DecodeError AttributeBody) :=
  (reader? name).map fun r => r.run bytes

end AttributeBody

end Classwright
