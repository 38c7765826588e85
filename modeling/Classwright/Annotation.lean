import Classwright.JavaType.Basic
import Classwright.Number.Ieee

/-!
# Annotations

An annotation has a type, a retention and named element values; element values may hold lists
and further annotations.
-/

namespace Classwright

/-- How far an annotation is kept. -/
inductive Retention where
  /-- Dropped when the class file is written. -/
  | source
  /-- Kept in the class file. -/
  | classFile
  /-- Kept and visible to the running program. -/
  | runtime
  deriving DecidableEq

inductive AnnotationValue where
  | boolean (value : Bool)
  | byte (value : Int8)
  | char (value : UInt16)
  | short (value : Int16)
  | int (value : Int32)
  | long (value : Int64)
  | float (bits : UInt32)
  | double (bits : UInt64)
  | string (value : String)
  | enum (type : ClassType) (name : String)
  | type (value : JavaType)
  | array (values : List AnnotationValue)
  | nested (type : ClassType) (retention : Option Retention)
      (elements : List (String × AnnotationValue))
  deriving Inhabited

structure Annotation where
  type : ClassType
  /-- Where none is given the annotation is kept in the class file. -/
  retention : Option Retention := none
  elements : List (String × AnnotationValue) := []
  deriving Inhabited

/-- The kinds of declarations that carry annotations. -/
inductive Target where
  | type
  | annotationType
  | field
  | method
  | constructor
  | parameter
  deriving DecidableEq

def Annotation.effectiveRetention (a : Annotation) : Retention :=
  a.retention.getD .classFile

namespace AnnotationValue

mutual

/-- Equality, with floats compared as numbers. -/
protected def beq : AnnotationValue → AnnotationValue → Bool
  | boolean a, boolean b => a == b
  | byte a, byte b => a == b
  | char a, char b => a == b
  | short a, short b => a == b
  | int a, int b => a == b
  | long a, long b => a == b
  | float a, float b => Ieee.eq32 a b
  | double a, double b => Ieee.eq64 a b
  | string a, string b => a == b
  | enum a m, enum b n => a == b && m == n
  | type a, type b => a == b
  | array xs, array ys => AnnotationValue.beqList xs ys
  | nested a r es, nested b s fs => a == b && r == s && AnnotationValue.beqElements es fs
  | _, _ => false

protected def beqList : List AnnotationValue → List AnnotationValue → Bool
  | [], [] => true
  | x :: xs, y :: ys => AnnotationValue.beq x y && AnnotationValue.beqList xs ys
  | _, _ => false

protected def beqElements :
    List (String × AnnotationValue) → List (String × AnnotationValue) → Bool
  | [], [] => true
  | (m, x) :: xs, (n, y) :: ys =>
    m == n && AnnotationValue.beq x y && AnnotationValue.beqElements xs ys
  | _, _ => false

end

instance : BEq AnnotationValue := ⟨AnnotationValue.beq⟩

end AnnotationValue

instance : BEq Annotation where
  beq a b := a.type == b.type && a.retention == b.retention && a.elements == b.elements

namespace Retention

def name : Retention → String
  | source => "Source"
  | classFile => "Class"
  | runtime => "Runtime"

end Retention

namespace Target

def name : Target → String
  | type => "Type"
  | annotationType => "AnnotationType"
  | field => "Field"
  | method => "Method"
  | constructor => "Constructor"
  | parameter => "Parameter"

end Target

end Classwright
