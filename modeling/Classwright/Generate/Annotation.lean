import Classwright.Attribute.Body
import Classwright.Generate.Error

/-!
# Attributes and annotations of declarations

Annotations are stored with their texts and numbers in the pool.  Those that the running program
can see and those that it cannot go into separate attributes; annotations that end with the source
are left out.
-/

namespace Classwright

def AttributeBody.named (body : AttributeBody) (name : String) : Pooling Attribute := do
  let index ← pooled (Pool.utf8 name)
  return { name := index, body := body.encode }

/-- A list whose length a class file can record. -/
def bounded {α : Type} (limit : Limit) (items : List α) : Pooling (List α) :=
  if items.length ≤ 65535 then pure items else throw (.limitExceeded limit)

namespace AnnotationValue

mutual

/-- A value with everything it refers to in the pool. -/
def store : AnnotationValue → Pooling ElementValue
  | boolean b => return .const 0x5a (← pooled (Pool.integer (if b then 1 else 0)))
  | byte v => return .const 0x42 (← pooled (Pool.integer v.toInt32))
  | char v => return .const 0x43 (← pooled (Pool.integer (Int32.ofNat v.toNat)))
  | short v => return .const 0x53 (← pooled (Pool.integer v.toInt32))
  | int v => return .const 0x49 (← pooled (Pool.integer v))
  | long v => return .const 0x4a (← pooled (Pool.long v))
  | float bits => return .const 0x46 (← pooled (Pool.float bits))
  | double bits => return .const 0x44 (← pooled (Pool.double bits))
  | string s => return .const 0x73 (← pooled (Pool.utf8 s))
  | enum owner name => do
    let typeIndex ← pooled (Pool.utf8 (JavaType.object owner).descriptor)
    return .enum typeIndex (← pooled (Pool.utf8 name))
  | type t => return .classInfo (← pooled (Pool.utf8 t.descriptor))
  | array values => return .array (← storeValues values [])
  | nested interface _ elements => do
    let typeIndex ← pooled (Pool.utf8 (JavaType.object interface).descriptor)
    return .nested typeIndex (← storeElements elements [])

/-- Consecutive values, after the values before them, newest first. -/
def storeValues : List AnnotationValue → List ElementValue → Pooling (List ElementValue)
  | [], done => return done.reverse
  | v :: rest, done => do
    let stored ← store v
    storeValues rest (stored :: done)

def storeElements : List (String × AnnotationValue) → List (UInt16 × ElementValue) →
    Pooling (List (UInt16 × ElementValue))
  | [], done => return done.reverse
  | (name, v) :: rest, done => do
    let nameIndex ← pooled (Pool.utf8 name)
    let stored ← store v
    storeElements rest ((nameIndex, stored) :: done)

end

end AnnotationValue

structure KeptAnnotation where
  /-- Whether the running program can see it. -/
  visible : Bool
  stored : StoredAnnotation

namespace KeptAnnotation

/-- The annotations that the running program can see, or those that it cannot. -/
def withVisibility (visible : Bool) (kept : List KeptAnnotation) : List StoredAnnotation :=
  kept.filterMap fun k => if k.visible = visible then some k.stored else none

/-- The attribute for a list of annotations; none if there are no annotations. -/
def listAttribute (name : String) (annotations : List StoredAnnotation) :
    Pooling (List Attribute) :=
  if annotations.isEmpty then return []
  else do
    let annotations ← bounded .annotations annotations
    return [← (AttributeBody.annotations annotations).named name]

def attributes (kept : List KeptAnnotation) : Pooling (List Attribute) := do
  let visible ← listAttribute "RuntimeVisibleAnnotations" (withVisibility true kept)
  let invisible ← listAttribute "RuntimeInvisibleAnnotations" (withVisibility false kept)
  return visible ++ invisible

/-- The rows of a table with one row for each parameter.  The annotations of parameters that share a
slot, as those without a value do with the next one, all go to the first of them. -/
def rowsAfter (seen : List Nat) (all : List (Nat × List StoredAnnotation)) :
    List (Nat × List StoredAnnotation) → List (List StoredAnnotation)
  | [] => []
  | (slot, _) :: rest =>
    let row := if slot ∈ seen then [] else (all.filter (·.1 = slot)).flatMap (·.2)
    row :: rowsAfter (slot :: seen) all rest

def tableAttribute (name : String) (parameters : List (Nat × List StoredAnnotation)) :
    Pooling (List Attribute) :=
  if parameters.all (·.2.isEmpty) then return []
  else do
    let rows ← (rowsAfter [] parameters parameters).mapM (bounded .annotations)
    return [← (AttributeBody.parameterAnnotations rows).named name]

def parameterAttributes (parameters : List (Nat × List KeptAnnotation)) :
    Pooling (List Attribute) :=
  if parameters.length ≤ 255 then do
    let select (visible : Bool) := parameters.map fun p => (p.1, withVisibility visible p.2)
    let visible ← tableAttribute "RuntimeVisibleParameterAnnotations" (select true)
    let invisible ← tableAttribute "RuntimeInvisibleParameterAnnotations" (select false)
    return visible ++ invisible
  else throw (.limitExceeded .annotatedParameters)

end KeptAnnotation

namespace Annotation

def isKept (a : Annotation) : Bool := a.effectiveRetention != .source

def store (a : Annotation) : Pooling KeptAnnotation := do
  let type ← pooled (Pool.utf8 (JavaType.object a.type).descriptor)
  let elements ← AnnotationValue.storeElements a.elements []
  return { visible := a.effectiveRetention == .runtime, stored := { type, elements } }

def storeKept (annotations : List Annotation) : Pooling (List KeptAnnotation) :=
  (annotations.filter isKept).mapM store

end Annotation

end Classwright
