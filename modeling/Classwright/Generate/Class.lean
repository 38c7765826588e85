import Classwright.ClassFile.Codec
import Classwright.Generate.Method

/-!
# Generation of classes

The members of a declared class in order, with the pool that grows along the way.  Arrays and enum
constants cannot be stored as the values of fields; they are left to the static initializer, which
is added where the class declares none.
-/

namespace Classwright

namespace FieldDecl

/-- The pool index of a value that the class file stores with the field; none for `null`, with
which every reference starts. -/
def constantValue? : Literal → Pooling (Option UInt16)
  | .boolean b => some <$> pooled (Pool.integer (if b then 1 else 0))
  | .byte v => some <$> pooled (Pool.integer v.toInt32)
  | .short v => some <$> pooled (Pool.integer v.toInt32)
  | .char v => some <$> pooled (Pool.integer (Int32.ofNat v.toNat))
  | .int v => some <$> pooled (Pool.integer v)
  | .long v => some <$> pooled (Pool.long v)
  | .float bits => some <$> pooled (Pool.float bits)
  | .double bits => some <$> pooled (Pool.double bits)
  | .string s => some <$> pooled (Pool.string s)
  | .null | .enum .. | .array .. => pure none

def valueAttribute (f : FieldDecl) : Pooling (List Attribute) :=
  match f.initial with
  | none => return []
  | some value =>
    if value.needsCode then
      if f.isStatic then return [] else throw (.nonStaticInitializer f.name)
    else do
      match ← constantValue? value with
      | none => return []
      | some index => return [← (AttributeBody.constantValue index).named "ConstantValue"]

def generate (f : FieldDecl) : Pooling Member := do
  let value ← f.valueAttribute
  let kept ← Annotation.storeKept f.annotations
  let annotations ← KeptAnnotation.attributes kept
  let name ← pooled (Pool.utf8 f.name)
  let descriptor ← pooled (Pool.utf8 f.type.descriptor)
  let attributes ← bounded .fieldAttributes (value ++ annotations)
  return { flags := f.modifiers.fieldFlags, name, descriptor, attributes }

end FieldDecl

namespace ClassDecl

/-- The type of the last field with each name. -/
def fieldTypes (c : ClassDecl) : Std.HashMap String JavaType :=
  c.fields.foldl (fun types f => types.insert f.name f.type) {}

/-- The fields whose values need code.  Where fields share a name the last one is meant. -/
def initializers (c : ClassDecl) : List Initializer :=
  let types := c.fieldTypes
  c.fields.filterMap fun f =>
    match f.initial with
    | none => none
    | some value =>
      if value.needsCode then some ⟨f.name, types[f.name]?.getD f.type, value⟩ else none

/-- The static initializer of a class that declares none. -/
def addedInitializer : MethodDecl where
  name := staticInitializerName
  modifiers := ⟨0x0008⟩
  result := .void
  body := some {}

def allMethods (c : ClassDecl) : List MethodDecl :=
  if c.initializers.isEmpty || c.methods.any MethodDecl.isStaticInitializer then c.methods
  else c.methods ++ [addedInitializer]

/-- The methods of the class file, after those already generated, newest first.  The first static
initializer with code initializes the given fields. -/
def generateMethods (options : Options) (c : ClassDecl) (fields : List Initializer)
    (done : List Member) : List MethodDecl → Pooling (List Member)
  | [] => return done.reverse
  | m :: rest => do
    if m.isStaticInitializer && m.body?.isSome then
      let member ← m.generate options c fields
      generateMethods options c [] (member :: done) rest
    else
      let member ← m.generate options c []
      generateMethods options c fields (member :: done) rest

def sourceAttribute (c : ClassDecl) : Pooling (List Attribute) :=
  match c.sourceFile with
  | none => return []
  | some file => do
    let index ← pooled (Pool.utf8 file)
    return [← (AttributeBody.sourceFile index).named "SourceFile"]

/-- The pool index of the superclass; zero if there is none. -/
def superIndex (c : ClassDecl) : Pooling UInt16 :=
  match c.super with
  | none => pure 0
  | some super => pooled (Pool.classInfo super.name)

def build (options : Options) (c : ClassDecl) : Pooling ClassFile := do
  let this ← pooled (Pool.classInfo c.this.name)
  let super ← c.superIndex
  let interfaces ← c.interfaces.mapM fun i => pooled (Pool.classInfo i.name)
  let kept ← Annotation.storeKept c.annotations
  let fields ← c.fields.mapM FieldDecl.generate
  let methods ← generateMethods options c c.initializers [] c.allMethods
  let source ← c.sourceAttribute
  let annotations ← KeptAnnotation.attributes kept
  return {
    minor := options.minor
    major := options.major
    poolCount := 0
    pool := #[]
    flags := c.modifiers.classFlags
    this
    super
    interfaces := ← bounded .interfaces interfaces
    fields := ← bounded .fields fields
    methods := ← bounded .methods methods
    attributes := ← bounded .classAttributes (source ++ annotations) }

def generate (c : ClassDecl) (options : Options := {}) : Except GenerateError ClassFile :=
  match c.build options {} with
  | .error e => .error e
  | .ok (file, pool) => .ok { file with poolCount := pool.count, pool := pool.entries }

end ClassDecl

end Classwright
