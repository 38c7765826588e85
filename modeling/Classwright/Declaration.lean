import Classwright.Annotation
import Classwright.Statement

/-!
# Declarations

Classes with their fields and methods, as given to the generator.
-/

namespace Classwright

structure FieldDecl where
  name : String
  modifiers : Modifiers := {}
  type : JavaType
  initial : Option Literal := none
  annotations : List Annotation := []
  deriving Inhabited

structure Parameter where
  name : String
  type : JavaType
  annotations : List Annotation := []
  deriving Inhabited

structure MethodDecl where
  name : String
  modifiers : Modifiers := {}
  parameters : List Parameter := []
  result : JavaType
  /-- Abstract and native methods have none. -/
  body : Option Body := none
  annotations : List Annotation := []
  deriving Inhabited

structure ClassDecl where
  this : ClassType
  modifiers : Modifiers := .publicAccess
  /-- Only the root of the hierarchy has none. -/
  super : Option ClassType := some { name := "java/lang/Object" }
  interfaces : List ClassType := []
  fields : List FieldDecl := []
  methods : List MethodDecl := []
  annotations : List Annotation := []
  sourceFile : Option String := none
  deriving Inhabited

namespace FieldDecl

def isStatic (f : FieldDecl) : Bool := f.modifiers.isStatic

def symbol (f : FieldDecl) (owner : ClassType) : FieldSymbol where
  owner := owner
  name := f.name
  modifiers := f.modifiers
  type := f.type

end FieldDecl

namespace MethodDecl

def isStatic (m : MethodDecl) : Bool := m.modifiers.isStatic

def isConstructor (m : MethodDecl) : Bool := m.name == constructorName

def isStaticInitializer (m : MethodDecl) : Bool := m.name == staticInitializerName

/-- A constructor that runs on an object. -/
def initializesThis (m : MethodDecl) : Bool := m.isConstructor && !m.isStatic

def descriptor (m : MethodDecl) : String :=
  JavaType.methodDescriptor (m.parameters.map Parameter.type) m.result

def symbol (m : MethodDecl) (owner : ClassType) : MethodSymbol where
  owner := owner
  name := m.name
  modifiers := m.modifiers
  parameters := m.parameters.map Parameter.type
  result := m.result

def target (m : MethodDecl) : Target := if m.isConstructor then .constructor else .method

end MethodDecl

namespace ClassDecl

def type (c : ClassDecl) : JavaType := .object c.this

def superName? (c : ClassDecl) : Option String := c.super.map ClassType.name

def target (c : ClassDecl) : Target :=
  if c.modifiers.isAnnotation then .annotationType else .type

/-- Whether a method is a constructor of this class or of its superclass. -/
def isOwnConstructor (c : ClassDecl) (m : MethodSymbol) : Bool :=
  m.isConstructor && (m.owner == c.this || c.superName? == some m.owner.name)

end ClassDecl

end Classwright
