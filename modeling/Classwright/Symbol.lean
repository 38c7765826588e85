import Classwright.JavaType.Descriptor

/-!
# Members as seen by the code that uses them

Modifiers are kept as the bits in which they are declared; a field or method symbol is what a
statement needs to know to access the member.
-/

namespace Classwright

structure Modifiers where
  bits : UInt16 := 0
  deriving DecidableEq, Inhabited

namespace Modifiers

def publicAccess : Modifiers := ⟨0x0001⟩

/-- Whether any of the given bits is set. -/
def has (m : Modifiers) (mask : UInt16) : Bool := m.bits &&& mask != 0

def isStatic (m : Modifiers) : Bool := m.has 0x0008
def isInterface (m : Modifiers) : Bool := m.has 0x0200
def isAnnotation (m : Modifiers) : Bool := m.has 0x2000

/-- Abstract and native methods have no code. -/
def hasNoCode (m : Modifiers) : Bool := m.has 0x0500

/-- The modifiers of a class that its file records: public, final, interface, abstract, synthetic,
annotation and enum; every class that is no interface is also marked for modern super calls. -/
def classFlags (m : Modifiers) : UInt16 :=
  (m.bits &&& 0x7611) ||| (if m.isInterface then 0 else 0x0020)

def fieldFlags (m : Modifiers) : UInt16 := m.bits &&& 0x50df

def methodFlags (m : Modifiers) : UInt16 := m.bits &&& 0x1dff

end Modifiers

def constructorName : String := "<init>"

def staticInitializerName : String := "<clinit>"

structure FieldSymbol where
  owner : ClassType
  name : String
  modifiers : Modifiers := {}
  type : JavaType
  deriving Inhabited

structure MethodSymbol where
  owner : ClassType
  name : String
  modifiers : Modifiers := {}
  parameters : List JavaType
  result : JavaType
  deriving Inhabited

instance : BEq FieldSymbol where
  beq a b :=
    a.owner == b.owner && a.name == b.name && a.modifiers == b.modifiers && a.type == b.type

instance : BEq MethodSymbol where
  beq a b :=
    a.owner == b.owner && a.name == b.name && a.modifiers == b.modifiers &&
      a.parameters == b.parameters && a.result == b.result

def FieldSymbol.isStatic (f : FieldSymbol) : Bool := f.modifiers.isStatic

namespace MethodSymbol

def constructor (owner : ClassType) (parameters : List JavaType) : MethodSymbol where
  owner := owner
  name := constructorName
  modifiers := .publicAccess
  parameters := parameters
  result := .void

def isStatic (m : MethodSymbol) : Bool := m.modifiers.isStatic

def isConstructor (m : MethodSymbol) : Bool := m.name == constructorName

def descriptor (m : MethodSymbol) : String :=
  JavaType.methodDescriptor m.parameters m.result

/-- The words taken by the arguments without the receiver. -/
def argumentWords? (m : MethodSymbol) : Option UInt16 := JavaType.countWords? 0 m.parameters

/-- The words taken by the receiver and the arguments. -/
def callWords? (m : MethodSymbol) : Option UInt16 := do
  let words ← m.argumentWords?
  if words.toNat + 1 < 65536 then some (1 + words) else none

end MethodSymbol

end Classwright
