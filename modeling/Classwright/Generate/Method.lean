import Classwright.ClassFile.Basic
import Classwright.Generate.Annotation
import Classwright.Generate.Statement

/-!
# Generation of methods

The code of a method is that of its statements, with what the declaration leaves open in front and
behind: a constructor first calls that of the superclass, a static initializer first fills the
fields whose values need code, and a method without result returns at its end.
-/

namespace Classwright

/-- The version of the class file and the tables that are written for code. -/
structure Options where
  major : UInt16 := 52
  minor : UInt16 := 0
  /-- Whether stack maps are written. -/
  frames : Bool := true
  /-- Whether the names of locals are written. -/
  localNames : Bool := true

/-- Class files before version 50 have no stack maps. -/
def Options.writesFrames (o : Options) : Bool := o.frames && o.major ≥ 50

/-- A static field with a value that only code can give it. -/
structure Initializer where
  field : String
  type : JavaType
  value : Literal

namespace Lower

def allocate (parameters : List Local) : Lower Unit := fun ⟨pool, slots⟩ =>
  match slots.allocateAll parameters with
  | .error e => .error e
  | .ok slots => .ok ((), ⟨pool, slots⟩)

/-- Whether a body starts with a call of a constructor of its class or of the superclass. -/
def startsWithConstructor (owner : ClassDecl) (body : Body) : Bool :=
  match body.statements with
  | .invoke m .. :: _ => owner.isOwnConstructor m
  | _ => false

/-- The call of the superclass's constructor with which a constructor starts, if it has no such call
of its own. -/
def chain (owner : ClassDecl) (method : MethodDecl) (body : Body) : Lower (List Item) :=
  if method.initializesThis && !startsWithConstructor owner body then
    match owner.super with
    | none => return []
    | some super => do
      let init := MethodSymbol.constructor super []
      let index ← constant (Pool.methodRef super.name init.name init.descriptor)
      return [.op (.loadSlot .reference 0), .initThis (.invokeSpecial index)]
  else return []

def fillField (owner : ClassDecl) (i : Initializer) : Lower (List Item) := do
  let pushed ← pooling i.value.push
  let index ← constant (Pool.fieldRef owner.this.name i.field i.type.descriptor)
  return pushed.map .op ++ [.op (.field .putStatic index)]

/-- What ends a body that does not end in a return. -/
def finalReturn (method : MethodDecl) (body : Body) : Lower (List Item) :=
  match body.statements.getLast? with
  | some (.ret _) => return []
  | _ =>
    if method.result.isVoid then return [.op .returnVoid] else throw (.missingReturn method.name)

/-- The code of a method, to which the given fields are left to initialize. -/
def body (owner : ClassDecl) (method : MethodDecl) (b : Body) (fields : List Initializer) :
    Lower (List Item) := do
  allocate b.parameters
  let chained ← chain owner method b
  let initialized ← fields.mapM (fillField owner)
  let ctx := { owner, method, labels := Std.HashSet.ofList b.labels : MethodContext }
  let code ← statements ctx b.statements
  let final ← finalReturn method b
  return chained ++ initialized.flatten ++ code ++ final

end Lower

def VerificationType.ofType (t : JavaType) : Pooling VerificationType :=
  match t.kind? with
  | some .reference => return .object (← pooled (Pool.classInfo t.internalName))
  | some .int => return .integer
  | some .long => return .long
  | some .float => return .float
  | some .double => return .double
  | none => return .top

namespace Layout

/-- The declared types of locals by slot, where the given locals are entered into `types`. -/
def declare {w : Nat} (types : Locals w) : List (Local × UInt16) → Pooling (Locals w)
  | [] => return types
  | (l, slot) :: rest => do
    let type ← VerificationType.ofType l.type
    declare (types.setIfInBounds slot.toNat type) rest

/-- The types on entry: only parameters have values. -/
def entryOf {w : Nat} (declared : Locals w) (slots : Slots) (parameters : List Local) : Locals w :=
  parameters.foldl
    (fun entry l =>
      match slots.lookup l with
      | .ok slot => entry.setIfInBounds slot.toNat (declared[slot.toNat]?.getD .top)
      | .error _ => entry)
    (Vector.replicate w .top)

def ofSlots (owner : ClassDecl) (method : MethodDecl) (b : Body) (slots : Slots) :
    Pooling Layout := do
  let declared ← declare (Vector.replicate slots.next.toNat .top) slots.locals.toList
  let entry := entryOf declared slots b.parameters
  if method.initializesThis then
    let this ← pooled (Pool.classInfo owner.this.name)
    return {
      width := slots.next.toNat
      entry := entry.setIfInBounds 0 .uninitializedThis
      declared
      initializedThis := some (.object this) }
  else return { width := slots.next.toNat, entry, declared }

end Layout

namespace MethodDecl

/-- The entry for a local that lives in all of the code. -/
def localVariable (length : UInt16) (l : Local × UInt16) : Pooling LocalVariable := do
  let name ← pooled (Pool.utf8 l.1.name)
  let descriptor ← pooled (Pool.utf8 l.1.type.descriptor)
  return { start := 0, length, name, descriptor, slot := l.2 }

def localTable (length : UInt16) (slots : Slots) : Pooling (List Attribute) :=
  if slots.locals.isEmpty then return []
  else do
    let table ← slots.locals.toList.mapM (localVariable length)
    return [← (AttributeBody.localVariables table).named "LocalVariableTable"]

def stackMap (frames : List MapFrame) : Pooling (List Attribute) :=
  if frames.isEmpty then return []
  else return [← (AttributeBody.stackMap frames).named "StackMapTable"]

def lower (owner : ClassDecl) (m : MethodDecl) (b : Body) (fields : List Initializer) :
    Pooling (List Item × Slots) := fun pool =>
  match Lower.body owner m b fields ⟨pool, {}⟩ with
  | .error e => .error e
  | .ok (items, ⟨pool, slots⟩) => .ok ((items, slots), pool)

/-- The layout of a method's slots, if stack maps are written. -/
def layout? (options : Options) (owner : ClassDecl) (m : MethodDecl) (b : Body) (slots : Slots) :
    Pooling (Option Layout) :=
  if options.writesFrames then some <$> Layout.ofSlots owner m b slots else pure none

def nameAttributes (options : Options) (length : Nat) (slots : Slots) : Pooling (List Attribute) :=
  if options.localNames then localTable (UInt16.ofNat length) slots else pure []

def codeAttribute (options : Options) (owner : ClassDecl) (m : MethodDecl) (b : Body)
    (fields : List Initializer) : Pooling Attribute := do
  let (items, slots) ← m.lower owner b fields
  let layout? ← m.layout? options owner b slots
  let assembly ← Assembly.ofItems items layout?
  let code := Instr.encodeAll assembly.code
  let names ← nameAttributes options code.length slots
  let frames ← stackMap assembly.frames
  let body : Code :=
    { maxStack := assembly.maxStack
      maxLocals := slots.next
      code
      attributes := names ++ frames }
  (AttributeBody.code body).named "Code"

def body? (m : MethodDecl) : Option Body := if m.modifiers.hasNoCode then none else m.body

def slotsFrom (next : Nat) (done : List Nat) : List Parameter → List Nat
  | [] => done.reverse
  | p :: rest => slotsFrom (next + p.type.width) (next :: done) rest

/-- The slots at which the arguments arrive; the receiver comes first. -/
def parameterSlots (m : MethodDecl) : List Nat :=
  slotsFrom (if m.isStatic then 0 else 1) [] m.parameters

/-- Breaks off unless 16 bits can hold the slots of the arguments and the one after them.  The slots are
plain numbers elsewhere because of this. -/
def checkSlots (m : MethodDecl) : Pooling Unit :=
  match JavaType.countWords? (if m.isStatic then 0 else 1) (m.parameters.map (·.type)) with
  | some _ => pure ()
  | none => throw .overflow

def codeAttributes (options : Options) (owner : ClassDecl) (fields : List Initializer)
    (m : MethodDecl) : Pooling (List Attribute) :=
  match m.body? with
  | none => return []
  | some b => return [← m.codeAttribute options owner b fields]

/-- The method of the class file; the given fields are initialized by its code. -/
def generate (options : Options) (owner : ClassDecl) (fields : List Initializer) (m : MethodDecl) :
    Pooling Member := do
  let code ← m.codeAttributes options owner fields
  m.checkSlots
  let kept ← Annotation.storeKept m.annotations
  let keptByParameter ← m.parameters.mapM fun p => Annotation.storeKept p.annotations
  let own ← KeptAnnotation.attributes kept
  let ofParameters ← KeptAnnotation.parameterAttributes (m.parameterSlots.zip keptByParameter)
  let name ← pooled (Pool.utf8 m.name)
  let descriptor ← pooled (Pool.utf8 m.descriptor)
  let attributes ← bounded .methodAttributes (code ++ own ++ ofParameters)
  return { flags := m.modifiers.methodFlags, name, descriptor, attributes }

end MethodDecl

end Classwright
