import Classwright.Generate.Assembly
import Classwright.Generate.Conversion
import Classwright.Generate.Literal
import Classwright.Generate.Slots
import Std.Data.HashSet

/-!
# Code of statements

One rule for each kind of statement.  Every rule leaves the operand stack as it was: values end in
locals or are used up by a branch, return or store.
-/

namespace Classwright

/-- What the code of a method grows with. -/
structure Lowering where
  pool : Pool := {}
  slots : Slots := {}

abbrev Lower := StateT Lowering (Except GenerateError)

structure MethodContext where
  owner : ClassDecl
  method : MethodDecl
  /-- The labels that the body declares. -/
  labels : Std.HashSet Label

namespace Lower

def pooling {α : Type} (action : Pooling α) : Lower α := fun ⟨pool, slots⟩ =>
  match action pool with
  | .error e => .error e
  | .ok (a, pool) => .ok (a, ⟨pool, slots⟩)

def constant {α : Type} (action : Interning α) : Lower α := pooling (pooled action)

def kindOf (t : JavaType) : Lower Kind :=
  match t.kind? with
  | some k => pure k
  | none => throw (.unsupportedOperation .value t.display)

def slotOf (l : Local) : Lower UInt16 := fun s =>
  match s.slots.lookup l with
  | .error e => .error e
  | .ok slot => .ok (slot, s)

/-- The slot of a local that is assigned now. -/
def slotForStore (l : Local) : Lower UInt16 := fun ⟨pool, slots⟩ =>
  match Slots.forStore l slots with
  | (.error e, _) => .error e
  | (.ok slot, slots) => .ok (slot, ⟨pool, slots⟩)

def load (l : Local) : Lower Item := do
  let slot ← slotOf l
  let kind ← kindOf l.type
  return .op (.loadSlot kind slot)

def store (l : Local) : Lower Item := do
  let kind ← kindOf l.type
  let slot ← slotForStore l
  return .op (.storeSlot kind slot)

def declaredLabel (ctx : MethodContext) (label : Label) : Lower Label :=
  if ctx.labels.contains label then pure label else throw (.unknownLabel label)

/-- The object on which an instance member is used. -/
def receiverOf (receiver : Option Local) (operation : Operation) (owner : ClassType) :
    Lower Local :=
  match receiver with
  | some l => pure l
  | none => throw (.unsupportedOperation operation owner.name)

def callInstr (m : MethodSymbol) (isSuper : Bool) : Lower Instr :=
  if m.isStatic then
    if m.owner.isInterface then
      return .invokeStatic
        (← constant (Pool.interfaceMethodRef m.owner.name m.name m.descriptor))
    else return .invokeStatic (← constant (Pool.methodRef m.owner.name m.name m.descriptor))
  else if m.owner.isInterface then
    match m.callWords? with
    | some count =>
      if count.toNat ≤ 255 then
        return .invokeInterface
          (← constant (Pool.interfaceMethodRef m.owner.name m.name m.descriptor)) count.toUInt8 0
      else throw (.limitExceeded .interfaceArguments)
    | none => throw .overflow
  else if m.isConstructor || isSuper then
    return .invokeSpecial (← constant (Pool.methodRef m.owner.name m.name m.descriptor))
  else return .invokeVirtual (← constant (Pool.methodRef m.owner.name m.name m.descriptor))

def useResult (type : JavaType) (result : Option Local) : Lower (List Item) :=
  match result with
  | some target => do
    let adapted ← pooling (type.adaptResult target.type)
    return adapted.map .op ++ [← store target]
  | none =>
    match type.width with
    | 0 => return []
    | 1 => return [.op .pop]
    | _ => return [.op .pop2]

/-- Whether a call on the object in slot 0 initializes the receiver of the method. -/
def initializesThis (ctx : MethodContext) (m : MethodSymbol) : Bool :=
  ctx.method.initializesThis && ctx.owner.isOwnConstructor m

def invoke (ctx : MethodContext) (m : MethodSymbol) (receiver : Option Local)
    (arguments : List Local) (result : Option Local) (isSuper : Bool) : Lower (List Item) :=
  if m.isStatic then do
    let pushed ← arguments.mapM load
    let call ← callInstr m isSuper
    let used ← useResult m.result result
    return pushed ++ .op call :: used
  else do
    let receiver ← receiverOf receiver (.call m.name) m.owner
    let slot ← slotOf receiver
    let object ← load receiver
    let pushed ← arguments.mapM load
    let call ← callInstr m isSuper
    let marked := if slot = 0 && initializesThis ctx m then Item.initThis call else .op call
    let used ← useResult m.result result
    return object :: (pushed ++ marked :: used)

def fieldIndex (f : FieldSymbol) : Lower UInt16 :=
  constant (Pool.fieldRef f.owner.name f.name f.type.descriptor)

def getField (f : FieldSymbol) (receiver : Option Local) (target : Local) : Lower (List Item) := do
  let index ← fieldIndex f
  if f.isStatic then return [.op (.field .getStatic index), ← store target]
  else
    let object ← load (← receiverOf receiver (.fieldAccess f.name) f.owner)
    return [object, .op (.field .getField index), ← store target]

def putField (f : FieldSymbol) (receiver : Option Local) (value : Local) : Lower (List Item) := do
  let index ← fieldIndex f
  if f.isStatic then return [← load value, .op (.field .putStatic index)]
  else
    let object ← load (← receiverOf receiver (.fieldAccess f.name) f.owner)
    return [object, ← load value, .op (.field .putField index)]

def binary (op : BinaryOp) (left right result : Local) : Lower (List Item) :=
  match left.type.numKind?.bind (Instr.binary? op) with
  | none => throw (.unsupportedOperation (.binary op) left.type.display)
  | some instr => do
    let a ← load left
    let b ← load right
    return [a, b, .op instr, ← store result]

/-- The complement of an integer: there is no instruction for it, so all bits are flipped by
exclusive or. -/
def complement (kind : NumKind) (type : JavaType) : Lower (List Item) :=
  match kind with
  | .int => return [.op (.iconst (residue 6 0)), .op (.bit .xor .int)]
  | .long => return [.op (.ldc2W (← constant (Pool.long (-1)))), .op (.bit .xor .long)]
  | .float | .double => throw (.unsupportedOperation (.unary .complement) type.display)

def unary (op : UnaryOp) (operand result : Local) : Lower (List Item) :=
  match operand.type.numKind? with
  | none => throw (.unsupportedOperation (.unary op) operand.type.display)
  | some kind => do
    let a ← load operand
    let changed ←
      match op with
      | .negate => pure [Item.op (.neg kind)]
      | .complement => complement kind operand.type
    return a :: (changed ++ [← store result])

def castInstr? (source target : JavaType) : Option Instr := do
  let kind ← source.numKind?
  let p ← target.primitive?
  Instr.cast? kind p

def cast (source target : Local) : Lower (List Item) :=
  match castInstr? source.type target.type with
  | none => throw (.noConversionPath source.type target.type)
  | some instr => do
    let a ← load source
    return [a, .op instr, ← store target]

def compare (ctx : MethodContext) (op : Comparison) (left right : Local) (label : Label) :
    Lower (List Item) := do
  let label ← declaredLabel ctx label
  if left.type.isReference then
    match Jump.ifSame? op with
    | none => throw (.unsupportedComparison op left.type)
    | some jump => return [← load left, ← load right, .branch jump label]
  else
    match left.type.numKind? with
    | none => throw (.unsupportedComparison op left.type)
    | some kind =>
      let a ← load left
      let b ← load right
      match Instr.compare? kind op with
      | some instr => return [a, b, .op instr, .branch (.ifZero op) label]
      | none => return [a, b, .branch (.ifInt op) label]

def test (ctx : MethodContext) (op : Comparison) (operand : Local) (label : Label) :
    Lower (List Item) := do
  let label ← declaredLabel ctx label
  if operand.type.isReference then
    match Jump.ifNull? op with
    | none => throw (.unsupportedComparison op operand.type)
    | some jump => return [← load operand, .branch jump label]
  else
    match operand.type.numKind? with
    | none => throw (.unsupportedComparison op operand.type)
    | some kind =>
      let a ← load operand
      match Instr.zero? kind, Instr.compare? kind op with
      | some zero, some instr => return [a, .op zero, .op instr, .branch (.ifZero op) label]
      | _, _ => return [a, .branch (.ifZero op) label]

def elementsOf (array : Local) : Lower ElemKind :=
  match array.type.component?.bind JavaType.elemKind? with
  | some kind => pure kind
  | none => throw (.unsupportedOperation .arrayAccess array.type.display)

def arrayGet (array index target : Local) : Lower (List Item) := do
  let kind ← elementsOf array
  let a ← load array
  let i ← load index
  return [a, i, .op (.arrayLoad kind.element), ← store target]

def arrayPut (array index value : Local) : Lower (List Item) := do
  let kind ← elementsOf array
  let a ← load array
  let i ← load index
  let v ← load value
  return [a, i, v, .op (.arrayStore kind.element)]

def ret (ctx : MethodContext) (value : Option Local) : Lower (List Item) :=
  let declared := ctx.method.result
  let incompatible (found : JavaType) : GenerateError :=
    .incompatibleReturn ctx.method.name declared found
  match value with
  | none => if declared.isVoid then return [.op .returnVoid] else throw (incompatible .void)
  | some l =>
    if declared.isVoid || !declared.accepts l.type then throw (incompatible l.type)
    else do
      let kind ← kindOf declared
      let a ← load l
      let cast ← pooling declared.castReturn
      return a :: (cast.map .op ++ [.op (.returnValue kind)])

def instanceOf (value : Local) (type : JavaType) (result : Local) : Lower (List Item) := do
  let a ← load value
  let index ← constant (Pool.classInfo type.internalName)
  return [a, .op (.instanceOf index), ← store result]

def new (m : MethodSymbol) (arguments : List Local) (result : Local) : Lower (List Item) := do
  let index ← constant (Pool.classInfo m.owner.name)
  let init ← constant (Pool.methodRef m.owner.name m.name m.descriptor)
  let pushed ← arguments.mapM load
  let stored ← store result
  return .op (.new index) :: .op .dup :: (pushed ++ [.op (.invokeSpecial init), stored])

def allocation (element : JavaType) (dimensions : Nat) : Lower Instr :=
  if dimensions = 1 then do
    let (instr, _) ← pooling (Literal.allocate element)
    return instr
  else do
    let index ← constant (Pool.classInfo (element.arrayOf dimensions).internalName)
    return .newMultiArray index (UInt8.ofNat dimensions)

def newArray (element : JavaType) (lengths : List Local) (result : Local) : Lower (List Item) :=
  let dimensions := lengths.length
  if dimensions = 0 ∨ dimensions > 255 then throw (.illegalArrayDimension dimensions)
  else do
    let pushed ← lengths.mapM load
    let instr ← allocation element dimensions
    return pushed ++ [.op instr, ← store result]

def literal (value : Literal) (target : Local) : Lower (List Item) := do
  let pushed ← pooling value.push
  return pushed.map .op ++ [← store target]

def statement (ctx : MethodContext) : Statement → Lower (List Item)
  | .invoke m receiver arguments result isSuper => invoke ctx m receiver arguments result isSuper
  | .getField f receiver target => getField f receiver target
  | .putField f receiver value => putField f receiver value
  | .assign target source => do
    let a ← load source
    return [a, ← store target]
  | .binary op left right result => binary op left right result
  | .unary op operand result => unary op operand result
  | .cast source target => cast source target
  | .goto label => do return [.branch .always (← declaredLabel ctx label)]
  | .mark label => do return [.mark (← declaredLabel ctx label)]
  | .compare op left right label => compare ctx op left right label
  | .test op operand label => test ctx op operand label
  | .arrayGet array index target => arrayGet array index target
  | .arrayPut array index value => arrayPut array index value
  | .ret value => ret ctx value
  | .instanceOf value type result => instanceOf value type result
  | .new m arguments result => new m arguments result
  | .newArray element lengths result => newArray element lengths result
  | .literal value target => literal value target

def statements (ctx : MethodContext) (list : List Statement) : Lower (List Item) := do
  return (← list.mapM (statement ctx)).flatten

end Lower

end Classwright
