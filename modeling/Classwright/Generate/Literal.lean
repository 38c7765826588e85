import Classwright.Generate.Error
import Classwright.Instruction.Select
import Classwright.JavaType.Descriptor

/-!
# Pushing literals

The shortest code that leaves a literal on the operand stack: small numbers are part of an
instruction, larger ones and strings come from the constant pool, and arrays are filled element by
element.
-/

namespace Classwright.Literal

def pushInt (v : Int32) : Pooling Instr :=
  let n := v.toInt
  if -1 ≤ n ∧ n ≤ 5 then return .iconst (residue 6 (n + 1).toNat)
  else if -128 ≤ n ∧ n ≤ 127 then return .bipush v.toInt8
  else if -32768 ≤ n ∧ n ≤ 32767 then return .sipush v.toInt16
  else return .loadEntry (← pooled (Pool.integer v))

def pushLong (v : Int64) : Pooling Instr :=
  if v = 0 then return .lconst (residue 1 0)
  else if v = 1 then return .lconst (residue 1 1)
  else return .ldc2W (← pooled (Pool.long v))

/-- Pushes a `float`; negative zero is not the zero that has an instruction. -/
def pushFloat (bits : UInt32) : Pooling Instr :=
  if bits = 0x00000000 then return .fconst (residue 2 0)
  else if bits = 0x3f800000 then return .fconst (residue 2 1)
  else if bits = 0x40000000 then return .fconst (residue 2 2)
  else return .loadEntry (← pooled (Pool.float bits))

def pushDouble (bits : UInt64) : Pooling Instr :=
  if bits = 0x0000000000000000 then return .dconst (residue 1 0)
  else if bits = 0x3ff0000000000000 then return .dconst (residue 1 1)
  else return .ldc2W (← pooled (Pool.double bits))

/-- Allocates an array whose length is on the stack, and tells the kind of its elements. -/
def allocate (component : JavaType) : Pooling (Instr × ElemKind) :=
  match component.elemKind? with
  | none => throw (.unsupportedOperation .arrayAllocation component.display)
  | some kind =>
    match kind.typeCode? with
    | some code => return (.newArray code, kind)
    | none => return (.newRefArray (← pooled (Pool.classInfo component.internalName)), kind)

mutual

def push : Literal → Pooling (List Instr)
  | boolean b => return [← pushInt (if b then 1 else 0)]
  | byte v => return [← pushInt v.toInt32]
  | short v => return [← pushInt v.toInt32]
  | char v => return [← pushInt (Int32.ofNat v.toNat)]
  | int v => return [← pushInt v]
  | long v => return [← pushLong v]
  | float bits => return [← pushFloat bits]
  | double bits => return [← pushDouble bits]
  | string s => return [.loadEntry (← pooled (Pool.string s))]
  | null => return [.aconstNull]
  | enum owner name => do
    let index ← pooled (Pool.fieldRef owner.name name (JavaType.object owner).descriptor)
    return [.field .getStatic index]
  | array component elements => do
    if elements.length > 2147483647 then throw (.limitExceeded .arrayConstant)
    let length ← pushInt (Int32.ofNat elements.length)
    let (allocation, kind) ← allocate component
    let stores ← pushElements (.arrayStore kind.element) 0 elements []
    return length :: allocation :: stores

/-- The instructions that store consecutive elements into the array on the stack, after those for
the elements before `index`, newest first. -/
def pushElements (store : Instr) (index : Nat) :
    List Literal → List (List Instr) → Pooling (List Instr)
  | [], done => return done.reverse.flatten
  | e :: rest, done => do
    let position ← pushInt (Int32.ofNat index)
    let value ← push e
    pushElements store (index + 1) rest ((.dup :: position :: (value ++ [store])) :: done)

end

end Classwright.Literal
