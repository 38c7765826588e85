import Classwright.Instruction.Basic

/-!
# Choice of instructions

The instruction for each operation on operands of a kind, where there is one.
-/

namespace Classwright

def ElemKind.element : ElemKind → Element
  | boolean | byte => .byte
  | char => .char
  | short => .short
  | int => .int
  | long => .long
  | float => .float
  | double => .double
  | reference => .reference

namespace Instr

def loadSlot (k : Kind) (slot : UInt16) : Instr := load k (.ofSlot slot)

def storeSlot (k : Kind) (slot : UInt16) : Instr := store k (.ofSlot slot)

def loadEntry (index : UInt16) : Instr :=
  if index.toNat ≤ 255 then ldc (UInt8.ofNat index.toNat) else ldcW index

/-- A shift or bitwise operation; floating kinds have none. -/
def bitwise? (op : BitOp) : NumKind → Option Instr
  | .int => some (bit op .int)
  | .long => some (bit op .long)
  | .float | .double => none

def binary? (op : BinaryOp) (k : NumKind) : Option Instr :=
  match op with
  | .add => some (arith .add k)
  | .sub => some (arith .sub k)
  | .mul => some (arith .mul k)
  | .div => some (arith .div k)
  | .rem => some (arith .rem k)
  | .shl => bitwise? .shl k
  | .shr => bitwise? .shr k
  | .ushr => bitwise? .ushr k
  | .and => bitwise? .and k
  | .or => bitwise? .or k
  | .xor => bitwise? .xor k

/-- The conversion from a kind to a type.  Only an `int` is narrowed further, and nothing is
converted to its own kind. -/
def cast? : NumKind → Primitive → Option Instr
  | .int, .long => some (convert .i2l)
  | .int, .float => some (convert .i2f)
  | .int, .double => some (convert .i2d)
  | .int, .byte => some (convert .i2b)
  | .int, .char => some (convert .i2c)
  | .int, .short => some (convert .i2s)
  | .long, .int => some (convert .l2i)
  | .long, .float => some (convert .l2f)
  | .long, .double => some (convert .l2d)
  | .float, .int => some (convert .f2i)
  | .float, .long => some (convert .f2l)
  | .float, .double => some (convert .f2d)
  | .double, .int => some (convert .d2i)
  | .double, .long => some (convert .d2l)
  | .double, .float => some (convert .d2f)
  | _, _ => none

/-- The comparison of two values other than `int`s.  Every ordered test has to fail on a NaN, so
the tests for less use the comparison that leaves 1 on it. -/
def compare? (k : NumKind) (op : Comparison) : Option Instr :=
  match k, op with
  | .int, _ => none
  | .long, _ => some (compare .lcmp)
  | .float, .less | .float, .lessOrEqual => some (compare .fcmpg)
  | .float, _ => some (compare .fcmpl)
  | .double, .less | .double, .lessOrEqual => some (compare .dcmpg)
  | .double, _ => some (compare .dcmpl)

/-- The zero that a value other than an `int` is compared with. -/
def zero? : NumKind → Option Instr
  | .int => none
  | .long => some (lconst (residue 1 0))
  | .float => some (fconst (residue 2 0))
  | .double => some (dconst (residue 1 0))

end Instr

namespace Jump

/-- References are only compared for identity. -/
def ifSame? : Comparison → Option Jump
  | .equal => some (ifSame true)
  | .notEqual => some (ifSame false)
  | _ => none

def ifNull? : Comparison → Option Jump
  | .equal => some (ifNull true)
  | .notEqual => some (ifNull false)
  | _ => none

end Jump

end Classwright
