import Classwright.Bytes.Reader
import Classwright.Instruction.Basic

/-!
# Encoding of instructions

An operation code followed by its operands.  The codes of one group are consecutive, so they are
given by the first code of the group and the positions of the arguments in it.
-/

namespace Classwright

/-- Position of a kind in its groups. -/
def Kind.code : Kind → Nat
  | int => 0
  | long => 1
  | float => 2
  | double => 3
  | reference => 4

def Kind.ofCode : Nat → Kind
  | 0 => int
  | 1 => long
  | 2 => float
  | 3 => double
  | _ => reference

def NumKind.code : NumKind → Nat
  | int => 0
  | long => 1
  | float => 2
  | double => 3

def NumKind.ofCode : Nat → NumKind
  | 0 => int
  | 1 => long
  | 2 => float
  | _ => double

def IntKind.code : IntKind → Nat
  | int => 0
  | long => 1

def IntKind.ofCode : Nat → IntKind
  | 0 => int
  | _ => long

def Element.code : Element → Nat
  | int => 0
  | long => 1
  | float => 2
  | double => 3
  | reference => 4
  | byte => 5
  | char => 6
  | short => 7

def Element.ofCode : Nat → Element
  | 0 => int
  | 1 => long
  | 2 => float
  | 3 => double
  | 4 => reference
  | 5 => byte
  | 6 => char
  | _ => short

def Arith.code : Arith → Nat
  | add => 0
  | sub => 1
  | mul => 2
  | div => 3
  | rem => 4

def Arith.ofCode : Nat → Arith
  | 0 => add
  | 1 => sub
  | 2 => mul
  | 3 => div
  | _ => rem

def BitOp.code : BitOp → Nat
  | shl => 0
  | shr => 1
  | ushr => 2
  | and => 3
  | or => 4
  | xor => 5

def BitOp.ofCode : Nat → BitOp
  | 0 => shl
  | 1 => shr
  | 2 => ushr
  | 3 => and
  | 4 => or
  | _ => xor

def Conversion.code : Conversion → Nat
  | i2l => 0
  | i2f => 1
  | i2d => 2
  | l2i => 3
  | l2f => 4
  | l2d => 5
  | f2i => 6
  | f2l => 7
  | f2d => 8
  | d2i => 9
  | d2l => 10
  | d2f => 11
  | i2b => 12
  | i2c => 13
  | i2s => 14

def Conversion.ofCode : Nat → Conversion
  | 0 => i2l
  | 1 => i2f
  | 2 => i2d
  | 3 => l2i
  | 4 => l2f
  | 5 => l2d
  | 6 => f2i
  | 7 => f2l
  | 8 => f2d
  | 9 => d2i
  | 10 => d2l
  | 11 => d2f
  | 12 => i2b
  | 13 => i2c
  | _ => i2s

def CompareOp.code : CompareOp → Nat
  | lcmp => 0
  | fcmpl => 1
  | fcmpg => 2
  | dcmpl => 3
  | dcmpg => 4

def CompareOp.ofCode : Nat → CompareOp
  | 0 => lcmp
  | 1 => fcmpl
  | 2 => fcmpg
  | 3 => dcmpl
  | _ => dcmpg

def Comparison.code : Comparison → Nat
  | equal => 0
  | notEqual => 1
  | less => 2
  | greaterOrEqual => 3
  | greater => 4
  | lessOrEqual => 5

def Comparison.ofCode : Nat → Comparison
  | 0 => equal
  | 1 => notEqual
  | 2 => less
  | 3 => greaterOrEqual
  | 4 => greater
  | _ => lessOrEqual

def FieldOp.code : FieldOp → Nat
  | getStatic => 0
  | putStatic => 1
  | getField => 2
  | putField => 3

def FieldOp.ofCode : Nat → FieldOp
  | 0 => getStatic
  | 1 => putStatic
  | 2 => getField
  | _ => putField

def Jump.opcode : Jump → Nat
  | ifZero op => 0x99 + op.code
  | ifInt op => 0x9f + op.code
  | ifSame true => 0xa5
  | ifSame false => 0xa6
  | always => 0xa7
  | ifNull true => 0xc6
  | ifNull false => 0xc7

namespace Instr

/-- The bytes of a load or store whose groups start at `plain` and `short`. -/
def encodeSlot (plain short : Nat) (kind : Kind) : SlotForm → List UInt8
  | .implicit s => [UInt8.ofNat (short + 4 * kind.code + s.val)]
  | .byte s => [UInt8.ofNat (plain + kind.code), s]
  | .wide s => 0xc4 :: UInt8.ofNat (plain + kind.code) :: Bytes.u16 s

def encode : Instr → List UInt8
  | nop => [0x00]
  | aconstNull => [0x01]
  | iconst n => [UInt8.ofNat (0x02 + n.val)]
  | lconst n => [UInt8.ofNat (0x09 + n.val)]
  | fconst n => [UInt8.ofNat (0x0b + n.val)]
  | dconst n => [UInt8.ofNat (0x0e + n.val)]
  | bipush v => [0x10, v.toUInt8]
  | sipush v => 0x11 :: Bytes.u16 v.toUInt16
  | ldc i => [0x12, i]
  | ldcW i => 0x13 :: Bytes.u16 i
  | ldc2W i => 0x14 :: Bytes.u16 i
  | load k s => encodeSlot 0x15 0x1a k s
  | arrayLoad e => [UInt8.ofNat (0x2e + e.code)]
  | store k s => encodeSlot 0x36 0x3b k s
  | arrayStore e => [UInt8.ofNat (0x4f + e.code)]
  | pop => [0x57]
  | pop2 => [0x58]
  | dup => [0x59]
  | arith op k => [UInt8.ofNat (0x60 + 4 * op.code + k.code)]
  | neg k => [UInt8.ofNat (0x74 + k.code)]
  | bit op k => [UInt8.ofNat (0x78 + 2 * op.code + k.code)]
  | convert op => [UInt8.ofNat (0x85 + op.code)]
  | compare op => [UInt8.ofNat (0x94 + op.code)]
  | jump w offset => UInt8.ofNat w.opcode :: Bytes.u16 offset.toUInt16
  | returnValue k => [UInt8.ofNat (0xac + k.code)]
  | returnVoid => [0xb1]
  | field op i => UInt8.ofNat (0xb2 + op.code) :: Bytes.u16 i
  | invokeVirtual i => 0xb6 :: Bytes.u16 i
  | invokeSpecial i => 0xb7 :: Bytes.u16 i
  | invokeStatic i => 0xb8 :: Bytes.u16 i
  | invokeInterface i count filler => 0xb9 :: (Bytes.u16 i ++ [count, filler])
  | new i => 0xbb :: Bytes.u16 i
  | newArray code => [0xbc, code]
  | newRefArray i => 0xbd :: Bytes.u16 i
  | athrow => [0xbf]
  | checkCast i => 0xc0 :: Bytes.u16 i
  | instanceOf i => 0xc1 :: Bytes.u16 i
  | newMultiArray i dimensions => 0xc5 :: (Bytes.u16 i ++ [dimensions])

def encodeAll (code : List Instr) : List UInt8 := code.flatMap encode

/-- What follows an operation code. -/
inductive Operands where
  | none (instr : Instr)
  | byte (make : UInt8 → Instr)
  | word (make : UInt16 → Instr)
  /-- The operation code and the slot of a load or store. -/
  | wide
  /-- A pool index, a count and a filler. -/
  | interfaceCall
  /-- A pool index and a number of dimensions. -/
  | dimensions
  /-- No instruction has this operation code. -/
  | unknown

/-- The branch with an operation code between `0x99` and `0xa7`. -/
def jumpOfCode (n : Nat) : Jump :=
  if n < 0x9f then .ifZero (.ofCode (n - 0x99))
  else if n < 0xa5 then .ifInt (.ofCode (n - 0x9f))
  else if n = 0xa5 then .ifSame true
  else if n = 0xa6 then .ifSame false
  else .always

/-- What an operation code up to `0x59` stands for: constants, loads and stores. -/
def lowOperands (n : Nat) : Operands :=
  if n = 0x00 then .none nop
  else if n = 0x01 then .none aconstNull
  else if n < 0x09 then .none (iconst (residue 6 (n - 0x02)))
  else if n < 0x0b then .none (lconst (residue 1 (n - 0x09)))
  else if n < 0x0e then .none (fconst (residue 2 (n - 0x0b)))
  else if n < 0x10 then .none (dconst (residue 1 (n - 0x0e)))
  else if n = 0x10 then .byte fun b => bipush b.toInt8
  else if n = 0x11 then .word fun w => sipush w.toInt16
  else if n = 0x12 then .byte ldc
  else if n = 0x13 then .word ldcW
  else if n = 0x14 then .word ldc2W
  else if n < 0x1a then .byte fun b => load (.ofCode (n - 0x15)) (.byte b)
  else if n < 0x2e then
    .none (load (.ofCode ((n - 0x1a) / 4)) (.implicit (residue 3 ((n - 0x1a) % 4))))
  else if n < 0x36 then .none (arrayLoad (.ofCode (n - 0x2e)))
  else if n < 0x3b then .byte fun b => store (.ofCode (n - 0x36)) (.byte b)
  else if n < 0x4f then
    .none (store (.ofCode ((n - 0x3b) / 4)) (.implicit (residue 3 ((n - 0x3b) % 4))))
  else if n < 0x57 then .none (arrayStore (.ofCode (n - 0x4f)))
  else if n = 0x57 then .none pop
  else if n = 0x58 then .none pop2
  else .none dup

/-- What an operation code from `0x60` to `0xb1` stands for: arithmetic, branches and returns. -/
def middleOperands (n : Nat) : Operands :=
  if n < 0x74 then .none (arith (.ofCode ((n - 0x60) / 4)) (.ofCode ((n - 0x60) % 4)))
  else if n < 0x78 then .none (neg (.ofCode (n - 0x74)))
  else if n < 0x84 then .none (bit (.ofCode ((n - 0x78) / 2)) (.ofCode ((n - 0x78) % 2)))
  else if n = 0x84 then .unknown
  else if n < 0x94 then .none (convert (.ofCode (n - 0x85)))
  else if n < 0x99 then .none (compare (.ofCode (n - 0x94)))
  else if n < 0xa8 then .word fun w => jump (jumpOfCode n) w.toInt16
  else if n < 0xac then .unknown
  else if n < 0xb1 then .none (returnValue (.ofCode (n - 0xac)))
  else .none returnVoid

/-- What an operation code from `0xb2` stands for: fields, calls, objects and arrays. -/
def highOperands (n : Nat) : Operands :=
  if n < 0xb6 then .word (field (.ofCode (n - 0xb2)))
  else if n = 0xb6 then .word invokeVirtual
  else if n = 0xb7 then .word invokeSpecial
  else if n = 0xb8 then .word invokeStatic
  else if n = 0xb9 then .interfaceCall
  else if n = 0xbb then .word new
  else if n = 0xbc then .byte newArray
  else if n = 0xbd then .word newRefArray
  else if n = 0xbf then .none athrow
  else if n = 0xc0 then .word checkCast
  else if n = 0xc1 then .word instanceOf
  else if n = 0xc4 then .wide
  else if n = 0xc5 then .dimensions
  else if n = 0xc6 then .word fun w => jump (.ifNull true) w.toInt16
  else if n = 0xc7 then .word fun w => jump (.ifNull false) w.toInt16
  else .unknown

def operands (opcode : UInt8) : Operands :=
  let n := opcode.toNat
  if n < 0x5a then lowOperands n
  else if n < 0x60 then .unknown
  else if n < 0xb2 then middleOperands n
  else highOperands n

/-- The load or store after a `wide` operation code. -/
def wideForm? (opcode : UInt8) : Option (UInt16 → Instr) :=
  let n := opcode.toNat
  if 0x15 ≤ n ∧ n < 0x1a then some fun s => load (.ofCode (n - 0x15)) (.wide s)
  else if 0x36 ≤ n ∧ n < 0x3b then some fun s => store (.ofCode (n - 0x36)) (.wide s)
  else none

def readOperands : Operands → Reader Instr
  | .none instr => pure instr
  | .byte make => do return make (← Reader.u8)
  | .word make => do return make (← Reader.u16)
  | .wide => do
    match wideForm? (← Reader.u8) with
    | some make => return make (← Reader.u16)
    | none => Reader.fail .truncated
  | .interfaceCall => do
    let index ← Reader.u16
    let count ← Reader.u8
    let filler ← Reader.u8
    return invokeInterface index count filler
  | .dimensions => do
    let index ← Reader.u16
    let dimensions ← Reader.u8
    return newMultiArray index dimensions
  | .unknown => Reader.fail .truncated

def read : Reader Instr :=
  Reader.tagged do
    let opcode ← Reader.u8
    readOperands (operands opcode)

def decodeAll (code : List UInt8) : Except DecodeError (List Instr) := read.runToEnd code

end Instr

end Classwright
