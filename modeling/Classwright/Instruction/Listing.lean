import Classwright.Instruction.Basic

/-!
# Listings

The text of an instruction in listings: its name and, in parentheses, its operand.
-/

namespace Classwright

def Kind.letter : Kind → String
  | int => "I"
  | long => "L"
  | float => "F"
  | double => "D"
  | reference => "A"

def Element.letter : Element → String
  | int => "I"
  | long => "L"
  | float => "F"
  | double => "D"
  | reference => "A"
  | byte => "B"
  | char => "C"
  | short => "S"

def Arith.mnemonic : Arith → String
  | add => "add"
  | sub => "sub"
  | mul => "mul"
  | div => "div"
  | rem => "rem"

def BitOp.mnemonic : BitOp → String
  | shl => "shl"
  | shr => "shr"
  | ushr => "ushr"
  | and => "and"
  | or => "or"
  | xor => "xor"

def IntKind.letter : IntKind → String
  | int => "I"
  | long => "L"

def Conversion.mnemonic : Conversion → String
  | i2l => "I2l"
  | i2f => "I2f"
  | i2d => "I2d"
  | l2i => "L2i"
  | l2f => "L2f"
  | l2d => "L2d"
  | f2i => "F2i"
  | f2l => "F2l"
  | f2d => "F2d"
  | d2i => "D2i"
  | d2l => "D2l"
  | d2f => "D2f"
  | i2b => "I2b"
  | i2c => "I2c"
  | i2s => "I2s"

def CompareOp.mnemonic : CompareOp → String
  | lcmp => "Lcmp"
  | fcmpl => "Fcmpl"
  | fcmpg => "Fcmpg"
  | dcmpl => "Dcmpl"
  | dcmpg => "Dcmpg"

def Comparison.mnemonic : Comparison → String
  | equal => "eq"
  | notEqual => "ne"
  | less => "lt"
  | lessOrEqual => "le"
  | greater => "gt"
  | greaterOrEqual => "ge"

def Jump.mnemonic : Jump → String
  | ifZero op => "If" ++ op.mnemonic
  | ifInt op => "IfIcmp" ++ op.mnemonic
  | ifSame true => "IfAcmpeq"
  | ifSame false => "IfAcmpne"
  | always => "Goto"
  | ifNull true => "Ifnull"
  | ifNull false => "Ifnonnull"

def FieldOp.mnemonic : FieldOp → String
  | getStatic => "Getstatic"
  | putStatic => "Putstatic"
  | getField => "Getfield"
  | putField => "Putfield"

namespace Instr

def listed (name operand : String) : String := name ++ "(" ++ operand ++ ")"

def listedSlot (name : String) : SlotForm → String
  | .implicit s => name ++ toString s.val
  | .byte s => listed name (toString s.toNat)
  | .wide s => listed (name ++ "Wide") (toString s.toNat)

def listing : Instr → String
  | nop => "Nop"
  | aconstNull => "Aconstnull"
  | iconst n => if n.val = 0 then "Iconstm1" else "Iconst" ++ toString (n.val - 1)
  | lconst n => "Lconst" ++ toString n.val
  | fconst n => "Fconst" ++ toString n.val
  | dconst n => "Dconst" ++ toString n.val
  | bipush v => listed "Bipush" (toString v.toInt)
  | sipush v => listed "Sipush" (toString v.toInt)
  | ldc i => listed "Ldc" (toString i.toNat)
  | ldcW i => listed "LdcW" (toString i.toNat)
  | ldc2W i => listed "Ldc2W" (toString i.toNat)
  | load k s => listedSlot (k.letter ++ "load") s
  | store k s => listedSlot (k.letter ++ "store") s
  | arrayLoad e => e.letter ++ "aload"
  | arrayStore e => e.letter ++ "astore"
  | pop => "Pop"
  | pop2 => "Pop2"
  | dup => "Dup"
  | arith op k => k.toKind.letter ++ op.mnemonic
  | neg k => k.toKind.letter ++ "neg"
  | bit op k => k.letter ++ op.mnemonic
  | convert op => op.mnemonic
  | compare op => op.mnemonic
  | jump w offset => listed w.mnemonic (toString offset.toInt)
  | returnValue k => k.letter ++ "return"
  | returnVoid => "Return"
  | field op i => listed op.mnemonic (toString i.toNat)
  | invokeVirtual i => listed "Invokevirtual" (toString i.toNat)
  | invokeSpecial i => listed "Invokespecial" (toString i.toNat)
  | invokeStatic i => listed "Invokestatic" (toString i.toNat)
  | invokeInterface i count filler =>
    "Invokeinterface \x7b index: " ++ toString i.toNat ++ ", count: " ++ toString count.toNat ++
      ", filler: " ++ toString filler.toNat ++ " \x7d"
  | new i => listed "New" (toString i.toNat)
  | newArray code => listed "Newarray" (toString code.toNat)
  | newRefArray i => listed "Anewarray" (toString i.toNat)
  | newMultiArray i dimensions =>
    "Multianewarray \x7b index: " ++ toString i.toNat ++ ", dimensions: " ++
      toString dimensions.toNat ++ " \x7d"
  | athrow => "Athrow"
  | checkCast i => listed "Checkcast" (toString i.toNat)
  | instanceOf i => listed "Instanceof" (toString i.toNat)

end Instr

end Classwright
