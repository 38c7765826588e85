import Classwright.JavaType.Kind
import Classwright.Statement

/-!
# Instructions

The instructions of method bodies, grouped by what they do: where the machine has one operation
code for each kind of operand, the kind is an argument here.  Branches carry the distance in bytes
from their own address.
-/

namespace Classwright

/-- The remainder of a number by `n + 1`. -/
def residue (n k : Nat) : Fin (n + 1) := ⟨k % (n + 1), Nat.mod_lt k (Nat.zero_lt_succ n)⟩

/-- The three ways to name the slot of a load or store. -/
inductive SlotForm where
  /-- One of the first four slots, part of the operation code. -/
  | implicit (slot : Fin 4)
  | byte (slot : UInt8)
  /-- After the `wide` operation code. -/
  | wide (slot : UInt16)
  deriving DecidableEq

/-- The element types that array loads and stores distinguish; booleans are bytes. -/
inductive Element where
  | int
  | long
  | float
  | double
  | reference
  | byte
  | char
  | short
  deriving DecidableEq

inductive Arith where
  | add
  | sub
  | mul
  | div
  | rem
  deriving DecidableEq

/-- The kinds with shifts and bitwise operations. -/
inductive IntKind where
  | int
  | long
  deriving DecidableEq

inductive BitOp where
  | shl
  | shr
  | ushr
  | and
  | or
  | xor
  deriving DecidableEq

inductive Conversion where
  | i2l
  | i2f
  | i2d
  | l2i
  | l2f
  | l2d
  | f2i
  | f2l
  | f2d
  | d2i
  | d2l
  | d2f
  | i2b
  | i2c
  | i2s
  deriving DecidableEq

/-- Comparisons that leave -1, 0 or 1; on unordered operands those in `l` leave -1, those in `g`
leave 1. -/
inductive CompareOp where
  | lcmp
  | fcmpl
  | fcmpg
  | dcmpl
  | dcmpg
  deriving DecidableEq

/-- When a branch is taken. -/
inductive Jump where
  /-- An integer compared with zero. -/
  | ifZero (op : Comparison)
  /-- Two integers. -/
  | ifInt (op : Comparison)
  /-- Two references, equal or not. -/
  | ifSame (expected : Bool)
  | always
  /-- A reference, null or not. -/
  | ifNull (expected : Bool)
  deriving DecidableEq

inductive FieldOp where
  | getStatic
  | putStatic
  | getField
  | putField
  deriving DecidableEq

inductive Instr where
  | nop
  | aconstNull
  /-- Pushes `n - 1`. -/
  | iconst (n : Fin 7)
  | lconst (n : Fin 2)
  | fconst (n : Fin 3)
  | dconst (n : Fin 2)
  | bipush (value : Int8)
  | sipush (value : Int16)
  | ldc (index : UInt8)
  | ldcW (index : UInt16)
  /-- Pushes a pool entry of two words. -/
  | ldc2W (index : UInt16)
  | load (kind : Kind) (slot : SlotForm)
  | store (kind : Kind) (slot : SlotForm)
  | arrayLoad (element : Element)
  | arrayStore (element : Element)
  | pop
  | pop2
  | dup
  | arith (op : Arith) (kind : NumKind)
  | neg (kind : NumKind)
  | bit (op : BitOp) (kind : IntKind)
  | convert (op : Conversion)
  | compare (op : CompareOp)
  | jump (when : Jump) (offset : Int16)
  | returnValue (kind : Kind)
  | returnVoid
  | field (op : FieldOp) (index : UInt16)
  | invokeVirtual (index : UInt16)
  | invokeSpecial (index : UInt16)
  | invokeStatic (index : UInt16)
  | invokeInterface (index : UInt16) (count : UInt8) (filler : UInt8)
  | new (index : UInt16)
  | newArray (elementCode : UInt8)
  | newRefArray (index : UInt16)
  | newMultiArray (index : UInt16) (dimensions : UInt8)
  | athrow
  | checkCast (index : UInt16)
  | instanceOf (index : UInt16)
  deriving DecidableEq, Inhabited

namespace SlotForm

def slot : SlotForm → Nat
  | implicit s => s.val
  | byte s => s.toNat
  | wide s => s.toNat

/-- The shortest form for a slot. -/
def ofSlot (s : UInt16) : SlotForm :=
  if h : s.toNat < 4 then implicit ⟨s.toNat, h⟩
  else if s.toNat ≤ 255 then byte (UInt8.ofNat s.toNat)
  else wide s

def extraBytes : SlotForm → Nat
  | implicit _ => 0
  | byte _ => 1
  | wide _ => 3

end SlotForm

namespace Instr

def size : Instr → Nat
  | bipush _ | ldc _ | newArray _ => 2
  | load _ s | store _ s => 1 + s.extraBytes
  | sipush _ | ldcW _ | ldc2W _ | jump .. | field .. | invokeVirtual _ | invokeSpecial _
  | invokeStatic _ | new _ | newRefArray _ | checkCast _ | instanceOf _ => 3
  | newMultiArray .. => 4
  | invokeInterface .. => 5
  | _ => 1

/-- Whether control never passes to the next instruction, branches aside. -/
def endsMethod : Instr → Bool
  | returnValue _ | returnVoid | athrow => true
  | _ => false

def isGoto : Instr → Bool
  | jump .always _ => true
  | _ => false

end Instr

end Classwright
