import Classwright.ClassFile.Basic
import Classwright.Instruction.Codec
import Classwright.Proofs.Number

/-!
# A machine for code on numbers

Code is run from its bytes: an instruction is read at the program counter, changes the locals and
the operand stack, and control passes to the address after it or to the target of a branch.  Only
the instructions on numbers are given a meaning; any other leaves the machine stuck, as do operands
of the wrong kind.
-/

namespace Classwright

namespace Arith

def onIntegers {w : Nat} (a b : BitVec w) : Arith → Option (BitVec w)
  | add => some (a + b)
  | sub => some (a - b)
  | mul => some (a * b)
  | div => Integer.div a b
  | rem => Integer.rem a b

def onFloats {w : Nat} (format : FloatFormat w) (a b : BitVec w) : Arith → BitVec w
  | add => format.add a b
  | sub => format.sub a b
  | mul => format.mul a b
  | div => format.div a b
  | rem => format.rem a b

def run (fpu : FloatUnit) (op : Arith) : NumKind → Number → Number → Option Answer
  | .int, .int a, .int b => some (.ofBits .int (op.onIntegers a b))
  | .long, .long a, .long b => some (.ofBits .long (op.onIntegers a b))
  | .float, .float a, .float b => some (.value (.float (op.onFloats fpu.single a b)))
  | .double, .double a, .double b => some (.value (.double (op.onFloats fpu.double a b)))
  | _, _, _ => none

end Arith

namespace BitOp

def shift? {w : Nat} (a : BitVec w) (count : BitVec 32) : BitOp → Option (BitVec w)
  | shl => some (Integer.shl a count)
  | shr => some (Integer.shr a count)
  | ushr => some (Integer.ushr a count)
  | _ => none

def bitwise? {w : Nat} (a b : BitVec w) : BitOp → Option (BitVec w)
  | and => some (a &&& b)
  | or => some (a ||| b)
  | xor => some (a ^^^ b)
  | _ => none

/-- The count of a shift is always an `int`. -/
def run (op : BitOp) : IntKind → Number → Number → Option Number
  | .int, .int a, .int b => ((op.shift? a b).or (op.bitwise? a b)).map .int
  | .long, .long a, .int count => (op.shift? a count).map .long
  | .long, .long a, .long b => (op.bitwise? a b).map .long
  | _, _, _ => none

end BitOp

def Conversion.run (fpu : FloatUnit) : Conversion → Number → Option Number
  | i2l, .int a => some (.long (a.signExtend 64))
  | i2f, .int a => some (.float (fpu.intToSingle a))
  | i2d, .int a => some (.double (fpu.intToDouble a))
  | l2i, .long a => some (.int (a.setWidth 32))
  | l2f, .long a => some (.float (fpu.longToSingle a))
  | l2d, .long a => some (.double (fpu.longToDouble a))
  | f2i, .float a => some (.int (fpu.singleToInt a))
  | f2l, .float a => some (.long (fpu.singleToLong a))
  | f2d, .float a => some (.double (fpu.singleToDouble a))
  | d2i, .double a => some (.int (fpu.doubleToInt a))
  | d2l, .double a => some (.long (fpu.doubleToLong a))
  | d2f, .double a => some (.float (fpu.doubleToSingle a))
  | i2b, .int a => some (.int (Integer.narrow 8 a))
  | i2c, .int a => some (.int ((a.setWidth 16).setWidth 32))
  | i2s, .int a => some (.int (Integer.narrow 16 a))
  | _, _ => none

/-- The number that stands for an order, where `unordered` stands for none. -/
def signOf (unordered : BitVec 32) : Option Ordering → BitVec 32
  | some .lt => -1
  | some .eq => 0
  | some .gt => 1
  | none => unordered

def CompareOp.run (fpu : FloatUnit) : CompareOp → Number → Number → Option (BitVec 32)
  | lcmp, .long a, .long b => some (if a.slt b then -1 else if a = b then 0 else 1)
  | fcmpl, .float a, .float b => some (signOf (-1) (fpu.single.compare a b))
  | fcmpg, .float a, .float b => some (signOf 1 (fpu.single.compare a b))
  | dcmpl, .double a, .double b => some (signOf (-1) (fpu.double.compare a b))
  | dcmpg, .double a, .double b => some (signOf 1 (fpu.double.compare a b))
  | _, _, _ => none

def Comparison.onInts (a b : BitVec 32) : Comparison → Bool
  | equal => a == b
  | notEqual => a != b
  | less => a.slt b
  | lessOrEqual => a.sle b
  | greater => b.slt a
  | greaterOrEqual => b.sle a

def Entry.number? : Entry → Option Number
  | integer v => some (.int v.toBitVec)
  | float bits => some (.float bits.toBitVec)
  | long v => some (.long v.toBitVec)
  | double bits => some (.double bits.toBitVec)
  | _ => none

namespace Machine

/-- The locals and the operand stack, top first. -/
structure Frame where
  locals : Nat → Option Number
  stack : List Number := []

/-- The locals with a number stored.  A wide number takes the next slot as well, and a wide number
of which only the second slot is overwritten is lost. -/
def store (locals : Nat → Option Number) (slot : Nat) (n : Number) : Nat → Option Number :=
  fun k =>
    if k = slot then some n
    else if k = slot + 1 ∧ n.kind.isWide = true then none
    else if k + 1 = slot then (locals k).filter fun m => !m.kind.isWide
    else locals k

namespace Frame

def push (f : Frame) (n : Number) : Option (Effect Frame) :=
  some (.next { f with stack := n :: f.stack })

def pushConstant (f : Frame) (wide : Bool) (n : Option Number) : Option (Effect Frame) :=
  match n.filter fun n => n.kind.isWide == wide with
  | some n => f.push n
  | none => none

def answer (f : Frame) (rest : List Number) : Option Answer → Option (Effect Frame)
  | some (.value n) => some (.next { f with stack := n :: rest })
  | some .trap => some (.stop .trapped)
  | none => none

def test (f : Frame) (rest : List Number) (taken : Bool) : Option (Effect Frame) :=
  let f := { f with stack := rest }
  some (if taken then .branch f else .next f)

end Frame

def jump (f : Frame) : Jump → Option (Effect Frame)
  | .ifZero op =>
    match f.stack with
    | .int a :: rest => f.test rest (op.onInts a 0)
    | _ => none
  | .ifInt op =>
    match f.stack with
    | .int b :: .int a :: rest => f.test rest (op.onInts a b)
    | _ => none
  | .always => some (.branch f)
  | _ => none

def exec (fpu : FloatUnit) (constants : UInt16 → Option Number) (f : Frame) :
    Instr → Option (Effect Frame)
  | .nop => some (.next f)
  | .returnVoid => some (.stop .finished)
  | .iconst n => f.push (.int (BitVec.ofInt 32 ((n.val : Int) - 1)))
  | .lconst n => f.push (.long (BitVec.ofNat 64 n.val))
  | .fconst n => f.push (.float (if n.val = 0 then 0 else if n.val = 1 then 0x3f800000 else 0x40000000))
  | .dconst n => f.push (.double (if n.val = 0 then 0 else 0x3ff0000000000000))
  | .bipush v => f.push (.int (v.toBitVec.signExtend 32))
  | .sipush v => f.push (.int (v.toBitVec.signExtend 32))
  | .ldc i => f.pushConstant false (constants i.toUInt16)
  | .ldcW i => f.pushConstant false (constants i)
  | .ldc2W i => f.pushConstant true (constants i)
  | .load kind form =>
    match f.locals form.slot with
    | some n => if n.kind = kind then f.push n else none
    | none => none
  | .store kind form =>
    match f.stack with
    | n :: rest =>
      if n.kind = kind then some (.next ⟨store f.locals form.slot n, rest⟩) else none
    | [] => none
  | .arith op kind =>
    match f.stack with
    | b :: a :: rest => f.answer rest (op.run fpu kind a b)
    | _ => none
  | .neg kind =>
    match kind, f.stack with
    | .int, .int a :: rest => some (.next { f with stack := .int (-a) :: rest })
    | .long, .long a :: rest => some (.next { f with stack := .long (-a) :: rest })
    | .float, .float a :: rest =>
      some (.next { f with stack := .float (fpu.single.neg a) :: rest })
    | .double, .double a :: rest =>
      some (.next { f with stack := .double (fpu.double.neg a) :: rest })
    | _, _ => none
  | .bit op kind =>
    match f.stack with
    | b :: a :: rest => f.answer rest ((op.run kind a b).map .value)
    | _ => none
  | .convert op =>
    match f.stack with
    | a :: rest => f.answer rest ((op.run fpu a).map .value)
    | _ => none
  | .compare op =>
    match f.stack with
    | b :: a :: rest => f.answer rest ((op.run fpu a b).map fun sign => .value (.int sign))
    | _ => none
  | .jump when _ => jump f when
  | .returnValue kind =>
    match f.stack with
    | n :: _ => if n.kind = kind then some (.stop (.returned n)) else none
    | [] => none
  | _ => none

def target? (address : Nat) : Instr → Option Nat
  | .jump _ offset =>
    if 0 ≤ (address : Int) + offset.toInt then some ((address : Int) + offset.toInt).toNat else none
  | _ => none

/-- The outcome of running code from an address for at most the given number of instructions; none if
it is still running or stuck. -/
def run (fpu : FloatUnit) (constants : UInt16 → Option Number) (code : List UInt8) :
    Nat → Nat → Frame → Option Outcome
  | 0, _, _ => none
  | fuel + 1, address, f =>
    match Instr.read (code.drop address) with
    | .error _ => none
    | .ok (instr, rest) =>
      match exec fpu constants f instr with
      | none => none
      | some (.stop outcome) => some outcome
      | some (.next f) => run fpu constants code fuel (code.length - rest.length) f
      | some (.branch f) =>
        match target? address instr with
        | some target => run fpu constants code fuel target f
        | none => none

/-- The locals of a method that is called with the given arguments, from a slot on. -/
def argumentsFrom (slot : Nat) : List Number → Nat → Option Number
  | [] => fun _ => none
  | n :: rest => fun k => if k = slot then some n else argumentsFrom (slot + n.kind.width) rest k

def enter (arguments : List Number) : Frame := { locals := argumentsFrom 0 arguments }

end Machine

def ClassFile.number? (c : ClassFile) (index : UInt16) : Option Number :=
  (entryAt? c.pool index).bind Entry.number?

end Classwright
