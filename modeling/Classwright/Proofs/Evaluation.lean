import Classwright.Proofs.Bodies
import Classwright.Proofs.Number

/-!
# The meaning of statements on numbers

Statements are run directly: the state is a map from the names of locals to numbers and a position
in the list of statements.  Statements on objects and arrays have no meaning here, nor have
operands on which an operation is not defined and locals without a value.
-/

namespace Classwright

namespace BinaryOp

def shift? {w : Nat} (a : BitVec w) (count : BitVec 32) : BinaryOp → Option (BitVec w)
  | shl => some (Integer.shl a count)
  | shr => some (Integer.shr a count)
  | ushr => some (Integer.ushr a count)
  | _ => none

/-- The other operations on integers, of which division by zero has no result. -/
def combine? {w : Nat} (a b : BitVec w) : BinaryOp → Option (Option (BitVec w))
  | add => some (some (a + b))
  | sub => some (some (a - b))
  | mul => some (some (a * b))
  | div => some (Integer.div a b)
  | rem => some (Integer.rem a b)
  | and => some (some (a &&& b))
  | or => some (some (a ||| b))
  | xor => some (some (a ^^^ b))
  | _ => none

def float? {w : Nat} (format : FloatFormat w) (a b : BitVec w) : BinaryOp → Option (BitVec w)
  | add => some (format.add a b)
  | sub => some (format.sub a b)
  | mul => some (format.mul a b)
  | div => some (format.div a b)
  | rem => some (format.rem a b)
  | _ => none

/-- Both operands have one kind, apart from the count of a shift, which is an `int`. -/
def apply (fpu : FloatUnit) (op : BinaryOp) : Number → Number → Option Answer
  | .int a, .int b =>
    match op.shift? a b with
    | some bits => some (.value (.int bits))
    | none => (op.combine? a b).map (.ofBits .int)
  | .long a, .int count => (op.shift? a count).map fun bits => .value (.long bits)
  | .long a, .long b => (op.combine? a b).map (.ofBits .long)
  | .float a, .float b => (op.float? fpu.single a b).map fun bits => .value (.float bits)
  | .double a, .double b => (op.float? fpu.double a b).map fun bits => .value (.double bits)
  | _, _ => none

end BinaryOp

def UnaryOp.apply (fpu : FloatUnit) : UnaryOp → Number → Option Number
  | negate, .int a => some (.int (-a))
  | negate, .long a => some (.long (-a))
  | negate, .float a => some (.float (fpu.single.neg a))
  | negate, .double a => some (.double (fpu.double.neg a))
  | complement, .int a => some (.int (~~~a))
  | complement, .long a => some (.long (~~~a))
  | complement, _ => none

namespace Number

/-- The number as a value of another primitive type.  Only an `int` is narrowed below 32 bits. -/
def convert (fpu : FloatUnit) : Number → Primitive → Option Number
  | int a, .long => some (.long (a.signExtend 64))
  | int a, .float => some (.float (fpu.intToSingle a))
  | int a, .double => some (.double (fpu.intToDouble a))
  | int a, .byte => some (.int (Integer.narrow 8 a))
  | int a, .char => some (.int ((a.setWidth 16).setWidth 32))
  | int a, .short => some (.int (Integer.narrow 16 a))
  | long a, .int => some (.int (a.setWidth 32))
  | long a, .float => some (.float (fpu.longToSingle a))
  | long a, .double => some (.double (fpu.longToDouble a))
  | float a, .int => some (.int (fpu.singleToInt a))
  | float a, .long => some (.long (fpu.singleToLong a))
  | float a, .double => some (.double (fpu.singleToDouble a))
  | double a, .int => some (.int (fpu.doubleToInt a))
  | double a, .long => some (.long (fpu.doubleToLong a))
  | double a, .float => some (.float (fpu.doubleToSingle a))
  | _, _ => none

/-- The order of two numbers of one kind, which floating-point numbers may not have. -/
def order? (fpu : FloatUnit) : Number → Number → Option (Option Ordering)
  | int a, int b => some (some (Integer.order a b))
  | long a, long b => some (some (Integer.order a b))
  | float a, float b => some (fpu.single.compare a b)
  | double a, double b => some (fpu.double.compare a b)
  | _, _ => none

def zero : Number → Number
  | int _ => int 0
  | long _ => long 0
  | float _ => float 0
  | double _ => double 0

end Number

/-- Whether a comparison holds of numbers in the given order; of unordered numbers only the test for
difference does. -/
def Comparison.holds : Comparison → Option Ordering → Bool
  | equal, order => order = some .eq
  | notEqual, order => order ≠ some .eq
  | less, order => order = some .lt
  | lessOrEqual, order => order = some .lt ∨ order = some .eq
  | greater, order => order = some .gt
  | greaterOrEqual, order => order = some .gt ∨ order = some .eq

def Literal.number? : Literal → Option Number
  | boolean b => some (.int (if b then 1 else 0))
  | byte v => some (.int (v.toBitVec.signExtend 32))
  | short v => some (.int (v.toBitVec.signExtend 32))
  | char v => some (.int (v.toBitVec.setWidth 32))
  | int v => some (.int v.toBitVec)
  | long v => some (.long v.toBitVec)
  | float bits => some (.float bits.toBitVec)
  | double bits => some (.double bits.toBitVec)
  | _ => none

abbrev Env := String → Option Number

namespace Env

def set (env : Env) (l : Local) (n : Number) : Env :=
  fun name => if name = l.name then some n else env name

def enter : List Local → List Number → Env
  | l :: locals, n :: numbers => (enter locals numbers).set l n
  | _, _ => fun _ => none

end Env

namespace Statement

def branchIf (fpu : FloatUnit) (op : Comparison) (a b : Number) (env : Env) :
    Option (Effect Env) :=
  (a.order? fpu b).map fun order => if op.holds order then .branch env else .next env

def step (fpu : FloatUnit) (env : Env) : Statement → Option (Effect Env)
  | assign target source => do
    let n ← env source.name
    return .next (env.set target n)
  | binary op left right result => do
    let a ← env left.name
    let b ← env right.name
    match ← op.apply fpu a b with
    | .value n => return .next (env.set result n)
    | .trap => return .stop .trapped
  | unary op operand result => do
    let a ← env operand.name
    let n ← op.apply fpu a
    return .next (env.set result n)
  | cast source target => do
    let a ← env source.name
    let p ← target.type.primitive?
    let n ← a.convert fpu p
    return .next (env.set target n)
  | goto _ => some (.branch env)
  | mark _ => some (.next env)
  | compare op left right _ => do
    let a ← env left.name
    let b ← env right.name
    branchIf fpu op a b env
  | test op operand _ => do
    let a ← env operand.name
    branchIf fpu op a a.zero env
  | ret none => some (.stop .finished)
  | ret (some l) => do
    let n ← env l.name
    return .stop (.returned n)
  | literal value target => do
    let n ← value.number?
    return .next (env.set target n)
  | _ => none

end Statement

namespace Body

/-- The outcome of running a body from a position for at most the given number of statements.  Only a
body without result may be left at its end. -/
def run (fpu : FloatUnit) (b : Body) (void : Bool) : Nat → Nat → Env → Option Outcome
  | 0, _, _ => none
  | fuel + 1, position, env =>
    match b.statements[position]? with
    | none => if void then some .finished else none
    | some st =>
      match st.step fpu env with
      | none => none
      | some (.stop outcome) => some outcome
      | some (.next env) => run fpu b void fuel (position + 1) env
      | some (.branch env) =>
        match st.target?.bind b.position? with
        | some target => run fpu b void fuel target env
        | none => none

end Body

end Classwright
