import Classwright.Instruction.Basic
import Classwright.Pool.Basic

/-!
# Depth of the operand stack

Each statement's code starts and ends with an empty stack, so adding up the changes of consecutive
instructions gives the depth everywhere.  Field accesses and calls are measured by the descriptors
of the members they name.
-/

namespace Classwright

namespace Descriptor

/-- Where the measuring of parameter types stands. -/
inductive Position where
  /-- Before a type. -/
  | outside
  /-- Inside the name of a class. -/
  | name
  /-- Inside an array type. -/
  | array

/-- The words of the parameter types in the rest of a descriptor.  A character that starts no type
counts one word for each of its bytes. -/
def words : Position → List Char → Nat
  | _, [] => 0
  | .outside, c :: rest =>
    if c = 'J' ∨ c = 'D' then 2 + words .outside rest
    else if c = 'L' then 1 + words .name rest
    else if c = '[' then 1 + words .array rest
    else c.utf8Size + words .outside rest
  | .name, c :: rest => if c = ';' then words .outside rest else words .name rest
  | .array, c :: rest =>
    if c = '[' then words .array rest
    else if c = 'L' then words .name rest
    else c.utf8Size - 1 + words .outside rest

def valueWords : List Char → Nat
  | [] => 0
  | c :: _ => if c = 'J' ∨ c = 'D' then 2 else if c = 'V' then 0 else 1

/-- The words of the arguments and of the result of a method; none if the descriptor has no
parameter list.  The descriptors in a pool have at most 65535 bytes, each of which counts two words at
most, so 32 bits hold the words of all of them. -/
def methodWords (descriptor : String) : Nat × Nat :=
  match descriptor.toList with
  | '(' :: rest =>
    match rest.dropWhile (· ≠ ')') with
    | [] => (0, 0)
    | _ :: result => (words .outside (rest.takeWhile (· ≠ ')')), valueWords result)
  | _ => (0, 0)

end Descriptor

namespace Instr

/-- The words of the field that an index names; one where there is none. -/
def fieldWords (pool : Pool) (index : UInt16) : Int :=
  match pool.memberDescriptor? index with
  | some descriptor => Descriptor.valueWords descriptor.toList
  | none => 1

/-- The change in depth by a call, the receiver aside. -/
def callDelta (pool : Pool) (index : UInt16) : Int :=
  match pool.memberDescriptor? index with
  | some descriptor =>
    let (arguments, result) := Descriptor.methodWords descriptor
    (result : Int) - arguments
  | none => 0

def elementWords : Element → Int
  | .long | .double => 2
  | _ => 1

def kindWords (k : Kind) : Int := k.width

def conversionDelta : Conversion → Int
  | .i2l | .i2d | .f2l | .f2d => 1
  | .l2i | .l2f | .d2i | .d2f => -1
  | _ => 0

def delta (pool : Pool) : Instr → Int
  | nop => 0
  | aconstNull | iconst _ | fconst _ | bipush _ | sipush _ | ldc _ | ldcW _ => 1
  | lconst _ | dconst _ | ldc2W _ => 2
  | load k _ => kindWords k
  | store k _ => -kindWords k
  | arrayLoad e => elementWords e - 2
  | arrayStore e => -elementWords e - 2
  | pop => -1
  | pop2 => -2
  | dup => 1
  | arith _ k => -kindWords k.toKind
  | neg _ => 0
  | bit op .long =>
    match op with
    | .shl | .shr | .ushr => -1
    | _ => -2
  | bit _ .int => -1
  | convert op => conversionDelta op
  | compare .lcmp | compare .dcmpl | compare .dcmpg => -3
  | compare _ => -1
  | jump (.ifZero _) _ | jump (.ifNull _) _ => -1
  | jump (.ifInt _) _ | jump (.ifSame _) _ => -2
  | jump .always _ => 0
  | returnVoid => 0
  | returnValue k => -kindWords k
  | field .getStatic i => fieldWords pool i
  | field .putStatic i => -fieldWords pool i
  | field .getField i => fieldWords pool i - 1
  | field .putField i => -fieldWords pool i - 1
  | invokeVirtual i | invokeSpecial i | invokeInterface i _ _ => callDelta pool i - 1
  | invokeStatic i => callDelta pool i
  | new _ => 1
  | newArray _ | newRefArray _ => 0
  | newMultiArray _ dimensions => 1 - (dimensions.toNat : Int)
  | athrow => -1
  | checkCast _ | instanceOf _ => 0

/-- The depth after an instruction and the greatest depth so far.  Code that replaces unreachable
instructions may take the depth below zero, from where counting starts again. -/
def advance (pool : Pool) (depths : Int × Int) (instr : Instr) : Int × Int :=
  let depth := depths.1 + instr.delta pool
  (max depth 0, max depths.2 depth)

/-- The greatest depth, which is at least one word and at most what 16 bits hold. -/
def maxStack (pool : Pool) (code : List Instr) : UInt16 :=
  let deepest := (code.foldl (advance pool) (0, 0)).2
  UInt16.ofNat (max 1 (min deepest 65535)).toNat

end Instr

end Classwright
