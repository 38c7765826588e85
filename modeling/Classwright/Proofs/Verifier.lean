import Classwright.Instruction.Codec
import Classwright.JavaType.Descriptor
import Classwright.Proofs.AttributeCodec
import Classwright.Proofs.Words

/-!
# Verification of code by kinds

The verifier goes through the code of a method once, from the first byte to the last.  It knows the
kinds of the values in the slots and on the operand stack.  Where the stack map has a frame it goes on
with what the frame says, and wherever control may come by a branch, or not from the instruction
before, there must be a frame.  The operands never take more words than the method declares, and calls
find the operands that the descriptors of the methods ask for, in which the name of a class ends at the
next `;`.  Kinds are all that is told apart: references are the same whatever their classes and whether or
not the objects are initialized.
-/

namespace Classwright

def VerificationType.kind? : VerificationType → Option Kind
  | top => none
  | integer => some .int
  | float => some .float
  | double => some .double
  | long => some .long
  | null | uninitializedThis | object _ | uninitialized _ => some .reference

theorem VerificationType.isWide_of_kind? {t : VerificationType} {kind : Kind} (h : t.kind? = some kind) :
    kind.isWide = t.isWide := by
  cases t <;> cases h <;> rfl

def Element.kind : Element → Kind
  | int | byte | char | short => .int
  | long => .long
  | float => .float
  | double => .double
  | reference => .reference

def IntKind.toKind : IntKind → Kind
  | int => .int
  | long => .long

def BitOp.isShift : BitOp → Bool
  | shl | shr | ushr => true
  | and | or | xor => false

def Conversion.source : Conversion → Kind
  | i2l | i2f | i2d | i2b | i2c | i2s => .int
  | l2i | l2f | l2d => .long
  | f2i | f2l | f2d => .float
  | d2i | d2l | d2f => .double

def Conversion.target : Conversion → Kind
  | l2i | f2i | d2i | i2b | i2c | i2s => .int
  | i2l | f2l | d2l => .long
  | i2f | l2f | d2f => .float
  | i2d | l2d | f2d => .double

def CompareOp.kind : CompareOp → Kind
  | lcmp => .long
  | fcmpl | fcmpg => .float
  | dcmpl | dcmpg => .double

def Jump.operands : Jump → List Kind
  | ifZero _ => [.int]
  | ifInt _ => [.int, .int]
  | ifSame _ => [.reference, .reference]
  | always => []
  | ifNull _ => [.reference]

namespace ClassFile

def constantKind? (c : ClassFile) (index : UInt16) : Option Kind :=
  match entryAt? c.pool index with
  | some (.integer _) => some .int
  | some (.float _) => some .float
  | some (.long _) => some .long
  | some (.double _) => some .double
  | some (.string _) | some (.classInfo _) => some .reference
  | _ => none

def descriptor? (c : ClassFile) (nameAndType : UInt16) : Option String :=
  match entryAt? c.pool nameAndType with
  | some (.nameAndType _ descriptor) => c.text? descriptor
  | _ => none

def fieldDescriptor? (c : ClassFile) (index : UInt16) : Option String :=
  match entryAt? c.pool index with
  | some (.fieldRef _ nameAndType) => c.descriptor? nameAndType
  | _ => none

def classMethodDescriptor? (c : ClassFile) (index : UInt16) : Option String :=
  match entryAt? c.pool index with
  | some (.methodRef _ nameAndType) => c.descriptor? nameAndType
  | _ => none

def interfaceMethodDescriptor? (c : ClassFile) (index : UInt16) : Option String :=
  match entryAt? c.pool index with
  | some (.interfaceMethodRef _ nameAndType) => c.descriptor? nameAndType
  | _ => none

end ClassFile

namespace Verifier

/-- The kinds of the arguments of a method with the given descriptor, and of its result.  The classes
of the arguments have names in `N`. -/
def Signature (N : String → Prop) (descriptor? : Option String) (arguments : List Kind)
    (result : Option Kind) : Prop :=
  ∃ parameters type, (∀ t ∈ parameters, t.Names N) ∧
    descriptor? = some (JavaType.methodDescriptor parameters type) ∧
    parameters.map JavaType.kind? = arguments.map some ∧ type.kind? = result

/-- The operands that an instruction takes from the stack and those that it leaves, the topmost
first.  Descriptors are read with names of classes in `N`. -/
inductive Moves (N : String → Prop) (file : ClassFile) : Instr → List Kind → List Kind → Prop where
  | nop : Moves N file .nop [] []
  | aconstNull : Moves N file .aconstNull [] [.reference]
  | iconst (n : Fin 7) : Moves N file (.iconst n) [] [.int]
  | lconst (n : Fin 2) : Moves N file (.lconst n) [] [.long]
  | fconst (n : Fin 3) : Moves N file (.fconst n) [] [.float]
  | dconst (n : Fin 2) : Moves N file (.dconst n) [] [.double]
  | bipush (value : Int8) : Moves N file (.bipush value) [] [.int]
  | sipush (value : Int16) : Moves N file (.sipush value) [] [.int]
  | ldc {index : UInt8} {kind : Kind} (h : file.constantKind? index.toUInt16 = some kind)
      (narrow : kind.isWide = false) : Moves N file (.ldc index) [] [kind]
  | ldcW {index : UInt16} {kind : Kind} (h : file.constantKind? index = some kind)
      (narrow : kind.isWide = false) : Moves N file (.ldcW index) [] [kind]
  | ldc2W {index : UInt16} {kind : Kind} (h : file.constantKind? index = some kind)
      (wide : kind.isWide = true) : Moves N file (.ldc2W index) [] [kind]
  | load (kind : Kind) (form : SlotForm) : Moves N file (.load kind form) [] [kind]
  | store (kind : Kind) (form : SlotForm) : Moves N file (.store kind form) [kind] []
  | arrayLoad (element : Element) :
      Moves N file (.arrayLoad element) [.int, .reference] [element.kind]
  | arrayStore (element : Element) :
      Moves N file (.arrayStore element) [element.kind, .int, .reference] []
  | pop {kind : Kind} (narrow : kind.isWide = false) : Moves N file .pop [kind] []
  | pop2 {kind : Kind} (wide : kind.isWide = true) : Moves N file .pop2 [kind] []
  | pop2Both {one other : Kind} (narrow : one.isWide = false) (narrow' : other.isWide = false) :
      Moves N file .pop2 [one, other] []
  | dup {kind : Kind} (narrow : kind.isWide = false) : Moves N file .dup [kind] [kind, kind]
  | arith (op : Arith) (kind : NumKind) :
      Moves N file (.arith op kind) [kind.toKind, kind.toKind] [kind.toKind]
  | neg (kind : NumKind) : Moves N file (.neg kind) [kind.toKind] [kind.toKind]
  | bit (op : BitOp) (kind : IntKind) :
      Moves N file (.bit op kind) [if op.isShift then .int else kind.toKind, kind.toKind]
        [kind.toKind]
  | convert (op : Conversion) : Moves N file (.convert op) [op.source] [op.target]
  | compare (op : CompareOp) : Moves N file (.compare op) [op.kind, op.kind] [.int]
  | jump (when : Jump) (offset : Int16) : Moves N file (.jump when offset) when.operands []
  | returnValue (kind : Kind) : Moves N file (.returnValue kind) [kind] []
  | returnVoid : Moves N file .returnVoid [] []
  | getStatic {index : UInt16} {type : JavaType} {kind : Kind}
      (h : file.fieldDescriptor? index = some type.descriptor) (hkind : type.kind? = some kind) :
      Moves N file (.field .getStatic index) [] [kind]
  | putStatic {index : UInt16} {type : JavaType} {kind : Kind}
      (h : file.fieldDescriptor? index = some type.descriptor) (hkind : type.kind? = some kind) :
      Moves N file (.field .putStatic index) [kind] []
  | getField {index : UInt16} {type : JavaType} {kind : Kind}
      (h : file.fieldDescriptor? index = some type.descriptor) (hkind : type.kind? = some kind) :
      Moves N file (.field .getField index) [.reference] [kind]
  | putField {index : UInt16} {type : JavaType} {kind : Kind}
      (h : file.fieldDescriptor? index = some type.descriptor) (hkind : type.kind? = some kind) :
      Moves N file (.field .putField index) [kind, .reference] []
  | invokeVirtual {index : UInt16} {arguments : List Kind} {result : Option Kind}
      (h : Signature N (file.classMethodDescriptor? index) arguments result) :
      Moves N file (.invokeVirtual index) (arguments.reverse ++ [.reference]) result.toList
  | invokeSpecial {index : UInt16} {arguments : List Kind} {result : Option Kind}
      (h : Signature N (file.classMethodDescriptor? index) arguments result) :
      Moves N file (.invokeSpecial index) (arguments.reverse ++ [.reference]) result.toList
  | invokeStatic {index : UInt16} {arguments : List Kind} {result : Option Kind}
      (h : Signature N (file.classMethodDescriptor? index) arguments result ∨
        Signature N (file.interfaceMethodDescriptor? index) arguments result) :
      Moves N file (.invokeStatic index) arguments.reverse result.toList
  | invokeInterface {index : UInt16} {count : UInt8} {arguments : List Kind} {result : Option Kind}
      (h : Signature N (file.interfaceMethodDescriptor? index) arguments result)
      (hcount : count.toNat = 1 + words arguments) :
      Moves N file (.invokeInterface index count 0) (arguments.reverse ++ [.reference]) result.toList
  | new {index : UInt16} {name : String} (h : file.className? index = some name) :
      Moves N file (.new index) [] [.reference]
  | newArray {elementCode : UInt8} (least : 4 ≤ elementCode.toNat)
      (greatest : elementCode.toNat ≤ 11) : Moves N file (.newArray elementCode) [.int] [.reference]
  | newRefArray {index : UInt16} {name : String} (h : file.className? index = some name) :
      Moves N file (.newRefArray index) [.int] [.reference]
  | newMultiArray {index : UInt16} {dimensions : UInt8} {name : String}
      (h : file.className? index = some name) (positive : 0 < dimensions.toNat) :
      Moves N file (.newMultiArray index dimensions) (List.replicate dimensions.toNat .int)
        [.reference]
  | athrow : Moves N file .athrow [.reference] []
  | checkCast {index : UInt16} {name : String} (h : file.className? index = some name) :
      Moves N file (.checkCast index) [.reference] [.reference]
  | instanceOf {index : UInt16} {name : String} (h : file.className? index = some name) :
      Moves N file (.instanceOf index) [.reference] [.int]

/-- What is known of the slots: the kinds of the values that may be read from them. -/
abbrev Known := Nat → Option Kind

/-- A value of a kind is written to a slot.  A wide value takes the next slot as well, and a wide value
in the slot before is destroyed. -/
def Known.write (known : Known) (slot : Nat) (kind : Kind) : Known := fun k =>
  if k = slot then some kind
  else if kind.isWide ∧ k = slot + 1 then none
  else if k + 1 = slot ∧ (known k).any Kind.isWide then none
  else known k

def Known.after (known : Known) : Instr → Known
  | .store kind form => known.write form.slot kind
  | _ => known

structure Typing where
  locals : Known
  /-- The operands, the topmost first. -/
  stack : List Kind

/-- What is known may be forgotten, but nothing may be made up. -/
def Typing.Assignable (known frame : Typing) : Prop :=
  known.stack = frame.stack ∧ ∀ k, frame.locals k = none ∨ frame.locals k = known.locals k

structure Method where
  file : ClassFile
  code : List UInt8
  maxStack : Nat
  maxLocals : Nat
  result : JavaType
  /-- The frames of the stack map by their addresses. -/
  frames : List (Nat × Typing)

namespace Method

/-- The slots and the type of the method permit an instruction. -/
def Permits (m : Method) (known : Known) : Instr → Prop
  | .load kind form => known form.slot = some kind ∧ form.slot + kind.width ≤ m.maxLocals
  | .store kind form => form.slot + kind.width ≤ m.maxLocals
  | .returnValue kind => m.result.kind? = some kind
  | .returnVoid => m.result.isVoid = true
  | _ => True

/-- There is a frame at the target of a branch, and what is known is enough for it. -/
def Arrives (m : Method) (address : Nat) (offset : Int16) (known : Typing) : Prop :=
  ∃ target frame, (address : Int) + offset.toInt = (target : Nat) ∧
    m.frames.lookup target = some frame ∧ known.Assignable frame

/-- The instruction at an address is correct, and `after` is known after it unless control does not
pass on. -/
def Checks (m : Method) (address : Nat) (instr : Instr) (before : Typing) (after : Option Typing) :
    Prop :=
  ∃ taken left rest, Moves Descriptor.Ended m.file instr taken left ∧ before.stack = taken ++ rest ∧
    words (left ++ rest) ≤ m.maxStack ∧ m.Permits before.locals instr ∧
    (∀ when offset, instr = .jump when offset →
      m.Arrives address offset ⟨before.locals.after instr, left ++ rest⟩) ∧
    after = if instr.endsMethod || instr.isGoto then none
      else some ⟨before.locals.after instr, left ++ rest⟩

/-- What is known at an address, given what is known after the instruction before. -/
def Enters (m : Method) (address : Nat) (current : Option Typing) (known : Typing) : Prop :=
  match m.frames.lookup address with
  | none => current = some known
  | some frame => known = frame ∧ ∀ before ∈ current, before.Assignable frame

inductive Passes (m : Method) : Nat → Option Typing → Prop where
  /-- Control does not run past the end. -/
  | done (outside : ∀ address ≥ m.code.length, m.frames.lookup address = none) :
      Passes m m.code.length none
  /-- An instruction, and then the rest; no frame stands inside the instruction. -/
  | step {address : Nat} {current after : Option Typing} {known : Typing} {instr : Instr}
      {rest : List UInt8} (enters : m.Enters address current known)
      (read : Instr.read (m.code.drop address) = .ok (instr, rest))
      (checks : m.Checks address instr known after)
      (inside : ∀ a, address < a → a < m.code.length - rest.length → m.frames.lookup a = none)
      (passes : Passes m (m.code.length - rest.length) after) : Passes m address current

end Method

/-- The slots of locals that are listed without the second slots of wide values. -/
def slotsOf : List (Option Kind) → List (Option Kind)
  | [] => []
  | none :: rest => none :: slotsOf rest
  | some kind :: rest =>
    if kind.isWide then some kind :: none :: slotsOf rest else some kind :: slotsOf rest

def knownOf (locals : List (Option Kind)) : Known := fun k => (slotsOf locals)[k]?.join

end Verifier

namespace MapFrame

open Verifier

/-- How far the address of a frame is from the first that it may have. -/
def delta : MapFrame → Nat
  | same delta | stack1 delta _ => delta.val
  | stack1Extended delta _ | chop _ delta | sameExtended delta | append delta _
  | full delta _ _ => delta.toNat

/-- The locals of a frame after one with the locals `before`, if `read` is what is told of a type. -/
def localsAfter? {α : Type} (read : VerificationType → α) (before : List α) :
    MapFrame → Option (List α)
  | same _ | stack1 .. | stack1Extended .. | sameExtended _ => some before
  | chop dropped _ =>
    if dropped.val < before.length then some (before.take (before.length - (dropped.val + 1)))
    else none
  | append _ locals => some (before ++ locals.map read)
  | full _ locals _ => some (locals.map read)

def operands : MapFrame → List VerificationType
  | stack1 _ item | stack1Extended _ item => [item]
  | full _ _ stack => stack
  | _ => []

/-- What `found?` makes of the frames, with their offsets.  The first may be `next`, and each later one
the offset behind the frame before. -/
def follow? {α β : Type} (read : VerificationType → α)
    (found? : List α → List VerificationType → Option β) (next : Nat) (before : List α) :
    List MapFrame → Option (List (Nat × β))
  | [] => some []
  | f :: rest => do
    let locals ← f.localsAfter? read before
    let frame ← found? locals f.operands
    let more ← follow? read found? (next + f.delta + 1) locals rest
    return (next + f.delta, frame) :: more

/-- What a frame says if all locals fit the slots of the method, and the operands its stack. -/
def typing? (maxStack maxLocals : Nat) (locals : List (Option Kind))
    (operands : List VerificationType) : Option Typing := do
  let stack ← operands.mapM VerificationType.kind?
  if (slotsOf locals).length ≤ maxLocals ∧ words stack ≤ maxStack then
    return ⟨knownOf locals, stack.reverse⟩
  else none

def readAll? (maxStack maxLocals : Nat) (before : List (Option Kind)) (frames : List MapFrame) :
    Option (List (Nat × Typing)) :=
  follow? VerificationType.kind? (typing? maxStack maxLocals) 0 before frames

end MapFrame

namespace ClassFile

open Verifier

/-- The locals with which a method is entered: its receiver, unless it is static, and its
arguments. -/
def argumentsOf (m : Member) (parameters : List JavaType) : List (Option Kind) :=
  (if m.flags &&& 0x0008 = 0 then [some .reference] else []) ++ parameters.map JavaType.kind?

/-- The verifier accepts the code of a method with the given parameters and result if the operands may
take `maxStack` words.  It knows of no exception handlers, so code that has some is not accepted. -/
def AcceptsWithin (maxStack : Nat) (file : ClassFile) (m : Member) (parameters : List JavaType)
    (result : JavaType) : Prop :=
  ∃ code mapFrames frames,
    file.text? m.descriptor = some (JavaType.methodDescriptor parameters result) ∧
    (∀ t ∈ parameters, t.Names Descriptor.Ended) ∧
    file.codeOf? m = some code ∧ code.handlers = [] ∧ file.framesOf? code = some mapFrames ∧
    (slotsOf (argumentsOf m parameters)).length ≤ code.maxLocals.toNat ∧
    MapFrame.readAll? maxStack code.maxLocals.toNat (argumentsOf m parameters) mapFrames = some frames ∧
    Method.Passes ⟨file, code.code, maxStack, code.maxLocals.toNat, result, frames⟩ 0
      (some ⟨knownOf (argumentsOf m parameters), []⟩)

def Accepts (file : ClassFile) (m : Member) (parameters : List JavaType) (result : JavaType) :
    Prop :=
  ∃ code, file.codeOf? m = some code ∧
    file.AcceptsWithin code.maxStack.toNat m parameters result

end ClassFile

end Classwright
