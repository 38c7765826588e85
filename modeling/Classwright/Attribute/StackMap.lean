import Classwright.Bytes.Reader

/-!
# Stack maps

The types of the locals and the operand stack at chosen addresses of the code.  Frames are
written as changes from the frame before, in the shortest of seven forms.
-/

namespace Classwright

/-- The type of a local or of a value on the stack, as the verifier sees it. -/
inductive VerificationType where
  | top
  | integer
  | float
  | double
  | long
  | null
  | uninitializedThis
  /-- An object of the class with this pool index. -/
  | object (index : UInt16)
  /-- The result of the `new` instruction at this address. -/
  | uninitialized (address : UInt16)
  deriving DecidableEq, Inhabited

inductive MapFrame where
  /-- The locals of the frame before, and an empty stack. -/
  | same (delta : Fin 64)
  /-- The locals of the frame before, and one value on the stack. -/
  | stack1 (delta : Fin 64) (item : VerificationType)
  | stack1Extended (delta : UInt16) (item : VerificationType)
  /-- Without the last `dropped + 1` locals of the frame before. -/
  | chop (dropped : Fin 3) (delta : UInt16)
  | sameExtended (delta : UInt16)
  /-- With one to three more locals. -/
  | append (delta : UInt16) (locals : List VerificationType)
  | full (delta : UInt16) (locals stack : List VerificationType)
  deriving DecidableEq, Inhabited

namespace VerificationType

def isWide : VerificationType → Bool
  | long | double => true
  | _ => false

def encode : VerificationType → List UInt8
  | top => [0]
  | integer => [1]
  | float => [2]
  | double => [3]
  | long => [4]
  | null => [5]
  | uninitializedThis => [6]
  | object index => 7 :: Bytes.u16 index
  | uninitialized address => 8 :: Bytes.u16 address

def readContents (tag : UInt8) : Reader VerificationType :=
  match tag with
  | 0 => pure top
  | 1 => pure integer
  | 2 => pure float
  | 3 => pure double
  | 4 => pure long
  | 5 => pure null
  | 6 => pure uninitializedThis
  | 7 => do return object (← Reader.u16)
  | 8 => do return uninitialized (← Reader.u16)
  | _ => Reader.fail .truncated

def read : Reader VerificationType :=
  Reader.tagged do
    let tag ← Reader.u8
    readContents tag

end VerificationType

namespace MapFrame

/-- The byte that tells the forms apart. -/
def type : MapFrame → UInt8
  | same delta => UInt8.ofNat delta.val
  | stack1 delta _ => UInt8.ofNat (64 + delta.val)
  | stack1Extended .. => 247
  | chop dropped _ => UInt8.ofNat (250 - dropped.val)
  | sameExtended _ => 251
  | append _ locals => UInt8.ofNat (251 + locals.length)
  | full .. => 255

def contents : MapFrame → List UInt8
  | same _ => []
  | stack1 _ item => item.encode
  | stack1Extended delta item => Bytes.u16 delta ++ item.encode
  | chop _ delta => Bytes.u16 delta
  | sameExtended delta => Bytes.u16 delta
  | append delta locals => Bytes.u16 delta ++ locals.flatMap VerificationType.encode
  | full delta locals stack =>
    Bytes.u16 delta ++ Bytes.counted16 VerificationType.encode locals ++
      Bytes.counted16 VerificationType.encode stack

def encode (f : MapFrame) : List UInt8 := f.type :: f.contents

def readContents (type : UInt8) : Reader MapFrame :=
  let n := type.toNat
  if n < 64 then pure (same (Fin.ofNat 64 n))
  else if n < 128 then do return stack1 (Fin.ofNat 64 (n - 64)) (← VerificationType.read)
  else if n < 247 then Reader.fail .truncated
  else if n = 247 then do
    let delta ← Reader.u16
    return stack1Extended delta (← VerificationType.read)
  else if n < 251 then do return chop (Fin.ofNat 3 (250 - n)) (← Reader.u16)
  else if n = 251 then do return sameExtended (← Reader.u16)
  else if n < 255 then do
    let delta ← Reader.u16
    return append delta (← Reader.times (n - 251) VerificationType.read)
  else do
    let delta ← Reader.u16
    let locals ← Reader.counted16 VerificationType.read
    return full delta locals (← Reader.counted16 VerificationType.read)

/-- One frame; what follows the type byte counts as a tagged value. -/
def read : Reader MapFrame := do
  let type ← Reader.u8
  Reader.tagged (readContents type)

end MapFrame

end Classwright
