import Classwright.Bytes.Reader

/-!
# Bodies of annotation attributes

Annotations and their element values by pool indexes.  A value starts with a tag: `e`, `c`, `@`
and `[` have contents of their own, any other tag is followed by one index.  A value whose special
contents cannot be read is read as a plain one.
-/

namespace Classwright

inductive ElementValue where
  | enum (type name : UInt16)
  | classInfo (descriptor : UInt16)
  | nested (type : UInt16) (elements : List (UInt16 × ElementValue))
  | array (values : List ElementValue)
  | const (tag : UInt8) (index : UInt16)
  deriving Inhabited

structure StoredAnnotation where
  type : UInt16
  elements : List (UInt16 × ElementValue)
  deriving Inhabited

namespace ElementValue

mutual

def encode : ElementValue → List UInt8
  | enum type name => 0x65 :: (Bytes.u16 type ++ Bytes.u16 name)
  | classInfo descriptor => 0x63 :: Bytes.u16 descriptor
  | nested type elements =>
    0x40 :: (Bytes.u16 type ++ Bytes.u16 (UInt16.ofNat elements.length) ++
      encodeElements elements [])
  | array values => 0x5b :: (Bytes.u16 (UInt16.ofNat values.length) ++ encodeValues values [])
  | const tag index => tag :: Bytes.u16 index

/-- The bytes of consecutive values, after those of the values before them, newest first. -/
def encodeValues : List ElementValue → List (List UInt8) → List UInt8
  | [], done => done.reverse.flatten
  | v :: rest, done => encodeValues rest (encode v :: done)

def encodeElements : List (UInt16 × ElementValue) → List (List UInt8) → List UInt8
  | [], done => done.reverse.flatten
  | (name, v) :: rest, done => encodeElements rest ((Bytes.u16 name ++ encode v) :: done)

end

/-- A named element whose value `r` reads. -/
def readElement (r : Reader ElementValue) : Reader (UInt16 × ElementValue) := do
  let name ← Reader.u16
  let value ← r
  return (name, value)

def readConst : Reader ElementValue := do
  let tag ← Reader.u8
  return const tag (← Reader.u16)

/-- A tag with contents of its own, nested values being read by `r`. -/
def readSpecial (r : Reader ElementValue) : Reader ElementValue := do
  let tag ← Reader.u8
  match tag with
  | 0x65 =>
    let type ← Reader.u16
    return enum type (← Reader.u16)
  | 0x63 => return classInfo (← Reader.u16)
  | 0x40 =>
    let type ← Reader.u16
    return nested type (← Reader.counted16 (readElement r))
  | 0x5b => return array (← Reader.counted16 r)
  | _ => Reader.fail .truncated

/-- One value nested at most `depth` levels deep. -/
def read : Nat → Reader ElementValue
  | 0 => Reader.tagged (Reader.fail .truncated)
  | depth + 1 => Reader.tagged (Reader.orElse (readSpecial (read depth)) readConst)

end ElementValue

namespace StoredAnnotation

def encode (a : StoredAnnotation) : List UInt8 :=
  Bytes.u16 a.type ++ Bytes.u16 (UInt16.ofNat a.elements.length) ++
    ElementValue.encodeElements a.elements []

def read (depth : Nat) : Reader StoredAnnotation := do
  let type ← Reader.u16
  let elements ← Reader.counted16 (ElementValue.readElement (ElementValue.read depth))
  return { type, elements }

/-- The body of an attribute with the annotations of a declaration. -/
def encodeList (annotations : List StoredAnnotation) : List UInt8 :=
  Bytes.counted16 encode annotations

/-- Each level of nesting takes at least one byte, so the input's length bounds the depth. -/
def readList : Reader (List StoredAnnotation) := fun input =>
  Reader.counted16 (read input.length) input

def encodeTable (parameters : List (List StoredAnnotation)) : List UInt8 :=
  UInt8.ofNat parameters.length :: parameters.flatMap encodeList

def readParameters (depth : Nat) : Reader (List (List StoredAnnotation)) := do
  let n ← Reader.u8
  Reader.times n.toNat (Reader.counted16 (read depth))

def readTable : Reader (List (List StoredAnnotation)) := fun input =>
  readParameters input.length input

end StoredAnnotation

end Classwright
