import Classwright.Bytes.Reader

/-!
# Attributes

An attribute is a name and a body whose form depends on the name; the file keeps the body's
length, so that a body can be skipped without being understood.
-/

namespace Classwright

structure Attribute where
  /-- The pool index of the attribute's name. -/
  name : UInt16
  body : List UInt8
  deriving DecidableEq, Inhabited

namespace Attribute

def encode (a : Attribute) : List UInt8 :=
  Bytes.u16 a.name ++ Bytes.u32 (UInt32.ofNat a.body.length) ++ a.body

def read : Reader Attribute := do
  let name ← Reader.u16
  let length ← Reader.u32
  let body ← Reader.bytes length.toNat
  return { name, body }

end Attribute

end Classwright
