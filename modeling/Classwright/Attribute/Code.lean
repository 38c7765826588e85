import Classwright.Attribute.Basic

/-!
# Bodies of code and debugging attributes

The code of a method with its exception handlers and attributes, and the table that names the
locals of a stretch of code.
-/

namespace Classwright

structure Handler where
  start : UInt16
  stop : UInt16
  target : UInt16
  /-- The pool index of the caught class; zero catches all. -/
  type : UInt16
  deriving DecidableEq

structure Code where
  maxStack : UInt16
  maxLocals : UInt16
  code : List UInt8
  handlers : List Handler := []
  attributes : List Attribute := []
  deriving DecidableEq

/-- A local that lives in a slot for `length` bytes of code from `start`. -/
structure LocalVariable where
  start : UInt16
  length : UInt16
  name : UInt16
  descriptor : UInt16
  slot : UInt16
  deriving DecidableEq

namespace Handler

def encode (h : Handler) : List UInt8 :=
  Bytes.u16 h.start ++ Bytes.u16 h.stop ++ Bytes.u16 h.target ++ Bytes.u16 h.type

def read : Reader Handler := do
  let start ← Reader.u16
  let stop ← Reader.u16
  let target ← Reader.u16
  let type ← Reader.u16
  return { start, stop, target, type }

end Handler

namespace Code

def encode (c : Code) : List UInt8 :=
  Bytes.u16 c.maxStack ++ Bytes.u16 c.maxLocals ++
    Bytes.u32 (UInt32.ofNat c.code.length) ++ c.code ++
    Bytes.counted16 Handler.encode c.handlers ++
    Bytes.counted16 Attribute.encode c.attributes

def read : Reader Code := do
  let maxStack ← Reader.u16
  let maxLocals ← Reader.u16
  let length ← Reader.u32
  let code ← Reader.bytes length.toNat
  let handlers ← Reader.counted16 Handler.read
  let attributes ← Reader.counted16 Attribute.read
  return { maxStack, maxLocals, code, handlers, attributes }

end Code

namespace LocalVariable

def encode (v : LocalVariable) : List UInt8 :=
  Bytes.u16 v.start ++ Bytes.u16 v.length ++ Bytes.u16 v.name ++ Bytes.u16 v.descriptor ++
    Bytes.u16 v.slot

def read : Reader LocalVariable := do
  let start ← Reader.u16
  let length ← Reader.u16
  let name ← Reader.u16
  let descriptor ← Reader.u16
  let slot ← Reader.u16
  return { start, length, name, descriptor, slot }

end LocalVariable

end Classwright
