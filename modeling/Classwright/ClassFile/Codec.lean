import Classwright.ClassFile.Basic

/-!
# Encoding of class files
-/

namespace Classwright

namespace Member

def encode (m : Member) : List UInt8 :=
  Bytes.u16 m.flags ++ Bytes.u16 m.name ++ Bytes.u16 m.descriptor ++
    Bytes.counted16 Attribute.encode m.attributes

def read : Reader Member := do
  let flags ← Reader.u16
  let name ← Reader.u16
  let descriptor ← Reader.u16
  let attributes ← Reader.counted16 Attribute.read
  return { flags, name, descriptor, attributes }

end Member

namespace ClassFile

/-- The first four bytes of every class file. -/
def magic : UInt32 := 0xcafebabe

def encode (c : ClassFile) : List UInt8 :=
  Bytes.u32 magic ++ Bytes.u16 c.minor ++ Bytes.u16 c.major ++ Bytes.u16 c.poolCount ++
    c.pool.toList.flatMap Entry.encode ++
    Bytes.u16 c.flags ++ Bytes.u16 c.this ++ Bytes.u16 c.super ++
    Bytes.counted16 Bytes.u16 c.interfaces ++
    Bytes.counted16 Member.encode c.fields ++
    Bytes.counted16 Member.encode c.methods ++
    Bytes.counted16 Attribute.encode c.attributes

def readMagic : Reader Unit := do
  let found ← Reader.u32
  if found = magic then pure () else Reader.fail .wrongMagic

def read : Reader ClassFile := do
  readMagic
  let minor ← Reader.u16
  let major ← Reader.u16
  let poolCount ← Reader.u16
  let pool ← Entry.readSlots (poolCount.toNat - 1)
  let flags ← Reader.u16
  let this ← Reader.u16
  let super ← Reader.u16
  let interfaces ← Reader.counted16 Reader.u16
  let fields ← Reader.counted16 Member.read
  let methods ← Reader.counted16 Member.read
  let attributes ← Reader.counted16 Attribute.read
  return { minor, major, poolCount, pool, flags, this, super, interfaces, fields, methods,
           attributes }

/-- The class file at the start of a byte string; bytes after it are ignored. -/
def decode (bytes : List UInt8) : Except DecodeError ClassFile := read.run bytes

end ClassFile

end Classwright
