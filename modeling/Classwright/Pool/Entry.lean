import Classwright.Bytes.Reader

/-!
# Entries of the constant pool

An entry is written as a tag byte and its contents.  Longs and doubles take two slots of the
pool, the second of which is unusable and not written; a tag of zero is read as such a slot.
-/

namespace Classwright

inductive Entry where
  /-- Text in modified UTF-8. -/
  | utf8 (bytes : List UInt8)
  | integer (value : Int32)
  | float (bits : UInt32)
  | long (value : Int64)
  | double (bits : UInt64)
  | classInfo (name : UInt16)
  | string (text : UInt16)
  | fieldRef (owner nameAndType : UInt16)
  | methodRef (owner nameAndType : UInt16)
  | interfaceMethodRef (owner nameAndType : UInt16)
  | nameAndType (name descriptor : UInt16)
  | methodHandle (kind : UInt8) (reference : UInt16)
  | methodType (descriptor : UInt16)
  | invokeDynamic (bootstrap nameAndType : UInt16)
  /-- The second slot of a long or double. -/
  | unusable
  deriving DecidableEq, Hashable, Inhabited

namespace Entry

/-- Longs and doubles take two slots. -/
def isWide : Entry → Bool
  | long _ | double _ => true
  | _ => false

def width (e : Entry) : Nat := if e.isWide then 2 else 1

/-- The entry with the slot after it, if it takes two. -/
def slots (e : Entry) : List Entry := if e.isWide then [e, unusable] else [e]

def encode : Entry → List UInt8
  | utf8 bytes => 1 :: (Bytes.u16 (UInt16.ofNat bytes.length) ++ bytes)
  | integer v => 3 :: Bytes.u32 v.toUInt32
  | float bits => 4 :: Bytes.u32 bits
  | long v => 5 :: Bytes.u64 v.toUInt64
  | double bits => 6 :: Bytes.u64 bits
  | classInfo name => 7 :: Bytes.u16 name
  | string text => 8 :: Bytes.u16 text
  | fieldRef owner nt => 9 :: (Bytes.u16 owner ++ Bytes.u16 nt)
  | methodRef owner nt => 10 :: (Bytes.u16 owner ++ Bytes.u16 nt)
  | interfaceMethodRef owner nt => 11 :: (Bytes.u16 owner ++ Bytes.u16 nt)
  | nameAndType name descriptor => 12 :: (Bytes.u16 name ++ Bytes.u16 descriptor)
  | methodHandle kind reference => 15 :: kind :: Bytes.u16 reference
  | methodType descriptor => 16 :: Bytes.u16 descriptor
  | invokeDynamic bootstrap nt => 18 :: (Bytes.u16 bootstrap ++ Bytes.u16 nt)
  | unusable => []

def readPair (make : UInt16 → UInt16 → Entry) : Reader Entry := do
  let a ← Reader.u16
  let b ← Reader.u16
  return make a b

def readContents (tag : UInt8) : Reader Entry :=
  match tag with
  | 0 => pure unusable
  | 1 => do
    let length ← Reader.u16
    return utf8 (← Reader.bytes length.toNat)
  | 3 => do return integer (← Reader.u32).toInt32
  | 4 => do return float (← Reader.u32)
  | 5 => do return long (← Reader.u64).toInt64
  | 6 => do return double (← Reader.u64)
  | 7 => do return classInfo (← Reader.u16)
  | 8 => do return string (← Reader.u16)
  | 9 => readPair fieldRef
  | 10 => readPair methodRef
  | 11 => readPair interfaceMethodRef
  | 12 => readPair nameAndType
  | 15 => do
    let kind ← Reader.u8
    return methodHandle kind (← Reader.u16)
  | 16 => do return methodType (← Reader.u16)
  | 18 => readPair invokeDynamic
  | _ => Reader.fail .truncated

def read : Reader Entry :=
  Reader.tagged do
    let tag ← Reader.u8
    readContents tag

/-- The entries read so far and those that fill the remaining slots; a wide entry in the last slot
adds one more. -/
def readSlotsFrom : Nat → Array Entry → Reader (Array Entry)
  | 0, acc => fun input => .ok (acc, input)
  | n + 1, acc => fun input =>
    match read input with
    | .error e => .error e
    | .ok (entry, rest) =>
      if entry.isWide then
        match n with
        | 0 => .ok ((acc.push entry).push unusable, rest)
        | m + 1 => readSlotsFrom m ((acc.push entry).push unusable) rest
      else readSlotsFrom n (acc.push entry) rest

def readSlots (n : Nat) : Reader (Array Entry) := readSlotsFrom n #[]

end Entry

/-- The entry with a 1-based index. -/
def entryAt? (entries : Array Entry) (index : UInt16) : Option Entry :=
  if index = 0 then none else entries[index.toNat - 1]?

end Classwright
