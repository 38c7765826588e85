import Classwright.Text.Utf16

/-!
# Modified UTF-8

The text format of class files.  Each UTF-16 code unit is written on its own: `U+0001` to
`U+007F` in one byte, `U+0000` and up to `U+07FF` in two, the others in three, so that no byte
is zero and a supplementary character takes six bytes.  Reading is total: continuation bytes are
not checked, and a byte that starts no sequence becomes the replacement character.
-/

namespace Classwright.ModifiedUtf8

def encodeUnit (u : UInt16) : List UInt8 :=
  let n := u.toNat
  if 0 < n ∧ n < 0x80 then [UInt8.ofNat n]
  else if n < 0x800 then [UInt8.ofNat (0xc0 + n / 64), UInt8.ofNat (0x80 + n % 64)]
  else
    [UInt8.ofNat (0xe0 + n / 4096), UInt8.ofNat (0x80 + n / 64 % 64),
      UInt8.ofNat (0x80 + n % 64)]

def encodeChar (c : Char) : List UInt8 := (Utf16.units c).flatMap encodeUnit

def encode (text : String) : List UInt8 := text.toList.flatMap encodeChar

/-- The bytes of a text, if 16 bits can hold their number. -/
def encode16? (text : String) : Option (List UInt8) :=
  let bytes := encode text
  if bytes.length ≤ 65535 then some bytes else none

/-- The unit of a two-byte sequence, whatever the upper bits of its bytes. -/
def unit2 (a b : UInt8) : UInt16 :=
  UInt16.ofNat (a.toNat % 32 * 64 + b.toNat % 64)

def unit3 (a b c : UInt8) : UInt16 :=
  UInt16.ofNat ((a.toNat % 16 * 64 + b.toNat % 64) * 64 + c.toNat % 64)

/-- The units read so far, newest first, and those of the remaining bytes. -/
def unitsFrom (acc : List UInt16) : List UInt8 → List UInt16
  | [] => acc.reverse
  | a :: rest =>
    if a.toNat < 0x80 then unitsFrom (a.toUInt16 :: acc) rest
    else if a.toNat / 32 = 6 then
      match rest with
      | b :: more => unitsFrom (unit2 a b :: acc) more
      | [] => unitsFrom (0xfffd :: acc) []
    else if a.toNat / 16 = 14 then
      match rest with
      | b :: c :: more => unitsFrom (unit3 a b c :: acc) more
      | [b] => unitsFrom (0xfffd :: acc) [b]
      | [] => unitsFrom (0xfffd :: acc) []
    else unitsFrom (0xfffd :: acc) rest

def units (bytes : List UInt8) : List UInt16 := unitsFrom [] bytes

def decode (bytes : List UInt8) : String := String.ofList (Utf16.chars (units bytes))

end Classwright.ModifiedUtf8
