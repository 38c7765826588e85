/-!
# UTF-16 code units

A character below `U+10000` is one unit, any other is a high surrogate followed by a low one.
Reading units back replaces every surrogate that is not part of such a pair.
-/

namespace Classwright.Utf16

/-- The character that stands for what cannot be read. -/
def replacement : Char := Char.ofNat 0xfffd

def units (c : Char) : List UInt16 :=
  if c.toNat < 0x10000 then [UInt16.ofNat c.toNat]
  else
    [UInt16.ofNat (0xd800 + (c.toNat - 0x10000) / 0x400),
      UInt16.ofNat (0xdc00 + (c.toNat - 0x10000) % 0x400)]

/-- The first half of a pair. -/
def isHigh (u : UInt16) : Bool := 0xd800 ≤ u.toNat && u.toNat < 0xdc00

def isLow (u : UInt16) : Bool := 0xdc00 ≤ u.toNat && u.toNat < 0xe000

def single (u : UInt16) : Char :=
  if isHigh u || isLow u then replacement else Char.ofNat u.toNat

def pair (high low : UInt16) : Char :=
  Char.ofNat (0x10000 + (high.toNat - 0xd800) * 0x400 + (low.toNat - 0xdc00))

/-- The characters read so far, newest first, and those of the remaining units. -/
def charsFrom (acc : List Char) : List UInt16 → List Char
  | [] => acc.reverse
  | [u] => (single u :: acc).reverse
  | u :: v :: rest =>
    if isHigh u && isLow v then charsFrom (pair u v :: acc) rest
    else charsFrom (single u :: acc) (v :: rest)

def chars (us : List UInt16) : List Char := charsFrom [] us

end Classwright.Utf16
