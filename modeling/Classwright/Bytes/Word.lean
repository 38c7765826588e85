/-!
# Big-endian words

Class files store every number with its most significant byte first.  Bytes are lists, so that
encodings of consecutive items are joined by `++`.
-/

namespace Classwright.Bytes

def u16 (w : UInt16) : List UInt8 :=
  [UInt8.ofNat (w.toNat / 256), UInt8.ofNat w.toNat]

def u32 (w : UInt32) : List UInt8 :=
  [UInt8.ofNat (w.toNat / 16777216), UInt8.ofNat (w.toNat / 65536),
    UInt8.ofNat (w.toNat / 256), UInt8.ofNat w.toNat]

def u64 (w : UInt64) : List UInt8 :=
  u32 (UInt32.ofNat (w.toNat / 4294967296)) ++ u32 (UInt32.ofNat w.toNat)

def word16 (a b : UInt8) : UInt16 :=
  UInt16.ofNat (a.toNat * 256 + b.toNat)

def word32 (a b c d : UInt8) : UInt32 :=
  UInt32.ofNat (((a.toNat * 256 + b.toNat) * 256 + c.toNat) * 256 + d.toNat)

def word64 (hi lo : UInt32) : UInt64 :=
  UInt64.ofNat (hi.toNat * 4294967296 + lo.toNat)

/-- A list preceded by its length in 16 bits; the length of a longer list is taken modulo `2^16`. -/
def counted16 {α : Type} (encode : α → List UInt8) (items : List α) : List UInt8 :=
  u16 (UInt16.ofNat items.length) ++ items.flatMap encode

end Classwright.Bytes
