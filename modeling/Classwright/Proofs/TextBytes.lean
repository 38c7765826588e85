import Classwright.Proofs.Text
import Mathlib.Algebra.Ring.Nat

/-!
# The bytes of a text

A text takes as many bytes as its characters do: one for those from `U+0001` to `U+007F`, two for
`U+0000` and up to `U+07FF`, three up to `U+FFFF` and six above.  None of the bytes is zero, and none
is among those that ordinary UTF-8 begins its longest sequences with.
-/

namespace Classwright.ModifiedUtf8

def charBytes (c : Char) : Nat :=
  if 0x0001 ≤ c.toNat ∧ c.toNat ≤ 0x007f then 1
  else if c.toNat ≤ 0x07ff then 2
  else if c.toNat ≤ 0xffff then 3
  else 6

private theorem toNat_ofNat_byte {n : Nat} (h : n < 256) : (UInt8.ofNat n).toNat = n := by
  rw [UInt8.toNat_ofNat', Nat.mod_eq_of_lt h]

theorem length_encodeUnit (u : UInt16) :
    (encodeUnit u).length =
      if 0 < u.toNat ∧ u.toNat < 0x80 then 1 else if u.toNat < 0x800 then 2 else 3 := by
  simp only [encodeUnit]
  split
  · rfl
  split <;> rfl

private theorem length_encodeUnit_surrogate {n : Nat} (hlow : 0xd800 ≤ n) (hhigh : n < 0xe000) :
    (encodeUnit (UInt16.ofNat n)).length = 3 := by
  have hn : (UInt16.ofNat n).toNat = n := by
    rw [UInt16.toNat_ofNat']
    omega
  rw [length_encodeUnit, hn, if_neg (by omega), if_neg (by omega)]

theorem length_encodeChar (c : Char) : (encodeChar c).length = charBytes c := by
  have hc : c.toNat < 0xd800 ∨ (0xdfff < c.toNat ∧ c.toNat < 0x110000) := c.valid
  unfold encodeChar Utf16.units charBytes
  split
  · rename_i hsingle
    have hn : (UInt16.ofNat c.toNat).toNat = c.toNat := by
      rw [UInt16.toNat_ofNat']
      omega
    rw [List.flatMap_singleton, length_encodeUnit, hn]
    grind
  · rename_i hpair
    have hhigh : (c.toNat - 0x10000) / 0x400 < 0x400 := by omega
    have hlow : (c.toNat - 0x10000) % 0x400 < 0x400 := Nat.mod_lt _ (by decide)
    rw [List.flatMap_cons, List.flatMap_singleton, List.length_append,
      length_encodeUnit_surrogate (by omega) (by omega),
      length_encodeUnit_surrogate (by omega) (by omega),
      if_neg (by omega), if_neg (by omega), if_neg (by omega)]

theorem length_encode (text : String) : (encode text).length = (text.toList.map charBytes).sum := by
  rw [encode, List.length_flatMap, List.map_congr_left fun c _ => length_encodeChar c]

theorem encode_append (s t : String) : encode (s ++ t) = encode s ++ encode t := by
  rw [encode, String.toList_append, List.flatMap_append, encode, encode]

private theorem mem_encodeUnit {u : UInt16} {b : UInt8} (h : b ∈ encodeUnit u) :
    0 < b.toNat ∧ b.toNat < 0xf0 := by
  have hu := u.toNat_lt
  -- The upper bits of a first byte tell the length of its sequence, those of the others are `10`.
  simp only [encodeUnit] at h
  split at h
  · rename_i hone
    obtain rfl := List.mem_singleton.mp h
    rw [toNat_ofNat_byte (by omega)]
    omega
  split at h
  · simp only [List.mem_cons, List.not_mem_nil, or_false] at h
    rcases h with rfl | rfl <;> rw [toNat_ofNat_byte (by omega)] <;> omega
  · simp only [List.mem_cons, List.not_mem_nil, or_false] at h
    rcases h with rfl | rfl | rfl <;> rw [toNat_ofNat_byte (by omega)] <;> omega

private theorem mem_encode {text : String} {b : UInt8} (h : b ∈ encode text) :
    0 < b.toNat ∧ b.toNat < 0xf0 := by
  obtain ⟨c, -, hb⟩ := List.mem_flatMap.mp h
  obtain ⟨u, -, hb⟩ := List.mem_flatMap.mp hb
  exact mem_encodeUnit hb

/-- Texts are read back from their bytes, also if other bytes follow; different texts have different
bytes, and the bytes of joined texts are joined.  No byte is zero or from `0xf0` on.  A text has no
place in a class file exactly if its characters take more bytes than 16 bits can count. -/
theorem text_codec_exact :
    (∀ (text : String) (rest : List UInt8), decode (encode text ++ rest) = text ++ decode rest) ∧
    (∀ text : String, decode (encode text) = text) ∧
    (∀ s t : String, encode s = encode t → s = t) ∧
    (∀ s t : String, encode (s ++ t) = encode s ++ encode t) ∧
    (∀ (text : String) (b : UInt8), b ∈ encode text → b ≠ 0x00 ∧ b < 0xf0) ∧
    (∀ (text : String) (bytes : List UInt8), encode16? text = some bytes → bytes = encode text) ∧
    ∀ text : String, encode16? text = none ↔ 65535 < (text.toList.map charBytes).sum := by
  refine ⟨decode_encode_append, decode_encode, fun s t => encode_injective, encode_append, ?_, ?_, ?_⟩
  · intro text b hb
    obtain ⟨hpos, hlt⟩ := mem_encode hb
    refine ⟨?_, UInt8.lt_iff_toNat_lt.mpr hlt⟩
    rintro rfl
    exact absurd hpos (by decide)
  · intro text bytes h
    exact (encode16?_eq_some_iff.mp h).1
  · intro text
    rw [encode16?_eq_none_iff, length_encode]

end Classwright.ModifiedUtf8
