import Classwright.Text.ModifiedUtf8

/-!
# Modified UTF-8 read back

Every text is read back from its bytes, whatever bytes follow: each code unit from the one, two or
three bytes it is written in, and each character from its one or two code units.
-/

namespace Classwright

namespace Utf16

private theorem charsFrom_eq (acc : List Char) (us : List UInt16) :
    charsFrom acc us = acc.reverse ++ chars us := by
  suffices h : ∀ n us acc, us.length ≤ n → charsFrom acc us = acc.reverse ++ chars us from
    h us.length us acc (Nat.le_refl _)
  intro n
  induction n with
  | zero =>
    intro us acc hus
    have : us = [] := List.length_eq_zero_iff.mp (Nat.le_zero.mp hus)
    subst this
    simp [chars, charsFrom]
  | succ n ih =>
    intro us acc hus
    match us with
    | [] => simp [chars, charsFrom]
    | [u] => simp [chars, charsFrom]
    | u :: v :: rest =>
      simp only [List.length_cons] at hus
      simp only [chars, charsFrom]
      split
      · rw [ih rest _ (by omega), ih rest [pair u v] (by omega)]
        simp
      · rw [ih (v :: rest) _ (by simp only [List.length_cons]; omega),
          ih (v :: rest) [single u] (by simp only [List.length_cons]; omega)]
        simp

private theorem toNat_valid (c : Char) : c.toNat < 0xd800 ∨ (0xdfff < c.toNat ∧ c.toNat < 0x110000) :=
  c.valid

private theorem chars_cons_of_not_high {u : UInt16} (hu : isHigh u = false) (us : List UInt16) :
    chars (u :: us) = single u :: chars us := by
  cases us with
  | nil => simp [chars, charsFrom]
  | cons v rest =>
    have h : charsFrom [single u] (v :: rest) = single u :: chars (v :: rest) :=
      charsFrom_eq _ _
    simpa [chars, charsFrom, hu] using h

private theorem chars_cons_pair {u v : UInt16} (hu : isHigh u = true) (hv : isLow v = true)
    (us : List UInt16) : chars (u :: v :: us) = pair u v :: chars us := by
  have h : charsFrom [pair u v] us = pair u v :: chars us := charsFrom_eq _ _
  simpa [chars, charsFrom, hu, hv] using h

private theorem chars_units_bmp (c : Char) (us : List UInt16) (h : c.toNat < 0x10000) :
    chars (UInt16.ofNat c.toNat :: us) = c :: chars us := by
  have hu : (UInt16.ofNat c.toNat).toNat = c.toNat := by
    rw [UInt16.toNat_ofNat']
    omega
  have hvalid := toNat_valid c
  have hhigh : isHigh (UInt16.ofNat c.toNat) = false := by
    simp only [isHigh, hu, Bool.and_eq_false_iff, decide_eq_false_iff_not]
    omega
  have hlow : isLow (UInt16.ofNat c.toNat) = false := by
    simp only [isLow, hu, Bool.and_eq_false_iff, decide_eq_false_iff_not]
    omega
  rw [chars_cons_of_not_high hhigh]
  simp only [single, hhigh, hlow, hu, Bool.or_false, Bool.false_eq_true, if_false, Char.ofNat_toNat]

private theorem chars_units_pair (c : Char) (us : List UInt16) (h : ¬ c.toNat < 0x10000) :
    chars (UInt16.ofNat (0xd800 + (c.toNat - 0x10000) / 0x400) ::
      UInt16.ofNat (0xdc00 + (c.toNat - 0x10000) % 0x400) :: us) = c :: chars us := by
  have hvalid := toNat_valid c
  have hu : (UInt16.ofNat (0xd800 + (c.toNat - 0x10000) / 0x400)).toNat =
      0xd800 + (c.toNat - 0x10000) / 0x400 := by
    rw [UInt16.toNat_ofNat']
    omega
  have hv : (UInt16.ofNat (0xdc00 + (c.toNat - 0x10000) % 0x400)).toNat =
      0xdc00 + (c.toNat - 0x10000) % 0x400 := by
    rw [UInt16.toNat_ofNat']
    omega
  rw [chars_cons_pair]
  · have hsum : 0x10000 + (0xd800 + (c.toNat - 0x10000) / 0x400 - 0xd800) * 0x400 +
        (0xdc00 + (c.toNat - 0x10000) % 0x400 - 0xdc00) = c.toNat := by omega
    rw [pair, hu, hv, hsum, Char.ofNat_toNat]
  · simp only [isHigh, hu, Bool.and_eq_true, decide_eq_true_eq]
    omega
  · simp only [isLow, hv, Bool.and_eq_true, decide_eq_true_eq]
    omega

theorem chars_units_append (c : Char) (us : List UInt16) :
    chars (units c ++ us) = c :: chars us := by
  unfold units
  split
  · rename_i h
    exact chars_units_bmp c us h
  · rename_i h
    exact chars_units_pair c us h

end Utf16

namespace ModifiedUtf8

private theorem unitsFrom_eq (acc : List UInt16) (bytes : List UInt8) :
    unitsFrom acc bytes = acc.reverse ++ units bytes := by
  suffices h : ∀ n bytes acc, bytes.length ≤ n →
      unitsFrom acc bytes = acc.reverse ++ units bytes from h bytes.length bytes acc (Nat.le_refl _)
  intro n
  induction n with
  | zero =>
    intro bytes acc hbytes
    have : bytes = [] := List.length_eq_zero_iff.mp (Nat.le_zero.mp hbytes)
    subst this
    simp [units, unitsFrom]
  | succ n ih =>
    intro bytes acc hbytes
    cases bytes with
    | nil => simp [units, unitsFrom]
    | cons a rest =>
      -- Every branch continues on a shorter input with one more unit.
      have hstep (u : UInt16) (more : List UInt8) (hmore : more.length ≤ n) :
          unitsFrom (u :: acc) more = acc.reverse ++ unitsFrom [u] more := by
        rw [ih more (u :: acc) hmore, ih more [u] hmore]
        simp
      simp only [List.length_cons] at hbytes
      have hrest : rest.length ≤ n := by omega
      simp only [units]
      rw [unitsFrom.eq_def, unitsFrom.eq_def []]
      dsimp only
      split
      · exact hstep _ rest hrest
      split
      · split
        · simp only [List.length_cons] at hrest
          exact hstep _ _ (by omega)
        · exact hstep _ _ (by simp)
      split
      · split
        · simp only [List.length_cons] at hrest
          exact hstep _ _ (by omega)
        · exact hstep _ _ (by simpa using hrest)
        · exact hstep _ _ (by simp)
      · exact hstep _ rest hrest

private theorem units_one {a : UInt8} (h : a.toNat < 0x80) (rest : List UInt8) :
    units (a :: rest) = a.toUInt16 :: units rest := by
  rw [units, unitsFrom.eq_def]
  simp only [h, if_true]
  exact unitsFrom_eq _ _

private theorem units_two {a b : UInt8} (h : ¬ a.toNat < 0x80) (h' : a.toNat / 32 = 6)
    (rest : List UInt8) : units (a :: b :: rest) = unit2 a b :: units rest := by
  rw [units, unitsFrom.eq_def]
  simp only [h, h', if_true, if_false]
  exact unitsFrom_eq _ _

private theorem units_three {a b c : UInt8} (h : ¬ a.toNat < 0x80) (h' : ¬ a.toNat / 32 = 6)
    (h'' : a.toNat / 16 = 14) (rest : List UInt8) :
    units (a :: b :: c :: rest) = unit3 a b c :: units rest := by
  rw [units, unitsFrom.eq_def]
  simp only [h, h', h'', if_true, if_false]
  exact unitsFrom_eq _ _

theorem units_encodeUnit_append (u : UInt16) (rest : List UInt8) :
    units (encodeUnit u ++ rest) = u :: units rest := by
  have hu := u.toNat_lt
  unfold encodeUnit
  dsimp only
  split
  · rename_i h
    have ha : (UInt8.ofNat u.toNat).toNat = u.toNat := by
      rw [UInt8.toNat_ofNat']
      omega
    rw [List.singleton_append, units_one (by omega)]
    congr 1
    apply UInt16.toNat_inj.mp
    rw [UInt8.toNat_toUInt16, ha]
  split
  · rename_i h h'
    have ha : (UInt8.ofNat (0xc0 + u.toNat / 64)).toNat = 0xc0 + u.toNat / 64 := by
      rw [UInt8.toNat_ofNat']
      omega
    have hb : (UInt8.ofNat (0x80 + u.toNat % 64)).toNat = 0x80 + u.toNat % 64 := by
      rw [UInt8.toNat_ofNat']
      omega
    rw [List.cons_append, List.singleton_append, units_two (by omega) (by omega)]
    congr 1
    apply UInt16.toNat_inj.mp
    rw [unit2, ha, hb, UInt16.toNat_ofNat']
    omega
  · rename_i h h'
    have ha : (UInt8.ofNat (0xe0 + u.toNat / 4096)).toNat = 0xe0 + u.toNat / 4096 := by
      rw [UInt8.toNat_ofNat']
      omega
    have hb : (UInt8.ofNat (0x80 + u.toNat / 64 % 64)).toNat = 0x80 + u.toNat / 64 % 64 := by
      rw [UInt8.toNat_ofNat']
      omega
    have hc : (UInt8.ofNat (0x80 + u.toNat % 64)).toNat = 0x80 + u.toNat % 64 := by
      rw [UInt8.toNat_ofNat']
      omega
    rw [List.cons_append, List.cons_append, List.singleton_append,
      units_three (by omega) (by omega) (by omega)]
    congr 1
    apply UInt16.toNat_inj.mp
    rw [unit3, ha, hb, hc, UInt16.toNat_ofNat']
    omega

private theorem units_flatMap_append (us : List UInt16) (rest : List UInt8) :
    units (us.flatMap encodeUnit ++ rest) = us ++ units rest := by
  induction us with
  | nil => rfl
  | cons u us ih =>
    rw [List.flatMap_cons, List.append_assoc, units_encodeUnit_append, ih, List.cons_append]

private theorem chars_encode_append (cs : List Char) (rest : List UInt8) :
    Utf16.chars (units (cs.flatMap encodeChar ++ rest)) = cs ++ Utf16.chars (units rest) := by
  induction cs with
  | nil => rfl
  | cons c cs ih =>
    rw [List.flatMap_cons, List.append_assoc, encodeChar, units_flatMap_append,
      Utf16.chars_units_append, ih, List.cons_append]

/-- A text is read back from its bytes, and what follows it is read as if it stood alone. -/
theorem decode_encode_append (text : String) (rest : List UInt8) :
    decode (encode text ++ rest) = text ++ decode rest := by
  rw [decode, encode, chars_encode_append, String.ofList_append, String.ofList_toList, decode]

theorem decode_encode (text : String) : decode (encode text) = text := by
  have h := decode_encode_append text []
  rwa [List.append_nil, show decode [] = "" from rfl, String.append_empty] at h

theorem encode_injective {s t : String} (h : encode s = encode t) : s = t := by
  rw [← decode_encode s, h, decode_encode]

theorem encode16?_eq_some_iff {text : String} {bytes : List UInt8} :
    encode16? text = some bytes ↔ bytes = encode text ∧ (encode text).length ≤ 65535 := by
  simp only [encode16?]
  split
  · rename_i h
    simp [h, eq_comm]
  · rename_i h
    simp [h]

theorem encode16?_eq_none_iff {text : String} :
    encode16? text = none ↔ 65535 < (encode text).length := by
  simp only [encode16?]
  split <;> simp <;> omega

end ModifiedUtf8

end Classwright
