import Classwright.Proofs.InstrCodec
import Mathlib.Tactic.IntervalCases

/-!
# Code is read exactly

Reading undoes writing in both directions: the bytes that are taken for an instruction are those that
would be written for it, and where no instruction can be read, no instruction's bytes stand.  So the
byte strings that can be read are the written ones, and they are read in pieces as well as at once.
-/

namespace Classwright

section Codes

variable {n : Nat}

theorem Kind.code_ofCode (h : n < 5) : (Kind.ofCode n).code = n := by
  interval_cases n <;> rfl

theorem NumKind.code_ofCode (h : n < 4) : (NumKind.ofCode n).code = n := by
  interval_cases n <;> rfl

theorem IntKind.code_ofCode (h : n < 2) : (IntKind.ofCode n).code = n := by
  interval_cases n <;> rfl

theorem Element.code_ofCode (h : n < 8) : (Element.ofCode n).code = n := by
  interval_cases n <;> rfl

theorem Arith.code_ofCode (h : n < 5) : (Arith.ofCode n).code = n := by
  interval_cases n <;> rfl

theorem BitOp.code_ofCode (h : n < 6) : (BitOp.ofCode n).code = n := by
  interval_cases n <;> rfl

theorem Conversion.code_ofCode (h : n < 15) : (Conversion.ofCode n).code = n := by
  interval_cases n <;> rfl

theorem CompareOp.code_ofCode (h : n < 5) : (CompareOp.ofCode n).code = n := by
  interval_cases n <;> rfl

theorem FieldOp.code_ofCode (h : n < 4) : (FieldOp.ofCode n).code = n := by
  interval_cases n <;> rfl

end Codes

namespace Instr

/-- The instructions with these operands are written with the operation code `n` in front. -/
def Operands.Start (n : Nat) : Operands → Prop
  | .none i => i.encode = [UInt8.ofNat n]
  | .byte make => ∀ b, (make b).encode = [UInt8.ofNat n, b]
  | .word make => ∀ w, (make w).encode = UInt8.ofNat n :: Bytes.u16 w
  | .wide => n = 0xc4
  | .interfaceCall => n = 0xb9
  | .dimensions => n = 0xc5
  | .unknown => True

namespace Operands

variable {k n : Nat}

private theorem start_none {i : Instr} (hencode : i.encode = [UInt8.ofNat k]) (h : k = n) :
    (Operands.none i).Start n := h ▸ hencode

private theorem start_byte {make : UInt8 → Instr} (hencode : ∀ b, (make b).encode = [UInt8.ofNat k, b])
    (h : k = n) : (Operands.byte make).Start n := h ▸ hencode

private theorem start_word {make : UInt16 → Instr}
    (hencode : ∀ w, (make w).encode = UInt8.ofNat k :: Bytes.u16 w) (h : k = n) :
    (Operands.word make).Start n := h ▸ hencode

private theorem Start.ite {c : Prop} [Decidable c] {a b : Operands} (ha : c → a.Start n)
    (hb : ¬ c → b.Start n) : (if c then a else b).Start n := by
  split
  · exact ha ‹_›
  · exact hb ‹_›

end Operands

private theorem start_jump {j : Jump} {n : Nat} (h : j.opcode = n) :
    (Operands.word fun w => jump j w.toInt16).Start n :=
  Operands.start_word (fun w => by rw [encode, UInt16.toUInt16_toInt16]) h

private theorem opcode_jumpOfCode {n : Nat} (hle : 0x99 ≤ n) (hlt : n < 0xa8) :
    (jumpOfCode n).opcode = n := by
  interval_cases n <;> rfl

-- One line for each group of operation codes, in the order of the table.
open Operands in
private theorem start_lowOperands {n : Nat} (h : n < 0x5a) : (lowOperands n).Start n :=
  .ite (start_none rfl ∘ .symm) fun _ =>
  .ite (start_none rfl ∘ .symm) fun _ =>
  .ite (fun _ => start_none rfl (by simp only [residue]; omega)) fun _ =>
  .ite (fun _ => start_none rfl (by simp only [residue]; omega)) fun _ =>
  .ite (fun _ => start_none rfl (by simp only [residue]; omega)) fun _ =>
  .ite (fun _ => start_none rfl (by simp only [residue]; omega)) fun _ =>
  .ite (start_byte (fun b => by rw [encode, UInt8.toUInt8_toInt8]; rfl) ∘ .symm) fun _ =>
  .ite (start_word (fun w => by rw [encode, UInt16.toUInt16_toInt16]; rfl) ∘ .symm) fun _ =>
  .ite (start_byte (fun _ => rfl) ∘ .symm) fun _ =>
  .ite (start_word (fun _ => rfl) ∘ .symm) fun _ =>
  .ite (start_word (fun _ => rfl) ∘ .symm) fun _ =>
  .ite (fun _ => start_byte (fun _ => rfl) (by rw [Kind.code_ofCode] <;> omega)) fun _ =>
  .ite (fun _ => start_none rfl
    (by rw [Kind.code_ofCode (by omega)]; simp only [residue]; omega)) fun _ =>
  .ite (fun _ => start_none rfl (by rw [Element.code_ofCode] <;> omega)) fun _ =>
  .ite (fun _ => start_byte (fun _ => rfl) (by rw [Kind.code_ofCode] <;> omega)) fun _ =>
  .ite (fun _ => start_none rfl
    (by rw [Kind.code_ofCode (by omega)]; simp only [residue]; omega)) fun _ =>
  .ite (fun _ => start_none rfl (by rw [Element.code_ofCode] <;> omega)) fun _ =>
  .ite (start_none rfl ∘ .symm) fun _ =>
  .ite (start_none rfl ∘ .symm) fun _ =>
  start_none (i := dup) rfl (k := 0x59) (by omega)

open Operands in
private theorem start_middleOperands {n : Nat} (hle : 0x60 ≤ n) (hlt : n < 0xb2) :
    (middleOperands n).Start n :=
  .ite (fun _ => start_none rfl
    (by rw [Arith.code_ofCode (by omega), NumKind.code_ofCode (by omega)]; omega)) fun _ =>
  .ite (fun _ => start_none rfl (by rw [NumKind.code_ofCode] <;> omega)) fun _ =>
  .ite (fun _ => start_none rfl
    (by rw [BitOp.code_ofCode (by omega), IntKind.code_ofCode (by omega)]; omega)) fun _ =>
  .ite (fun _ => trivial) fun _ =>
  .ite (fun _ => start_none rfl (by rw [Conversion.code_ofCode] <;> omega)) fun _ =>
  .ite (fun _ => start_none rfl (by rw [CompareOp.code_ofCode] <;> omega)) fun _ =>
  .ite (fun _ => start_jump (opcode_jumpOfCode (by omega) (by omega))) fun _ =>
  .ite (fun _ => trivial) fun _ =>
  .ite (fun _ => start_none rfl (by rw [Kind.code_ofCode] <;> omega)) fun _ =>
  start_none (i := returnVoid) rfl (k := 0xb1) (by omega)

open Operands in
private theorem start_highOperands {n : Nat} (hle : 0xb2 ≤ n) : (highOperands n).Start n :=
  .ite (fun _ => start_word (fun _ => rfl) (by rw [FieldOp.code_ofCode] <;> omega)) fun _ =>
  .ite (start_word (fun _ => rfl) ∘ .symm) fun _ =>
  .ite (start_word (fun _ => rfl) ∘ .symm) fun _ =>
  .ite (start_word (fun _ => rfl) ∘ .symm) fun _ =>
  .ite (fun h => h) fun _ =>
  .ite (start_word (fun _ => rfl) ∘ .symm) fun _ =>
  .ite (start_byte (fun _ => rfl) ∘ .symm) fun _ =>
  .ite (start_word (fun _ => rfl) ∘ .symm) fun _ =>
  .ite (start_none rfl ∘ .symm) fun _ =>
  .ite (start_word (fun _ => rfl) ∘ .symm) fun _ =>
  .ite (start_word (fun _ => rfl) ∘ .symm) fun _ =>
  .ite (fun h => h) fun _ =>
  .ite (fun h => h) fun _ =>
  .ite (start_jump ∘ .symm) fun _ =>
  .ite (start_jump ∘ .symm) fun _ => trivial

private theorem start_operands (opcode : UInt8) : (operands opcode).Start opcode.toNat :=
  .ite start_lowOperands fun _ => .ite (fun _ => trivial) fun _ =>
    .ite (start_middleOperands (by omega)) fun _ => start_highOperands (by omega)

private theorem encode_of_wideForm? {opcode : UInt8} {make : UInt16 → Instr}
    (h : wideForm? opcode = some make) (s : UInt16) :
    (make s).encode = 0xc4 :: opcode :: Bytes.u16 s := by
  have hcode : ∀ k : Nat, k = opcode.toNat → UInt8.ofNat k = opcode := fun k hk => by
    rw [hk, UInt8.ofNat_toNat]
  unfold wideForm? at h
  dsimp only at h
  split at h
  · cases h
    rw [encode, encodeSlot, hcode _ (by rw [Kind.code_ofCode] <;> omega)]
  · split at h
    · cases h
      rw [encode, encodeSlot, hcode _ (by rw [Kind.code_ofCode] <;> omega)]
    · cases h

private theorem eq_of_readOperands {opcode : UInt8} {input rest : List UInt8} {i : Instr}
    (h : readOperands (operands opcode) input = .ok (i, rest)) :
    opcode :: input = i.encode ++ rest := by
  have hstart := start_operands opcode
  have hopcode : ∀ k : UInt8, opcode.toNat = k.toNat → opcode = k := fun _ => UInt8.toNat_inj.mp
  cases hoperands : operands opcode with
  | none instr =>
    rw [hoperands] at h hstart
    obtain ⟨rfl, rfl⟩ := Reader.pure_eq_ok_iff.mp h
    rw [hstart, UInt8.ofNat_toNat]
    rfl
  | byte make =>
    rw [hoperands] at h hstart
    simp only [readOperands, Reader.bind_eq_ok_iff, Reader.pure_eq_ok_iff] at h
    obtain ⟨b, _, hb, rfl, rfl⟩ := h
    rw [hstart, UInt8.ofNat_toNat, (Reader.takes_u8 _ _ _ hb).1]
    rfl
  | word make =>
    rw [hoperands] at h hstart
    simp only [readOperands, Reader.bind_eq_ok_iff, Reader.pure_eq_ok_iff] at h
    obtain ⟨w, _, hw, rfl, rfl⟩ := h
    rw [hstart, UInt8.ofNat_toNat, (Reader.takes_u16 _ _ _ hw).1]
    rfl
  | wide =>
    rw [hoperands] at h hstart
    simp only [readOperands, Reader.bind_eq_ok_iff] at h
    obtain ⟨b, _, hb, h⟩ := h
    cases hform : wideForm? b with
    | none =>
      rw [hform] at h
      cases h
    | some make =>
      rw [hform] at h
      simp only [Reader.bind_eq_ok_iff, Reader.pure_eq_ok_iff] at h
      obtain ⟨s, _, hs, rfl, rfl⟩ := h
      rw [encode_of_wideForm? hform, (Reader.takes_u8 _ _ _ hb).1, (Reader.takes_u16 _ _ _ hs).1,
        hopcode 0xc4 hstart]
      rfl
  | interfaceCall =>
    rw [hoperands] at h hstart
    simp only [readOperands, Reader.bind_eq_ok_iff, Reader.pure_eq_ok_iff] at h
    obtain ⟨index, _, hindex, count, _, hcount, filler, _, hfiller, rfl, rfl⟩ := h
    rw [(Reader.takes_u16 _ _ _ hindex).1, (Reader.takes_u8 _ _ _ hcount).1,
      (Reader.takes_u8 _ _ _ hfiller).1, hopcode 0xb9 hstart]
    simp [encode]
  | dimensions =>
    rw [hoperands] at h hstart
    simp only [readOperands, Reader.bind_eq_ok_iff, Reader.pure_eq_ok_iff] at h
    obtain ⟨index, _, hindex, count, _, hcount, rfl, rfl⟩ := h
    rw [(Reader.takes_u16 _ _ _ hindex).1, (Reader.takes_u8 _ _ _ hcount).1, hopcode 0xc5 hstart]
    simp [encode]
  | unknown =>
    rw [hoperands] at h
    cases h

theorem takes_read : Reader.Takes read encode (fun _ => True) := by
  intro input i rest h
  rw [read, Reader.tagged_eq_ok_iff, Reader.bind_eq_ok_iff] at h
  obtain ⟨opcode, middle, hopcode, h⟩ := h
  rw [(Reader.takes_u8 _ _ _ hopcode).1]
  exact ⟨eq_of_readOperands h, trivial⟩

end Instr

namespace Reader

variable {α : Type} {r : Reader α} {input rest : List UInt8}

private theorem toEndFrom_eq (r : Reader α) (fuel : Nat) (done : List α) (input : List UInt8) :
    toEndFrom r fuel done input = (toEndFrom r fuel [] input).map (done.reverse ++ ·) := by
  induction fuel generalizing done input with
  | zero => cases input <;> simp [toEndFrom, Except.map]
  | succ fuel ih =>
    cases input with
    | nil => simp [toEndFrom, Except.map]
    | cons b input =>
      simp only [toEndFrom]
      split
      · rfl
      · rename_i a rest _
        rw [ih (a :: done), ih [a]]
        cases toEndFrom r fuel [] rest <;> simp [Except.map]

/-- A reader that takes at least a byte each time does not need more steps than there are bytes. -/
private theorem toEndFrom_length
    (hr : ∀ input a rest, r input = .ok (a, rest) → rest.length < input.length) {fuel : Nat}
    (h : input.length ≤ fuel) (done : List α) :
    toEndFrom r fuel done input = toEndFrom r input.length done input := by
  induction fuel using Nat.strong_induction_on generalizing done input with
  | _ fuel ih =>
    cases input with
    | nil => cases fuel <;> rfl
    | cons b input =>
      cases fuel with
      | zero => cases h
      | succ fuel =>
        simp only [List.length_cons, toEndFrom]
        split
        · rfl
        · rename_i a rest hread
          have hlt := hr _ _ _ hread
          simp only [List.length_cons] at hlt h
          rw [ih fuel (Nat.lt_succ_self fuel) (by omega), ih input.length (by omega) (by omega)]

private theorem toEnd_of_ok (hr : ∀ input a rest, r input = .ok (a, rest) → rest.length < input.length)
    {a : α} (h : r input = .ok (a, rest)) : toEnd r input = (toEnd r rest).map (a :: ·) := by
  have hlt := hr _ _ _ h
  cases input with
  | nil => cases hlt
  | cons b input =>
    simp only [List.length_cons] at hlt
    rw [toEnd, List.length_cons, toEndFrom, h]
    dsimp only
    rw [toEndFrom_length hr (by omega), toEndFrom_eq]
    rfl

private theorem toEnd_of_error {e : Fault} (hne : input ≠ []) (h : r input = .error e) :
    toEnd r input = .error e := by
  cases input with
  | nil => exact absurd rfl hne
  | cons b input => rw [toEnd, List.length_cons, toEndFrom, h]

end Reader

namespace Instr

theorem length_lt_of_read {input rest : List UInt8} {i : Instr} (h : read input = .ok (i, rest)) :
    rest.length < input.length := by
  have hpos := size_pos i
  rw [← length_encode] at hpos
  rw [(takes_read _ _ _ h).1, List.length_append]
  omega

private theorem eq_of_read_error {input : List UInt8} {e : Fault} (h : read input = .error e) :
    e = .unrecognized input.length := by
  unfold read Reader.tagged at h
  split at h
  · cases h
  · exact (Except.error.inj h).symm

theorem toEnd_encodeAll_append (code : List Instr) (rest : List UInt8) :
    Reader.toEnd read (encodeAll code ++ rest) = (Reader.toEnd read rest).map (code ++ ·) := by
  induction code with
  | nil => cases h : Reader.toEnd read rest <;> simp [encodeAll, h, Except.map]
  | cons i code ih =>
    have hread := read_encode_append i (encodeAll code ++ rest)
    rw [show encodeAll (i :: code) ++ rest = i.encode ++ (encodeAll code ++ rest) from
      List.append_assoc _ _ _, Reader.toEnd_of_ok (fun _ _ _ => length_lt_of_read) hread, ih]
    cases Reader.toEnd read rest <;> rfl

/-- Every input is code up to where it ends or no instruction can be read. -/
theorem exists_encodeAll_append (input : List UInt8) :
    ∃ code rest, input = encodeAll code ++ rest ∧ (rest = [] ∨ ∃ e, rest ≠ [] ∧ read rest = .error e) := by
  induction hlength : input.length using Nat.strong_induction_on generalizing input with
  | _ n ih =>
    cases hread : read input with
    | error e =>
      refine ⟨[], input, rfl, ?_⟩
      by_cases hnil : input = []
      · exact .inl hnil
      · exact .inr ⟨e, hnil, hread⟩
    | ok found =>
      obtain ⟨i, after⟩ := found
      have hlt := length_lt_of_read hread
      obtain ⟨code, rest, hafter, hrest⟩ := ih after.length (by omega) after rfl
      refine ⟨i :: code, rest, ?_, hrest⟩
      rw [(takes_read _ _ _ hread).1, hafter]
      exact (List.append_assoc _ _ _).symm

private theorem not_prefix_of_read_error {input : List UInt8} {e : Fault} (h : read input = .error e)
    (i : Instr) : ¬ i.encode <+: input := by
  rintro ⟨rest, rfl⟩
  rw [read_encode_append] at h
  cases h

theorem decodeAll_of_error (code : List Instr) {rest : List UInt8} (hne : rest ≠ []) {e : Fault}
    (h : read rest = .error e) :
    decodeAll (encodeAll code ++ rest) = .error (.unrecognized (encodeAll code).length) := by
  rw [decodeAll, Reader.runToEnd, toEnd_encodeAll_append, Reader.toEnd_of_error hne h,
    eq_of_read_error h]
  simp [Except.map, Fault.atOffset]

private theorem eq_encodeAll_of_decodeAll {bytes : List UInt8} {code : List Instr}
    (h : decodeAll bytes = .ok code) : bytes = encodeAll code := by
  obtain ⟨found, rest, rfl, rfl | ⟨e, hne, hread⟩⟩ := exists_encodeAll_append bytes
  · rw [List.append_nil, decodeAll_encodeAll] at h
    rw [List.append_nil, Except.ok.inj h]
  · rw [decodeAll_of_error found hne hread] at h
    cases h

/-- Code is refused where, behind code, no instruction stands. -/
theorem decodeAll_eq_error_iff {bytes : List UInt8} {e : DecodeError} :
    decodeAll bytes = .error e ↔ ∃ p, e = .unrecognized p ∧ p < bytes.length ∧
      (∃ code, decodeAll (bytes.take p) = .ok code) ∧ ∀ i : Instr, ¬ i.encode <+: bytes.drop p := by
  constructor
  · intro h
    obtain ⟨code, rest, rfl, rfl | ⟨fault, hne, hread⟩⟩ := exists_encodeAll_append bytes
    · rw [List.append_nil, decodeAll_encodeAll] at h
      cases h
    · rw [decodeAll_of_error code hne hread] at h
      have hpos := List.length_pos_iff.mpr hne
      refine ⟨_, (Except.error.inj h).symm, by rw [List.length_append]; omega, ⟨code, ?_⟩, ?_⟩
      · rw [List.take_left, decodeAll_encodeAll]
      · rw [List.drop_left]
        exact not_prefix_of_read_error hread
  · rintro ⟨p, rfl, hlt, ⟨code, hcode⟩, hnone⟩
    have hfront := eq_encodeAll_of_decodeAll hcode
    have hlength : (encodeAll code).length = p := by
      rw [← hfront, List.length_take]
      omega
    have hne : bytes.drop p ≠ [] := by
      rw [← List.length_pos_iff, List.length_drop]
      omega
    cases hread : read (bytes.drop p) with
    | ok found => exact absurd ⟨found.2, ((takes_read _ _ _ hread).1).symm⟩ (hnone found.1)
    | error fault =>
      have herror := decodeAll_of_error code hne hread
      rwa [← hfront, List.take_append_drop, hfront, hlength] at herror

end Instr

/-- The error with its position counted from the start of `n` more bytes in front. -/
def DecodeError.after (n : Nat) : DecodeError → DecodeError
  | .unrecognized offset => .unrecognized (n + offset)
  | e => e

namespace Instr

theorem decodeAll_append {front : List UInt8} {code : List Instr} (h : decodeAll front = .ok code)
    (back : List UInt8) :
    decodeAll (front ++ back) =
      match decodeAll back with
      | .ok more => .ok (code ++ more)
      | .error e => .error (e.after front.length) := by
  rw [eq_encodeAll_of_decodeAll h]
  obtain ⟨more, rest, rfl, hrest⟩ := exists_encodeAll_append back
  have hjoin : encodeAll code ++ (encodeAll more ++ rest) = encodeAll (code ++ more) ++ rest := by
    simp [encodeAll]
  rw [hjoin]
  rcases hrest with rfl | ⟨e, hne, hread⟩
  · rw [List.append_nil, List.append_nil, decodeAll_encodeAll, decodeAll_encodeAll]
  · rw [decodeAll_of_error _ hne hread, decodeAll_of_error _ hne hread]
    simp [encodeAll, DecodeError.after]

theorem length_encodeAll (code : List Instr) :
    (encodeAll code).length = (code.map size).sum := by
  simp [encodeAll, List.length_flatMap, length_encode]

/-- Reading and writing code are exact inverses: what is written is read back and has the size of its
instructions, what is read is written back, code is refused exactly where no instruction stands behind
code, and it is read in pieces. -/
theorem codec_exact :
    (∀ code, decodeAll (encodeAll code) = .ok code ∧
      (encodeAll code).length = (code.map size).sum) ∧
    (∀ bytes code, decodeAll bytes = .ok code → encodeAll code = bytes) ∧
    (∀ bytes e, decodeAll bytes = .error e ↔ ∃ p, e = .unrecognized p ∧ p < bytes.length ∧
      (∃ code, decodeAll (bytes.take p) = .ok code) ∧ ∀ i : Instr, ¬ i.encode <+: bytes.drop p) ∧
    (∀ bytes, (∃ code, decodeAll bytes = .ok code) ↔ ∃ code, bytes = encodeAll code) ∧
    ∀ front code back, decodeAll front = .ok code → decodeAll (front ++ back) =
      match decodeAll back with
      | .ok more => .ok (code ++ more)
      | .error e => .error (e.after front.length) := by
  refine ⟨fun code => ⟨decodeAll_encodeAll code, length_encodeAll code⟩,
    fun bytes code h => (eq_encodeAll_of_decodeAll h).symm, fun bytes e => decodeAll_eq_error_iff,
    fun bytes => ⟨?_, ?_⟩, fun front code back h => decodeAll_append h back⟩
  · rintro ⟨code, h⟩
    exact ⟨code, eq_encodeAll_of_decodeAll h⟩
  · rintro ⟨code, rfl⟩
    exact ⟨code, decodeAll_encodeAll code⟩

end Instr

end Classwright
