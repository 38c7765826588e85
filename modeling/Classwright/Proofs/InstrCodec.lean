import Classwright.Instruction.Codec
import Classwright.Proofs.Bytes
import Mathlib.Data.Fintype.Basic
import Mathlib.Tactic.FinCases

/-!
# Instructions read back

Every instruction is read back from its bytes, whatever follows them, so code can be read from any
address at which an instruction starts.
-/

namespace Classwright

namespace Instr

theorem length_encode (i : Instr) : i.encode.length = i.size := by
  cases i with
  | load k s => cases s <;> rfl
  | store k s => cases s <;> rfl
  | _ => rfl

theorem size_pos (i : Instr) : 0 < i.size := by
  cases i with
  | load k s => exact Nat.lt_of_lt_of_le Nat.one_pos (Nat.le_add_right 1 _)
  | store k s => exact Nat.lt_of_lt_of_le Nat.one_pos (Nat.le_add_right 1 _)
  | _ => simp [size]

private theorem read_of_none {opcode : UInt8} {i : Instr} (h : operands opcode = .none i)
    (rest : List UInt8) : read (opcode :: rest) = .ok (i, rest) := by
  rw [read, Reader.tagged_eq_ok_iff]
  change readOperands (operands opcode) rest = _
  rw [h]
  rfl

private theorem read_of_byte (opcode : UInt8) (make : UInt8 → Instr)
    (h : operands opcode = .byte make) (b : UInt8) (rest : List UInt8) :
    read (opcode :: b :: rest) = .ok (make b, rest) := by
  rw [read, Reader.tagged_eq_ok_iff]
  change readOperands (operands opcode) (b :: rest) = _
  rw [h]
  rfl

private theorem read_of_word (opcode : UInt8) (make : UInt16 → Instr)
    (h : operands opcode = .word make) (w : UInt16) (rest : List UInt8) :
    read (opcode :: (Bytes.u16 w ++ rest)) = .ok (make w, rest) := by
  rw [read, Reader.tagged_eq_ok_iff]
  change readOperands (operands opcode) (Bytes.u16 w ++ rest) = _
  rw [h]
  change (Reader.u16 >>= _) _ = _
  rw [Reader.bind_of_ok (Reader.reads_u16 _ _ trivial), Reader.pure_apply]

private theorem read_of_wide (opcode : UInt8) (make : UInt16 → Instr)
    (h : wideForm? opcode = some make) (w : UInt16) (rest : List UInt8) :
    read (0xc4 :: opcode :: (Bytes.u16 w ++ rest)) = .ok (make w, rest) := by
  rw [read, Reader.tagged_eq_ok_iff]
  change readOperands .wide (opcode :: (Bytes.u16 w ++ rest)) = _
  have hbyte : Reader.u8 (opcode :: (Bytes.u16 w ++ rest)) = .ok (opcode, _) := rfl
  rw [readOperands, Reader.bind_of_ok hbyte, h]
  change (Reader.u16 >>= _) _ = _
  rw [Reader.bind_of_ok (Reader.reads_u16 _ _ trivial), Reader.pure_apply]

private theorem operands_iconst (n : Fin 7) :
    operands (UInt8.ofNat (0x02 + n.val)) = .none (iconst n) := by
  fin_cases n <;> rfl

private theorem operands_lconst (n : Fin 2) :
    operands (UInt8.ofNat (0x09 + n.val)) = .none (lconst n) := by
  fin_cases n <;> rfl

private theorem operands_fconst (n : Fin 3) :
    operands (UInt8.ofNat (0x0b + n.val)) = .none (fconst n) := by
  fin_cases n <;> rfl

private theorem operands_dconst (n : Fin 2) :
    operands (UInt8.ofNat (0x0e + n.val)) = .none (dconst n) := by
  fin_cases n <;> rfl

private theorem operands_load_implicit (k : Kind) (s : Fin 4) :
    operands (UInt8.ofNat (0x1a + 4 * k.code + s.val)) = .none (load k (.implicit s)) := by
  cases k <;> fin_cases s <;> rfl

private theorem operands_store_implicit (k : Kind) (s : Fin 4) :
    operands (UInt8.ofNat (0x3b + 4 * k.code + s.val)) = .none (store k (.implicit s)) := by
  cases k <;> fin_cases s <;> rfl

private theorem operands_jump (j : Jump) :
    operands (UInt8.ofNat j.opcode) = .word fun w => jump j w.toInt16 := by
  cases j with
  | ifZero op => cases op <;> cbv
  | ifInt op => cases op <;> cbv
  | ifSame expected => cases expected <;> rfl
  | always => rfl
  | ifNull expected => cases expected <;> rfl

/-- Every instruction is read back, whatever follows it. -/
theorem read_encode_append (i : Instr) (rest : List UInt8) :
    read (i.encode ++ rest) = .ok (i, rest) := by
  cases i with
  | nop => exact read_of_none rfl rest
  | aconstNull => exact read_of_none rfl rest
  | iconst n => exact read_of_none (operands_iconst n) rest
  | lconst n => exact read_of_none (operands_lconst n) rest
  | fconst n => exact read_of_none (operands_fconst n) rest
  | dconst n => exact read_of_none (operands_dconst n) rest
  | bipush v =>
    have h := read_of_byte 0x10 _ rfl v.toUInt8 rest
    rw [Int8.toInt8_toUInt8] at h
    exact h
  | sipush v =>
    have h := read_of_word 0x11 _ rfl v.toUInt16 rest
    rw [Int16.toInt16_toUInt16] at h
    exact h
  | ldc i => exact read_of_byte 0x12 _ rfl i rest
  | ldcW i => exact read_of_word 0x13 _ rfl i rest
  | ldc2W i => exact read_of_word 0x14 _ rfl i rest
  | load k s =>
    cases s with
    | implicit s => exact read_of_none (operands_load_implicit k s) rest
    | byte s =>
      refine read_of_byte _ (fun b => load k (.byte b)) ?_ s rest
      cases k <;> rfl
    | wide s =>
      refine read_of_wide _ (fun w => load k (.wide w)) ?_ s rest
      cases k <;> rfl
  | store k s =>
    cases s with
    | implicit s => exact read_of_none (operands_store_implicit k s) rest
    | byte s =>
      refine read_of_byte _ (fun b => store k (.byte b)) ?_ s rest
      cases k <;> rfl
    | wide s =>
      refine read_of_wide _ (fun w => store k (.wide w)) ?_ s rest
      cases k <;> rfl
  | arrayLoad e =>
    refine read_of_none ?_ rest
    cases e <;> rfl
  | arrayStore e =>
    refine read_of_none ?_ rest
    cases e <;> rfl
  | pop => exact read_of_none rfl rest
  | pop2 => exact read_of_none rfl rest
  | dup => exact read_of_none rfl rest
  | arith op k =>
    refine read_of_none ?_ rest
    cases op <;> cases k <;> rfl
  | neg k =>
    refine read_of_none ?_ rest
    cases k <;> cbv
  | bit op k =>
    refine read_of_none ?_ rest
    cases op <;> cases k <;> cbv
  | convert op =>
    refine read_of_none ?_ rest
    cases op <;> cbv
  | compare op =>
    refine read_of_none ?_ rest
    cases op <;> cbv
  | jump w offset =>
    have h := read_of_word _ _ (operands_jump w) offset.toUInt16 rest
    rw [Int16.toInt16_toUInt16] at h
    exact h
  | returnValue k =>
    refine read_of_none ?_ rest
    cases k <;> cbv
  | returnVoid => exact read_of_none rfl rest
  | field op i =>
    refine read_of_word _ (field op) ?_ i rest
    cases op <;> cbv
  | invokeVirtual i => exact read_of_word 0xb6 _ rfl i rest
  | invokeSpecial i => exact read_of_word 0xb7 _ rfl i rest
  | invokeStatic i => exact read_of_word 0xb8 _ rfl i rest
  | invokeInterface i count filler =>
    rw [read, Reader.tagged_eq_ok_iff, encode, List.cons_append, List.append_assoc]
    change readOperands .interfaceCall _ = _
    rw [readOperands, Reader.bind_of_ok (Reader.reads_u16 _ _ trivial)]
    rfl
  | new i => exact read_of_word 0xbb _ rfl i rest
  | newArray code => exact read_of_byte 0xbc _ rfl code rest
  | newRefArray i => exact read_of_word 0xbd _ rfl i rest
  | newMultiArray i dimensions =>
    rw [read, Reader.tagged_eq_ok_iff, encode, List.cons_append, List.append_assoc]
    change readOperands .dimensions _ = _
    rw [readOperands, Reader.bind_of_ok (Reader.reads_u16 _ _ trivial)]
    rfl
  | athrow => exact read_of_none rfl rest
  | checkCast i => exact read_of_word 0xc0 _ rfl i rest
  | instanceOf i => exact read_of_word 0xc1 _ rfl i rest

private theorem toEndFrom_encodeAll {fuel : Nat} (done code : List Instr)
    (hfuel : code.length ≤ fuel) :
    Reader.toEndFrom read fuel done (encodeAll code) = .ok (done.reverse ++ code) := by
  induction code generalizing fuel done with
  | nil =>
    rw [List.append_nil]
    cases fuel <;> rfl
  | cons i code ih =>
    have hpos := size_pos i
    rw [← length_encode] at hpos
    obtain ⟨b, rest, hbytes⟩ := List.exists_cons_of_length_pos hpos
    have hread := read_encode_append i (encodeAll code)
    have hcons : encodeAll (i :: code) = i.encode ++ encodeAll code := rfl
    cases fuel with
    | zero => simp at hfuel
    | succ fuel =>
      rw [hcons]
      rw [hbytes, List.cons_append] at hread ⊢
      rw [Reader.toEndFrom, hread]
      dsimp only
      rw [ih _ (Nat.le_of_succ_le_succ hfuel)]
      simp

theorem decodeAll_encodeAll (code : List Instr) : decodeAll (encodeAll code) = .ok code := by
  have hlength : code.length ≤ (encodeAll code).length := by
    induction code with
    | nil => exact Nat.le_refl 0
    | cons i code ih =>
      have hpos := size_pos i
      have hcons : encodeAll (i :: code) = i.encode ++ encodeAll code := rfl
      rw [hcons, List.length_cons, List.length_append, length_encode]
      omega
  rw [decodeAll, Reader.runToEnd, Reader.toEnd, toEndFrom_encodeAll [] code hlength]
  rfl

end Instr

end Classwright
