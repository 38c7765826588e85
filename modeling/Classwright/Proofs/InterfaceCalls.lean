import Classwright.Proofs.Descriptors
import Classwright.Proofs.Room
import Classwright.Proofs.TextBytes

/-!
# Calls of interface methods

The instruction that calls a method of an interface counts the words of the receiver and of the
arguments in one byte.  They are added up in 16 bits before the sum is compared with what a byte can
hold, so a call is counted right, or refused for its number of words, as long as 16 bits can hold it.
A descriptor has room for more parameters than that, and then generation breaks off.
-/

namespace Classwright

open JavaType

namespace Lower

/-- Everything that a call of an instance method needs besides the instruction: the receiver and the
arguments have slots and kinds, the pool has room for the method, and the result can be used. -/
structure Admitted (m : MethodSymbol) (receiver : Local) (arguments : List Local) (result : Option Local)
    (s : Lowering) where
  slot : UInt16
  object : Item
  pushed : List Item
  index : UInt16
  pool : Pool
  used : List Item
  final : Lowering
  run_slotOf : slotOf receiver s = .ok (slot, s)
  run_load : load receiver s = .ok (object, s)
  run_loads : arguments.mapM load s = .ok (pushed, s)
  run_intern : m.reference.intern s.pool = (.ok index, pool)
  run_useResult : useResult m.result result ⟨pool, s.slots⟩ = .ok (used, final)

section Interface

variable {m : MethodSymbol} {receiver : Local} {arguments : List Local} {result : Option Local}
  {s : Lowering}

def Admitted.items (call : Admitted m receiver arguments result s) (ctx : MethodContext) (instr : Instr) :
    List Item :=
  call.object :: (call.pushed ++ marked ctx m call.slot instr :: call.used)

/-- What becomes of a call for which `words` words are counted. -/
def Admitted.outcome (call : Admitted m receiver arguments result s) (ctx : MethodContext) (words : Nat) :
    Except GenerateError (List Item × Lowering) :=
  if words ≤ 255 then
    .ok (call.items ctx (.invokeInterface call.index (UInt8.ofNat words) 0), call.final)
  else .error (.limitExceeded .interfaceArguments)

variable (hinstance : m.isStatic = false) (hinterface : m.owner.isInterface = true)
include hinstance hinterface

private theorem callInstr_interface (hwords : 1 + totalWidth m.parameters < 65536) (isSuper : Bool) :
    callInstr m isSuper =
      if 1 + totalWidth m.parameters ≤ 255 then do
        let index ← constant m.reference.intern
        return .invokeInterface index (UInt8.ofNat (1 + totalWidth m.parameters)) 0
      else throw (.limitExceeded .interfaceArguments) := by
  have hcount : (UInt16.ofNat (1 + totalWidth m.parameters)).toNat = 1 + totalWidth m.parameters := by
    rw [UInt16.toNat_ofNat']
    omega
  have hbyte : (UInt16.ofNat (1 + totalWidth m.parameters)).toUInt8 =
      UInt8.ofNat (1 + totalWidth m.parameters) := by
    rw [← UInt8.toNat_inj, UInt16.toNat_toUInt8, hcount, UInt8.toNat_ofNat']
  have hreference : m.reference.intern = Pool.interfaceMethodRef m.owner.name m.name m.descriptor := by
    rw [MethodSymbol.reference, if_pos hinterface]
    rfl
  simp only [callInstr, hinstance, hinterface, m.callWords?_eq, if_pos hwords, hcount, hbyte, hreference,
    Bool.false_eq_true, if_false, if_true]

private theorem callInstr_overflow (hwords : 65536 ≤ 1 + totalWidth m.parameters) (isSuper : Bool) :
    callInstr m isSuper = throw .overflow := by
  simp only [callInstr, hinstance, hinterface, m.callWords?_eq, if_neg (Nat.not_lt.mpr hwords),
    Bool.false_eq_true, if_false, if_true]

private theorem Admitted.run_invoke (call : Admitted m receiver arguments result s) (ctx : MethodContext)
    (isSuper : Bool) :
    invoke ctx m (some receiver) arguments result isSuper s =
      if 1 + totalWidth m.parameters < 65536 then call.outcome ctx (1 + totalWidth m.parameters)
      else .error .overflow := by
  unfold invoke
  rw [if_neg (by simp [hinstance]),
    run_bind_of_ok (show receiverOf (some receiver) _ _ s = .ok (receiver, s) from rfl),
    run_bind_of_ok call.run_slotOf, run_bind_of_ok call.run_load, run_bind_of_ok call.run_loads]
  by_cases hwords : 1 + totalWidth m.parameters < 65536
  · rw [if_pos hwords, callInstr_interface hinstance hinterface hwords]
    unfold Admitted.outcome
    split
    · have hconstant : constant m.reference.intern s = .ok (call.index, ⟨call.pool, s.slots⟩) :=
        run_pooling_iff.mpr ⟨run_pooled_iff.mpr call.run_intern, rfl⟩
      rw [bind_assoc, run_bind_of_ok hconstant, pure_bind, run_bind_of_ok call.run_useResult]
      rfl
    · rfl
  · rw [if_neg hwords, callInstr_overflow hinstance hinterface (Nat.not_lt.mp hwords)]
    rfl

/-- A call of an interface method counts the words of the receiver and of all arguments, and is refused
if a byte cannot hold them, exactly if 16 bits can hold them.  Generation breaks off if they cannot. -/
theorem invoke_counts_words_iff (call : Admitted m receiver arguments result s) (ctx : MethodContext)
    (isSuper : Bool) :
    (statement ctx (.invoke m (some receiver) arguments result isSuper) s =
        call.outcome ctx (1 + totalWidth m.parameters) ↔ 1 + totalWidth m.parameters < 65536) ∧
      (65536 ≤ 1 + totalWidth m.parameters →
        statement ctx (.invoke m (some receiver) arguments result isSuper) s = .error .overflow) := by
  rw [statement, call.run_invoke hinstance hinterface]
  generalize 1 + totalWidth m.parameters = words
  refine ⟨⟨fun h => ?_, fun hwords => if_pos hwords⟩, fun hwords => if_neg (Nat.not_lt.mpr hwords)⟩
  by_contra hwords
  rw [if_neg hwords, Admitted.outcome, if_neg (by omega)] at h
  cases h

end Interface

end Lower

namespace Recorder

def recorder : ClassType := { name := "Recorder", isInterface := true }

def target : Local := ⟨"target", .object recorder⟩
def time : Local := ⟨"time", .long⟩

def record (n : Nat) : MethodSymbol where
  owner := recorder
  name := "record"
  parameters := List.replicate n .long
  result := .void

def call (n : Nat) : Statement :=
  .invoke (record n) (some target) (List.replicate n time) none false

def context : MethodContext where
  owner := { this := { name := "Clock" } }
  method := { name := "tick", modifiers := ⟨0x0008⟩, result := .void }
  labels := {}

private theorem totalWidth_record (n : Nat) : totalWidth (record n).parameters = n * 2 :=
  totalWidth_replicate n .long

private theorem length_descriptor (n : Nat) :
    (ModifiedUtf8.encode (record n).descriptor).length = n + 3 := by
  have hchars : (record n).descriptor.toList = '(' :: (List.replicate n 'J' ++ [')', 'V']) := by
    rw [MethodSymbol.descriptor, methodDescriptor, String.toList_ofList, methodDescriptorChars]
    simp [record, List.flatMap_replicate, descriptorChars, Primitive.letter]
  rw [ModifiedUtf8.length_encode, hchars, List.map_cons, List.map_append, List.map_replicate,
    List.sum_cons, List.sum_append, List.sum_replicate, smul_eq_mul,
    show ModifiedUtf8.charBytes 'J' = 1 from rfl, Nat.mul_one]
  change 1 + (n + 2) = n + 3
  omega

/-- The method can be called, with all its arguments, as long as its descriptor can be written. -/
theorem exists_admitted {n : Nat} (h : n + 3 ≤ 65535) :
    ∃ slots : Slots,
      Nonempty (Lower.Admitted (record n) target (List.replicate n time) none ⟨{}, slots⟩) := by
  obtain ⟨slots, -, htarget, htime, -⟩ :=
    Slots.exists_allocateAll_pair (a := target) (b := time) (by decide) (by decide)
  have htexts : ∀ text ∈ [recorder.name, (record n).name, (record n).descriptor],
      (ModifiedUtf8.encode text).length ≤ 65535 := by
    simp only [List.forall_mem_cons, List.not_mem_nil, false_imp_iff, implies_true, and_true]
    exact ⟨by decide, show (ModifiedUtf8.encode "record").length ≤ 65535 by decide,
      (length_descriptor n).trans_le h⟩
  obtain ⟨index, pool, hrun, -⟩ := Succeeds.interfaceMethodRef htexts {} Pool.sound_empty (by decide)
  have hrequest : (record n).reference.intern {} = (.ok index, pool) := run_pooled_iff.mp hrun
  have hloads : (List.replicate n time).mapM Lower.load ⟨{}, slots⟩ =
      .ok ((List.replicate n time).map fun _ => .op (.loadSlot .long 1), ⟨{}, slots⟩) := by
    refine run_mapM_of_forall₂ (List.forall₂_map_right_iff.mpr (List.forall₂_same.mpr ?_))
    intro l hl
    rw [List.eq_of_mem_replicate hl]
    exact Lower.run_load rfl htime
  exact ⟨slots, ⟨{
    slot := 0
    object := .op (.loadSlot .reference 0)
    pushed := _
    index := index
    pool := pool
    used := []
    final := ⟨pool, slots⟩
    run_slotOf := by simp [Lower.slotOf, Slots.lookup_eq_ok_iff.mpr htarget]
    run_load := Lower.run_load rfl htarget
    run_loads := hloads
    run_intern := hrequest
    run_useResult := rfl }⟩⟩

end Recorder

open Recorder in
/-- With 127 longs the instruction counts all of the 255 words that a byte can hold, and with one more
the call is refused. -/
theorem Lower.invoke_counts_words_record :
    (∃ slots, ∃ admitted : Admitted (record 127) target (List.replicate 127 time) none ⟨{}, slots⟩,
      statement context (call 127) ⟨{}, slots⟩ =
        .ok (admitted.items context (.invokeInterface admitted.index 255 0), admitted.final)) ∧
    ∃ slots, Nonempty (Admitted (record 128) target (List.replicate 128 time) none ⟨{}, slots⟩) ∧
      statement context (call 128) ⟨{}, slots⟩ = .error (.limitExceeded .interfaceArguments) := by
  refine ⟨?_, ?_⟩
  · obtain ⟨slots, ⟨admitted⟩⟩ := exists_admitted (n := 127) (by decide)
    refine ⟨slots, admitted, ?_⟩
    have hcounts := (invoke_counts_words_iff rfl rfl admitted context false).1
    rw [totalWidth_record] at hcounts
    exact hcounts.mpr (by decide)
  · obtain ⟨slots, ⟨admitted⟩⟩ := exists_admitted (n := 128) (by decide)
    refine ⟨slots, ⟨admitted⟩, ?_⟩
    have hcounts := (invoke_counts_words_iff rfl rfl admitted context false).1
    rw [totalWidth_record] at hcounts
    exact hcounts.mpr (by decide)

open Recorder in
/-- With 32768 longs there are 65537 words, and the call is not refused for its number of words. -/
theorem Lower.invoke_counts_words_overflow :
    1 + totalWidth (record 32768).parameters = 65537 ∧
    ∃ slots, Nonempty (Admitted (record 32768) target (List.replicate 32768 time) none ⟨{}, slots⟩) ∧
      statement context (call 32768) ⟨{}, slots⟩ = .error .overflow := by
  refine ⟨by rw [totalWidth_record], ?_⟩
  obtain ⟨slots, ⟨admitted⟩⟩ := exists_admitted (n := 32768) (by decide)
  refine ⟨slots, ⟨admitted⟩, ?_⟩
  have hrun := admitted.run_invoke rfl rfl context false
  rw [totalWidth_record] at hrun
  exact hrun

end Classwright
