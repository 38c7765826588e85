import Classwright.Proofs.Typing

/-!
# The depth of the operand stack

What an instruction leaves on the stack is by its change in depth more than what it takes.  The changes
of consecutive instructions add up to the greatest depth behind those that control can reach.
-/

namespace Classwright

section Lookup

variable {file : ClassFile} {index : UInt16} {descriptor : String}

private theorem memberDescriptor?_of_descriptor? {q : Pool} (hpool : file.pool = q.entries)
    (h : file.fieldDescriptor? index = some descriptor ∨
      file.classMethodDescriptor? index = some descriptor ∨
      file.interfaceMethodDescriptor? index = some descriptor) :
    q.memberDescriptor? index = some descriptor := by
  simp only [ClassFile.fieldDescriptor?, ClassFile.classMethodDescriptor?,
    ClassFile.interfaceMethodDescriptor?, ClassFile.descriptor?, ClassFile.text?, hpool] at h
  rw [Pool.memberDescriptor?, Pool.get?]
  rcases h with h | h | h <;> split at h
  all_goals first | cases h | skip
  all_goals
    rename_i hentry
    rw [hentry]
    exact h

/-- What the entries of one class file are, those of the other are too. -/
def ClassFile.Extends (file more : ClassFile) : Prop :=
  ∀ {index : UInt16} {e : Entry}, entryAt? file.pool index = some e → entryAt? more.pool index = some e

namespace ClassFile.Extends

theorem of_le {p q : Pool} (hle : p ≤ q) {file more : ClassFile} (hfile : file.pool = p.entries)
    (hmore : more.pool = q.entries) : file.Extends more := by
  intro index e h
  rw [hfile] at h
  rw [hmore]
  exact Pool.get?_mono hle h

variable {file more : ClassFile} (h : file.Extends more) {index : UInt16}
include h

theorem text? {text : String} (htext : file.text? index = some text) :
    more.text? index = some text := by
  unfold ClassFile.text? at htext ⊢
  split at htext
  · rename_i hentry
    rw [h hentry]
    exact htext
  · cases htext

theorem className? {name : String} (hname : file.className? index = some name) :
    more.className? index = some name := by
  unfold ClassFile.className? at hname ⊢
  split at hname
  · rename_i hentry
    rw [h hentry]
    exact h.text? hname
  · cases hname

theorem constantKind? {kind : Kind} (hkind : file.constantKind? index = some kind) :
    more.constantKind? index = some kind := by
  unfold ClassFile.constantKind? at hkind ⊢
  split at hkind
  case h_7 => cases hkind
  all_goals
    rename_i hentry
    rw [h hentry]
    exact hkind

theorem descriptor? {descriptor : String} (hdescriptor : file.descriptor? index = some descriptor) :
    more.descriptor? index = some descriptor := by
  unfold ClassFile.descriptor? at hdescriptor ⊢
  split at hdescriptor
  · rename_i hentry
    rw [h hentry]
    exact h.text? hdescriptor
  · cases hdescriptor

theorem fieldDescriptor? {descriptor : String}
    (hdescriptor : file.fieldDescriptor? index = some descriptor) :
    more.fieldDescriptor? index = some descriptor := by
  unfold ClassFile.fieldDescriptor? at hdescriptor ⊢
  split at hdescriptor
  · rename_i hentry
    rw [h hentry]
    exact h.descriptor? hdescriptor
  · cases hdescriptor

theorem classMethodDescriptor? {descriptor : String}
    (hdescriptor : file.classMethodDescriptor? index = some descriptor) :
    more.classMethodDescriptor? index = some descriptor := by
  unfold ClassFile.classMethodDescriptor? at hdescriptor ⊢
  split at hdescriptor
  · rename_i hentry
    rw [h hentry]
    exact h.descriptor? hdescriptor
  · cases hdescriptor

theorem interfaceMethodDescriptor? {descriptor : String}
    (hdescriptor : file.interfaceMethodDescriptor? index = some descriptor) :
    more.interfaceMethodDescriptor? index = some descriptor := by
  unfold ClassFile.interfaceMethodDescriptor? at hdescriptor ⊢
  split at hdescriptor
  · rename_i hentry
    rw [h hentry]
    exact h.descriptor? hdescriptor
  · cases hdescriptor

end ClassFile.Extends

end Lookup

namespace Verifier

section Mono

variable {N M : String → Prop} (hN : ∀ name, N name → M name) {file more : ClassFile}
include hN

theorem Signature.mono {descriptor? more? : Option String} {arguments : List Kind}
    {result : Option Kind} (himp : ∀ descriptor, descriptor? = some descriptor → more? = some descriptor)
    (h : Signature N descriptor? arguments result) : Signature M more? arguments result := by
  obtain ⟨parameters, type, hnames, hdescriptor, hkinds⟩ := h
  exact ⟨parameters, type, fun t ht => (hnames t ht).imp hN, himp _ hdescriptor, hkinds⟩

theorem Moves.mono (hmore : file.Extends more) {instr : Instr} {taken left : List Kind}
    (h : Moves N file instr taken left) : Moves M more instr taken left := by
  have hclass : ∀ {index arguments result},
      Signature N (file.classMethodDescriptor? index) arguments result →
      Signature M (more.classMethodDescriptor? index) arguments result :=
    fun h => h.mono hN fun _ => hmore.classMethodDescriptor?
  have hinterface : ∀ {index arguments result},
      Signature N (file.interfaceMethodDescriptor? index) arguments result →
      Signature M (more.interfaceMethodDescriptor? index) arguments result :=
    fun h => h.mono hN fun _ => hmore.interfaceMethodDescriptor?
  cases h with
  | ldc h narrow => exact .ldc (hmore.constantKind? h) narrow
  | ldcW h narrow => exact .ldcW (hmore.constantKind? h) narrow
  | ldc2W h wide => exact .ldc2W (hmore.constantKind? h) wide
  | getStatic h hkind => exact .getStatic (hmore.fieldDescriptor? h) hkind
  | putStatic h hkind => exact .putStatic (hmore.fieldDescriptor? h) hkind
  | getField h hkind => exact .getField (hmore.fieldDescriptor? h) hkind
  | putField h hkind => exact .putField (hmore.fieldDescriptor? h) hkind
  | invokeVirtual h => exact .invokeVirtual (hclass h)
  | invokeSpecial h => exact .invokeSpecial (hclass h)
  | invokeStatic h => exact .invokeStatic (h.imp hclass hinterface)
  | invokeInterface h hcount => exact .invokeInterface (hinterface h) hcount
  | new h => exact .new (hmore.className? h)
  | newRefArray h => exact .newRefArray (hmore.className? h)
  | newMultiArray h positive => exact .newMultiArray (hmore.className? h) positive
  | checkCast h => exact .checkCast (hmore.className? h)
  | instanceOf h => exact .instanceOf (hmore.className? h)
  | _ => constructor <;> assumption

end Mono

theorem Moves.words_le {N : String → Prop} {file : ClassFile} {instr : Instr} {taken left : List Kind}
    (h : Moves N file instr taken left) : words left ≤ words taken + 2 := by
  have hone : ∀ kind : Kind, words [kind] ≤ 2 := fun kind => by cases kind <;> decide
  have hresult : ∀ result : Option Kind, words result.toList ≤ 2 := fun result => by
    cases result with
    | none => decide
    | some kind => exact hone kind
  cases h with
  | dup narrow =>
    simp [Kind.width, narrow]
  | invokeVirtual | invokeSpecial | invokeStatic | invokeInterface =>
    exact Nat.le_trans (hresult _) (Nat.le_add_left _ _)
  | _ => first | exact Nat.zero_le _ | exact Nat.le_trans (hone _) (Nat.le_add_left _ _)

section Delta

variable {file : ClassFile} {q : Pool} (hpool : file.pool = q.entries)
include hpool

private theorem callDelta_eq {index : UInt16} {arguments : List Kind} {result : Option Kind}
    (h : Signature Descriptor.Clean (file.classMethodDescriptor? index) arguments result ∨
      Signature Descriptor.Clean (file.interfaceMethodDescriptor? index) arguments result) :
    Instr.callDelta q index = (words result.toList : Int) - words arguments := by
  obtain ⟨parameters, type, hnames, hdescriptor, hkinds, rfl⟩ : ∃ parameters type,
      (∀ t ∈ parameters, t.Names Descriptor.Clean) ∧
      q.memberDescriptor? index = some (JavaType.methodDescriptor parameters type) ∧
      parameters.map JavaType.kind? = arguments.map some ∧ type.kind? = result := by
    rcases h with ⟨parameters, type, hnames, h, hrest⟩ | ⟨parameters, type, hnames, h, hrest⟩
    · exact ⟨parameters, type, hnames, memberDescriptor?_of_descriptor? hpool (.inr (.inl h)), hrest⟩
    · exact ⟨parameters, type, hnames, memberDescriptor?_of_descriptor? hpool (.inr (.inr h)), hrest⟩
  rw [Instr.callDelta, hdescriptor]
  dsimp only
  rw [Descriptor.methodWords_methodDescriptor hnames hkinds]

private theorem fieldWords_eq {index : UInt16} {type : JavaType} {kind : Kind}
    (h : file.fieldDescriptor? index = some type.descriptor) (hkind : type.kind? = some kind) :
    Instr.fieldWords q index = kind.width := by
  rw [Instr.fieldWords, memberDescriptor?_of_descriptor? hpool (.inl h)]
  dsimp only
  rw [Descriptor.valueWords_descriptor, hkind]
  rfl

/-- The change in depth by an instruction is what it leaves less what it takes. -/
theorem Moves.delta_eq {instr : Instr} {taken left : List Kind}
    (h : Moves Descriptor.Clean file instr taken left) :
    instr.delta q = (words left : Int) - words taken := by
  have hreference : Kind.reference.width = 1 := rfl
  cases h with
  | ldc h narrow | ldcW h narrow | pop narrow | dup narrow =>
    simp [Instr.delta, Kind.width, narrow]
  | ldc2W h wide | pop2 wide => simp [Instr.delta, Kind.width, wide]
  | pop2Both narrow narrow' => simp [Instr.delta, Kind.width, narrow, narrow']
  | load kind form | store kind form | returnValue kind => simp [Instr.delta, Instr.kindWords]
  | arrayLoad element | arrayStore element => cases element <;> rfl
  | arith op kind | neg kind => cases kind <;> rfl
  | bit op kind => cases op <;> cases kind <;> rfl
  | convert op | compare op => cases op <;> rfl
  | jump when offset => cases when <;> rfl
  | getStatic h hkind | putStatic h hkind => simp [Instr.delta, fieldWords_eq hpool h hkind]
  | getField h hkind | putField h hkind =>
    simp only [Instr.delta, fieldWords_eq hpool h hkind, words_cons, words_nil, hreference]
    omega
  | invokeVirtual h | invokeSpecial h =>
    simp only [Instr.delta, callDelta_eq hpool (.inl h), words_append, words_reverse, words_cons, words_nil,
      hreference]
    omega
  | invokeInterface h hcount =>
    simp only [Instr.delta, callDelta_eq hpool (.inr h), words_append, words_reverse, words_cons, words_nil,
      hreference]
    omega
  | invokeStatic h => simp [Instr.delta, callDelta_eq hpool h]
  | newMultiArray h positive => simp [Instr.delta, Kind.width, Kind.isWide]
  | _ => rfl

end Delta

end Verifier

theorem Lower.Types.mono {N M : String → Prop} (hN : ∀ name, N name → M name) {S T : Kind → UInt16 → Prop}
    (hS : ∀ kind slot, S kind slot → T kind slot) {file more : ClassFile} (hmore : file.Extends more)
    {result : JavaType} {line : Line} {taken left : List Kind} (h : Types N S file result line taken left) :
    Types M T more result line taken left := by
  cases h with
  | load h => exact .load (hS _ _ h)
  | store h => exact .store (hS _ _ h)
  | operation h => exact .operation ⟨h.1.mono hN hmore, h.2⟩
  | returnValue h => exact .returnValue h
  | returnVoid h => exact .returnVoid h
  | branch when label => exact .branch when label

namespace Instr

private theorem foldl_advance_throwing (pool : Pool) {depth best : Int} (hbest : 0 ≤ best) {size : Nat}
    (h : size = 0 ∨ depth = 0) :
    (throwing size).foldl (advance pool) (depth, best) = (depth, best) := by
  have hnop : advance pool (0, best) .nop = (0, best) := by
    simp [advance, delta, hbest]
  have hathrow : advance pool (0, best) .athrow = (0, best) := by
    simp only [advance, delta, Prod.mk.injEq]
    omega
  cases size with
  | zero => rfl
  | succ size =>
    obtain rfl : depth = 0 := h.resolve_left (Nat.succ_ne_zero size)
    rw [throwing]
    induction size with
    | zero => exact hathrow
    | succ size ih =>
      rw [List.replicate_succ, List.cons_append, List.foldl_cons, hnop]
      exact ih (.inr rfl)

/-- Adding up the changes of consecutive instructions gives the greatest of the given depths behind
reachable instructions, if the depth is none around those that are unreachable. -/
theorem foldl_advance_neutralized {pool : Pool} {code : List (Instr × Bool)} {depth : Nat → Nat}
    (hlive : ∀ i instr, code[i]? = some (instr, false) →
      (depth (i + 1) : Int) = depth i + instr.delta pool)
    (hdead : ∀ i instr, code[i]? = some (instr, true) → depth i = 0 ∧ depth (i + 1) = 0)
    (pending : Nat) (hpending : pending = 0 ∨ depth 0 = 0) {best : Int} (hbest : 0 ≤ best) :
    ∃ greatest, ((neutralized pending code).foldl (advance pool) ((depth 0 : Int), best)).2 = greatest ∧
      best ≤ greatest ∧
      (∀ i instr, code[i]? = some (instr, false) → (depth (i + 1) : Int) ≤ greatest) ∧
      (greatest = best ∨ ∃ i instr, code[i]? = some (instr, false) ∧ greatest = depth (i + 1)) := by
  induction code generalizing depth pending best with
  | nil =>
    rw [neutralized, foldl_advance_throwing pool hbest (by omega)]
    exact ⟨best, rfl, Int.le_refl _, by simp, .inl rfl⟩
  | cons head rest ih =>
    obtain ⟨instr, flag⟩ := head
    have hlive' : ∀ i instr, rest[i]? = some (instr, false) →
        (depth (i + 1 + 1) : Int) = depth (i + 1) + instr.delta pool := fun i => hlive (i + 1)
    have hdead' : ∀ i instr, rest[i]? = some (instr, true) → depth (i + 1) = 0 ∧ depth (i + 1 + 1) = 0 :=
      fun i => hdead (i + 1)
    cases flag with
    | true =>
      obtain ⟨hzero, hnext⟩ := hdead 0 instr rfl
      obtain ⟨greatest, hfold, hle, hall, hsome⟩ := @ih (fun i => depth (i + 1)) hlive' hdead' _
        (.inr hnext) _ hbest
      refine ⟨greatest, ?_, hle, ?_, ?_⟩
      · rw [neutralized, hzero, ← hnext]
        exact hfold
      · intro i instr' hi
        cases i with
        | zero => cases hi
        | succ i => exact hall i instr' hi
      · rcases hsome with hsame | ⟨i, instr', hi⟩
        · exact .inl hsame
        · exact .inr ⟨i + 1, instr', hi⟩
    | false =>
      have hstep : advance pool ((depth 0 : Int), best) instr = ((depth 1 : Int), max best (depth 1)) := by
        have hdepth : (depth 1 : Int) = depth 0 + instr.delta pool := hlive 0 instr rfl
        simp only [advance, ← hdepth, Prod.mk.injEq, and_true]
        omega
      obtain ⟨greatest, hfold, hle, hall, hsome⟩ := @ih (fun i => depth (i + 1)) hlive' hdead' 0
        (.inl rfl) _ (show 0 ≤ max best (depth 1) by omega)
      refine ⟨greatest, ?_, by omega, ?_, ?_⟩
      · rw [neutralized, List.foldl_append, foldl_advance_throwing pool hbest (by omega),
          List.foldl_cons, hstep]
        exact hfold
      · intro i instr' hi
        cases i with
        | zero =>
          rw [Nat.zero_add]
          omega
        | succ i => exact hall i instr' hi
      · rcases hsome with hmax | ⟨i, instr', hi⟩
        · by_cases hle' : (depth 1 : Int) ≤ best
          · exact .inl (by omega)
          · exact .inr ⟨0, instr, rfl, by rw [Nat.zero_add]; omega⟩
        · exact .inr ⟨i + 1, instr', hi⟩

end Instr

end Classwright
