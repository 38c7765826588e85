import Classwright.Proofs.Assembly
import Classwright.Proofs.Generation

/-!
# Statements as blocks of code

The code of a method is a sequence of blocks, one for each statement.  A block has no labels inside and
no branches other than that of its statement, so the positions of statements and the lines of code
correspond, and a label stands at the first line of the block that follows it.
-/

namespace Classwright

theorem SlotForm.slot_ofSlot (slot : UInt16) : (ofSlot slot).slot = slot.toNat := by
  unfold ofSlot
  split
  · rfl
  · split
    · rename_i hsmall
      change (UInt8.ofNat slot.toNat).toNat = slot.toNat
      rw [UInt8.toNat_ofNat']
      exact Nat.mod_eq_of_lt (by omega)
    · rfl

namespace Instr

def isJump : Instr → Bool
  | jump .. => true
  | _ => false

/-- Whether the instruction only works on operands: it uses no slot and control passes to the next
one. -/
def isOperation : Instr → Bool
  | load .. | store .. | jump .. | returnValue _ | returnVoid | athrow => false
  | _ => true

theorem isJump_of_isOperation {instr : Instr} (h : instr.isOperation = true) :
    instr.isJump = false := by
  cases instr <;> first | rfl | cases h

theorem endsMethod_of_isOperation {instr : Instr} (h : instr.isOperation = true) :
    instr.endsMethod = false := by
  cases instr <;> first | rfl | cases h

theorem loadEntry_cases (index : UInt16) :
    (∃ i : UInt8, i.toUInt16 = index ∧ loadEntry index = .ldc i) ∨ loadEntry index = .ldcW index := by
  unfold loadEntry
  split
  · refine .inl ⟨UInt8.ofNat index.toNat, ?_, rfl⟩
    apply UInt16.toNat_inj.mp
    rw [UInt8.toNat_toUInt16, UInt8.toNat_ofNat']
    exact Nat.mod_eq_of_lt (by omega)
  · exact .inr rfl

private theorem isOperation_loadEntry (index : UInt16) : (loadEntry index).isOperation = true := by
  unfold loadEntry
  split <;> rfl

end Instr

/-- Only a branch is changed when it is resolved. -/
theorem Draft.Resolves.eq_plain {d : Draft} {i : Nat} {line : Line} {step : Step}
    (h : d.Resolves i line step) (hjump : step.instr.isJump = false) : line = .plain step.instr := by
  cases line with
  | plain instr => rw [show step = { instr } from h]
  | branch when label =>
    obtain ⟨target, -, -, -, -, rfl⟩ := h
    cases hjump

namespace Literal

variable {pool : Pool}

private theorem LoadsInt.isOperation {v : Int32} {instr : Instr} (h : LoadsInt pool v instr) :
    instr.isOperation = true := by
  rcases h with ⟨-, -, rfl⟩ | ⟨-, -, rfl⟩ | ⟨-, -, rfl⟩ | ⟨index, -, rfl⟩
  · rfl
  · rfl
  · rfl
  · exact Instr.isOperation_loadEntry index

private theorem LoadsLong.isOperation {v : Int64} {instr : Instr} (h : LoadsLong pool v instr) :
    instr.isOperation = true := by
  rcases h with ⟨-, rfl⟩ | ⟨-, rfl⟩ | ⟨index, -, rfl⟩ <;> rfl

private theorem LoadsFloat.isOperation {bits : UInt32} {instr : Instr} (h : LoadsFloat pool bits instr) :
    instr.isOperation = true := by
  rcases h with ⟨-, rfl⟩ | ⟨-, rfl⟩ | ⟨-, rfl⟩ | ⟨index, -, rfl⟩
  · rfl
  · rfl
  · rfl
  · exact Instr.isOperation_loadEntry index

private theorem LoadsDouble.isOperation {bits : UInt64} {instr : Instr}
    (h : LoadsDouble pool bits instr) :
    instr.isOperation = true := by
  rcases h with ⟨-, rfl⟩ | ⟨-, rfl⟩ | ⟨index, -, rfl⟩ <;> rfl

private theorem AllocatesArray.isOperation {component : JavaType} {instr : Instr} {kind : ElemKind}
    (h : AllocatesArray pool component instr kind) : instr.isOperation = true := by
  obtain ⟨-, ⟨code, -, rfl⟩ | ⟨-, index, -, rfl⟩⟩ := h <;> rfl

mutual

theorem isOperation_of_loads : ∀ {value : Literal} {instrs : List Instr}, value.Loads pool instrs →
    ∀ instr ∈ instrs, instr.isOperation = true
  | boolean _, _, ⟨_, hi, rfl⟩ => List.forall_mem_singleton.mpr hi.isOperation
  | byte _, _, ⟨_, hi, rfl⟩ => List.forall_mem_singleton.mpr hi.isOperation
  | short _, _, ⟨_, hi, rfl⟩ => List.forall_mem_singleton.mpr hi.isOperation
  | char _, _, ⟨_, hi, rfl⟩ => List.forall_mem_singleton.mpr hi.isOperation
  | int _, _, ⟨_, hi, rfl⟩ => List.forall_mem_singleton.mpr hi.isOperation
  | long _, _, ⟨_, hi, rfl⟩ => List.forall_mem_singleton.mpr hi.isOperation
  | float _, _, ⟨_, hi, rfl⟩ => List.forall_mem_singleton.mpr hi.isOperation
  | double _, _, ⟨_, hi, rfl⟩ => List.forall_mem_singleton.mpr hi.isOperation
  | string _, _, ⟨index, _, rfl⟩ => List.forall_mem_singleton.mpr (Instr.isOperation_loadEntry index)
  | null, _, rfl => List.forall_mem_singleton.mpr rfl
  | enum _ _, _, ⟨_, _, rfl⟩ => List.forall_mem_singleton.mpr rfl
  | array _ _, _, ⟨_, hlength, _, _, hallocation, _, hstores, rfl⟩ =>
    List.forall_mem_cons.mpr ⟨hlength.isOperation, List.forall_mem_cons.mpr
      ⟨hallocation.isOperation, isOperation_of_loadsElements rfl hstores⟩⟩

theorem isOperation_of_loadsElements : ∀ {elements : List Literal} {store : Instr} {index : Nat}
    {instrs : List Instr}, store.isOperation = true → LoadsElements pool store index elements instrs →
    ∀ instr ∈ instrs, instr.isOperation = true
  | [], _, _, _, _, rfl => by simp
  | _ :: _, _, _, _, hstore, ⟨_, hposition, _, hvalue, _, hmore, rfl⟩ =>
    List.forall_mem_cons.mpr ⟨rfl, List.forall_mem_cons.mpr ⟨hposition.isOperation,
      List.forall_mem_append.mpr ⟨isOperation_of_loads hvalue,
        List.forall_mem_cons.mpr ⟨hstore, isOperation_of_loadsElements hstore hmore⟩⟩⟩⟩

end

end Literal

namespace Lower

def Plain (item : Item) : Prop :=
  ∃ instr : Instr, instr.isJump = false ∧ (item = .op instr ∨ item = .initThis instr)

private theorem Plain.op {instr : Instr} (h : instr.isJump = false) : Plain (.op instr) :=
  ⟨instr, h, .inl rfl⟩

private theorem Plain.operation {instr : Instr} (h : instr.isOperation = true) : Plain (.op instr) :=
  .op (Instr.isJump_of_isOperation h)

def Belongs (st : Statement) (item : Item) : Prop :=
  Plain item ∨ (∃ when label, item = .branch when label ∧ st.target? = some label) ∨
    ∃ label, item = .mark label ∧ st.marked? = some label

theorem lines_map_op (instrs : List Instr) (rest : List Item) :
    Item.lines (instrs.map .op ++ rest) = instrs.map .plain ++ Item.lines rest := by
  induction instrs with
  | nil => rfl
  | cons instr instrs ih => exact congrArg (Line.plain instr :: ·) ih

theorem lines_marked (ctx : MethodContext) (m : MethodSymbol) (slot : UInt16) (call : Instr)
    (rest : List Item) :
    Item.lines (marked ctx m slot call :: rest) = .plain call :: Item.lines rest := by
  unfold marked
  split <;> rfl

section Belongs

variable {final : Lowering}

private theorem Pushes.plain {l : Local} {item : Item} (h : Pushes final l item) : Plain item := by
  obtain ⟨slot, -, kind, -, rfl⟩ := h
  exact .op rfl

private theorem Pops.plain {l : Local} {item : Item} (h : Pops final l item) : Plain item := by
  obtain ⟨kind, -, slot, -, rfl⟩ := h
  exact .op rfl

private theorem plain_of_forall₂ {locals : List Local} {items : List Item}
    (h : List.Forall₂ (Pushes final) locals items) : ∀ item ∈ items, Plain item := by
  induction h with
  | nil => simp
  | cons hhead _ ih => exact List.forall_mem_cons.mpr ⟨hhead.plain, ih⟩

theorem Calls.isOperation {m : MethodSymbol} {isSuper : Bool} {instr : Instr}
    (h : Calls final m isSuper instr) : instr.isOperation = true := by
  obtain ⟨index, -, h⟩ := h
  split_ifs at h
  · rw [h]
    rfl
  · obtain ⟨count, -, -, rfl⟩ := h
    rfl
  · rw [h]
    rfl
  · rw [h]
    rfl

theorem Adapts.isOperation {source target : JavaType} {instrs : List Instr}
    (h : Adapts final source target instrs) : ∀ instr ∈ instrs, instr.isOperation = true := by
  rcases h with ⟨-, -, rfl⟩ | ⟨-, p, wrapper, -, -, box, -, method, -, rfl⟩
  · simp
  · simp [Instr.isOperation]

theorem Casts.isOperation {declared : JavaType} {instrs : List Instr} (h : Casts final declared instrs) :
    ∀ instr ∈ instrs, instr.isOperation = true := by
  unfold Casts at h
  split at h
  · obtain ⟨index, -, rfl⟩ := h
    simp [Instr.isOperation]
  · rw [h]
    simp

theorem Allocates.isOperation {element : JavaType} {dimensions : Nat} {instr : Instr}
    (h : Allocates final element dimensions instr) : instr.isOperation = true := by
  unfold Allocates at h
  split at h
  · obtain ⟨kind, h⟩ := h
    exact h.isOperation
  · obtain ⟨index, -, rfl⟩ := h
    rfl

private theorem plain_of_map {instrs : List Instr} (h : ∀ instr ∈ instrs, instr.isOperation = true) :
    ∀ item ∈ instrs.map Item.op, Plain item := by
  intro item hitem
  obtain ⟨instr, hinstr, rfl⟩ := List.mem_map.mp hitem
  exact .operation (h instr hinstr)

private theorem Uses.plain {type : JavaType} {result : Option Local} {items : List Item}
    (h : Uses final type result items) : ∀ item ∈ items, Plain item := by
  cases result with
  | none =>
    rw [show items = dropping type from h]
    unfold dropping
    split
    · simp
    · exact List.forall_mem_singleton.mpr (.op rfl)
    · exact List.forall_mem_singleton.mpr (.op rfl)
  | some target =>
    obtain ⟨instrs, hadapts, item, hpops, rfl⟩ := h
    exact List.forall_mem_append.mpr
      ⟨plain_of_map hadapts.isOperation, List.forall_mem_singleton.mpr hpops.plain⟩

private theorem Changes.plain {kind : NumKind} {op : UnaryOp} {items : List Item}
    (h : Changes final kind op items) : ∀ item ∈ items, Plain item := by
  cases op with
  | negate =>
    rw [show items = _ from h]
    exact List.forall_mem_singleton.mpr (.op rfl)
  | complement =>
    rcases h with ⟨-, rfl⟩ | ⟨-, index, -, rfl⟩
    · exact List.forall_mem_cons.mpr ⟨.op rfl, List.forall_mem_singleton.mpr (.op rfl)⟩
    · exact List.forall_mem_cons.mpr ⟨.op rfl, List.forall_mem_singleton.mpr (.op rfl)⟩

theorem isOperation_of_binary? {op : BinaryOp} {kind : NumKind} {instr : Instr}
    (h : Instr.binary? op kind = some instr) : instr.isOperation = true := by
  cases op <;> cases kind <;> cases h <;> rfl

theorem isOperation_of_castInstr? {source target : JavaType} {instr : Instr}
    (h : castInstr? source target = some instr) : instr.isOperation = true := by
  simp only [castInstr?, Option.bind_eq_bind, Option.bind_eq_some_iff] at h
  obtain ⟨kind, -, p, -, h⟩ := h
  cases kind <;> cases p <;> cases h <;> rfl

theorem isOperation_of_compare? {kind : NumKind} {op : Comparison} {instr : Instr}
    (h : Instr.compare? kind op = some instr) : instr.isOperation = true := by
  cases kind <;> cases op <;> cases h <;> rfl

theorem isOperation_of_zero? {kind : NumKind} {instr : Instr} (h : Instr.zero? kind = some instr) :
    instr.isOperation = true := by
  cases kind <;> cases h <;> rfl

variable {st : Statement}

private theorem Plain.belongs {item : Item} (h : Plain item) : Belongs st item := .inl h

private theorem belongs_op {instr : Instr} (h : instr.isJump = false) : Belongs st (.op instr) :=
  (Plain.op h).belongs

private theorem belongs_operation {instr : Instr} (h : instr.isOperation = true) :
    Belongs st (.op instr) :=
  (Plain.operation h).belongs

private theorem belongs_branch {when : Jump} {label : Label} (h : st.target? = some label) :
    Belongs st (.branch when label) := .inr (.inl ⟨when, label, rfl, h⟩)

private theorem belongs_of_plain {items : List Item} (h : ∀ item ∈ items, Plain item) :
    ∀ item ∈ items, Belongs st item := fun item hitem => (h item hitem).belongs

private theorem plain_marked {ctx : MethodContext} {m : MethodSymbol} {slot : UInt16} {call : Instr}
    (h : call.isOperation = true) : Plain (marked ctx m slot call) := by
  unfold marked
  split
  · exact ⟨call, Instr.isJump_of_isOperation h, .inr rfl⟩
  · exact .operation h

private theorem belongs_comparing {kind : NumKind} {op : Comparison} {label : Label}
    (h : st.target? = some label) : ∀ item ∈ comparing kind op label, Belongs st item := by
  unfold comparing
  split
  · rename_i instr hinstr
    exact List.forall_mem_cons.mpr ⟨(Plain.operation (isOperation_of_compare? hinstr)).belongs,
      List.forall_mem_singleton.mpr (belongs_branch h)⟩
  · exact List.forall_mem_singleton.mpr (belongs_branch h)

private theorem belongs_testing {kind : NumKind} {op : Comparison} {label : Label}
    (h : st.target? = some label) : ∀ item ∈ testing kind op label, Belongs st item := by
  unfold testing
  split
  · rename_i zero instr hzero hinstr
    exact List.forall_mem_cons.mpr ⟨(Plain.operation (isOperation_of_zero? hzero)).belongs,
      List.forall_mem_cons.mpr ⟨(Plain.operation (isOperation_of_compare? hinstr)).belongs,
        List.forall_mem_singleton.mpr (belongs_branch h)⟩⟩
  · exact List.forall_mem_singleton.mpr (belongs_branch h)

theorem Emits.belongs {ctx : MethodContext} {items : List Item} (h : Emits ctx final st items) :
    ∀ item ∈ items, Belongs st item := by
  cases st with
  | invoke m receiver arguments result isSuper =>
    simp only [Emits] at h
    split at h
    · obtain ⟨pushed, hpushed, call, hcall, used, hused, rfl⟩ := h
      exact belongs_of_plain (List.forall_mem_append.mpr ⟨plain_of_forall₂ hpushed,
        List.forall_mem_cons.mpr ⟨.operation hcall.isOperation, hused.plain⟩⟩)
    · obtain ⟨object, -, slot, -, item, hitem, pushed, hpushed, call, hcall, used, hused, rfl⟩ := h
      exact belongs_of_plain (List.forall_mem_cons.mpr ⟨hitem.plain,
        List.forall_mem_append.mpr ⟨plain_of_forall₂ hpushed,
          List.forall_mem_cons.mpr ⟨plain_marked hcall.isOperation, hused.plain⟩⟩⟩)
  | getField f receiver target =>
    obtain ⟨index, -, h⟩ := h
    split at h
    · obtain ⟨item, hitem, rfl⟩ := h
      exact belongs_of_plain (List.forall_mem_cons.mpr
        ⟨.op rfl, List.forall_mem_singleton.mpr hitem.plain⟩)
    · obtain ⟨object, -, pushed, hpushed, item, hitem, rfl⟩ := h
      exact belongs_of_plain (List.forall_mem_cons.mpr ⟨hpushed.plain, List.forall_mem_cons.mpr
        ⟨.op rfl, List.forall_mem_singleton.mpr hitem.plain⟩⟩)
  | putField f receiver value =>
    obtain ⟨index, -, h⟩ := h
    split at h
    · obtain ⟨item, hitem, rfl⟩ := h
      exact belongs_of_plain (List.forall_mem_cons.mpr
        ⟨hitem.plain, List.forall_mem_singleton.mpr (.op rfl)⟩)
    · obtain ⟨object, -, pushed, hpushed, item, hitem, rfl⟩ := h
      exact belongs_of_plain (List.forall_mem_cons.mpr ⟨hpushed.plain, List.forall_mem_cons.mpr
        ⟨hitem.plain, List.forall_mem_singleton.mpr (.op rfl)⟩⟩)
  | assign target source =>
    obtain ⟨a, ha, b, hb, rfl⟩ := h
    simp [ha.plain.belongs, hb.plain.belongs]
  | binary op left right result =>
    obtain ⟨instr, hinstr, a, ha, b, hb, c, hc, rfl⟩ := h
    obtain ⟨kind, -, hinstr⟩ := Option.bind_eq_some_iff.mp hinstr
    simp [ha.plain.belongs, hb.plain.belongs, hc.plain.belongs, belongs_operation,
      isOperation_of_binary? hinstr]
  | unary op operand result =>
    obtain ⟨kind, -, a, ha, changed, hchanged, b, hb, rfl⟩ := h
    exact belongs_of_plain (List.forall_mem_cons.mpr ⟨ha.plain, List.forall_mem_append.mpr
      ⟨hchanged.plain, List.forall_mem_singleton.mpr hb.plain⟩⟩)
  | cast source target =>
    obtain ⟨instr, hinstr, a, ha, b, hb, rfl⟩ := h
    simp [ha.plain.belongs, hb.plain.belongs, belongs_operation, isOperation_of_castInstr? hinstr]
  | goto label =>
    rw [show items = _ from h]
    exact List.forall_mem_singleton.mpr (belongs_branch rfl)
  | mark label =>
    rw [show items = _ from h]
    exact List.forall_mem_singleton.mpr (.inr (.inr ⟨label, rfl, rfl⟩))
  | compare op left right label =>
    obtain ⟨a, ha, b, hb, ⟨-, jump, -, rfl⟩ | ⟨kind, -, rfl⟩⟩ := h
    · exact List.forall_mem_cons.mpr ⟨ha.plain.belongs, List.forall_mem_cons.mpr
        ⟨hb.plain.belongs, List.forall_mem_singleton.mpr (belongs_branch rfl)⟩⟩
    · exact List.forall_mem_cons.mpr ⟨ha.plain.belongs, List.forall_mem_cons.mpr
        ⟨hb.plain.belongs, belongs_comparing rfl⟩⟩
  | test op operand label =>
    obtain ⟨a, ha, ⟨-, jump, -, rfl⟩ | ⟨kind, -, rfl⟩⟩ := h
    · exact List.forall_mem_cons.mpr
        ⟨ha.plain.belongs, List.forall_mem_singleton.mpr (belongs_branch rfl)⟩
    · exact List.forall_mem_cons.mpr ⟨ha.plain.belongs, belongs_testing rfl⟩
  | arrayGet array index target =>
    obtain ⟨kind, -, a, ha, i, hi, b, hb, rfl⟩ := h
    exact belongs_of_plain (List.forall_mem_cons.mpr ⟨ha.plain, List.forall_mem_cons.mpr ⟨hi.plain,
      List.forall_mem_cons.mpr ⟨.op rfl, List.forall_mem_singleton.mpr hb.plain⟩⟩⟩)
  | arrayPut array index value =>
    obtain ⟨kind, -, a, ha, i, hi, v, hv, rfl⟩ := h
    exact belongs_of_plain (List.forall_mem_cons.mpr ⟨ha.plain, List.forall_mem_cons.mpr ⟨hi.plain,
      List.forall_mem_cons.mpr ⟨hv.plain, List.forall_mem_singleton.mpr (.op rfl)⟩⟩⟩)
  | ret value =>
    cases value with
    | none =>
      rw [h.2]
      exact List.forall_mem_singleton.mpr (belongs_op rfl)
    | some l =>
      obtain ⟨-, kind, -, a, ha, cast, hcast, rfl⟩ := h
      exact belongs_of_plain (List.forall_mem_cons.mpr ⟨ha.plain, List.forall_mem_append.mpr
        ⟨plain_of_map hcast.isOperation, List.forall_mem_singleton.mpr (.op rfl)⟩⟩)
  | instanceOf value type result =>
    obtain ⟨a, ha, index, -, b, hb, rfl⟩ := h
    exact belongs_of_plain (List.forall_mem_cons.mpr ⟨ha.plain, List.forall_mem_cons.mpr
      ⟨.op rfl, List.forall_mem_singleton.mpr hb.plain⟩⟩)
  | new m arguments result =>
    obtain ⟨index, -, init, -, pushed, hpushed, stored, hstored, rfl⟩ := h
    exact belongs_of_plain (List.forall_mem_cons.mpr ⟨.op rfl, List.forall_mem_cons.mpr ⟨.op rfl,
      List.forall_mem_append.mpr ⟨plain_of_forall₂ hpushed, List.forall_mem_cons.mpr
        ⟨.op rfl, List.forall_mem_singleton.mpr hstored.plain⟩⟩⟩⟩)
  | newArray element lengths result =>
    obtain ⟨-, -, pushed, hpushed, instr, hinstr, stored, hstored, rfl⟩ := h
    exact belongs_of_plain (List.forall_mem_append.mpr ⟨plain_of_forall₂ hpushed,
      List.forall_mem_cons.mpr ⟨.operation hinstr.isOperation, List.forall_mem_singleton.mpr hstored.plain⟩⟩)
  | literal value target =>
    obtain ⟨instrs, hinstrs, stored, hstored, rfl⟩ := h
    exact belongs_of_plain (List.forall_mem_append.mpr
      ⟨plain_of_map (Literal.isOperation_of_loads hinstrs), List.forall_mem_singleton.mpr hstored.plain⟩)

theorem Emits.lines_ne_nil {st : Statement} {items : List Item} (h : Emits ctx final st items)
    (hst : st.marked? = none) : Item.lines items ≠ [] := by
  have hne : items ≠ [] := by
    cases st with
    | invoke m receiver arguments result isSuper =>
      simp only [Emits] at h
      split at h
      · obtain ⟨pushed, -, call, -, used, -, rfl⟩ := h
        simp
      · obtain ⟨object, -, slot, -, item, -, pushed, -, call, -, used, -, rfl⟩ := h
        simp
    | getField f receiver target =>
      obtain ⟨index, -, h⟩ := h
      split at h
      · obtain ⟨item, -, rfl⟩ := h
        simp
      · obtain ⟨object, -, pushed, -, item, -, rfl⟩ := h
        simp
    | putField f receiver value =>
      obtain ⟨index, -, h⟩ := h
      split at h
      · obtain ⟨item, -, rfl⟩ := h
        simp
      · obtain ⟨object, -, pushed, -, item, -, rfl⟩ := h
        simp
    | assign | binary | unary | cast | arrayGet | arrayPut | instanceOf | new | newArray | literal =>
      rintro rfl
      simp [Emits] at h
    | goto label =>
      rw [show items = _ from h]
      simp
    | mark label => cases hst
    | compare op left right label =>
      obtain ⟨x, -, y, -, ⟨-, jump, -, rfl⟩ | ⟨kind, -, rfl⟩⟩ := h <;> simp
    | test op operand label =>
      obtain ⟨x, -, ⟨-, jump, -, rfl⟩ | ⟨kind, -, rfl⟩⟩ := h <;> simp
    | ret value =>
      cases value with
      | none =>
        rw [h.2]
        simp
      | some l =>
        obtain ⟨-, kind, -, x, -, cast, -, rfl⟩ := h
        simp
  obtain ⟨item, rest, rfl⟩ := List.exists_cons_of_ne_nil hne
  have hline : item.line? ≠ none := by
    rcases h.belongs item List.mem_cons_self with ⟨instr, -, rfl | rfl⟩ | ⟨when, label, rfl, -⟩ |
      ⟨label, rfl, hmarked⟩
    · simp [Item.line?]
    · simp [Item.line?]
    · simp [Item.line?]
    · rw [hst] at hmarked
      cases hmarked
  obtain ⟨line, hline⟩ := Option.ne_none_iff_exists'.mp hline
  simp [Item.lines, hline]

theorem Chains.plain {owner : ClassDecl} {method : MethodDecl} {b : Body} {items : List Item}
    (h : Chains owner method b final items) : ∀ item ∈ items, Plain item := by
  rcases h.eq_nil_or with rfl | ⟨-, index, -, -, -, -, rfl⟩
  · simp
  · exact List.forall_mem_cons.mpr
      ⟨.op rfl, List.forall_mem_singleton.mpr ⟨.invokeSpecial index, rfl, .inr rfl⟩⟩

theorem Fills.plain {owner : ClassDecl} {i : Initializer} {items : List Item}
    (h : Fills owner final i items) : ∀ item ∈ items, Plain item := by
  obtain ⟨pushed, hpushed, index, -, rfl⟩ := h
  exact List.forall_mem_append.mpr
    ⟨plain_of_map (Literal.isOperation_of_loads (Literal.loads_of_ran hpushed)),
      List.forall_mem_singleton.mpr (.op rfl)⟩

theorem Ends.plain {method : MethodDecl} {b : Body} {ending : List Item}
    (h : Ends method b ending) : ∀ item ∈ ending, Plain item := by
  rcases h with ⟨-, rfl⟩ | ⟨-, -, rfl⟩
  · simp
  · exact List.forall_mem_singleton.mpr (.op rfl)

/-- The items of a method as blocks, with code without labels in front and behind. -/
theorem EmitsBody.split {owner : ClassDecl} {method : MethodDecl} {b : Body}
    {fields : List Initializer} {items : List Item}
    (h : EmitsBody owner method b fields final items) :
    ∃ chained before blocks ending, items = before ++ blocks.flatten ++ ending ∧
      (∀ item ∈ before, Plain item) ∧ Chains owner method b final chained ∧
      (fields = [] → before = chained) ∧
      List.Forall₂ (Emits ⟨owner, method, Std.HashSet.ofList b.labels⟩ final) b.statements blocks ∧
      Ends method b ending := by
  obtain ⟨chained, hchained, filled, hfilled, blocks, hblocks, ending, hending, rfl⟩ := h
  refine ⟨chained, chained ++ filled.flatten, blocks, ending, rfl, ?_, hchained, ?_, hblocks,
    hending⟩
  · refine List.forall_mem_append.mpr ⟨hchained.plain, fun item hitem => ?_⟩
    obtain ⟨block, hblock, hitem⟩ := List.mem_flatten.mp hitem
    obtain ⟨i, -, hfills⟩ := exists_left_of_forall₂ hfilled hblock
    exact hfills.plain item hitem
  · rintro rfl
    cases hfilled
    simp

theorem EmitsBody.isJump_of_plain {owner : ClassDecl} {method : MethodDecl} {b : Body}
    {fields : List Initializer} {items : List Item}
    (h : EmitsBody owner method b fields final items) {instr : Instr}
    (hinstr : Line.plain instr ∈ Item.lines items) : instr.isJump = false := by
  obtain ⟨chained, before, blocks, ending, rfl, hbefore, -, -, hblocks, hending⟩ := h.split
  obtain ⟨item, hitem, hline⟩ := List.mem_filterMap.mp hinstr
  have hplain : Plain item → instr.isJump = false := by
    rintro ⟨instr', hjump, rfl | rfl⟩ <;> cases hline <;> exact hjump
  rcases List.mem_append.mp hitem with hitem | hitem
  · rcases List.mem_append.mp hitem with hitem | hitem
    · exact hplain (hbefore item hitem)
    · obtain ⟨block, hblock, hitem⟩ := List.mem_flatten.mp hitem
      obtain ⟨st, -, hemits⟩ := exists_left_of_forall₂ hblocks hblock
      rcases hemits.belongs item hitem with hitem | ⟨when, label, rfl, -⟩ | ⟨label, rfl, -⟩
      · exact hplain hitem
      · cases hline
      · cases hline
  · exact hplain (hending.plain item hitem)

end Belongs

section Positions

variable {before ending : List Item} {blocks : List (List Item)} {n : Nat} {block : List Item}

def startLine (before : List Item) (blocks : List (List Item)) (n : Nat) : Nat :=
  (Item.lines (before ++ (blocks.take n).flatten)).length

private theorem flatten_take_succ (h : blocks[n]? = some block) :
    (blocks.take (n + 1)).flatten = (blocks.take n).flatten ++ block := by
  rw [List.take_add_one, h]
  simp

theorem startLine_succ (h : blocks[n]? = some block) :
    startLine before blocks (n + 1) = startLine before blocks n + (Item.lines block).length := by
  unfold startLine
  rw [flatten_take_succ h, ← List.append_assoc, Item.lines_append, List.length_append]

variable (before blocks) in
theorem startLine_mono {n' : Nat} (h : n ≤ n') :
    startLine before blocks n ≤ startLine before blocks n' := by
  induction n', h using Nat.le_induction with
  | base => exact Nat.le_refl _
  | succ n' _ ih =>
    cases hblock : blocks[n']? with
    | some block =>
      rw [startLine_succ hblock]
      exact Nat.le_trans ih (Nat.le_add_right _ _)
    | none =>
      have hlength := List.getElem?_eq_none_iff.mp hblock
      have hsame : blocks.take (n' + 1) = blocks.take n' := by
        rw [List.take_of_length_le hlength, List.take_of_length_le (Nat.le_succ_of_le hlength)]
      unfold startLine at ih ⊢
      rwa [hsame]

theorem block_unique {n' k k' : Nat} {block' : List Item} (hblock : blocks[n]? = some block)
    (hk : k < (Item.lines block).length) (hblock' : blocks[n']? = some block')
    (hk' : k' < (Item.lines block').length)
    (h : startLine before blocks n + k = startLine before blocks n' + k') : n = n' ∧ k = k' := by
  have hnext : startLine before blocks (n + 1) = _ := startLine_succ hblock
  have hnext' : startLine before blocks (n' + 1) = _ := startLine_succ hblock'
  rcases Nat.lt_trichotomy n n' with hlt | rfl | hlt
  · have hle : startLine before blocks (n + 1) ≤ startLine before blocks n' :=
      startLine_mono before blocks hlt
    omega
  · exact ⟨rfl, by omega⟩
  · have hle : startLine before blocks (n' + 1) ≤ startLine before blocks n :=
      startLine_mono before blocks hlt
    omega

theorem split_at (h : blocks[n]? = some block) :
    before ++ blocks.flatten ++ ending = (before ++ (blocks.take n).flatten) ++
      (block ++ ((blocks.drop (n + 1)).flatten ++ ending)) := by
  have hsplit : blocks.flatten =
      (blocks.take n).flatten ++ (block ++ (blocks.drop (n + 1)).flatten) := by
    rw [← List.append_assoc, ← flatten_take_succ h, ← List.flatten_append, List.take_append_drop]
  rw [hsplit]
  simp only [List.append_assoc]

theorem lines_block (h : blocks[n]? = some block) {k : Nat} {line : Line}
    (hline : (Item.lines block)[k]? = some line) :
    (Item.lines (before ++ blocks.flatten ++ ending))[startLine before blocks n + k]? =
      some line := by
  have hk : k < (Item.lines block).length := (List.getElem?_eq_some_iff.mp hline).1
  rw [split_at h, Item.lines_append (before ++ (blocks.take n).flatten), startLine,
    List.getElem?_append_right (Nat.le_add_right _ _), Nat.add_sub_cancel_left, Item.lines_append,
    List.getElem?_append_left hk]
  exact hline

theorem lines_ending (k : Nat) :
    (Item.lines (before ++ blocks.flatten ++ ending))[startLine before blocks blocks.length + k]? =
      (Item.lines ending)[k]? := by
  rw [Item.lines_append, startLine, List.take_length,
    List.getElem?_append_right (Nat.le_add_right _ _), Nat.add_sub_cancel_left]

theorem length_lines :
    (Item.lines (before ++ blocks.flatten ++ ending)).length =
      startLine before blocks blocks.length + (Item.lines ending).length := by
  rw [Item.lines_append, startLine, List.take_length, List.length_append]

theorem exists_position {i : Nat} (hi : i < (Item.lines (before ++ blocks.flatten ++ ending)).length) :
    i < (Item.lines before).length ∨
      (∃ n block k, blocks[n]? = some block ∧ k < (Item.lines block).length ∧
        i = startLine before blocks n + k) ∨
      ∃ k < (Item.lines ending).length, i = startLine before blocks blocks.length + k := by
  by_cases hend : startLine before blocks blocks.length ≤ i
  · rw [length_lines] at hi
    exact .inr (.inr ⟨i - startLine before blocks blocks.length, by omega, by omega⟩)
  · have hblocks : ∀ n ≤ blocks.length, i < startLine before blocks n →
        i < (Item.lines before).length ∨ ∃ n block k, blocks[n]? = some block ∧
          k < (Item.lines block).length ∧ i = startLine before blocks n + k := by
      intro n hn hlt
      induction n with
      | zero =>
        rw [startLine, List.take_zero, List.flatten_nil, List.append_nil] at hlt
        exact .inl hlt
      | succ n ih =>
        by_cases hbefore : i < startLine before blocks n
        · exact ih (Nat.le_of_succ_le hn) hbefore
        · have hblock := List.getElem?_eq_getElem hn
          rw [startLine_succ hblock] at hlt
          exact .inr ⟨n, blocks[n], i - startLine before blocks n, hblock, by omega, by omega⟩
    rcases hblocks blocks.length (Nat.le_refl _) (Nat.lt_of_not_le hend) with hbefore | hblock
    · exact .inl hbefore
    · exact .inr (.inl hblock)

private theorem Plain.marks {item : Item} (h : Plain item) (label : Label) :
    item.marks label = false := by
  obtain ⟨instr, -, rfl | rfl⟩ := h <;> rfl

private theorem Belongs.marked? {st : Statement} {item : Item} {label : Label} (h : Belongs st item)
    (hmarks : item.marks label = true) : st.marked? = some label := by
  rcases h with h | ⟨when, other, rfl, -⟩ | ⟨other, rfl, hmarked⟩
  · rw [h.marks label] at hmarks
    cases hmarks
  · cases hmarks
  · have heq : other = label := by simpa [Item.marks] using hmarks
    rw [← heq]
    exact hmarked

variable {ctx : MethodContext} {final : Lowering} {b : Body}

private theorem exists_statement
    (hblocks : List.Forall₂ (Emits ctx final) b.statements blocks) {item : Item}
    (hitem : item ∈ (blocks.drop n).flatten) :
    ∃ m st, n ≤ m ∧ b.statements[m]? = some st ∧ Belongs st item := by
  obtain ⟨block, hblock, hitem⟩ := List.mem_flatten.mp hitem
  obtain ⟨k, hk⟩ := List.mem_iff_getElem?.mp hblock
  rw [List.getElem?_drop] at hk
  obtain ⟨hlt, hget⟩ := List.getElem?_eq_some_iff.mp hk
  have hlt' : n + k < b.statements.length := by
    rw [hblocks.length_eq]
    exact hlt
  have hemits := hblocks.get hlt' hlt
  refine ⟨n + k, b.statements[n + k], Nat.le_add_right n k, List.getElem?_eq_getElem hlt', ?_⟩
  rw [List.get_eq_getElem, List.get_eq_getElem, hget] at hemits
  exact hemits.belongs item hitem

theorem Emits.eq_mark {st : Statement} (h : Emits ctx final st block) {label : Label}
    (hmark : Item.mark label ∈ block) : block = [.mark label] := by
  have hmarked : st.marked? = some label := (h.belongs _ hmark).marked? (by simp [Item.marks])
  cases st with
  | mark other =>
    cases hmarked
    exact h
  | _ => cases hmarked

private theorem exists_take_of_mark
    (hmarks : ∀ block ∈ blocks, ∀ label, Item.mark label ∈ block → block = [.mark label])
    (hending : ∀ item ∈ ending, Plain item) {front back : List Item} {label : Label}
    (h : blocks.flatten ++ ending = front ++ Item.mark label :: back) :
    ∃ n ≤ blocks.length, front = (blocks.take n).flatten := by
  induction blocks generalizing front with
  | nil =>
    have hplain := hending (.mark label) (by rw [show ending = _ from h]; simp)
    have hmarks := hplain.marks label
    simp [Item.marks] at hmarks
  | cons block blocks ih =>
    rw [List.flatten_cons, List.append_assoc] at h
    have hbehind : ∀ {more}, front = block ++ more →
        blocks.flatten ++ ending = more ++ Item.mark label :: back →
        ∃ n ≤ (block :: blocks).length, front = ((block :: blocks).take n).flatten := by
      intro more hfront hrest
      obtain ⟨n, hn, rfl⟩ := ih (fun b hb => hmarks b (List.mem_cons_of_mem _ hb)) hrest
      exact ⟨n + 1, Nat.succ_le_succ hn, hfront⟩
    rcases List.append_eq_append_iff.mp h with ⟨more, hfront, hrest⟩ | ⟨inside, hblock, hrest⟩
    · exact hbehind hfront hrest
    · cases inside with
      | nil =>
        have hrest : blocks.flatten ++ ending = [] ++ Item.mark label :: back := hrest.symm
        exact hbehind (by rw [hblock, List.append_nil, List.append_nil]) hrest
      | cons item inside =>
        obtain ⟨rfl, -⟩ := List.cons.inj hrest
        rw [hmarks block List.mem_cons_self label (by rw [hblock]; simp)] at hblock
        cases front with
        | nil => exact ⟨0, Nat.zero_le _, rfl⟩
        | cons first front => simp at hblock

theorem exists_startLine_of_mark
    (hmarks : ∀ block ∈ blocks, ∀ label, Item.mark label ∈ block → block = [.mark label])
    (hbefore : ∀ item ∈ before, Plain item) (hending : ∀ item ∈ ending, Plain item) {label : Label}
    {target : Nat}
    (h : (Draft.ofItems (before ++ blocks.flatten ++ ending)).placed[label]? = some target) :
    ∃ n ≤ blocks.length, target = startLine before blocks n := by
  obtain ⟨front, back, hitems, -, rfl⟩ := Draft.placed_ofItems.mp h
  rw [List.append_assoc] at hitems
  rcases List.append_eq_append_iff.mp hitems with ⟨more, rfl, hrest⟩ | ⟨inside, rfl, hrest⟩
  · obtain ⟨n, hn, rfl⟩ := exists_take_of_mark hmarks hending hrest
    exact ⟨n, hn, rfl⟩
  · cases inside with
    | nil =>
      have hrest : blocks.flatten ++ ending = [] ++ Item.mark label :: back := hrest.symm
      obtain ⟨n, hn, hnil⟩ := exists_take_of_mark hmarks hending hrest
      exact ⟨n, hn, by rw [startLine, ← hnil, List.append_nil, List.append_nil]⟩
    | cons item inside =>
      obtain ⟨rfl, -⟩ := List.cons.inj hrest
      have hplain := (hbefore (.mark label) (by simp)).marks label
      simp [Item.marks] at hplain

theorem exists_startLine_of_placed (hblocks : List.Forall₂ (Emits ctx final) b.statements blocks)
    (hbefore : ∀ item ∈ before, Plain item) (hending : ∀ item ∈ ending, Plain item) {label : Label}
    {target : Nat}
    (h : (Draft.ofItems (before ++ blocks.flatten ++ ending)).placed[label]? = some target) :
    ∃ n ≤ blocks.length, target = startLine before blocks n := by
  refine exists_startLine_of_mark (fun block hblock label hmark => ?_) hbefore hending h
  obtain ⟨st, -, hemits⟩ := exists_left_of_forall₂ hblocks hblock
  exact hemits.eq_mark hmark

/-- A label stands at the line of the statement that places it. -/
theorem placed_eq_position? (hblocks : List.Forall₂ (Emits ctx final) b.statements blocks)
    (hlabels : (b.statements.filterMap Statement.marked?).Nodup)
    (hbefore : ∀ item ∈ before, Plain item) (hending : ∀ item ∈ ending, Plain item)
    (label : Label) :
    (Draft.ofItems (before ++ blocks.flatten ++ ending)).placed[label]? =
      (b.position? label).map (startLine before blocks) := by
  cases hposition : b.position? label with
  | some n =>
    have hst := Body.marked_of_position? hposition
    obtain ⟨hlt, hget⟩ := List.getElem?_eq_some_iff.mp hst
    have hlt' : n < blocks.length := by
      rw [← hblocks.length_eq]
      exact hlt
    have hblock : blocks[n]? = some [.mark label] := by
      have hemits := hblocks.get hlt hlt'
      rw [List.get_eq_getElem, List.get_eq_getElem, hget] at hemits
      rw [List.getElem?_eq_getElem hlt']
      exact congrArg some hemits
    rw [Option.map_some, Draft.placed_ofItems]
    refine ⟨before ++ (blocks.take n).flatten, (blocks.drop (n + 1)).flatten ++ ending, ?_, ?_, rfl⟩
    · rw [split_at hblock]
      rfl
    · intro item hitem
      rcases List.mem_append.mp hitem with hitem | hitem
      · obtain ⟨m, st, hm, hst', hbelongs⟩ := exists_statement hblocks hitem
        cases hmarks : item.marks label with
        | false => rfl
        | true =>
          -- a second statement would place the label
          have hmarked := hbelongs.marked? hmarks
          obtain ⟨hmlt, hmget⟩ := List.getElem?_eq_some_iff.mp hst'
          rw [List.Nodup, List.pairwise_filterMap, List.pairwise_iff_getElem] at hlabels
          refine absurd rfl (hlabels n m hlt hmlt hm label ?_ label ?_)
          · rw [hget]
            rfl
          · rw [hmget]
            exact hmarked
      · exact (hending item hitem).marks label
  | none =>
    rw [Option.map_none, Option.eq_none_iff_forall_ne_some]
    intro target hplaced
    obtain ⟨front, back, hitems, -, -⟩ := Draft.placed_ofItems.mp hplaced
    have hmem : Item.mark label ∈ before ++ blocks.flatten ++ ending := by
      rw [hitems]
      simp
    have hmarks : (Item.mark label).marks label = true := by simp [Item.marks]
    rcases List.mem_append.mp hmem with hmem | hmem
    · rcases List.mem_append.mp hmem with hmem | hmem
      · rw [(hbefore _ hmem).marks label] at hmarks
        cases hmarks
      · obtain ⟨m, st, -, hst, hbelongs⟩ := exists_statement (n := 0) hblocks hmem
        have hmarked := hbelongs.marked? hmarks
        rw [Body.position?, List.findIdx?_eq_none_iff] at hposition
        have hnot := hposition st (List.mem_of_getElem? hst)
        simp [hmarked] at hnot
    · rw [(hending _ hmem).marks label] at hmarks
      cases hmarks

end Positions

end Lower

end Classwright
