import Classwright.Proofs.Effects
import Classwright.Proofs.Resolution

/-!
# Which locals the code of a statement accesses

The code of a statement loads the locals that the statement reads, in order, and then stores the one that
it assigns.  It accesses no slots beside theirs.
-/

namespace Classwright

inductive LocalUse where
  | load (l : Local)
  | store (l : Local)

namespace LocalUse

def target : LocalUse → Local
  | load l | store l => l

def isStore : LocalUse → Bool
  | load _ => false
  | store _ => true

end LocalUse

/-- How an instruction accesses slots: from the given one on, as many as a value of the kind takes. -/
structure SlotAccess where
  isStore : Bool
  kind : Kind
  slot : Nat

def Instr.slotAccess? : Instr → Option SlotAccess
  | load kind form => some ⟨false, kind, form.slot⟩
  | store kind form => some ⟨true, kind, form.slot⟩
  | _ => none

private theorem Instr.slotAccess?_of_isOperation {instr : Instr} (h : instr.isOperation = true) :
    instr.slotAccess? = none := by
  cases instr <;> first | rfl | cases h

theorem Instr.slotAccess?_of_isFiller {instr : Instr} (h : instr.isFiller = true) :
    instr.slotAccess? = none := by
  cases instr <;> first | rfl | cases h

def Item.slotAccess? : Item → Option SlotAccess
  | op instr | initThis instr => instr.slotAccess?
  | branch .. | mark _ => none

private theorem Item.slotAccess?_of_isNeutral {item : Item} (h : item.isNeutral = true) :
    item.slotAccess? = none := by
  cases item with
  | op instr => cases instr <;> first | rfl | cases h
  | initThis instr => cases h
  | branch | mark => rfl

def Statement.localUses (st : Statement) : List LocalUse :=
  st.reads.map .load ++ st.assigned?.toList.map .store

theorem Statement.mem_locals_of_localUses {st : Statement} {use : LocalUse} (h : use ∈ st.localUses) :
    use.target ∈ st.locals := by
  rcases List.mem_append.mp h with h | h
  · obtain ⟨l, hl, rfl⟩ := List.mem_map.mp h
    exact mem_locals_of_reads hl
  · obtain ⟨l, hl, rfl⟩ := List.mem_map.mp h
    exact mem_locals_of_assigned? (Option.mem_toList.mp hl)

namespace Lower

/-- The access is to the slots of the local that is used. -/
def Performs (final : Lowering) (use : LocalUse) (access : SlotAccess) : Prop :=
  access.isStore = use.isStore ∧ use.target.type.kind? = some access.kind ∧
    ∃ slot, final.slots.index[use.target.name]? = some slot ∧ access.slot = slot.toNat

/-- The items use the given locals in order and access no other slots. -/
inductive Touches (final : Lowering) : List LocalUse → List Item → Prop where
  | nil : Touches final [] []
  | load {l : Local} {item : Item} {uses : List LocalUse} {items : List Item}
      (pushes : Pushes final l item) (rest : Touches final uses items) :
      Touches final (.load l :: uses) (item :: items)
  | store {l : Local} {item : Item} {uses : List LocalUse} {items : List Item}
      (pops : Pops final l item) (rest : Touches final uses items) :
      Touches final (.store l :: uses) (item :: items)
  | other {item : Item} {uses : List LocalUse} {items : List Item}
      (silent : item.slotAccess? = none) (rest : Touches final uses items) :
      Touches final uses (item :: items)

namespace Touches

variable {final : Lowering} {uses : List LocalUse} {items more : List Item}

theorem loads {locals : List Local} {pushed : List Item}
    (h : List.Forall₂ (Pushes final) locals pushed) (rest : Touches final uses items) :
    Touches final (locals.map .load ++ uses) (pushed ++ items) := by
  induction h with
  | nil => exact rest
  | cons hpushes _ ih => exact .load hpushes ih

theorem neutral (h : ∀ item ∈ more, item.isNeutral = true) (rest : Touches final uses items) :
    Touches final uses (more ++ items) := by
  induction more with
  | nil => exact rest
  | cons item more ih =>
    rw [List.forall_mem_cons] at h
    exact .other (Item.slotAccess?_of_isNeutral h.1) (ih h.2)

theorem of_isNeutral (h : ∀ item ∈ items, item.isNeutral = true) : Touches final [] items := by
  have hrest : Touches final [] (items ++ []) := neutral h .nil
  rwa [List.append_nil] at hrest

theorem operation {instr : Instr} (h : instr.isOperation = true) (rest : Touches final uses items) :
    Touches final uses (.op instr :: items) :=
  .other (Instr.slotAccess?_of_isOperation h) rest

end Touches

variable {final : Lowering}

private theorem Uses.touches {type : JavaType} {result : Option Local} {items : List Item}
    (h : Uses final type result items) : Touches final (result.toList.map .store) items := by
  obtain ⟨rest, stored, rfl, hrest, hstored⟩ := h.shape
  refine .neutral hrest ?_
  cases result with
  | none =>
    cases hstored
    exact .nil
  | some target =>
    obtain ⟨item, rest, hpops, hrest, rfl⟩ := List.forall₂_cons_left_iff.mp hstored
    cases hrest
    exact .store hpops .nil

private theorem touches_marked {ctx : MethodContext} {m : MethodSymbol} {slot : UInt16} {call : Instr}
    {uses : List LocalUse} {items : List Item} (h : call.isOperation = true)
    (rest : Touches final uses items) : Touches final uses (marked ctx m slot call :: items) := by
  refine .other ?_ rest
  unfold marked
  split
  · exact Instr.slotAccess?_of_isOperation h
  · exact Instr.slotAccess?_of_isOperation h

theorem Emits.touches {ctx : MethodContext} {st : Statement} {items : List Item}
    (h : Emits ctx final st items) : Touches final st.localUses items := by
  cases st with
  | invoke m receiver arguments result isSuper =>
    simp only [Emits] at h
    split at h
    · rename_i hstatic
      obtain ⟨pushed, hpushed, call, hcall, used, hused, rfl⟩ := h
      rw [Statement.localUses, Statement.reads, if_pos hstatic]
      exact .loads hpushed (.operation hcall.isOperation hused.touches)
    · rename_i hstatic
      obtain ⟨object, rfl, slot, -, item, hitem, pushed, hpushed, call, hcall, used, hused, rfl⟩ := h
      rw [Statement.localUses, Statement.reads, if_neg hstatic]
      exact .load hitem (.loads hpushed (touches_marked hcall.isOperation hused.touches))
  | getField f receiver target =>
    obtain ⟨index, -, h⟩ := h
    split at h
    · rename_i hstatic
      obtain ⟨item, hitem, rfl⟩ := h
      rw [Statement.localUses, Statement.reads, if_pos hstatic]
      exact .operation rfl (.store hitem .nil)
    · rename_i hstatic
      obtain ⟨object, rfl, pushed, hpushed, item, hitem, rfl⟩ := h
      rw [Statement.localUses, Statement.reads, if_neg hstatic]
      exact .load hpushed (.operation rfl (.store hitem .nil))
  | putField f receiver value =>
    obtain ⟨index, -, h⟩ := h
    split at h
    · rename_i hstatic
      obtain ⟨item, hitem, rfl⟩ := h
      rw [Statement.localUses, Statement.reads, if_pos hstatic]
      exact .load hitem (.operation rfl .nil)
    · rename_i hstatic
      obtain ⟨object, rfl, pushed, hpushed, item, hitem, rfl⟩ := h
      rw [Statement.localUses, Statement.reads, if_neg hstatic]
      exact .load hpushed (.load hitem (.operation rfl .nil))
  | assign target source =>
    obtain ⟨x, hx, y, hy, rfl⟩ := h
    exact .load hx (.store hy .nil)
  | binary op left right result =>
    obtain ⟨instr, hinstr, x, hx, y, hy, z, hz, rfl⟩ := h
    obtain ⟨kind, -, hinstr⟩ := Option.bind_eq_some_iff.mp hinstr
    exact .load hx (.load hy (.operation (isOperation_of_binary? hinstr) (.store hz .nil)))
  | unary op operand result =>
    obtain ⟨kind, -, x, hx, changed, hchanged, y, hy, rfl⟩ := h
    exact .load hx (.neutral hchanged.isNeutral (.store hy .nil))
  | cast source target =>
    obtain ⟨instr, hinstr, x, hx, y, hy, rfl⟩ := h
    exact .load hx (.operation (isOperation_of_castInstr? hinstr) (.store hy .nil))
  | goto label =>
    rw [show items = _ from h]
    exact .other rfl .nil
  | mark label =>
    rw [show items = _ from h]
    exact .other rfl .nil
  | compare op left right label =>
    obtain ⟨x, hx, y, hy, ⟨-, jump, -, rfl⟩ | ⟨kind, -, rfl⟩⟩ := h
    · exact .load hx (.load hy (.other rfl .nil))
    · exact .load hx (.load hy (.of_isNeutral (isNeutral_comparing kind op label)))
  | test op operand label =>
    obtain ⟨x, hx, ⟨-, jump, -, rfl⟩ | ⟨kind, -, rfl⟩⟩ := h
    · exact .load hx (.other rfl .nil)
    · exact .load hx (.of_isNeutral (isNeutral_testing kind op label))
  | arrayGet array index target =>
    obtain ⟨kind, -, x, hx, i, hi, y, hy, rfl⟩ := h
    exact .load hx (.load hi (.operation rfl (.store hy .nil)))
  | arrayPut array index value =>
    obtain ⟨kind, -, x, hx, i, hi, v, hv, rfl⟩ := h
    exact .load hx (.load hi (.load hv (.operation rfl .nil)))
  | ret value =>
    cases value with
    | none =>
      rw [show items = _ from h.2]
      exact .other rfl .nil
    | some l =>
      obtain ⟨-, kind, -, x, hx, cast, hcast, rfl⟩ := h
      exact .load hx (.neutral (isNeutral_map_op hcast.isOperation) (.other rfl .nil))
  | instanceOf value type result =>
    obtain ⟨x, hx, index, -, y, hy, rfl⟩ := h
    exact .load hx (.operation rfl (.store hy .nil))
  | new m arguments result =>
    obtain ⟨index, -, init, -, pushed, hpushed, stored, hstored, rfl⟩ := h
    exact .operation rfl (.operation rfl (.loads hpushed (.operation rfl (.store hstored .nil))))
  | newArray element lengths result =>
    obtain ⟨-, -, pushed, hpushed, instr, hinstr, stored, hstored, rfl⟩ := h
    exact .loads hpushed (.operation hinstr.isOperation (.store hstored .nil))
  | literal value target =>
    obtain ⟨instrs, hinstrs, stored, hstored, rfl⟩ := h
    exact .neutral (isNeutral_map_op (Literal.isOperation_of_loads hinstrs)) (.store hstored .nil)

private theorem exists_of_resolved {instr : Instr} {lines : List Line} {instrs : List Instr}
    (h : List.Forall₂ Line.Resolved (.plain instr :: lines) instrs) :
    ∃ rest, instrs = instr :: rest ∧ List.Forall₂ Line.Resolved lines rest := by
  obtain ⟨_, rest, hplain | ⟨_, _, _, hbranch, -⟩, hrest, rfl⟩ := List.forall₂_cons_left_iff.mp h
  · cases hplain
    exact ⟨rest, rfl, hrest⟩
  · cases hbranch

theorem Touches.performs {uses : List LocalUse} {items : List Item} (h : Touches final uses items)
    {instrs : List Instr} (hresolved : List.Forall₂ Line.Resolved (Item.lines items) instrs) :
    List.Forall₂ (Performs final) uses (instrs.filterMap Instr.slotAccess?) := by
  induction h generalizing instrs with
  | nil =>
    cases hresolved
    exact .nil
  | load pushes _ ih =>
    obtain ⟨slot, hslot, kind, hkind, rfl⟩ := pushes
    obtain ⟨rest, rfl, hrest⟩ := exists_of_resolved hresolved
    exact .cons ⟨rfl, hkind, slot, hslot, SlotForm.slot_ofSlot slot⟩ (ih hrest)
  | store pops _ ih =>
    obtain ⟨kind, hkind, slot, hslot, rfl⟩ := pops
    obtain ⟨rest, rfl, hrest⟩ := exists_of_resolved hresolved
    exact .cons ⟨rfl, hkind, slot, hslot, SlotForm.slot_ofSlot slot⟩ (ih hrest)
  | @other item _ _ silent _ ih =>
    cases item with
    | op instr | initThis instr =>
      obtain ⟨rest, rfl, hrest⟩ := exists_of_resolved hresolved
      rw [List.filterMap_cons_none (show instr.slotAccess? = none from silent)]
      exact ih hrest
    | branch when label =>
      obtain ⟨_, rest, hplain | ⟨_, _, _, -, rfl⟩, hrest, rfl⟩ := List.forall₂_cons_left_iff.mp hresolved
      · cases hplain
      · rw [List.filterMap_cons_none rfl]
        exact ih hrest
    | mark label => exact ih hresolved

end Lower

/-- What each part of a method's code does with locals.  The call of another constructor in front takes
the receiver. -/
def MethodDecl.localUses (owner : ClassDecl) (m : MethodDecl) (fields : List Initializer) (b : Body) :
    List (List LocalUse) :=
  (if m.initializesThis && !Lower.startsWithConstructor owner b && owner.super.isSome then
    b.parameters.head?.toList.map .load else []) ::
  fields.map (fun _ => []) ++ b.statements.map Statement.localUses ++ [[]]

namespace Lower

variable {final : Lowering} {owner : ClassDecl} {m : MethodDecl} {b : Body} {fields : List Initializer}

theorem Fills.touches {i : Initializer} {items : List Item} (h : Fills owner final i items) :
    Touches final [] items := by
  obtain ⟨pushed, hpushed, index, -, rfl⟩ := h
  exact .neutral
    (isNeutral_map_op (Literal.isOperation_of_loads (Literal.loads_of_ran hpushed))) (.operation rfl .nil)

theorem Ends.touches {items : List Item} (h : Ends m b items) : Touches final [] items := by
  rcases h with ⟨-, rfl⟩ | ⟨-, -, rfl⟩
  · exact .nil
  · exact .other rfl .nil

/-- The parts of a method use locals as they should, if the receiver of an instance method has the first
slot. -/
theorem Parts.Of.touches {parts : Parts} (h : parts.Of owner m b fields final)
    (hreceiver : m.initializesThis = true → ∃ l, b.parameters.head? = some l ∧
      l.type.kind? = some .reference ∧ final.slots.index[l.name]? = some 0) :
    List.Forall₂ (Touches final) (m.localUses owner fields b) parts.all := by
  have hchained : Touches final (if m.initializesThis && !startsWithConstructor owner b &&
      owner.super.isSome then b.parameters.head?.toList.map .load else []) parts.chained := by
    have hchains := h.chained
    unfold Chains at hchains
    split at hchains
    · rename_i hcalls
      cases hsuper : owner.super with
      | none =>
        rw [hsuper] at hchains
        rw [show parts.chained = [] from hchains]
        simp [Touches.nil]
      | some super =>
        rw [hsuper] at hchains
        obtain ⟨index, -, hitems⟩ := hchains
        obtain ⟨l, hl, hkind, hslot⟩ := hreceiver (Bool.and_eq_true_iff.mp hcalls).1
        rw [hitems, hcalls, hl]
        exact .load ⟨0, hslot, .reference, hkind, rfl⟩ (.other rfl .nil)
    · rename_i hcalls
      rw [show parts.chained = [] from hchains, (Bool.not_eq_true _).mp hcalls]
      exact .nil
  have hfilled : List.Forall₂ (Touches final) (fields.map fun _ => []) parts.filled :=
    List.forall₂_map_left_iff.mpr (h.filled.imp fun _ _ hfills => hfills.touches)
  have hblocks : List.Forall₂ (Touches final) (b.statements.map Statement.localUses) parts.blocks :=
    List.forall₂_map_left_iff.mpr (h.blocks.imp fun _ _ hemits => hemits.touches)
  exact List.rel_append (List.rel_append (.cons hchained hfilled) hblocks) (.cons h.ending.touches .nil)

end Lower

end Classwright
