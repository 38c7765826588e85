import Classwright.Proofs.Assignment
import Classwright.Proofs.Blocks

/-!
# What the code of a statement does to the slots

The code of a statement first pushes the locals that the statement reads.  Then it works on operands,
where a call may initialize the receiver, and last it pops the local that the statement assigns.
-/

namespace Classwright

namespace Item

/-- Whether the item leaves the slots alone: it neither reads nor writes one, and it does not initialize
the receiver. -/
def isNeutral : Item → Bool
  | op (.load ..) | op (.store ..) | initThis _ => false
  | _ => true

private theorem isNeutral_op {instr : Instr} (h : instr.isOperation = true) :
    (op instr).isNeutral = true := by
  cases instr <;> first | rfl | cases h

theorem initializes_of_isNeutral {item : Item} (h : item.isNeutral = true) :
    item.initializes = false := by
  cases item <;> first | rfl | cases h

end Item

namespace Lower

/-- The items of a statement in the order in which they use slots. -/
def Shape (final : Lowering) (st : Statement) (initializes : Bool) (items : List Item) : Prop :=
  ∃ pushed call rest stored, items = pushed ++ (call ++ (rest ++ stored)) ∧
    (∀ item ∈ pushed, item.isNeutral = true ∨ ∃ l ∈ st.reads, Pushes final l item) ∧
    (if initializes then ∃ instr : Instr, instr.isOperation = true ∧ call = [.initThis instr]
      else call = []) ∧
    (∀ item ∈ rest, item.isNeutral = true) ∧ List.Forall₂ (Pops final) st.assigned?.toList stored

section Shape

variable {final : Lowering} {st : Statement}

theorem isNeutral_map_op {instrs : List Instr} (h : ∀ instr ∈ instrs, instr.isOperation = true) :
    ∀ item ∈ instrs.map Item.op, item.isNeutral = true := by
  intro item hitem
  obtain ⟨instr, hinstr, rfl⟩ := List.mem_map.mp hitem
  exact Item.isNeutral_op (h instr hinstr)

private theorem Shape.of_pushed (pushed stored : List Item)
    (hpushed : ∀ item ∈ pushed, item.isNeutral = true ∨ ∃ l ∈ st.reads, Pushes final l item)
    (hstored : List.Forall₂ (Pops final) st.assigned?.toList stored) :
    Shape final st false (pushed ++ stored) :=
  ⟨pushed, [], [], stored, rfl, hpushed, rfl, by simp, hstored⟩

theorem Uses.shape {type : JavaType} {result : Option Local} {items : List Item}
    (h : Uses final type result items) :
    ∃ rest stored, items = rest ++ stored ∧ (∀ item ∈ rest, item.isNeutral = true) ∧
      List.Forall₂ (Pops final) result.toList stored := by
  cases result with
  | none =>
    refine ⟨items, [], (List.append_nil _).symm, ?_, .nil⟩
    rw [show items = dropping type from h]
    unfold dropping
    split <;> simp [Item.isNeutral]
  | some target =>
    obtain ⟨instrs, hadapts, item, hpops, rfl⟩ := h
    exact ⟨_, [item], rfl, isNeutral_map_op hadapts.isOperation, .cons hpops .nil⟩

theorem Changes.isNeutral {kind : NumKind} {op : UnaryOp} {items : List Item}
    (h : Changes final kind op items) : ∀ item ∈ items, item.isNeutral = true := by
  cases op with
  | negate =>
    rw [show items = _ from h]
    simp [Item.isNeutral]
  | complement =>
    rcases h with ⟨-, rfl⟩ | ⟨-, index, -, rfl⟩ <;> simp [Item.isNeutral]

theorem isNeutral_comparing (kind : NumKind) (op : Comparison) (label : Label) :
    ∀ item ∈ comparing kind op label, item.isNeutral = true := by
  unfold comparing
  split
  · rename_i instr hinstr
    exact List.forall_mem_cons.mpr ⟨Item.isNeutral_op (isOperation_of_compare? hinstr),
      List.forall_mem_singleton.mpr rfl⟩
  · simp [Item.isNeutral]

theorem isNeutral_testing (kind : NumKind) (op : Comparison) (label : Label) :
    ∀ item ∈ testing kind op label, item.isNeutral = true := by
  unfold testing
  split
  · rename_i zero instr hzero hinstr
    exact List.forall_mem_cons.mpr ⟨Item.isNeutral_op (isOperation_of_zero? hzero),
      List.forall_mem_cons.mpr ⟨Item.isNeutral_op (isOperation_of_compare? hinstr),
        List.forall_mem_singleton.mpr rfl⟩⟩
  · simp [Item.isNeutral]

private theorem reads_of_forall₂ {locals : List Local} {pushed : List Item}
    (h : List.Forall₂ (Pushes final) locals pushed) (hreads : ∀ l ∈ locals, l ∈ st.reads) :
    ∀ item ∈ pushed, item.isNeutral = true ∨ ∃ l ∈ st.reads, Pushes final l item := by
  intro item hitem
  obtain ⟨l, hl, hpushes⟩ := exists_left_of_forall₂ h hitem
  exact .inr ⟨l, hreads l hl, hpushes⟩

variable {owner : ClassDecl} {m : MethodDecl} {labels : Std.HashSet Label} {b : Body}

/-- The code of a statement uses the slots in order; it initializes the receiver if the statement calls a
constructor on it. -/
theorem Emits.shape {items : List Item}
    (hzero : m.initializesThis = true → ∀ name slot, final.slots.index[name]? = some slot →
      (slot = 0 ↔ b.isReceiver name = true))
    (h : Emits ⟨owner, m, labels⟩ final st items) :
    Shape final st (b.initializes owner m st) items := by
  cases st with
  | invoke symbol receiver arguments result isSuper =>
    simp only [Emits] at h
    split at h
    · rename_i hstatic
      obtain ⟨pushed, hpushed, call, hcall, used, hused, rfl⟩ := h
      obtain ⟨rest, stored, rfl, hrest, hstored⟩ := hused.shape
      have hnot : b.initializes owner m (.invoke symbol receiver arguments result isSuper) = false := by
        cases receiver <;> simp [Body.initializes, hstatic]
      rw [hnot]
      refine ⟨pushed, [], .op call :: rest, stored, by simp, ?_, rfl, ?_, hstored⟩
      · exact reads_of_forall₂ hpushed fun l hl => by simp [Statement.reads, hl]
      · exact List.forall_mem_cons.mpr ⟨Item.isNeutral_op hcall.isOperation, hrest⟩
    · rename_i hstatic
      obtain ⟨object, rfl, slot, hslot, item, hitem, pushed, hpushed, call, hcall, used, hused, rfl⟩ := h
      obtain ⟨rest, stored, rfl, hrest, hstored⟩ := hused.shape
      have hstatic : symbol.isStatic = false := by simpa using hstatic
      have hpushed' : ∀ x ∈ item :: pushed, x.isNeutral = true ∨
          ∃ l ∈ (Statement.invoke symbol (some object) arguments result isSuper).reads,
            Pushes final l x := by
        refine List.forall_mem_cons.mpr ⟨.inr ⟨object, ?_, hitem⟩, reads_of_forall₂ hpushed ?_⟩
        · simp [Statement.reads, hstatic]
        · intro l hl
          simp [Statement.reads, hl]
      cases hinit : b.initializes owner m (.invoke symbol (some object) arguments result isSuper) with
      | true =>
        simp only [Body.initializes, hstatic, Bool.not_false, Bool.true_and, Bool.and_eq_true] at hinit
        obtain ⟨⟨hthis, hown⟩, hreceiver⟩ := hinit
        have hmarked : marked ⟨owner, m, labels⟩ symbol slot call = .initThis call := by
          simp [marked, initializesThis, (hzero hthis _ _ hslot).mpr hreceiver, hthis, hown]
        rw [hmarked]
        exact ⟨item :: pushed, [.initThis call], rest, stored, by simp, hpushed',
          ⟨call, hcall.isOperation, rfl⟩, hrest, hstored⟩
      | false =>
        have hmarked : marked ⟨owner, m, labels⟩ symbol slot call = .op call := by
          unfold marked
          rw [if_neg]
          simp only [initializesThis, Bool.and_eq_true, decide_eq_true_eq]
          rintro ⟨hslot', hthis, hown⟩
          have hreceiver := (hzero hthis _ _ hslot).mp hslot'
          simp [Body.initializes, hstatic, hthis, hown, hreceiver] at hinit
        rw [hmarked]
        exact ⟨item :: pushed, [], .op call :: rest, stored, by simp, hpushed', rfl,
          List.forall_mem_cons.mpr ⟨Item.isNeutral_op hcall.isOperation, hrest⟩, hstored⟩
  | getField f receiver target =>
    obtain ⟨index, -, h⟩ := h
    split at h
    · obtain ⟨item, hitem, rfl⟩ := h
      exact Shape.of_pushed [_] _ (by simp [Item.isNeutral]) (.cons hitem .nil)
    · rename_i hstatic
      obtain ⟨object, rfl, pushed, hpushed, item, hitem, rfl⟩ := h
      refine Shape.of_pushed [_, _] _ (List.forall_mem_cons.mpr
        ⟨.inr ⟨object, by simp [Statement.reads, hstatic], hpushed⟩, ?_⟩) (.cons hitem .nil)
      simp [Item.isNeutral]
  | putField f receiver value =>
    obtain ⟨index, -, h⟩ := h
    have hvalue : value ∈ (Statement.putField f receiver value).reads := by simp [Statement.reads]
    split at h
    · obtain ⟨item, hitem, rfl⟩ := h
      refine Shape.of_pushed [_, _] [] (List.forall_mem_cons.mpr
        ⟨.inr ⟨value, hvalue, hitem⟩, ?_⟩) .nil
      simp [Item.isNeutral]
    · rename_i hstatic
      obtain ⟨object, rfl, pushed, hpushed, item, hitem, rfl⟩ := h
      refine Shape.of_pushed [_, _, _] [] (List.forall_mem_cons.mpr
        ⟨.inr ⟨object, by simp [Statement.reads, hstatic], hpushed⟩, List.forall_mem_cons.mpr
          ⟨.inr ⟨value, hvalue, hitem⟩, ?_⟩⟩) .nil
      simp [Item.isNeutral]
  | assign target source =>
    obtain ⟨x, hx, y, hy, rfl⟩ := h
    exact Shape.of_pushed [x] _ (List.forall_mem_singleton.mpr
      (.inr ⟨source, by simp [Statement.reads], hx⟩)) (.cons hy .nil)
  | binary op left right result =>
    obtain ⟨instr, hinstr, x, hx, y, hy, z, hz, rfl⟩ := h
    obtain ⟨kind, -, hinstr⟩ := Option.bind_eq_some_iff.mp hinstr
    exact Shape.of_pushed [x, y, .op instr] _ (List.forall_mem_cons.mpr
      ⟨.inr ⟨left, by simp [Statement.reads], hx⟩, List.forall_mem_cons.mpr
        ⟨.inr ⟨right, by simp [Statement.reads], hy⟩, List.forall_mem_singleton.mpr
          (.inl (Item.isNeutral_op (isOperation_of_binary? hinstr)))⟩⟩) (.cons hz .nil)
  | unary op operand result =>
    obtain ⟨kind, -, x, hx, changed, hchanged, y, hy, rfl⟩ := h
    exact Shape.of_pushed (x :: changed) _ (List.forall_mem_cons.mpr
      ⟨.inr ⟨operand, by simp [Statement.reads], hx⟩, fun item hitem =>
        .inl (hchanged.isNeutral item hitem)⟩) (.cons hy .nil)
  | cast source target =>
    obtain ⟨instr, hinstr, x, hx, y, hy, rfl⟩ := h
    exact Shape.of_pushed [x, .op instr] _ (List.forall_mem_cons.mpr
      ⟨.inr ⟨source, by simp [Statement.reads], hx⟩, List.forall_mem_singleton.mpr
        (.inl (Item.isNeutral_op (isOperation_of_castInstr? hinstr)))⟩) (.cons hy .nil)
  | goto label =>
    rw [show items = _ from h]
    exact Shape.of_pushed [_] [] (by simp [Item.isNeutral]) .nil
  | mark label =>
    rw [show items = _ from h]
    exact Shape.of_pushed [_] [] (by simp [Item.isNeutral]) .nil
  | compare op left right label =>
    obtain ⟨x, hx, y, hy, h⟩ := h
    have hbranch : ∃ rest, items = x :: y :: rest ∧ ∀ item ∈ rest, item.isNeutral = true := by
      rcases h with ⟨-, jump, -, rfl⟩ | ⟨kind, -, rfl⟩
      · exact ⟨_, rfl, by simp [Item.isNeutral]⟩
      · exact ⟨_, rfl, isNeutral_comparing kind op label⟩
    obtain ⟨rest, rfl, hrest⟩ := hbranch
    rw [← List.append_nil (x :: y :: rest)]
    exact Shape.of_pushed _ _ (List.forall_mem_cons.mpr
      ⟨.inr ⟨left, by simp [Statement.reads], hx⟩, List.forall_mem_cons.mpr
        ⟨.inr ⟨right, by simp [Statement.reads], hy⟩, fun item hitem => .inl (hrest item hitem)⟩⟩) .nil
  | test op operand label =>
    obtain ⟨x, hx, h⟩ := h
    have hbranch : ∃ rest, items = x :: rest ∧ ∀ item ∈ rest, item.isNeutral = true := by
      rcases h with ⟨-, jump, -, rfl⟩ | ⟨kind, -, rfl⟩
      · exact ⟨_, rfl, by simp [Item.isNeutral]⟩
      · exact ⟨_, rfl, isNeutral_testing kind op label⟩
    obtain ⟨rest, rfl, hrest⟩ := hbranch
    rw [← List.append_nil (x :: rest)]
    exact Shape.of_pushed _ _ (List.forall_mem_cons.mpr
      ⟨.inr ⟨operand, by simp [Statement.reads], hx⟩, fun item hitem => .inl (hrest item hitem)⟩) .nil
  | arrayGet array index target =>
    obtain ⟨kind, -, x, hx, y, hy, z, hz, rfl⟩ := h
    refine Shape.of_pushed [x, y, _] _ (List.forall_mem_cons.mpr
      ⟨.inr ⟨array, by simp [Statement.reads], hx⟩, List.forall_mem_cons.mpr
        ⟨.inr ⟨index, by simp [Statement.reads], hy⟩, ?_⟩⟩) (.cons hz .nil)
    simp [Item.isNeutral]
  | arrayPut array index value =>
    obtain ⟨kind, -, x, hx, y, hy, z, hz, rfl⟩ := h
    refine Shape.of_pushed [x, y, z, _] [] (List.forall_mem_cons.mpr
      ⟨.inr ⟨array, by simp [Statement.reads], hx⟩, List.forall_mem_cons.mpr
        ⟨.inr ⟨index, by simp [Statement.reads], hy⟩, List.forall_mem_cons.mpr
          ⟨.inr ⟨value, by simp [Statement.reads], hz⟩, ?_⟩⟩⟩) .nil
    simp [Item.isNeutral]
  | ret value =>
    cases value with
    | none =>
      rw [h.2]
      exact Shape.of_pushed [_] [] (by simp [Item.isNeutral]) .nil
    | some l =>
      obtain ⟨-, kind, -, x, hx, cast, hcast, rfl⟩ := h
      rw [← List.append_nil (x :: _)]
      refine Shape.of_pushed _ _ (List.forall_mem_cons.mpr
        ⟨.inr ⟨l, by simp [Statement.reads], hx⟩, List.forall_mem_append.mpr
          ⟨fun item hitem => .inl (isNeutral_map_op hcast.isOperation item hitem), ?_⟩⟩) .nil
      simp [Item.isNeutral]
  | instanceOf value type result =>
    obtain ⟨x, hx, index, -, y, hy, rfl⟩ := h
    refine Shape.of_pushed [x, _] _ (List.forall_mem_cons.mpr
      ⟨.inr ⟨value, by simp [Statement.reads], hx⟩, ?_⟩) (.cons hy .nil)
    simp [Item.isNeutral]
  | new symbol arguments result =>
    obtain ⟨index, -, init, -, pushed, hpushed, stored, hstored, rfl⟩ := h
    refine ⟨.op (.new index) :: .op .dup :: pushed, [], [.op (.invokeSpecial init)], [stored], by simp,
      ?_, rfl, by simp [Item.isNeutral], .cons hstored .nil⟩
    exact List.forall_mem_cons.mpr ⟨.inl rfl, List.forall_mem_cons.mpr
      ⟨.inl rfl, reads_of_forall₂ hpushed fun l hl => hl⟩⟩
  | newArray element lengths result =>
    obtain ⟨-, -, pushed, hpushed, instr, hinstr, stored, hstored, rfl⟩ := h
    exact ⟨pushed, [], [.op instr], [stored], by simp, reads_of_forall₂ hpushed fun l hl => hl, rfl,
      List.forall_mem_singleton.mpr (Item.isNeutral_op hinstr.isOperation), .cons hstored .nil⟩
  | literal value target =>
    obtain ⟨instrs, hinstrs, stored, hstored, rfl⟩ := h
    exact Shape.of_pushed _ _ (fun item hitem => .inl
      (isNeutral_map_op (Literal.isOperation_of_loads hinstrs) item hitem)) (.cons hstored .nil)

/-- Where the lines of a statement use slots: what is read is read before line `p`, and nothing is
written before. -/
structure UsesSlots (final : Lowering) (st : Statement) (initializes : Bool) (items : List Item)
    (p : Nat) : Prop where
  load : ∀ (j : Nat) kind form, (Item.lines items)[j]? = some (.plain (.load kind form)) →
    j < p ∧ ∃ l ∈ st.reads, Pushes final l (.op (.load kind form))
  store : ∀ (j : Nat) kind form, (Item.lines items)[j]? = some (.plain (.store kind form)) →
    p ≤ j ∧ ∃ l ∈ st.assigned?, Pops final l (.op (.store kind form))
  assigned : ∀ l ∈ st.assigned?, ∃ (j : Nat) (kind : Kind) (form : SlotForm),
    (Item.lines items)[j]? = some (.plain (.store kind form)) ∧ Pops final l (.op (.store kind form))
  thisInit : (Draft.ofItems items).thisInit = if initializes then some p else none
  call : initializes = true → ∃ instr : Instr, instr.isOperation = true ∧
    (Item.lines items)[p]? = some (.plain instr)

private theorem eq_op_of_line? {item : Item} {instr : Instr} (h : item.line? = some (.plain instr)) :
    item = .op instr ∨ item = .initThis instr := by
  cases item with
  | op other | initThis other =>
    cases h
    simp
  | branch when label => cases h
  | mark label => cases h

private theorem no_slot {instr : Instr}
    (h : instr.isOperation = true ∨ (Item.op instr).isNeutral = true) (kind : Kind) (form : SlotForm) :
    instr ≠ .load kind form ∧ instr ≠ .store kind form := by
  constructor
  · rintro rfl
    rcases h with h | h <;> cases h
  · rintro rfl
    rcases h with h | h <;> cases h

private theorem Pushes.eq_load {l : Local} {item : Item} (h : Pushes final l item) :
    ∃ kind form, item = .op (.load kind form) := by
  obtain ⟨slot, -, kind, -, rfl⟩ := h
  exact ⟨kind, .ofSlot slot, rfl⟩

private theorem Pops.eq_store {l : Local} {item : Item} (h : Pops final l item) :
    ∃ kind form, item = .op (.store kind form) := by
  obtain ⟨kind, -, slot, -, rfl⟩ := h
  exact ⟨kind, .ofSlot slot, rfl⟩

theorem Shape.usesSlots {initializes : Bool} {items : List Item} (h : Shape final st initializes items) :
    ∃ p, UsesSlots final st initializes items p := by
  obtain ⟨pushed, call, rest, stored, rfl, hpushed, hcall, hrest, hstored⟩ := h
  have hcalled : ∀ item ∈ call, ∃ instr : Instr, instr.isOperation = true ∧ item = .initThis instr := by
    cases initializes with
    | true =>
      obtain ⟨instr, hinstr, rfl⟩ := hcall
      exact List.forall_mem_singleton.mpr ⟨instr, hinstr, rfl⟩
    | false =>
      rw [show call = [] from hcall]
      simp
  have hpops : ∀ item ∈ stored, ∃ l ∈ st.assigned?, Pops final l item := by
    intro item hitem
    obtain ⟨l, hl, hpops⟩ := exists_left_of_forall₂ hstored hitem
    exact ⟨l, Option.mem_toList.mp hl, hpops⟩
  -- only what is pushed is loaded, and only what comes behind is stored
  have hfront : ∀ item ∈ pushed, ∀ instr, item.line? = some (.plain instr) →
      (∀ kind form, instr ≠ .store kind form) ∧
        ∀ kind form, instr = .load kind form → ∃ l ∈ st.reads, Pushes final l (.op instr) := by
    intro item hitem instr hline
    rcases hpushed item hitem with hneutral | ⟨l, hl, hpushes⟩
    · rcases eq_op_of_line? hline with rfl | rfl
      · have hno := no_slot (.inr hneutral)
        exact ⟨fun kind form => (hno kind form).2, fun kind form heq => absurd heq (hno kind form).1⟩
      · cases hneutral
    · obtain ⟨kind, form, rfl⟩ := hpushes.eq_load
      cases hline
      exact ⟨fun _ _ => Instr.noConfusion, fun _ _ _ => ⟨l, hl, hpushes⟩⟩
  have hback : ∀ item ∈ call ++ (rest ++ stored), ∀ instr, item.line? = some (.plain instr) →
      (∀ kind form, instr ≠ .load kind form) ∧
        ∀ kind form, instr = .store kind form → ∃ l ∈ st.assigned?, Pops final l (.op instr) := by
    intro item hitem instr hline
    rcases List.mem_append.mp hitem with hitem | hitem
    · obtain ⟨other, hother, rfl⟩ := hcalled item hitem
      cases hline
      have hno := no_slot (.inl hother)
      exact ⟨fun kind form => (hno kind form).1, fun kind form heq => absurd heq (hno kind form).2⟩
    rcases List.mem_append.mp hitem with hitem | hitem
    · have hneutral := hrest item hitem
      rcases eq_op_of_line? hline with rfl | rfl
      · have hno := no_slot (.inr hneutral)
        exact ⟨fun kind form => (hno kind form).1, fun kind form heq => absurd heq (hno kind form).2⟩
      · cases hneutral
    · obtain ⟨l, hl, hpop⟩ := hpops item hitem
      obtain ⟨kind, form, rfl⟩ := hpop.eq_store
      cases hline
      exact ⟨fun _ _ => Instr.noConfusion, fun _ _ _ => ⟨l, hl, hpop⟩⟩
  refine ⟨(Item.lines pushed).length, ⟨?_, ?_, ?_, ?_, ?_⟩⟩
  · intro j kind form hline
    rw [Item.lines_append, List.getElem?_append] at hline
    split at hline
    · rename_i hj
      obtain ⟨item, hitem, hline⟩ := List.mem_filterMap.mp (List.mem_of_getElem? hline)
      exact ⟨hj, (hfront item hitem _ hline).2 kind form rfl⟩
    · obtain ⟨item, hitem, hline⟩ := List.mem_filterMap.mp (List.mem_of_getElem? hline)
      exact absurd rfl ((hback item hitem _ hline).1 kind form)
  · intro j kind form hline
    rw [Item.lines_append, List.getElem?_append] at hline
    split at hline
    · obtain ⟨item, hitem, hline⟩ := List.mem_filterMap.mp (List.mem_of_getElem? hline)
      exact absurd rfl ((hfront item hitem _ hline).1 kind form)
    · rename_i hj
      obtain ⟨item, hitem, hline⟩ := List.mem_filterMap.mp (List.mem_of_getElem? hline)
      exact ⟨Nat.le_of_not_lt hj, (hback item hitem _ hline).2 kind form rfl⟩
  · intro l hl
    rw [Option.mem_def.mp hl] at hstored
    obtain ⟨item, hpop, rfl⟩ : ∃ item, Pops final l item ∧ stored = [item] := by
      cases hstored with
      | cons hpop hnil =>
        cases hnil
        exact ⟨_, hpop, rfl⟩
    obtain ⟨kind, form, rfl⟩ := hpop.eq_store
    have hmem : Line.plain (.store kind form) ∈
        Item.lines (pushed ++ (call ++ (rest ++ [.op (.store kind form)]))) :=
      List.mem_filterMap.mpr ⟨.op (.store kind form), by simp, rfl⟩
    obtain ⟨j, hj⟩ := List.mem_iff_getElem?.mp hmem
    exact ⟨j, kind, form, hj, hpop⟩
  · have hbefore : (Draft.ofItems pushed).thisInit = none := by
      refine (Draft.thisInit_eq_none_iff pushed).mpr fun item hitem => ?_
      rcases hpushed item hitem with hneutral | ⟨l, -, hpushes⟩
      · exact Item.initializes_of_isNeutral hneutral
      · obtain ⟨kind, form, rfl⟩ := hpushes.eq_load
        rfl
    have hafter : (Draft.ofItems (rest ++ stored)).thisInit = none := by
      refine (Draft.thisInit_eq_none_iff _).mpr (List.forall_mem_append.mpr
        ⟨fun item hitem => Item.initializes_of_isNeutral (hrest item hitem), fun item hitem => ?_⟩)
      obtain ⟨l, -, hpop⟩ := hpops item hitem
      obtain ⟨kind, form, rfl⟩ := hpop.eq_store
      rfl
    rw [Draft.thisInit_append, Draft.thisInit_append, hbefore, hafter]
    cases initializes with
    | true =>
      obtain ⟨instr, -, rfl⟩ := hcall
      rfl
    | false =>
      rw [show call = [] from hcall]
      rfl
  · rintro rfl
    obtain ⟨instr, hinstr, rfl⟩ := hcall
    refine ⟨instr, hinstr, ?_⟩
    rw [Item.lines_append, List.getElem?_append_right (Nat.le_refl _), Nat.sub_self]
    rfl

end Shape

end Lower

end Classwright
