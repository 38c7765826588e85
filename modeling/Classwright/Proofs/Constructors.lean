import Classwright.Proofs.Resolution
import Classwright.Proofs.Verification

/-!
# How a constructor initializes its receiver

A constructor initializes its receiver by calling another one: that of the superclass, which is called
in front of the code unless the body starts with such a call, or the one that a statement calls on the
receiver.  The calls are counted in the code of the class file by the parts that they stand in, since
the code of other statements may call the same constructors on other objects.
-/

namespace Classwright

namespace Item

/-- For each line of consecutive items whether it initializes the receiver. -/
def initFlags (items : List Item) : List Bool :=
  items.filterMap fun item => item.line?.map fun _ => item.initializes

theorem length_initFlags (items : List Item) : (initFlags items).length = (lines items).length := by
  induction items with
  | nil => rfl
  | cons item items ih =>
    cases item with
    | mark label => exact ih
    | _ => exact congrArg Nat.succ ih

theorem initFlags_append (items more : List Item) :
    initFlags (items ++ more) = initFlags items ++ initFlags more :=
  List.filterMap_append ..

private theorem initFlags_flatten (parts : List (List Item)) :
    initFlags parts.flatten = (parts.map initFlags).flatten :=
  List.filterMap_flatten

private theorem countP_initFlags (items : List Item) :
    (initFlags items).countP id = items.countP initializes := by
  induction items with
  | nil => rfl
  | cons item items ih =>
    cases item with
    | mark label => exact ih
    | initThis instr =>
      exact (List.countP_cons_of_pos rfl).trans ((congrArg Nat.succ ih).trans
        (List.countP_cons_of_pos rfl).symm)
    | _ =>
      exact (List.countP_cons_of_neg Bool.false_ne_true).trans (ih.trans
        (List.countP_cons_of_neg Bool.false_ne_true).symm)

private theorem exists_eq_append_of_initFlags {items : List Item} {k : Nat}
    (h : (initFlags items)[k]? = some true) :
    ∃ before call after, items = before ++ initThis call :: after ∧ (lines before).length = k := by
  induction items generalizing k with
  | nil => cases h
  | cons item items ih =>
    cases item with
    | mark label =>
      obtain ⟨before, call, after, rfl, hlength⟩ := ih h
      exact ⟨mark label :: before, call, after, rfl, hlength⟩
    | initThis call =>
      cases k with
      | zero => exact ⟨[], call, items, rfl, rfl⟩
      | succ k =>
        obtain ⟨before, call', after, rfl, hlength⟩ := ih h
        exact ⟨initThis call :: before, call', after, rfl, congrArg Nat.succ hlength⟩
    | op _ | branch _ _ =>
      cases k with
      | zero => cases h
      | succ k =>
        obtain ⟨before, call, after, rfl, hlength⟩ := ih h
        exact ⟨_ :: before, call, after, rfl, congrArg Nat.succ hlength⟩

private theorem exists_part_of_initFlags {parts : List (List Item)} {k : Nat}
    (h : (initFlags parts.flatten)[k]? = some true) :
    ∃ n before call after, parts[n]? = some (before ++ initThis call :: after) ∧
      (lines ((parts.take n).flatten ++ before)).length = k := by
  induction parts generalizing k with
  | nil => cases h
  | cons part parts ih =>
    rw [List.flatten_cons, initFlags_append] at h
    by_cases hk : k < (initFlags part).length
    · rw [List.getElem?_append_left hk] at h
      obtain ⟨before, call, after, rfl, hlength⟩ := exists_eq_append_of_initFlags h
      exact ⟨0, before, call, after, rfl, hlength⟩
    · rw [List.getElem?_append_right (Nat.le_of_not_lt hk)] at h
      obtain ⟨n, before, call, after, hpart, hlength⟩ := ih h
      refine ⟨n + 1, before, call, after, hpart, ?_⟩
      rw [List.take_succ_cons, List.flatten_cons, List.append_assoc, lines_append, List.length_append,
        hlength, ← length_initFlags]
      omega

private theorem eq_of_append_initThis {before after before' after' : List Item} {call call' : Instr}
    (h : before ++ initThis call :: after = before' ++ initThis call' :: after')
    (hbefore : ∀ item ∈ before', item.initializes = false)
    (hafter : ∀ item ∈ after', item.initializes = false) : before = before' ∧ call = call' := by
  rcases List.append_eq_append_iff.mp h with ⟨rest, rfl, hrest⟩ | ⟨rest, rfl, hrest⟩
  · cases rest with
    | nil =>
      cases hrest
      exact ⟨(List.append_nil _).symm, rfl⟩
    | cons item rest =>
      cases hrest
      cases hbefore (initThis call) (by simp)
  · cases rest with
    | nil =>
      cases hrest
      exact ⟨List.append_nil _, rfl⟩
    | cons item rest =>
      cases hrest
      cases hafter (initThis call) (by simp)

/-- Of the items, those that initialize the receiver are the ones whose instructions have a property. -/
def DetectedBy (f : Instr → Bool) (items : List Item) : Prop :=
  ∀ item ∈ items, ∀ instr, item.line? = some (.plain instr) → f instr = item.initializes

theorem DetectedBy.nil {f : Instr → Bool} : DetectedBy f [] :=
  fun _ h => absurd h List.not_mem_nil

private theorem DetectedBy.op {f : Instr → Bool} {instr : Instr} {items : List Item} (h : f instr = false)
    (hitems : DetectedBy f items) : DetectedBy f (.op instr :: items) := by
  refine List.forall_mem_cons.mpr ⟨fun found hfound => ?_, hitems⟩
  cases hfound
  exact h

private theorem DetectedBy.initThis {f : Instr → Bool} {instr : Instr} {items : List Item}
    (h : f instr = true) (hitems : DetectedBy f items) : DetectedBy f (.initThis instr :: items) := by
  refine List.forall_mem_cons.mpr ⟨fun found hfound => ?_, hitems⟩
  cases hfound
  exact h

theorem DetectedBy.append {f : Instr → Bool} {items more : List Item} (h : DetectedBy f items)
    (hmore : DetectedBy f more) : DetectedBy f (items ++ more) :=
  List.forall_mem_append.mpr ⟨h, hmore⟩

/-- The flags of the lines are found by the property on the resolved lines. -/
theorem DetectedBy.map_eq_initFlags {f : Instr → Bool} {items : List Item} {instrs : List Instr}
    (hitems : DetectedBy f items) (hjump : ∀ when offset, f (.jump when offset) = false)
    (hresolved : List.Forall₂ Line.Resolved (lines items) instrs) :
    instrs.map f = initFlags items := by
  induction items generalizing instrs with
  | nil =>
    cases hresolved
    rfl
  | cons item items ih =>
    obtain ⟨hitem, hothers⟩ := List.forall_mem_cons.mp hitems
    cases item with
    | mark label => exact ih hothers hresolved
    | op instr | initThis instr =>
      obtain ⟨found, rest, hfound, hrest, rfl⟩ := List.forall₂_cons_left_iff.mp hresolved
      rcases hfound with heq | ⟨_, _, _, heq, -⟩
      · cases heq
        rw [List.map_cons, ih hothers hrest, hitem _ rfl]
        rfl
      · cases heq
    | branch when label =>
      obtain ⟨found, rest, hfound, hrest, rfl⟩ := List.forall₂_cons_left_iff.mp hresolved
      rcases hfound with heq | ⟨_, _, _, -, rfl⟩
      · cases heq
      · rw [List.map_cons, ih hothers hrest, hjump]
        rfl

end Item

private theorem Draft.thisInit_eq_getLast? (items : List Item) :
    (ofItems items).thisInit = ((Item.initFlags items).findIdxs id).getLast? := by
  induction items using List.reverseRecOn with
  | nil => rfl
  | append_singleton items item ih =>
    rw [ofItems_concat, Item.initFlags_append, List.findIdxs_append]
    cases item with
    | initThis instr =>
      simp [add, size_lines_ofItems, Item.initFlags, Item.line?, Item.initializes,
        ← Item.length_initFlags]
    | _ => simpa [add, addLine, Item.initFlags, Item.line?, Item.initializes] using ih

/-- Whether a member is accessed by a call of a constructor of the class or of its superclass. -/
def ClassDecl.isConstruction (c : ClassDecl) : Access × Pool.Request → Bool
  | (.invokeSpecial, .methodRef owner name _) =>
    name == constructorName && (owner == c.this.name || c.superName? == some owner)
  | _ => false

def Pool.constructs (p : Pool) (c : ClassDecl) : Instr → Bool
  | .invokeSpecial index => (p.meaning? index).any fun r => c.isConstruction (.invokeSpecial, r)
  | _ => false

/-- The positions in code of the calls of constructors of the class or of its superclass in the marked
parts. -/
def Pool.constructorCalls (p : Pool) (c : ClassDecl) (marked : List Bool)
    (segments : List (List Instr)) : List Nat :=
  (List.zipWith (fun mark segment => segment.map fun instr => mark && p.constructs c instr)
    marked segments).flatten.findIdxs id

section Count

variable {p : Pool} {c : ClassDecl}

private theorem Pool.constructs_eq (instr : Instr) : p.constructs c instr =
    instr.access?.any fun found => (p.meaning? found.2).any fun r => c.isConstruction (found.1, r) := by
  have hother : ∀ access, access ≠ .invokeSpecial → ∀ r, c.isConstruction (access, r) = false := by
    intro access hne r
    cases access <;> first | rfl | exact absurd rfl hne
  cases instr <;> simp [constructs, Instr.access?, hother]

private theorem Pool.Accesses.countP_constructs {instrs : List Instr}
    {uses : List (Access × Pool.Request)} (h : p.Accesses instrs uses) :
    instrs.countP (p.constructs c) = uses.countP c.isConstruction := by
  have hfound : instrs.countP (p.constructs c) = (instrs.filterMap Instr.access?).countP fun found =>
      (p.meaning? found.2).any fun r => c.isConstruction (found.1, r) := by
    rw [List.countP_filterMap]
    refine List.countP_congr fun instr _ => ?_
    rw [constructs_eq]
    cases instr.access? <;> rfl
  rw [hfound]
  unfold Accesses at h
  generalize instrs.filterMap Instr.access? = found at h
  induction h with
  | nil => rfl
  | @cons found use rest uses hhead _ ih =>
    rw [List.countP_cons, List.countP_cons, ih, hhead.1, hhead.2]
    rfl

private theorem Pool.constructs_of_isFiller {instr : Instr} (h : instr.isFiller = true) :
    p.constructs c instr = false := by
  cases instr <;> first | rfl | cases h

variable {segments : List (List Instr)} {code : List UInt8}
  {uses : List (List (Access × Pool.Request))} {marked : List Bool} {selects : Bool → Prop}

private theorem Pool.RealizesIn.constructs_eq_false (h : p.RealizesIn segments code uses)
    (hnone : List.Forall₂ (fun mark expected => selects mark → expected.countP c.isConstruction = 0)
      marked uses) :
    List.Forall₂ (fun mark segment => selects mark → ∀ instr ∈ segment, p.constructs c instr = false)
      marked segments := by
  refine List.forall₂_iff_get.mpr ⟨hnone.length_eq.trans h.length.symm, fun n hmark hsegment hselects => ?_⟩
  have hlt : n < uses.length := by rwa [← h.length]
  have hcount := hnone.get hmark hlt hselects
  rcases h.accesses n _ _ (List.getElem?_eq_getElem hsegment) (List.getElem?_eq_getElem hlt) with
    haccesses | ⟨hfiller, -⟩
  · intro instr hinstr
    rw [List.get_eq_getElem, ← haccesses.countP_constructs, List.countP_eq_zero] at hcount
    exact Bool.eq_false_of_not_eq_true (hcount instr hinstr)
  · exact fun instr hinstr => constructs_of_isFiller (hfiller instr hinstr)

/-- If the other parts are said to call no constructor, the calls in the marked parts are all those in
the code, in whatever parts it is taken. -/
theorem Pool.RealizesIn.constructorCalls_eq (h : p.RealizesIn segments code uses)
    (hnone : List.Forall₂ (fun mark expected => mark = false → expected.countP c.isConstruction = 0)
      marked uses) :
    p.constructorCalls c marked segments = segments.flatten.findIdxs (p.constructs c) := by
  have hall := h.constructs_eq_false hnone
  have hrows : (List.zipWith (fun mark segment => segment.map fun instr => mark && p.constructs c instr)
      marked segments).flatten = segments.flatten.map (p.constructs c) := by
    clear h hnone
    induction hall with
    | nil => rfl
    | @cons mark segment marked segments hhead _ ih =>
      rw [List.zipWith_cons_cons, List.flatten_cons, List.flatten_cons, List.map_append, ih]
      congr 1
      refine List.map_congr_left fun instr hinstr => ?_
      cases mark with
      | true => rfl
      | false => exact (hhead rfl instr hinstr).symm
  rw [constructorCalls, hrows, List.findIdxs_map]
  rfl

end Count

/-- The parts of a constructor's code that call another one on the receiver: the one in front, and those
of the statements that do. -/
def Body.constructing (owner : ClassDecl) (m : MethodDecl) (b : Body) : List Bool :=
  true :: b.statements.map (b.initializes owner m) ++ [false]

private theorem Body.constructing_eq_false {owner : ClassDecl} {m : MethodDecl} {b : Body} {k : Nat}
    (hk : k ≤ b.statements.length) (hback : ∀ st ∈ b.statements.drop k, b.initializes owner m st = false)
    {n : Nat} (hn : k < n) {mark : Bool} (hmark : (b.constructing owner m)[n]? = some mark) :
    mark = false := by
  have hdrop : mark ∈ (b.constructing owner m).drop (k + 1) := by
    refine List.mem_iff_getElem?.mpr ⟨n - (k + 1), ?_⟩
    rwa [List.getElem?_drop, Nat.add_sub_cancel' hn]
  rw [constructing, List.cons_append, List.drop_succ_cons, List.drop_append_of_le_length
    (by rwa [List.length_map]), ← List.map_drop] at hdrop
  rcases List.mem_append.mp hdrop with hdrop | hdrop
  · obtain ⟨st, hst, rfl⟩ := List.mem_map.mp hdrop
    exact hback st hst
  · exact List.mem_singleton.mp hdrop

namespace Statement

/-- Whether the statement only gives a local the value of a constant or of another local. -/
def isAssignment : Statement → Bool
  | assign .. | literal .. => true
  | _ => false

end Statement

def Body.assignsOther (b : Body) (st : Statement) : Bool :=
  st.isAssignment && st.assigned?.all fun l => !b.isReceiver l.name

/-- The calls of other constructors on the receiver that a constructor is to make: that of the superclass
in front, unless the body starts with a call of one, and those of the statements. -/
inductive Body.ConstructorCall (owner : ClassDecl) (m : MethodDecl) (b : Body) :
    MethodSymbol → List Local → Prop where
  | chained {super : ClassType} (declared : owner.super = some super)
      (starts : Lower.startsWithConstructor owner b = false) :
      ConstructorCall owner m b (.constructor super []) []
  | statement {symbol : MethodSymbol} {receiver : Local} {arguments : List Local}
      {result : Option Local} {isSuper : Bool}
      (mem : .invoke symbol (some receiver) arguments result isSuper ∈ b.statements)
      (initializes :
        b.initializes owner m (.invoke symbol (some receiver) arguments result isSuper) = true) :
      ConstructorCall owner m b symbol arguments

def Pool.CallsSpecial (p : Pool) (symbol : MethodSymbol) (instr : Instr) : Prop :=
  ∃ index, instr = .invokeSpecial index ∧
    p.meaning? index = some (.methodRef symbol.owner.name symbol.name symbol.descriptor)

private theorem Pool.CallsSpecial.mono {p q : Pool} (hle : p ≤ q) {symbol : MethodSymbol}
    {instr : Instr} (h : p.CallsSpecial symbol instr) : q.CallsSpecial symbol instr := by
  obtain ⟨index, rfl, hindex⟩ := h
  exact ⟨index, rfl, Pool.meaning?_mono hle hindex⟩

/-- The lines leave alone slot 0, which holds the receiver. -/
def Line.KeepThis (lines : List Line) : Prop :=
  ∀ kind form, plain (.store kind form) ∈ lines → form.slot ≠ 0

namespace Lower

section Statements

variable {owner : ClassDecl} {m : MethodDecl} {b : Body} {labels : Std.HashSet Label} {final : Lowering}
  {st : Statement} {items : List Item}

private theorem Shape.countP_initializes {initializes : Bool} (h : Shape final st initializes items) :
    items.countP Item.initializes = if initializes then 1 else 0 := by
  obtain ⟨pushed, call, rest, stored, rfl, hpushed, hcall, hrest, hstored⟩ := h
  have hpushed' : pushed.countP Item.initializes = 0 := by
    refine List.countP_eq_zero.mpr fun item hitem => ?_
    rcases hpushed item hitem with hneutral | ⟨l, -, slot, -, kind, -, rfl⟩
    · rw [Item.initializes_of_isNeutral hneutral]
      exact Bool.false_ne_true
    · exact Bool.false_ne_true
  have hrest' : rest.countP Item.initializes = 0 := by
    refine List.countP_eq_zero.mpr fun item hitem => ?_
    rw [Item.initializes_of_isNeutral (hrest item hitem)]
    exact Bool.false_ne_true
  have hstored' : stored.countP Item.initializes = 0 := by
    refine List.countP_eq_zero.mpr fun item hitem => ?_
    obtain ⟨l, -, kind, -, slot, -, rfl⟩ := exists_left_of_forall₂ hstored hitem
    exact Bool.false_ne_true
  rw [List.countP_append, List.countP_append, List.countP_append, hpushed', hrest', hstored']
  cases initializes with
  | true =>
    obtain ⟨instr, -, rfl⟩ := hcall
    rfl
  | false =>
    rw [show call = [] from hcall]
    rfl

private theorem Emits.passes_of_isAssignment (h : Emits ⟨owner, m, labels⟩ final st items)
    (hst : st.isAssignment = true) : Item.Passes items := by
  have hpasses : ∀ item ∈ items, ∃ instr : Instr, item = .op instr ∧ instr.endsMethod = false := by
    cases st with
    | assign target source =>
      obtain ⟨_, ⟨slot, -, kind, -, rfl⟩, _, ⟨kind', -, slot', -, rfl⟩, rfl⟩ := h
      simp only [List.forall_mem_cons, List.not_mem_nil, false_imp_iff, implies_true, and_true]
      exact ⟨⟨_, rfl, rfl⟩, _, rfl, rfl⟩
    | literal value target =>
      obtain ⟨instrs, hinstrs, _, ⟨kind, -, slot, -, rfl⟩, rfl⟩ := h
      refine List.forall_mem_append.mpr ⟨fun item hitem => ?_, List.forall_mem_singleton.mpr ⟨_, rfl, rfl⟩⟩
      obtain ⟨instr, hinstr, rfl⟩ := List.mem_map.mp hitem
      exact ⟨instr, rfl, Instr.endsMethod_of_isOperation (Literal.isOperation_of_loads hinstrs instr hinstr)⟩
    | _ => cases hst
  intro line hline
  obtain ⟨item, hitem, hline⟩ := List.mem_filterMap.mp hline
  obtain ⟨instr, rfl, hends⟩ := hpasses item hitem
  exact ⟨instr, (Option.some.inj hline).symm, hends⟩

private theorem Emits.keepThis_of_assignsOther (h : Emits ⟨owner, m, labels⟩ final st items)
    (hzero : ∀ name slot, final.slots.index[name]? = some slot →
      (slot = 0 ↔ b.isReceiver name = true))
    (hst : b.assignsOther st = true) : Line.KeepThis (Item.lines items) := by
  obtain ⟨hassigns, hother⟩ := (Bool.and_eq_true _ _).mp hst
  have hstore : ∀ target slot, st.assigned? = some target → final.slots.index[target.name]? = some slot →
      (SlotForm.ofSlot slot).slot ≠ 0 := by
    intro target slot htarget hslot heq
    rw [SlotForm.slot_ofSlot] at heq
    have hreceiver := (hzero _ _ hslot).mp (UInt16.toNat_inj.mp heq)
    simp [htarget, hreceiver] at hother
  intro kind form hmem
  obtain ⟨item, hitem, hline⟩ := List.mem_filterMap.mp hmem
  cases st with
  | assign target source =>
    obtain ⟨_, ⟨_, -, _, -, rfl⟩, _, ⟨_, -, slot, hslot, rfl⟩, rfl⟩ := h
    rcases List.mem_pair.mp hitem with rfl | rfl
    · cases hline
    · cases hline
      exact hstore target slot rfl hslot
  | literal value target =>
    obtain ⟨instrs, hinstrs, _, ⟨_, -, slot, hslot, rfl⟩, rfl⟩ := h
    rcases List.mem_append.mp hitem with hitem | hitem
    · obtain ⟨instr, hinstr, rfl⟩ := List.mem_map.mp hitem
      cases hline
      cases Literal.isOperation_of_loads hinstrs _ hinstr
    · rw [List.mem_singleton.mp hitem] at hline
      cases hline
      exact hstore target slot rfl hslot
  | _ => cases hassigns

/-- The items push the receiver and then that many locals. -/
def PushesThis (count : Nat) (items : List Item) : Prop :=
  ∃ kind pushed, items = .op (.loadSlot kind 0) :: pushed ∧ pushed.length = count ∧
    ∀ item ∈ pushed, ∃ kind slot, item = .op (.loadSlot kind slot)

private theorem PushesThis.forall_isLoad {count : Nat} (h : PushesThis count items) :
    ∀ item ∈ items, ∃ kind slot, item = .op (.loadSlot kind slot) := by
  obtain ⟨kind, pushed, rfl, -, hpushed⟩ := h
  exact List.forall_mem_cons.mpr ⟨⟨kind, 0, rfl⟩, hpushed⟩

private theorem PushesThis.initializes_eq_false {count : Nat} (h : PushesThis count items) :
    ∀ item ∈ items, item.initializes = false := by
  intro item hitem
  obtain ⟨kind, slot, rfl⟩ := h.forall_isLoad item hitem
  rfl

private theorem Uses.initializes_eq_false {type : JavaType} {result : Option Local}
    (h : Uses final type result items) : ∀ item ∈ items, item.initializes = false := by
  obtain ⟨rest, stored, rfl, hrest, hstored⟩ := h.shape
  refine List.forall_mem_append.mpr ⟨fun item hitem => ?_, fun item hitem => ?_⟩
  · exact Item.initializes_of_isNeutral (hrest item hitem)
  · obtain ⟨_, -, _, -, _, -, rfl⟩ := exists_left_of_forall₂ hstored hitem
    rfl

/-- The code of a statement that calls a constructor on the receiver: the receiver and the arguments are
pushed, and what follows the call is for its result. -/
theorem Emits.exists_call
    (hzero : m.initializesThis = true → ∀ name slot, final.slots.index[name]? = some slot →
      (slot = 0 ↔ b.isReceiver name = true))
    (h : Emits ⟨owner, m, labels⟩ final st items) (hinit : b.initializes owner m st = true)
    (hclass : ∀ symbol ∈ st.callee?, symbol.owner.isInterface = false) :
    ∃ symbol receiver arguments result isSuper before call after,
      st = .invoke symbol (some receiver) arguments result isSuper ∧
      owner.isOwnConstructor symbol = true ∧ items = before ++ .initThis call :: after ∧
      PushesThis arguments.length before ∧ final.pool.CallsSpecial symbol call ∧
      Uses final symbol.result result after := by
  cases st with
  | invoke symbol receiver arguments result isSuper =>
    cases receiver with
    | none => cases hinit
    | some object =>
      simp only [Body.initializes, Bool.and_eq_true, Bool.not_eq_true'] at hinit
      obtain ⟨⟨⟨hstatic, hthis⟩, hown⟩, hreceiver⟩ := hinit
      have hclass := hclass symbol rfl
      simp only [Emits, hstatic, Bool.false_eq_true, if_false] at h
      obtain ⟨_, heq, slot, hslot, _, ⟨slot', hslot', kind, -, rfl⟩, pushed, hpushed, call,
        ⟨index, hindex, hcall⟩, used, hused, rfl⟩ := h
      cases heq
      cases hslot.symm.trans hslot'
      cases (hzero hthis _ _ hslot).mpr hreceiver
      have hconstructor : symbol.isConstructor = true := ((Bool.and_eq_true _ _).mp hown).1
      simp only [hstatic, hclass, hconstructor, Bool.true_or, Bool.false_eq_true, if_false, if_true]
        at hcall
      have hmarked : marked ⟨owner, m, labels⟩ symbol 0 call = .initThis call := by
        simp [marked, initializesThis, hthis, hown]
      rw [MethodSymbol.reference, hclass] at hindex
      rw [hmarked]
      refine ⟨symbol, object, arguments, result, isSuper, _ :: pushed, call, used, rfl, hown, rfl,
        ⟨kind, pushed, rfl, hpushed.length_eq.symm, fun item hitem => ?_⟩, ⟨index, hcall, hindex⟩,
        hused⟩
      obtain ⟨_, -, slot, -, kind, -, rfl⟩ := exists_left_of_forall₂ hpushed hitem
      exact ⟨kind, slot, rfl⟩
  | _ => cases hinit

private theorem Chains.keepThis (h : Chains owner m b final items) :
    Line.KeepThis (Item.lines items) := by
  rcases h.eq_nil_or with rfl | ⟨-, index, -, -, -, -, rfl⟩
  · simp [Line.KeepThis, Item.lines]
  · simp [Line.KeepThis, Item.lines, Item.line?, Instr.loadSlot]

private theorem Chains.passes (h : Chains owner m b final items) : Item.Passes items := by
  rcases h.eq_nil_or with rfl | ⟨-, index, -, -, -, -, rfl⟩
  · simp [Item.Passes, Item.lines]
  · simp only [Item.Passes, Item.lines, Item.line?, List.filterMap_cons, List.filterMap_nil,
      List.forall_mem_cons, List.not_mem_nil, false_imp_iff, implies_true, and_true]
    exact ⟨⟨_, rfl, rfl⟩, _, rfl, rfl⟩

variable {q : Pool} (hle : final.pool ≤ q)
include hle

private theorem Chains.constructs (h : Chains owner m b final items) :
    Item.DetectedBy (q.constructs owner) items := by
  rcases h.eq_nil_or with rfl | ⟨super, index, hsuper, -, -, hindex, rfl⟩
  · exact .nil
  · have hmeaning := Pool.meaning?_mono hle hindex
    refine .op rfl (.initThis ?_ .nil)
    simp [Pool.constructs, hmeaning, ClassDecl.isConstruction, ClassDecl.superName?, hsuper]

omit hle in
private theorem Uses.constructs {type : JavaType} {result : Option Local}
    (h : Uses final type result items) :
    Item.DetectedBy (q.constructs owner) items := by
  cases result with
  | none =>
    rw [show items = dropping type from h]
    unfold dropping
    split
    · exact .nil
    all_goals exact .op rfl .nil
  | some target =>
    obtain ⟨instrs, hadapts, _, ⟨kind, -, slot, -, rfl⟩, rfl⟩ := h
    refine .append ?_ (.op rfl .nil)
    rcases hadapts with ⟨-, -, rfl⟩ | ⟨-, p, wrapper, -, -, box, -, method, -, rfl⟩
    · exact .nil
    · exact .op rfl (.op rfl .nil)

private theorem Emits.constructs (hzero : m.initializesThis = true → ∀ name slot,
      final.slots.index[name]? = some slot → (slot = 0 ↔ b.isReceiver name = true))
    (h : Emits ⟨owner, m, labels⟩ final st items) (hinit : b.initializes owner m st = true)
    (hclass : ∀ symbol ∈ st.callee?, symbol.owner.isInterface = false) :
    Item.DetectedBy (q.constructs owner) items := by
  obtain ⟨symbol, receiver, arguments, result, isSuper, before, call, after, -, hown, rfl, hpushes,
    hcall, hused⟩ := h.exists_call hzero hinit hclass
  obtain ⟨index, rfl, hindex⟩ := hcall.mono hle
  refine .append (fun item hitem instr hinstr => ?_) (.initThis ?_ hused.constructs)
  · obtain ⟨kind, slot, rfl⟩ := hpushes.forall_isLoad item hitem
    cases hinstr
    rfl
  · rw [Pool.constructs, hindex]
    exact hown

end Statements

/-- What a part of a constructor's code comes from, and whether it is there to call another constructor
on the receiver. -/
inductive Origin (owner : ClassDecl) (m : MethodDecl) (b : Body) (final : Lowering) :
    Bool → List Item → Prop where
  | chained {items : List Item} (chains : Chains owner m b final items) :
      Origin owner m b final true items
  | statement {st : Statement} {items : List Item} (mem : st ∈ b.statements)
      (emits : Emits ⟨owner, m, Std.HashSet.ofList b.labels⟩ final st items) :
      Origin owner m b final (b.initializes owner m st) items
  | ending {items : List Item} (ends : Ends m b items) : Origin owner m b final false items

section Origin

variable {owner : ClassDecl} {m : MethodDecl} {b : Body} {final : Lowering} {parts : Parts}

theorem Parts.Of.filled_eq_nil (h : parts.Of owner m b [] final) : parts.filled = [] :=
  List.forall₂_nil_left_iff.mp h.filled

private theorem Parts.Of.all_eq (h : parts.Of owner m b [] final) :
    parts.all = parts.chained :: (parts.blocks ++ [parts.ending]) := by
  rw [Parts.all, h.filled_eq_nil]
  rfl

private theorem Parts.Of.mem_take (h : parts.Of owner m b [] final) {k : Nat}
    (hk : k ≤ b.statements.length) {part : List Item} (hpart : part ∈ parts.all.take k) :
    Chains owner m b final part ∨ ∃ st ∈ b.statements.take (k - 1),
      Emits ⟨owner, m, Std.HashSet.ofList b.labels⟩ final st part := by
  cases k with
  | zero => cases hpart
  | succ k =>
    rw [h.all_eq, List.take_succ_cons] at hpart
    rcases List.mem_cons.mp hpart with rfl | hpart
    · exact .inl h.chained
    · rw [List.take_append_of_le_length (by rw [← h.blocks.length_eq]; omega)] at hpart
      exact .inr (exists_left_of_forall₂ (List.forall₂_take k h.blocks) hpart)

private theorem Parts.Of.passes_of_mem_take (h : parts.Of owner m b [] final) {k : Nat}
    (hk : k ≤ b.statements.length)
    (hfront : ∀ st ∈ b.statements.take (k - 1), b.assignsOther st = true) :
    ∀ part ∈ parts.all.take k, Item.Passes part := by
  intro part hpart
  rcases h.mem_take hk hpart with hchains | ⟨st, hst, hemits⟩
  · exact hchains.passes
  · exact hemits.passes_of_isAssignment ((Bool.and_eq_true _ _).mp (hfront st hst)).1

private theorem Parts.Of.keepThis_of_take (h : parts.Of owner m b [] final)
    (hzero : ∀ name slot, final.slots.index[name]? = some slot →
      (slot = 0 ↔ b.isReceiver name = true)) {k : Nat} (hk : k ≤ b.statements.length)
    (hfront : ∀ st ∈ b.statements.take (k - 1), b.assignsOther st = true) :
    Line.KeepThis (Item.lines (parts.all.take k).flatten) := by
  intro kind form hmem
  rw [Item.lines_flatten] at hmem
  obtain ⟨_, hlines, hmem⟩ := List.mem_flatten.mp hmem
  obtain ⟨part, hpart, rfl⟩ := List.mem_map.mp hlines
  rcases h.mem_take hk hpart with hchains | ⟨st, hst, hemits⟩
  · exact hchains.keepThis kind form hmem
  · exact hemits.keepThis_of_assignsOther hzero (hfront st hst) kind form hmem

private theorem Parts.Of.origins (h : parts.Of owner m b [] final) :
    List.Forall₂ (Origin owner m b final) (b.constructing owner m) parts.all := by
  rw [h.all_eq]
  have hblocks : List.Forall₂ (Origin owner m b final) (b.statements.map (b.initializes owner m))
      parts.blocks := by
    refine List.forall₂_map_left_iff.mpr (List.forall₂_iff_get.mpr ⟨h.blocks.length_eq, ?_⟩)
    intro n hn hn'
    exact .statement (List.getElem_mem hn) (h.blocks.get hn hn')
  exact .cons (.chained h.chained) (List.rel_append hblocks (.cons (.ending h.ending) .nil))

private theorem Parts.Of.exists_origin (h : parts.Of owner m b [] final) {n : Nat} {part : List Item}
    (hpart : parts.all[n]? = some part) :
    ∃ mark, (b.constructing owner m)[n]? = some mark ∧ Origin owner m b final mark part := by
  obtain ⟨hlt, rfl⟩ := List.getElem?_eq_some_iff.mp hpart
  have hlt' : n < (b.constructing owner m).length := by rwa [h.origins.length_eq]
  exact ⟨_, List.getElem?_eq_getElem hlt', h.origins.get hlt' hlt⟩

variable {q : Pool} (hle : final.pool ≤ q)
  (hzero : m.initializesThis = true → ∀ name slot, final.slots.index[name]? = some slot →
    (slot = 0 ↔ b.isReceiver name = true))
  (hclass : ∀ st ∈ b.statements, b.initializes owner m st = true →
    ∀ symbol ∈ st.callee?, symbol.owner.isInterface = false)
include hle hzero hclass

/-- A line initializes the receiver if and only if it calls a constructor in a part made for it. -/
theorem Origin.constructs {mark : Bool} {items : List Item} (h : Origin owner m b final mark items) :
    Item.DetectedBy (fun instr => mark && q.constructs owner instr) items := by
  cases h with
  | chained chains => exact chains.constructs hle
  | ending ends =>
    rcases ends with ⟨-, rfl⟩ | ⟨-, -, rfl⟩
    · exact .nil
    · exact .op rfl .nil
  | @statement st _ mem emits =>
    cases hinit : b.initializes owner m st with
    | true => exact emits.constructs hle hzero hinit (hclass st mem hinit)
    | false =>
      intro item hitem instr hinstr
      have hcount := (emits.shape hzero).countP_initializes
      rw [hinit] at hcount
      exact (Bool.eq_false_of_not_eq_true (List.countP_eq_zero.mp hcount item hitem)).symm

private theorem Origin.eq_false_of_mem_initFlags {items : List Item}
    (h : Origin owner m b final false items) :
    ∀ flag ∈ Item.initFlags items, flag = false := by
  intro flag hflag
  obtain ⟨item, hitem, hflag⟩ := List.mem_filterMap.mp hflag
  obtain ⟨line, hline, rfl⟩ := Option.map_eq_some_iff.mp hflag
  cases item with
  | initThis instr => exact (h.constructs hle hzero hclass _ hitem instr rfl).symm
  | _ => rfl

omit hle in
/-- In a part of a constructor's code the receiver and the arguments stand before the call that
initializes it. -/
theorem Origin.exists_call {mark : Bool} {before after : List Item} {call : Instr}
    (h : Origin owner m b final mark (before ++ .initThis call :: after)) :
    ∃ symbol arguments, b.ConstructorCall owner m symbol arguments ∧
      PushesThis arguments.length before ∧ final.pool.CallsSpecial symbol call := by
  generalize hitems : before ++ Item.initThis call :: after = items at h
  cases h with
  | chained chains =>
    rcases chains.eq_nil_or with rfl | ⟨super, index, hsuper, -, hstarts, hindex, rfl⟩
    · simp at hitems
    · have hpushes : PushesThis 0 [.op (.loadSlot .reference 0)] :=
        ⟨.reference, [], rfl, rfl, by simp⟩
      obtain ⟨rfl, rfl⟩ := Item.eq_of_append_initThis hitems hpushes.initializes_eq_false (by simp)
      exact ⟨_, [], .chained hsuper hstarts, hpushes, index, rfl, hindex⟩
  | ending ends =>
    rcases ends with ⟨-, rfl⟩ | ⟨-, -, rfl⟩
    · simp at hitems
    · cases before <;> simp at hitems
  | @statement st _ mem emits =>
    cases hinit : b.initializes owner m st with
    | true =>
      obtain ⟨symbol, receiver, arguments, result, isSuper, before', call', after', rfl, -, rfl, hpushes,
        hcall, hused⟩ := emits.exists_call hzero hinit (hclass st mem hinit)
      obtain ⟨rfl, rfl⟩ := Item.eq_of_append_initThis hitems hpushes.initializes_eq_false
        hused.initializes_eq_false
      exact ⟨symbol, arguments, .statement mem hinit, hpushes, hcall⟩
    | false =>
      have hcount := (emits.shape hzero).countP_initializes
      rw [hinit, ← hitems] at hcount
      cases List.countP_eq_zero.mp hcount (.initThis call) (by simp) rfl

end Origin

private theorem Parts.Of.countP_initializes {owner : ClassDecl} {m : MethodDecl} {b : Body}
    {final : Lowering} {parts : Parts} (h : parts.Of owner m b [] final)
    (hzero : m.initializesThis = true → ∀ name slot, final.slots.index[name]? = some slot →
      (slot = 0 ↔ b.isReceiver name = true))
    (hinit : m.initializesThis = true) {super : ClassType} (hsuper : owner.super = some super) :
    parts.all.flatten.countP Item.initializes =
      (if startsWithConstructor owner b then 0 else 1) +
        b.statements.countP (b.initializes owner m) := by
  have hchained : parts.chained.countP Item.initializes =
      if startsWithConstructor owner b then 0 else 1 := by
    have hchains := h.chained
    rw [Chains, hinit, hsuper] at hchains
    cases hstarts : startsWithConstructor owner b with
    | true =>
      rw [hstarts] at hchains
      rw [show parts.chained = [] from hchains]
      rfl
    | false =>
      rw [hstarts] at hchains
      obtain ⟨index, -, hitems⟩ := hchains
      rw [hitems]
      rfl
  have hblocks : parts.blocks.flatten.countP Item.initializes =
      b.statements.countP (b.initializes owner m) := by
    have hall := h.blocks
    generalize b.statements = statements at hall
    generalize parts.blocks = blocks at hall
    induction hall with
    | nil => rfl
    | @cons st block statements blocks hemits _ ih =>
      rw [List.flatten_cons, List.countP_append, ih, (hemits.shape hzero).countP_initializes,
        List.countP_cons, Nat.add_comm]
  have hending : parts.ending.countP Item.initializes = 0 := by
    rcases h.ending with ⟨-, hnil⟩ | ⟨-, -, hreturn⟩
    · rw [hnil]
      rfl
    · rw [hreturn]
      rfl
  rw [h.all_eq]
  simp only [List.flatten_append, List.flatten_cons, List.flatten_nil, List.append_nil, List.countP_append,
    hchained, hblocks, hending, Nat.add_zero]

end Lower

/-- Rows of flags after the last one that is set do not matter. -/
private theorem findIdxs_flatten_congr {rows rows' : List (List Bool)} {k : Nat}
    (heq : ∀ n ≤ k, rows[n]? = rows'[n]?)
    (hfalse : ∀ n > k, ∀ row, rows[n]? = some row ∨ rows'[n]? = some row → ∀ flag ∈ row, flag = false) :
    rows.flatten.findIdxs id = rows'.flatten.findIdxs id := by
  have htake : ∀ rows : List (List Bool), (∀ n > k, ∀ row, rows[n]? = some row →
      ∀ flag ∈ row, flag = false) →
      rows.flatten.findIdxs id = (rows.take (k + 1)).flatten.findIdxs id := by
    intro rows hrows
    have hdrop : ∀ start, (rows.drop (k + 1)).flatten.findIdxs id start = [] := by
      intro start
      refine List.findIdxs_eq_nil_iff.mpr fun flag hflag => ?_
      obtain ⟨row, hrow, hflag⟩ := List.mem_flatten.mp hflag
      obtain ⟨n, hn⟩ := List.mem_iff_getElem?.mp hrow
      rw [List.getElem?_drop] at hn
      exact hrows _ (by omega) row hn flag hflag
    conv_lhs => rw [← List.take_append_drop (k + 1) rows]
    rw [List.flatten_append, List.findIdxs_append, hdrop, List.append_nil]
  rw [htake rows fun n hn row hrow => hfalse n hn row (.inl hrow),
    htake rows' fun n hn row hrow => hfalse n hn row (.inr hrow)]
  congr 2
  refine List.ext_getElem? fun n => ?_
  rw [List.getElem?_take, List.getElem?_take]
  split
  · exact heq n (by omega)
  · rfl

/-- The line at position `k` is applied to the receiver: slot 0 is pushed, which no line before writes,
and then the given number of other locals. -/
def Instr.AppliesToThis (instrs : List Instr) (k count : Nat) : Prop :=
  ∃ before kind form pushed, instrs.take k = before ++ load kind form :: pushed ∧ form.slot = 0 ∧
    (∀ kind form, store kind form ∈ before → form.slot ≠ 0) ∧ pushed.length = count ∧
    ∀ instr ∈ pushed, ∃ kind form, instr = load kind form

private theorem Lower.PushesThis.appliesToThis {before pushed : List Item} {count : Nat}
    (h : PushesThis count pushed) (hkeep : Line.KeepThis (Item.lines before)) {instrs : List Instr}
    {k : Nat}
    (hresolved : List.Forall₂ Line.Resolved (Item.lines (before ++ pushed)) (instrs.take k)) :
    Instr.AppliesToThis instrs k count := by
  obtain ⟨kind, pushed, rfl, hcount, hpushed⟩ := h
  rw [Item.lines_append] at hresolved
  have hbefore := List.forall₂_take (Item.lines before).length hresolved
  have hrest := List.forall₂_drop (Item.lines before).length hresolved
  rw [List.take_left] at hbefore
  rw [List.drop_left] at hrest
  obtain ⟨loaded, rest, hloaded, hrest, hdrop⟩ := List.forall₂_cons_left_iff.mp hrest
  refine ⟨(instrs.take k).take (Item.lines before).length, kind, .ofSlot 0, rest, ?_,
    SlotForm.slot_ofSlot 0, fun kind form hstore => ?_, ?_, fun instr hinstr => ?_⟩
  · rcases hloaded with hloaded | ⟨_, _, _, hloaded, -⟩
    · cases hloaded
      rw [← Instr.loadSlot, ← hdrop, List.take_append_drop]
    · cases hloaded
  · obtain ⟨line, hline, hline' | ⟨_, _, _, -, hjump⟩⟩ := exists_left_of_forall₂ hbefore hstore
    · exact hkeep kind form (hline' ▸ hline)
    · cases hjump
  · have hlines : (Item.lines pushed).length = pushed.length := by
      rw [Item.lines, List.length_filterMap_eq_countP, List.countP_eq_length]
      intro item hitem
      obtain ⟨_, _, rfl⟩ := hpushed item hitem
      rfl
    exact hrest.length_eq.symm.trans (hlines.trans hcount)
  · obtain ⟨line, hline, hresolved⟩ := exists_left_of_forall₂ hrest hinstr
    obtain ⟨item, hitem, hline⟩ := List.mem_filterMap.mp hline
    obtain ⟨kind, slot, rfl⟩ := hpushed item hitem
    cases hline
    rcases hresolved with hload | ⟨_, _, _, hload, -⟩
    · cases hload
      exact ⟨kind, _, rfl⟩
    · cases hload

namespace MethodDecl.Compiles

variable {options : Options} {owner : ClassDecl} {m : MethodDecl} {b : Body} {q : Pool} {c : Compiled}

/-- The calls of constructors on the receiver are the lines that initialize it, if only assignments
stand before the last statement that has one. -/
theorem constructorCalls_eq (h : m.Compiles options owner b [] q c) {parts : Lower.Parts}
    (hparts : parts.Of owner m b [] c.final) (hitems : c.items = parts.all.flatten)
    (hreceiver : ∃ l, b.parameters.head? = some l)
    (hclass : ∀ st ∈ b.statements, b.initializes owner m st = true →
      ∀ symbol ∈ st.callee?, symbol.owner.isInterface = false)
    {k : Nat} (hk : k ≤ b.statements.length)
    (hfront : ∀ st ∈ b.statements.take (k - 1), b.assignsOther st = true)
    (hback : ∀ st ∈ b.statements.drop k, b.initializes owner m st = false) :
    q.constructorCalls owner (b.constructing owner m)
        (Flow.segments parts.all c.steps c.layout c.thisInit) =
      (Item.initFlags c.items).findIdxs id := by
  have hzero : m.initializesThis = true → ∀ name slot, c.final.slots.index[name]? = some slot →
      (slot = 0 ↔ b.isReceiver name = true) := fun _ _ _ hslot => h.slot_eq_zero_iff hreceiver hslot
  rw [Pool.constructorCalls, hitems, Item.initFlags_flatten]
  refine findIdxs_flatten_congr (k := k) (fun n hn => ?_) fun n hn row hrow => ?_
  · rw [List.getElem?_zipWith', List.getElem?_map]
    cases hpart : parts.all[n]? with
    | none =>
      have hmark : (b.constructing owner m)[n]? = none := by
        rw [List.getElem?_eq_none_iff] at hpart ⊢
        rwa [hparts.origins.length_eq]
      rw [hmark]
      rfl
    | some part =>
      obtain ⟨mark, hmark, horigin⟩ := hparts.exists_origin hpart
      obtain ⟨segment, hsegment, hresolved⟩ := h.exists_segment hparts hitems hpart
        (hparts.passes_of_mem_take (hn.trans hk) fun st hst =>
          hfront st (List.take_subset_take_left _ (by omega) hst))
      rw [hmark, hsegment]
      exact congrArg some ((horigin.constructs h.le hzero hclass).map_eq_initFlags
        (fun _ _ => Bool.and_false mark) hresolved)
  · rcases hrow with hrow | hrow
    · obtain ⟨mark, segment, hmark, -, rfl⟩ := List.getElem?_zipWith_eq_some.mp hrow
      rw [Body.constructing_eq_false hk hback hn hmark]
      simp
    · rw [List.getElem?_map, Option.map_eq_some_iff] at hrow
      obtain ⟨part, hpart, rfl⟩ := hrow
      obtain ⟨mark, hmark, horigin⟩ := hparts.exists_origin hpart
      rw [Body.constructing_eq_false hk hback hn hmark] at horigin
      exact horigin.eq_false_of_mem_initFlags h.le hzero hclass

/-- The lines that initialize the receiver are the calls of constructors on it, if only assignments to
other locals stand before the last statement that has one. -/
theorem callsOnThis (h : m.Compiles options owner b [] q c) {parts : Lower.Parts}
    (hparts : parts.Of owner m b [] c.final) (hitems : c.items = parts.all.flatten)
    (hreceiver : ∃ l, b.parameters.head? = some l)
    (hclass : ∀ st ∈ b.statements, b.initializes owner m st = true →
      ∀ symbol ∈ st.callee?, symbol.owner.isInterface = false)
    {k : Nat} (hk : k ≤ b.statements.length)
    (hfront : ∀ st ∈ b.statements.take (k - 1), b.assignsOther st = true)
    (hback : ∀ st ∈ b.statements.drop k, b.initializes owner m st = false)
    {line : Nat} (hline : (Item.initFlags c.items)[line]? = some true) :
    ∃ symbol arguments call, b.ConstructorCall owner m symbol arguments ∧
      (Flow.segments parts.all c.steps c.layout c.thisInit).flatten[line]? = some call ∧
      q.CallsSpecial symbol call ∧
      Instr.AppliesToThis (Flow.segments parts.all c.steps c.layout c.thisInit).flatten line
        arguments.length := by
  have hzero : ∀ name slot, c.final.slots.index[name]? = some slot →
      (slot = 0 ↔ b.isReceiver name = true) := fun _ _ hslot => h.slot_eq_zero_iff hreceiver hslot
  rw [hitems] at hline
  obtain ⟨n, before, call, after, hpart, rfl⟩ := Item.exists_part_of_initFlags hline
  obtain ⟨mark, hmark, horigin⟩ := hparts.exists_origin hpart
  have hn : n ≤ k := by
    by_contra hlt
    cases Body.constructing_eq_false hk hback (Nat.lt_of_not_le hlt) hmark
    have hflag := horigin.eq_false_of_mem_initFlags h.le (fun _ => hzero) hclass true
      (List.mem_filterMap.mpr ⟨.initThis call, by simp, rfl⟩)
    cases hflag
  have hassign : ∀ st ∈ b.statements.take (n - 1), b.assignsOther st = true :=
    fun st hst => hfront st (List.take_subset_take_left _ (by omega) hst)
  have hkeep := hparts.keepThis_of_take hzero (hn.trans hk) hassign
  obtain ⟨symbol, arguments, hcall, hpushes, hspecial⟩ := horigin.exists_call (fun _ => hzero) hclass
  have hresolved := h.forall₂_resolved_take hparts hitems (List.getElem?_eq_some_iff.mp hpart).1
    (hparts.passes_of_mem_take (hn.trans hk) hassign)
  have hlines : Item.lines (parts.all.take (n + 1)).flatten =
      Item.lines ((parts.all.take n).flatten ++ before) ++ Item.lines (.initThis call :: after) := by
    rw [List.take_add_one, hpart, ← Item.lines_append]
    simp
  rw [hlines] at hresolved
  have hfirst := List.forall₂_take (Item.lines ((parts.all.take n).flatten ++ before)).length hresolved
  have hrest := List.forall₂_drop (Item.lines ((parts.all.take n).flatten ++ before)).length hresolved
  rw [List.take_left] at hfirst
  rw [List.drop_left] at hrest
  obtain ⟨found, _, hfound, -, hdrop⟩ := List.forall₂_cons_left_iff.mp hrest
  have hat := congrArg List.head? hdrop
  rw [List.head?_drop] at hat
  have hlt := (List.getElem?_eq_some_iff.mp hat).1
  rw [← List.take_append_drop (n + 1) (Flow.segments parts.all c.steps c.layout c.thisInit),
    List.flatten_append]
  refine ⟨symbol, arguments, call, hcall, ?_, hspecial.mono h.le, hpushes.appliesToThis hkeep ?_⟩
  · rcases hfound with hfound | ⟨_, _, _, hfound, -⟩
    · cases hfound
      rw [List.getElem?_append_left hlt, hat]
      rfl
    · cases hfound
  · rw [List.take_append_of_le_length (Nat.le_of_lt hlt)]
    exact hfirst

end MethodDecl.Compiles

private theorem MethodDecl.isStaticInitializer_of_initializesThis {m : MethodDecl}
    (h : m.initializesThis = true) : m.isStaticInitializer = false := by
  have hname : m.name = constructorName := beq_iff_eq.mp ((Bool.and_eq_true _ _).mp h).1
  rw [isStaticInitializer, hname]
  decide

namespace Body

variable {owner : ClassDecl} {m : MethodDecl} {b : Body}

end Body

/-- Where the code of a constructor calls another one on its receiver, and which of its lines is marked
as the one that initializes the receiver. -/
def ClassFile.Constructs (file : ClassFile) (options : Options) (c : ClassDecl) (i : Nat)
    (m : MethodDecl) (b : Body) (calls : List Nat) (marked : Option Nat) : Prop :=
  ∃ member compiled q segments, file.methods[i]? = some member ∧
    file.codeOf? member = some compiled.code ∧ m.Compiles options c b [] q compiled ∧
    file.constants.RealizesIn segments compiled.code.code (m.uses c [] b) ∧
    file.constants.constructorCalls c (b.constructing c m) segments = calls ∧
    compiled.thisInit = marked

/-- The line at position `k` of the code of a method calls a method on the receiver with the given
arguments. -/
def ClassFile.CallsOnThis (file : ClassFile) (i k : Nat) (symbol : MethodSymbol)
    (arguments : List Local) : Prop :=
  ∃ member code instrs call, file.methods[i]? = some member ∧ file.codeOf? member = some code ∧
    Instr.decodeAll code.code = .ok instrs ∧ instrs[k]? = some call ∧
    file.constants.CallsSpecial symbol call ∧ Instr.AppliesToThis instrs k arguments.length

namespace Widget

/-!
## A class with a constructor

The constructor calls that of the superclass, which is taken for a class or for an interface, on itself
or on another object, at once or after an assignment.
-/

def this : Local := ⟨"this", .object { name := "Widget" }⟩
def other : Local := ⟨"other", .object { name := "java/lang/Object" }⟩

def call (receiver : Local) (isInterface : Bool) : Statement :=
  .invoke (.constructor { name := "java/lang/Object", isInterface } []) (some receiver) [] none false

def body (statements : List Statement) : Body where
  parameters := [this, other]
  statements := statements

def constructor (statements : List Statement) : MethodDecl where
  name := constructorName
  modifiers := ⟨0x0001⟩
  parameters := [{ name := "other", type := other.type }]
  result := .void
  body := some (body statements)

def owner (statements : List Statement) : ClassDecl where
  this := { name := "Widget" }
  methods := [constructor statements]

private theorem body?_constructor (statements : List Statement) :
    (constructor statements).body? = some (body statements) :=
  if_neg (show ¬ (⟨0x0001⟩ : Modifiers).hasNoCode = true by decide)

def early : List Statement := [call this false]

def late : List Statement := [.literal .null other, call this false]

/-- The constructor calls the other one on another object only. -/
def misplaced : List Statement := [call other false]

/-- The constructor calls the other one as if it were a method of an interface. -/
def mistaken : List Statement := [call this true]

section Lowering

variable {slots : Slots} (hthis : slots.index["this"]? = some 0) (hother : slots.index["other"]? = some 1)
include hthis hother

open Lower

private theorem succeeds_call {receiver : Local} (h : receiver = this ∨ receiver = other)
    (isInterface : Bool) (ctx : MethodContext) :
    SucceedsOn slots 6 (Lower.statement ctx (call receiver isInterface)) (Item.Short 10) := by
  obtain ⟨slot, hslot, hkind, hsmall⟩ : ∃ slot, slots.index[receiver.name]? = some slot ∧
      receiver.type.kind? = some .reference ∧ (Instr.loadSlot .reference slot).size = 1 := by
    rcases h with rfl | rfl
    · exact ⟨0, hthis, rfl, rfl⟩
    · exact ⟨1, hother, rfl, rfl⟩
  have hinstr : SucceedsOn slots 6
      (Lower.callInstr (.constructor { name := "java/lang/Object", isInterface } []) false)
      fun instr => instr.size ≤ 5 := by
    cases isInterface with
    | true =>
      exact (SucceedsOn.pooling (Succeeds.interfaceMethodRef (by decide))).bind (k := 0) fun _ _ =>
        .pure (Nat.le_of_ble_eq_true rfl)
    | false =>
      exact (SucceedsOn.pooling (Succeeds.methodRef (by decide))).bind (k := 0) fun _ _ =>
        .pure (Nat.le_of_ble_eq_true rfl)
  change SucceedsOn slots 6 (Lower.invoke ctx _ (some receiver) [] none false) (Item.Short 10)
  rw [Lower.invoke, if_neg (by cases isInterface <;> decide)]
  refine SucceedsIn.mono (n := 0 + (0 + (0 + (0 + (6 + (0 + 0)))))) ?_ (by omega)
  refine SucceedsIn.bind (P := (· = receiver)) (.pure rfl) fun _ hreceiver => ?_
  subst hreceiver
  refine (SucceedsOn.slotOf hslot).bind fun found _ => ?_
  refine (SucceedsOn.load hslot hkind).bind fun object hobject => ?_
  refine SucceedsIn.bind (P := (· = [])) (.pure rfl) fun pushed hpushed => hinstr.bind fun instr hsize => ?_
  refine SucceedsIn.bind (P := (· = [])) (.pure rfl) fun used hused => .pure ?_
  rw [hobject, hpushed, hused]
  have htotal : (Instr.loadSlot .reference slot).size + (instr.size + 0) ≤ 10 := by omega
  split
  · exact ⟨htotal, by simp [Item.lines, Item.line?]⟩
  · exact ⟨htotal, by simp [Item.lines, Item.line?]⟩

omit hthis in
private theorem succeeds_literal (ctx : MethodContext) :
    SucceedsOn slots 6 (Lower.statement ctx (.literal .null other)) (Item.Short 10) := by
  refine SucceedsIn.mono (n := 0 + (0 + 0)) ?_ (by omega)
  refine SucceedsIn.bind (P := (· = [.aconstNull])) (SucceedsOn.pooling (.pure rfl)) fun pushed hpushed => ?_
  refine (SucceedsOn.store (l := other) hother rfl).bind fun stored hstored => .pure ?_
  rw [hpushed, hstored]
  exact ⟨by decide, by simp [Item.lines, Item.line?]⟩

omit hthis hother in
private theorem succeeds_chain (statements : List Statement) :
    SucceedsOn slots 6 (Lower.chain (owner statements) (constructor statements) (body statements))
      (Item.Short 10) := by
  unfold Lower.chain
  split
  · exact (SucceedsOn.pooling (Succeeds.methodRef (by decide))).bind (k := 0) fun _ _ =>
      .pure ⟨Nat.le_of_ble_eq_true rfl, by simp [Item.lines, Item.line?]⟩
  · exact .pure ⟨by decide, by simp [Item.lines]⟩

private theorem succeeds_statement {statements : List Statement}
    (h : statements ∈ [early, late, misplaced, mistaken]) (ctx : MethodContext) :
    ∀ st ∈ statements, SucceedsOn slots 6 (Lower.statement ctx st) (Item.Short 10) := by
  simp only [List.mem_cons, List.not_mem_nil, or_false] at h
  rcases h with rfl | rfl | rfl | rfl
  · exact List.forall_mem_singleton.mpr (succeeds_call hthis hother (.inl rfl) false ctx)
  · exact List.forall_mem_cons.mpr ⟨succeeds_literal hother ctx,
      List.forall_mem_singleton.mpr (succeeds_call hthis hother (.inl rfl) false ctx)⟩
  · exact List.forall_mem_singleton.mpr (succeeds_call hthis hother (.inr rfl) false ctx)
  · exact List.forall_mem_singleton.mpr (succeeds_call hthis hother (.inl rfl) true ctx)

end Lowering

private theorem succeeds_lower {statements : List Statement}
    (h : statements ∈ [early, late, misplaced, mistaken]) :
    Succeeds 18 ((constructor statements).lower (owner statements) (body statements) []) fun out =>
      (∃ steps, (Draft.ofItems out.1).resolve = .ok steps) ∧ out.2.locals.toList.length ≤ 2 ∧
        ∀ entry ∈ out.2.locals.toList, entry.1.Writable := by
  obtain ⟨slots, hslots, hthis, hother, hlocals⟩ :=
    Slots.exists_allocateAll_pair (a := this) (b := other) (by decide) (by decide)
  have hcount : (body statements).statements.length ≤ 2 := by
    revert statements
    decide
  have hwritable : ∀ entry ∈ slots.locals.toList, entry.1.Writable := by
    rw [hlocals]
    simp only [List.forall_mem_cons, List.not_mem_nil, false_imp_iff, implies_true, and_true]
    exact ⟨⟨by decide, by decide, by decide⟩, ⟨by decide, by decide, by decide⟩⟩
  have hfields : ∀ i ∈ ([] : List Initializer), Lower.SucceedsOn slots 12
      (Lower.fillField (owner statements) i) (Item.Short 10) := by simp
  have hlower := MethodDecl.succeeds_lower hslots (succeeds_chain statements) hfields
    (succeeds_statement hthis hother h _) (.finalReturn rfl) (by simp; omega)
  refine (hlower.imp fun out hout => ⟨hout.1, ?_⟩).mono (by simp; omega)
  rw [hout.2]
  exact ⟨by rw [hlocals]; exact Nat.le_refl 2, hwritable⟩

private theorem exists_file (statements : List Statement)
    (h : statements ∈ [early, late, misplaced, mistaken]) (options : Options) :
    ∃ file, (owner statements).generate options = .ok file := by
  have hthis : (ModifiedUtf8.encode (owner statements).this.name).length ≤ 65535 :=
    show (ModifiedUtf8.encode "Widget").length ≤ 65535 by decide
  have hsuper : ∀ super ∈ some ({ name := "java/lang/Object" } : ClassType),
      (ModifiedUtf8.encode super.name).length ≤ 65535 := by decide
  have hname : (ModifiedUtf8.encode constructorName).length ≤ 65535 := by decide
  have hdescriptor :
      (ModifiedUtf8.encode (JavaType.methodDescriptor [other.type] .void)).length ≤ 65535 := by
    decide
  have hcode := MethodDecl.succeeds_codeAttribute options hthis (succeeds_lower h)
  have hmethod := MethodDecl.succeeds_generate
    (MethodDecl.succeeds_codeAttributes (body?_constructor statements) hcode) hname hdescriptor
    rfl (by simp [constructor]) (by simp [constructor])
  exact ClassDecl.exists_generate_method hthis hsuper rfl rfl rfl rfl rfl hmethod (by decide)

end Widget

namespace ClassDecl

variable {options : Options} {c : ClassDecl} {file : ClassFile} {q : Pool} {i : Nat} {m : MethodDecl}
  {b : Body}

/-- A constructor calls that of the superclass unless its body starts with a call of a constructor, and
then those that its statements call on the receiver.  The last call is the one that is marked. -/
theorem Generated.constructs (h : c.Generated options file q) (hm : c.methods[i]? = some m)
    (hbody : m.body? = some b) (hinit : m.initializesThis = true) {super : ClassType}
    (hsuper : c.super = some super) (hreceiver : ∃ l, b.parameters.head? = some l)
    (hclass : ∀ st ∈ b.statements, b.initializes c m st = true →
      ∀ symbol ∈ st.callee?, symbol.owner.isInterface = false)
    {k : Nat} (hk : k ≤ b.statements.length)
    (hfront : ∀ st ∈ b.statements.take (k - 1), b.assignsOther st = true)
    (hback : ∀ st ∈ b.statements.drop k, b.initializes c m st = false) :
    ∃ calls : List Nat, file.Constructs options c i m b calls calls.getLast? ∧
      (∀ k ∈ calls, ∃ symbol arguments, b.ConstructorCall c m symbol arguments ∧
        file.CallsOnThis i k symbol arguments) ∧
      calls.length = (if Lower.startsWithConstructor c b then 0 else 1) +
        b.statements.countP (b.initializes c m) := by
  obtain ⟨member, fields, compiled, hmember, hfields, -, hcompiles, hcode⟩ := h.exists_compiled hm hbody
  cases hfields (MethodDecl.isStaticInitializer_of_initializesThis hinit)
  obtain ⟨parts, hparts, hitems⟩ := hcompiles.emits.exists_parts
  have hcalls := hcompiles.constructorCalls_eq hparts hitems hreceiver hclass hk hfront hback
  have hmeaning : file.constants.meaning? = q.meaning? := by
    rw [ClassFile.constants, h.pool]
    rfl
  have hpool : ∀ segments, file.constants.constructorCalls c (b.constructing c m) segments =
      q.constructorCalls c (b.constructing c m) segments := by
    intro segments
    unfold Pool.constructorCalls Pool.constructs
    rw [hmeaning]
  have hrealizes := h.realizesIn (hcompiles.realizesIn hparts hitems)
  refine ⟨(Item.initFlags compiled.items).findIdxs id, ⟨member, compiled, q, _, hmember, hcode, hcompiles,
    hrealizes, (hpool _).trans hcalls, Draft.thisInit_eq_getLast? _⟩, fun line hline => ?_, ?_⟩
  · obtain ⟨hlt, hflag⟩ := List.mem_findIdxs_iff_exists_getElem_pos.mp hline
    obtain ⟨symbol, arguments, call, hcall, hat, ⟨index, hspecial, hindex⟩, happlies⟩ :=
      hcompiles.callsOnThis hparts hitems hreceiver hclass hk hfront hback
        ((List.getElem?_eq_getElem hlt).trans (congrArg some hflag))
    exact ⟨symbol, arguments, hcall, member, compiled.code, _, call, hmember, hcode, hrealizes.decodes,
      hat, ⟨index, hspecial, by rw [hmeaning]; exact hindex⟩, happlies⟩
  rw [List.length_findIdxs, Item.countP_initFlags, hitems]
  exact hparts.countP_initializes (fun _ _ _ hslot => hcompiles.slot_eq_zero_iff hreceiver hslot) hinit
    hsuper

end ClassDecl

end Classwright
