import Classwright.Proofs.Blocks

/-!
# What instructions refer to

Instructions name constants by their indexes.  Here is said which kind of constant each operation needs
and which members of classes a statement accesses.  The code of a statement has a constant of the right
kind for every index, and it accesses the members of the statement in order.
-/

namespace Classwright

namespace Pool.Request

def isWord : Request → Bool
  | integer _ | float _ | string _ => true
  | _ => false

def isPair : Request → Bool
  | long _ | double _ => true
  | _ => false

def isClass : Request → Bool
  | classInfo _ => true
  | _ => false

def isField : Request → Bool
  | fieldRef .. => true
  | _ => false

def isMethod : Request → Bool
  | methodRef .. => true
  | _ => false

def isInterfaceMethod : Request → Bool
  | interfaceMethodRef .. => true
  | _ => false

end Pool.Request

/-- How an instruction accesses a member of a class. -/
inductive Access where
  | field (op : FieldOp)
  | invokeVirtual
  | invokeSpecial
  | invokeStatic
  | invokeInterface
  deriving DecidableEq

namespace Instr

open Pool.Request in
/-- The pool index of an instruction, with the constants that it may stand for. -/
def operand? : Instr → Option (UInt16 × (Pool.Request → Bool))
  | ldc index => some (index.toUInt16, isWord)
  | ldcW index => some (index, isWord)
  | ldc2W index => some (index, isPair)
  | field _ index => some (index, isField)
  | invokeVirtual index => some (index, isMethod)
  | invokeSpecial index => some (index, isMethod)
  | invokeStatic index => some (index, fun r => isMethod r || isInterfaceMethod r)
  | invokeInterface index _ _ => some (index, isInterfaceMethod)
  | new index => some (index, isClass)
  | newRefArray index => some (index, isClass)
  | newMultiArray index _ => some (index, isClass)
  | checkCast index => some (index, isClass)
  | instanceOf index => some (index, isClass)
  | _ => none

def access? : Instr → Option (Access × UInt16)
  | field op index => some (.field op, index)
  | invokeVirtual index => some (.invokeVirtual, index)
  | invokeSpecial index => some (.invokeSpecial, index)
  | invokeStatic index => some (.invokeStatic, index)
  | invokeInterface index _ _ => some (.invokeInterface, index)
  | _ => none

private theorem access?_of_operand? {instr : Instr} (h : instr.operand? = none) :
    instr.access? = none := by
  cases instr <;> first | rfl | cases h

private theorem isOperation_of_operand? {instr : Instr} {operand : UInt16 × (Pool.Request → Bool)}
    (h : instr.operand? = some operand) : instr.isOperation = true := by
  cases instr <;> first | rfl | cases h

end Instr

namespace Pool

/-- The index of the instruction stands for a constant of the kind that the operation needs. -/
def Suits (p : Pool) (instr : Instr) : Prop :=
  ∀ index accepts, instr.operand? = some (index, accepts) →
    ∃ r, p.meaning? index = some r ∧ accepts r = true

def Accesses (p : Pool) (instrs : List Instr) (uses : List (Access × Request)) : Prop :=
  List.Forall₂ (fun found use => found.1 = use.1 ∧ p.meaning? found.2 = some use.2)
    (instrs.filterMap Instr.access?) uses

variable {p q : Pool} {instr : Instr}

theorem Suits.mono (h : p.Suits instr) (hle : p ≤ q) : q.Suits instr := by
  intro index accepts hoperand
  obtain ⟨r, hmeaning, haccepts⟩ := h index accepts hoperand
  exact ⟨r, meaning?_mono hle hmeaning, haccepts⟩

theorem suits_of_operand? (h : instr.operand? = none) : p.Suits instr := by
  intro index accepts hoperand
  rw [h] at hoperand
  cases hoperand

theorem Accesses.mono {instrs : List Instr} {uses : List (Access × Request)}
    (h : p.Accesses instrs uses) (hle : p ≤ q) : q.Accesses instrs uses :=
  List.Forall₂.imp (fun _ _ hfound => ⟨hfound.1, meaning?_mono hle hfound.2⟩) h

theorem Accesses.append {instrs more : List Instr} {uses others : List (Access × Request)}
    (h : p.Accesses instrs uses) (h' : p.Accesses more others) :
    p.Accesses (instrs ++ more) (uses ++ others) := by
  unfold Accesses
  rw [List.filterMap_append]
  exact List.rel_append h h'

theorem accesses_of_operand? (h : instr.operand? = none) : p.Accesses [instr] [] := by
  simp [Accesses, Instr.access?_of_operand? h]

end Pool

mutual

/-- The members that are accessed to push a literal: its enum constants. -/
def Literal.uses : Literal → List (Access × Pool.Request)
  | .enum owner name =>
    [(.field .getStatic, .fieldRef owner.name name (JavaType.object owner).descriptor)]
  | .array _ elements => usesOfElements elements
  | _ => []

def Literal.usesOfElements : List Literal → List (Access × Pool.Request)
  | [] => []
  | e :: rest => e.uses ++ usesOfElements rest

end

def MethodSymbol.use (m : MethodSymbol) (isSuper : Bool) : Access × Pool.Request :=
  (if m.isStatic then .invokeStatic
    else if m.owner.isInterface then .invokeInterface
    else if m.isConstructor || isSuper then .invokeSpecial
    else .invokeVirtual, m.reference)

def FieldSymbol.use (f : FieldSymbol) (ofStatic ofInstance : FieldOp) : Access × Pool.Request :=
  (.field (if f.isStatic then ofStatic else ofInstance),
    .fieldRef f.owner.name f.name f.type.descriptor)

def JavaType.unboxing (source target : JavaType) : List (Access × Pool.Request) :=
  match source.isReference, target with
  | true, .primitive p => p.wrapper?.toList.map fun wrapper =>
    (.invokeVirtual, .methodRef wrapper (p.name ++ "Value")
      (JavaType.methodDescriptor [] (.primitive p)))
  | _, _ => []

def Statement.uses : Statement → List (Access × Pool.Request)
  | .invoke m _ _ result isSuper =>
    m.use isSuper :: (result.map fun l => m.result.unboxing l.type).getD []
  | .getField f _ _ => [f.use .getStatic .getField]
  | .putField f _ _ => [f.use .putStatic .putField]
  | .new m _ _ => [(.invokeSpecial, .methodRef m.owner.name m.name m.descriptor)]
  | .literal value _ => value.uses
  | _ => []

/-- The call with which a constructor starts that calls no other one itself. -/
def MethodDecl.chainedUses (owner : ClassDecl) (m : MethodDecl) (b : Body) :
    List (Access × Pool.Request) :=
  if m.initializesThis && !Lower.startsWithConstructor owner b then
    owner.super.toList.map fun super =>
      (.invokeSpecial,
        .methodRef super.name constructorName (JavaType.methodDescriptor [] .void))
  else []

def Initializer.uses (owner : ClassDecl) (i : Initializer) : List (Access × Pool.Request) :=
  i.value.uses ++ [(.field .putStatic, .fieldRef owner.this.name i.field i.type.descriptor)]

/-- What each part of a method's code accesses: the call of another constructor, the fields that the
method initializes, the statements, and the return at the end. -/
def MethodDecl.uses (owner : ClassDecl) (m : MethodDecl) (fields : List Initializer) (b : Body) :
    List (List (Access × Pool.Request)) :=
  m.chainedUses owner b :: fields.map (Initializer.uses owner) ++ b.statements.map Statement.uses ++ [[]]

/-- The lines access the given members, every index stands for a constant of the right kind, and
control passes from each line to the next. -/
inductive Writes (p : Pool) : List Line → List (Access × Pool.Request) → Prop where
  | nil : Writes p [] []
  | leave {line : Line} (silent : ∀ instr, line = .plain instr → instr.operand? = none) :
      Writes p [line] []
  | step {instr : Instr} {lines : List Line} {used uses : List (Access × Pool.Request)}
      (jump : instr.isJump = false) (ends : instr.endsMethod = false) (suits : p.Suits instr)
      (accesses : p.Accesses [instr] used) (rest : Writes p lines uses) :
      Writes p (.plain instr :: lines) (used ++ uses)

namespace Writes

variable {p q : Pool} {instr : Instr} {lines : List Line} {uses : List (Access × Pool.Request)}

theorem mono (h : Writes p lines uses) (hle : p ≤ q) : Writes q lines uses := by
  induction h with
  | nil => exact .nil
  | leave silent => exact .leave silent
  | step jump ends suits accesses _ ih =>
    exact .step jump ends (suits.mono hle) (accesses.mono hle) ih

private theorem silent (hjump : instr.isJump = false) (hends : instr.endsMethod = false)
    (h : instr.operand? = none) (rest : Writes p lines uses) :
    Writes p (.plain instr :: lines) uses :=
  .step hjump hends (Pool.suits_of_operand? h) (Pool.accesses_of_operand? h) rest

private theorem operation (hoperation : instr.isOperation = true) (h : instr.operand? = none)
    (rest : Writes p lines uses) : Writes p (.plain instr :: lines) uses :=
  silent (Instr.isJump_of_isOperation hoperation) (Instr.endsMethod_of_isOperation hoperation) h rest

variable {index : UInt16} {accepts : Pool.Request → Bool} {r : Pool.Request}
  (hoperand : instr.operand? = some (index, accepts)) (hmeaning : p.meaning? index = some r)
  (haccepts : accepts r = true)
include hoperand hmeaning haccepts

private theorem suits : p.Suits instr := by
  intro index' accepts' hoperand'
  rw [hoperand] at hoperand'
  cases hoperand'
  exact ⟨r, hmeaning, haccepts⟩

private theorem constant (haccess : instr.access? = none) (rest : Writes p lines uses) :
    Writes p (.plain instr :: lines) uses :=
  have hoperation := Instr.isOperation_of_operand? hoperand
  have haccesses : p.Accesses [instr] [] := by simp [Pool.Accesses, haccess]
  .step (Instr.isJump_of_isOperation hoperation) (Instr.endsMethod_of_isOperation hoperation)
    (suits hoperand hmeaning haccepts) haccesses rest

private theorem access {access : Access} (haccess : instr.access? = some (access, index))
    (rest : Writes p lines uses) : Writes p (.plain instr :: lines) ((access, r) :: uses) :=
  have hoperation := Instr.isOperation_of_operand? hoperand
  have haccesses : p.Accesses [instr] [(access, r)] := by simp [Pool.Accesses, haccess, hmeaning]
  .step (Instr.isJump_of_isOperation hoperation) (Instr.endsMethod_of_isOperation hoperation)
    (suits hoperand hmeaning haccepts) haccesses rest

end Writes

namespace Literal

variable {pool : Pool} {lines : List Line} {uses : List (Access × Pool.Request)}

private theorem writes_loadEntry {index : UInt16} {r : Pool.Request}
    (hmeaning : pool.meaning? index = some r) (hword : r.isWord = true) (rest : Writes pool lines uses) :
    Writes pool (.plain (.loadEntry index) :: lines) uses := by
  obtain ⟨i, rfl, hi⟩ | hi := Instr.loadEntry_cases index
  · rw [hi]
    exact .constant rfl hmeaning hword rfl rest
  · rw [hi]
    exact .constant rfl hmeaning hword rfl rest

private theorem LoadsInt.writes {v : Int32} {instr : Instr} (h : LoadsInt pool v instr)
    (rest : Writes pool lines uses) : Writes pool (.plain instr :: lines) uses := by
  rcases h with ⟨-, -, rfl⟩ | ⟨-, -, rfl⟩ | ⟨-, -, rfl⟩ | ⟨index, hmeaning, rfl⟩
  · exact .silent rfl rfl rfl rest
  · exact .silent rfl rfl rfl rest
  · exact .silent rfl rfl rfl rest
  · exact writes_loadEntry hmeaning rfl rest

private theorem LoadsLong.writes {v : Int64} {instr : Instr} (h : LoadsLong pool v instr)
    (rest : Writes pool lines uses) : Writes pool (.plain instr :: lines) uses := by
  rcases h with ⟨-, rfl⟩ | ⟨-, rfl⟩ | ⟨index, hmeaning, rfl⟩
  · exact .silent rfl rfl rfl rest
  · exact .silent rfl rfl rfl rest
  · exact .constant rfl hmeaning rfl rfl rest

private theorem LoadsFloat.writes {bits : UInt32} {instr : Instr} (h : LoadsFloat pool bits instr)
    (rest : Writes pool lines uses) : Writes pool (.plain instr :: lines) uses := by
  rcases h with ⟨-, rfl⟩ | ⟨-, rfl⟩ | ⟨-, rfl⟩ | ⟨index, hmeaning, rfl⟩
  · exact .silent rfl rfl rfl rest
  · exact .silent rfl rfl rfl rest
  · exact .silent rfl rfl rfl rest
  · exact writes_loadEntry hmeaning rfl rest

private theorem LoadsDouble.writes {bits : UInt64} {instr : Instr} (h : LoadsDouble pool bits instr)
    (rest : Writes pool lines uses) : Writes pool (.plain instr :: lines) uses := by
  rcases h with ⟨-, rfl⟩ | ⟨-, rfl⟩ | ⟨index, hmeaning, rfl⟩
  · exact .silent rfl rfl rfl rest
  · exact .silent rfl rfl rfl rest
  · exact .constant rfl hmeaning rfl rfl rest

private theorem AllocatesArray.writes {component : JavaType} {instr : Instr} {kind : ElemKind}
    (h : AllocatesArray pool component instr kind) (rest : Writes pool lines uses) :
    Writes pool (.plain instr :: lines) uses := by
  obtain ⟨-, ⟨code, -, rfl⟩ | ⟨-, index, hmeaning, rfl⟩⟩ := h
  · exact .silent rfl rfl rfl rest
  · exact .constant rfl hmeaning rfl rfl rest

mutual

theorem writes_of_loads : ∀ {value : Literal} {instrs : List Instr} {lines : List Line}
    {uses : List (Access × Pool.Request)}, value.Loads pool instrs → Writes pool lines uses →
    Writes pool (instrs.map .plain ++ lines) (value.uses ++ uses)
  | boolean _, _, _, _, ⟨_, hi, rfl⟩, rest => hi.writes rest
  | byte _, _, _, _, ⟨_, hi, rfl⟩, rest => hi.writes rest
  | short _, _, _, _, ⟨_, hi, rfl⟩, rest => hi.writes rest
  | char _, _, _, _, ⟨_, hi, rfl⟩, rest => hi.writes rest
  | int _, _, _, _, ⟨_, hi, rfl⟩, rest => hi.writes rest
  | long _, _, _, _, ⟨_, hi, rfl⟩, rest => hi.writes rest
  | float _, _, _, _, ⟨_, hi, rfl⟩, rest => hi.writes rest
  | double _, _, _, _, ⟨_, hi, rfl⟩, rest => hi.writes rest
  | string _, _, _, _, ⟨_, hmeaning, rfl⟩, rest => writes_loadEntry hmeaning rfl rest
  | null, _, _, _, rfl, rest => .silent rfl rfl rfl rest
  | enum _ _, _, _, _, ⟨_, hmeaning, rfl⟩, rest => .access rfl hmeaning rfl rfl rest
  | array _ _, _, _, _, ⟨_, hlength, _, _, hallocation, _, hstores, rfl⟩, rest =>
    hlength.writes (hallocation.writes (writes_of_loadsElements rfl rfl hstores rest))

theorem writes_of_loadsElements : ∀ {elements : List Literal} {store : Instr} {index : Nat}
    {instrs : List Instr} {lines : List Line} {uses : List (Access × Pool.Request)},
    store.isOperation = true → store.operand? = none → LoadsElements pool store index elements instrs →
    Writes pool lines uses →
    Writes pool (instrs.map .plain ++ lines) (usesOfElements elements ++ uses)
  | [], _, _, _, _, _, _, _, rfl, rest => rest
  | _ :: _, _, _, _, _, _, hoperation, hoperand, ⟨_, hposition, _, hvalue, _, hmore, rfl⟩, rest => by
    have hrest := writes_of_loadsElements hoperation hoperand hmore rest
    have hstored := writes_of_loads hvalue (.operation hoperation hoperand hrest)
    rw [usesOfElements, List.append_assoc, List.map_cons, List.map_cons, List.map_append,
      List.map_cons, List.cons_append, List.cons_append, List.append_assoc, List.cons_append]
    exact .silent rfl rfl rfl (hposition.writes hstored)

end

end Literal

namespace Lower

variable {final : Lowering} {items : List Item} {uses : List (Access × Pool.Request)}

section Pieces

variable (rest : Writes final.pool (Item.lines items) uses)
include rest

private theorem Pushes.writes {l : Local} {item : Item} (h : Pushes final l item) :
    Writes final.pool (Item.lines (item :: items)) uses := by
  obtain ⟨slot, -, kind, -, rfl⟩ := h
  exact .silent rfl rfl rfl rest

private theorem Pops.writes {l : Local} {item : Item} (h : Pops final l item) :
    Writes final.pool (Item.lines (item :: items)) uses := by
  obtain ⟨kind, -, slot, -, rfl⟩ := h
  exact .silent rfl rfl rfl rest

private theorem writes_pushed {locals : List Local} {pushed : List Item}
    (h : List.Forall₂ (Pushes final) locals pushed) :
    Writes final.pool (Item.lines (pushed ++ items)) uses := by
  induction h with
  | nil => exact rest
  | cons hpush _ ih => exact hpush.writes ih

private theorem writes_of_calls {m : MethodSymbol} {isSuper : Bool} {call : Instr}
    (h : Calls final m isSuper call) :
    Writes final.pool (.plain call :: Item.lines items) (m.use isSuper :: uses) := by
  obtain ⟨index, hmeaning, h⟩ := h
  unfold MethodSymbol.use
  unfold MethodSymbol.reference at hmeaning ⊢
  split_ifs at h hmeaning ⊢
  all_goals first
    | exact h ▸ Writes.access rfl hmeaning rfl rfl rest
    | obtain ⟨count, -, -, rfl⟩ := h
      exact .access rfl hmeaning rfl rfl rest

private theorem writes_of_adapts {source target : JavaType} {instrs : List Instr}
    (h : Adapts final source target instrs) :
    Writes final.pool (Item.lines (instrs.map .op ++ items)) (source.unboxing target ++ uses) := by
  rw [lines_map_op]
  rcases h with ⟨-, hkinds, rfl⟩ | ⟨hreference, p, wrapper, rfl, hwrapper, box, hbox, method, hmethod, rfl⟩
  · have hnone : source.unboxing target = [] := by
      unfold JavaType.unboxing
      split
      · rename_i p hreference
        rw [JavaType.kind?_of_isReference hreference] at hkinds
        cases p <;> cases hkinds
      · rfl
    rw [hnone]
    exact rest
  · simp only [JavaType.unboxing, hreference, hwrapper]
    exact .constant rfl hbox rfl rfl (.access rfl hmethod rfl rfl rest)

end Pieces

private theorem Pops.writes_last {l : Local} {item : Item} (h : Pops final l item) :
    Writes final.pool (Item.lines [item]) [] :=
  have hnil : Writes final.pool (Item.lines []) [] := .nil
  h.writes hnil

private theorem Uses.writes {type : JavaType} {result : Option Local} (h : Uses final type result items) :
    Writes final.pool (Item.lines items)
      ((result.map fun l => type.unboxing l.type).getD []) := by
  cases result with
  | none =>
    rw [show items = dropping type from h]
    unfold dropping
    split
    · exact .nil
    · exact .silent rfl rfl rfl .nil
    · exact .silent rfl rfl rfl .nil
  | some target =>
    obtain ⟨instrs, hadapts, item, hpops, rfl⟩ := h
    have hwrites := writes_of_adapts hpops.writes_last hadapts
    rw [List.append_nil] at hwrites
    exact hwrites

private theorem Changes.writes {kind : NumKind} {op : UnaryOp} {changed : List Item}
    (h : Changes final kind op changed) (rest : Writes final.pool (Item.lines items) uses) :
    Writes final.pool (Item.lines (changed ++ items)) uses := by
  cases op with
  | negate =>
    rw [show changed = _ from h]
    exact .silent rfl rfl rfl rest
  | complement =>
    rcases h with ⟨-, rfl⟩ | ⟨-, index, hmeaning, rfl⟩
    · exact .silent rfl rfl rfl (.silent rfl rfl rfl rest)
    · exact .constant rfl hmeaning rfl rfl (.silent rfl rfl rfl rest)

private theorem Casts.writes {declared : JavaType} {instrs : List Instr} (h : Casts final declared instrs)
    (rest : Writes final.pool (Item.lines items) uses) :
    Writes final.pool (Item.lines (instrs.map .op ++ items)) uses := by
  rw [lines_map_op]
  unfold Casts at h
  split at h
  · obtain ⟨index, hmeaning, rfl⟩ := h
    exact .constant rfl hmeaning rfl rfl rest
  · rw [h]
    exact rest

private theorem Allocates.writes {element : JavaType} {dimensions : Nat} {instr : Instr}
    (h : Allocates final element dimensions instr) (rest : Writes final.pool (Item.lines items) uses) :
    Writes final.pool (Item.lines (.op instr :: items)) uses := by
  unfold Allocates at h
  split at h
  · obtain ⟨kind, h⟩ := h
    exact h.writes rest
  · obtain ⟨index, hmeaning, rfl⟩ := h
    exact .constant rfl hmeaning rfl rfl rest

private theorem writes_branch (when : Jump) (label : Label) :
    Writes final.pool (Item.lines [.branch when label]) [] :=
  .leave fun _ h => by cases h

private theorem operand?_of_binary? {op : BinaryOp} {kind : NumKind} {instr : Instr}
    (h : Instr.binary? op kind = some instr) : instr.operand? = none := by
  cases op <;> cases kind <;> cases h <;> rfl

private theorem operand?_of_castInstr? {source target : JavaType} {instr : Instr}
    (h : castInstr? source target = some instr) : instr.operand? = none := by
  simp only [castInstr?, Option.bind_eq_bind, Option.bind_eq_some_iff] at h
  obtain ⟨kind, -, p, -, h⟩ := h
  cases kind <;> cases p <;> cases h <;> rfl

private theorem operand?_of_compare? {kind : NumKind} {op : Comparison} {instr : Instr}
    (h : Instr.compare? kind op = some instr) : instr.operand? = none := by
  cases kind <;> cases op <;> cases h <;> rfl

private theorem operand?_of_zero? {kind : NumKind} {instr : Instr} (h : Instr.zero? kind = some instr) :
    instr.operand? = none := by
  cases kind <;> cases h <;> rfl

private theorem writes_comparing (kind : NumKind) (op : Comparison) (label : Label) :
    Writes final.pool (Item.lines (comparing kind op label)) [] := by
  unfold comparing
  split
  · rename_i instr hinstr
    exact .operation (isOperation_of_compare? hinstr) (operand?_of_compare? hinstr)
      (writes_branch _ _)
  · exact writes_branch _ _

private theorem writes_testing (kind : NumKind) (op : Comparison) (label : Label) :
    Writes final.pool (Item.lines (testing kind op label)) [] := by
  unfold testing
  split
  · rename_i zero instr hzero hinstr
    exact .operation (isOperation_of_zero? hzero) (operand?_of_zero? hzero)
      (.operation (isOperation_of_compare? hinstr) (operand?_of_compare? hinstr)
        (writes_branch _ _))
  · exact writes_branch _ _

/-- The code of a statement accesses the members that the statement asks for. -/
theorem Emits.writes {ctx : MethodContext} {st : Statement} (h : Emits ctx final st items) :
    Writes final.pool (Item.lines items) st.uses := by
  cases st with
  | invoke m receiver arguments result isSuper =>
    simp only [Emits] at h
    split at h
    · obtain ⟨pushed, hpushed, call, hcall, used, hused, rfl⟩ := h
      exact writes_pushed (writes_of_calls hused.writes hcall) hpushed
    · obtain ⟨object, -, slot, -, item, hitem, pushed, hpushed, call, hcall, used, hused, rfl⟩ := h
      refine hitem.writes (writes_pushed ?_ hpushed)
      rw [lines_marked]
      exact writes_of_calls hused.writes hcall
  | getField f receiver target =>
    obtain ⟨index, hmeaning, h⟩ := h
    simp only [Statement.uses, FieldSymbol.use]
    split at h
    · rename_i hstatic
      obtain ⟨item, hitem, rfl⟩ := h
      rw [if_pos hstatic]
      exact .access rfl hmeaning rfl rfl hitem.writes_last
    · rename_i hstatic
      obtain ⟨object, -, pushed, hpushed, item, hitem, rfl⟩ := h
      rw [if_neg hstatic]
      have hget : Writes final.pool (Item.lines [.op (.field .getField index), item]) _ :=
        .access rfl hmeaning rfl rfl hitem.writes_last
      exact hpushed.writes hget
  | putField f receiver value =>
    obtain ⟨index, hmeaning, h⟩ := h
    simp only [Statement.uses, FieldSymbol.use]
    split at h
    · rename_i hstatic
      obtain ⟨item, hitem, rfl⟩ := h
      rw [if_pos hstatic]
      have hput : Writes final.pool (Item.lines [.op (.field .putStatic index)]) _ :=
        .access rfl hmeaning rfl rfl .nil
      exact hitem.writes hput
    · rename_i hstatic
      obtain ⟨object, -, pushed, hpushed, item, hitem, rfl⟩ := h
      rw [if_neg hstatic]
      have hput : Writes final.pool (Item.lines [.op (.field .putField index)]) _ :=
        .access rfl hmeaning rfl rfl .nil
      exact hpushed.writes (hitem.writes hput)
  | assign target source =>
    obtain ⟨a, ha, b, hb, rfl⟩ := h
    exact ha.writes hb.writes_last
  | binary op left right result =>
    obtain ⟨instr, hinstr, a, ha, b, hb, c, hc, rfl⟩ := h
    obtain ⟨kind, -, hinstr⟩ := Option.bind_eq_some_iff.mp hinstr
    have happly : Writes final.pool (Item.lines [.op instr, c]) [] :=
      .operation (isOperation_of_binary? hinstr) (operand?_of_binary? hinstr) hc.writes_last
    exact ha.writes (hb.writes happly)
  | unary op operand result =>
    obtain ⟨kind, -, a, ha, changed, hchanged, b, hb, rfl⟩ := h
    exact ha.writes (hchanged.writes hb.writes_last)
  | cast source target =>
    obtain ⟨instr, hinstr, a, ha, b, hb, rfl⟩ := h
    have hcast : Writes final.pool (Item.lines [.op instr, b]) [] :=
      .operation (isOperation_of_castInstr? hinstr) (operand?_of_castInstr? hinstr) hb.writes_last
    exact ha.writes hcast
  | goto label =>
    rw [show items = _ from h]
    exact writes_branch _ _
  | mark label =>
    rw [show items = _ from h]
    exact .nil
  | compare op left right label =>
    obtain ⟨a, ha, b, hb, ⟨-, jump, -, rfl⟩ | ⟨kind, -, rfl⟩⟩ := h
    · exact ha.writes (hb.writes (writes_branch _ _))
    · exact ha.writes (hb.writes (writes_comparing _ _ _))
  | test op operand label =>
    obtain ⟨a, ha, ⟨-, jump, -, rfl⟩ | ⟨kind, -, rfl⟩⟩ := h
    · exact ha.writes (writes_branch _ _)
    · exact ha.writes (writes_testing _ _ _)
  | arrayGet array index target =>
    obtain ⟨kind, -, a, ha, i, hi, b, hb, rfl⟩ := h
    have hload : Writes final.pool (Item.lines [.op (.arrayLoad kind.element), b]) [] :=
      .silent rfl rfl rfl hb.writes_last
    exact ha.writes (hi.writes hload)
  | arrayPut array index value =>
    obtain ⟨kind, -, a, ha, i, hi, v, hv, rfl⟩ := h
    have hstore : Writes final.pool (Item.lines [.op (.arrayStore kind.element)]) [] :=
      .silent rfl rfl rfl .nil
    exact ha.writes (hi.writes (hv.writes hstore))
  | ret value =>
    cases value with
    | none =>
      rw [h.2]
      exact .leave fun _ h => by cases h; rfl
    | some l =>
      obtain ⟨-, kind, -, a, ha, cast, hcast, rfl⟩ := h
      have hreturn : Writes final.pool (Item.lines [.op (.returnValue kind)]) [] :=
        .leave fun _ h => by cases h; rfl
      exact ha.writes (hcast.writes hreturn)
  | instanceOf value type result =>
    obtain ⟨a, ha, index, hmeaning, b, hb, rfl⟩ := h
    have htest : Writes final.pool (Item.lines [.op (.instanceOf index), b]) [] :=
      .constant rfl hmeaning rfl rfl hb.writes_last
    exact ha.writes htest
  | new m arguments result =>
    obtain ⟨index, hindex, init, hinit, pushed, hpushed, stored, hstored, rfl⟩ := h
    have hcall : Writes final.pool (Item.lines [.op (.invokeSpecial init), stored]) _ :=
      .access rfl hinit rfl rfl hstored.writes_last
    exact .constant rfl hindex rfl rfl (.silent rfl rfl rfl (writes_pushed hcall hpushed))
  | newArray element lengths result =>
    obtain ⟨-, -, pushed, hpushed, instr, hinstr, stored, hstored, rfl⟩ := h
    exact writes_pushed (hinstr.writes hstored.writes_last) hpushed
  | literal value target =>
    obtain ⟨instrs, hinstrs, stored, hstored, rfl⟩ := h
    have hwrites := Literal.writes_of_loads hinstrs hstored.writes_last
    rw [List.append_nil, ← lines_map_op] at hwrites
    exact hwrites

private theorem Chains.writes {owner : ClassDecl} {m : MethodDecl} {b : Body}
    (h : Chains owner m b final items) :
    Writes final.pool (Item.lines items) (m.chainedUses owner b) := by
  unfold Chains at h
  unfold MethodDecl.chainedUses
  split at h
  · rename_i hchain
    rw [if_pos hchain]
    split at h
    · rename_i hsuper
      rw [h, hsuper]
      exact .nil
    · rename_i super hsuper
      obtain ⟨index, hmeaning, rfl⟩ := h
      rw [hsuper]
      exact .silent rfl rfl rfl (.access rfl hmeaning rfl rfl .nil)
  · rename_i hchain
    rw [if_neg hchain, h]
    exact .nil

private theorem Fills.writes {owner : ClassDecl} {i : Initializer} (h : Fills owner final i items) :
    Writes final.pool (Item.lines items) (i.uses owner) := by
  obtain ⟨pushed, hpushed, index, hmeaning, rfl⟩ := h
  rw [lines_map_op]
  exact Literal.writes_of_loads (Literal.loads_of_ran hpushed) (.access rfl hmeaning rfl rfl .nil)

private theorem Ends.writes {m : MethodDecl} {b : Body} (h : Ends m b items) :
    Writes final.pool (Item.lines items) [] := by
  rcases h with ⟨-, rfl⟩ | ⟨-, -, rfl⟩
  · exact .nil
  · exact .leave fun _ h => by cases h; rfl

/-- The parts of a method's code: the call of another constructor, the fields that are filled, the
statements, and the return at the end. -/
structure Parts where
  chained : List Item
  filled : List (List Item)
  blocks : List (List Item)
  ending : List Item

def Parts.all (parts : Parts) : List (List Item) :=
  parts.chained :: parts.filled ++ parts.blocks ++ [parts.ending]

structure Parts.Of (owner : ClassDecl) (m : MethodDecl) (b : Body) (fields : List Initializer)
    (final : Lowering) (parts : Parts) : Prop where
  chained : Chains owner m b final parts.chained
  filled : List.Forall₂ (Fills owner final) fields parts.filled
  blocks : List.Forall₂ (Emits ⟨owner, m, Std.HashSet.ofList b.labels⟩ final) b.statements parts.blocks
  ending : Ends m b parts.ending

section Parts

variable {owner : ClassDecl} {m : MethodDecl} {b : Body} {fields : List Initializer}

theorem EmitsBody.exists_parts (h : EmitsBody owner m b fields final items) :
    ∃ parts : Parts, parts.Of owner m b fields final ∧ items = parts.all.flatten := by
  obtain ⟨chained, hchained, filled, hfilled, blocks, hblocks, ending, hending, rfl⟩ := h
  exact ⟨⟨chained, filled, blocks, ending⟩, ⟨hchained, hfilled, hblocks, hending⟩, by simp [Parts.all]⟩

variable {parts : Parts} (h : parts.Of owner m b fields final)
include h

theorem Parts.Of.eq_mark :
    ∀ part ∈ parts.all, ∀ label, Item.mark label ∈ part → part = [.mark label] := by
  have hplain : ∀ part, (∀ item ∈ part, Plain item) → ∀ label, Item.mark label ∈ part →
      part = [.mark label] := by
    intro part hpart label hmark
    obtain ⟨instr, -, h | h⟩ := hpart _ hmark <;> cases h
  intro part hpart
  rcases List.mem_append.mp hpart with hpart | hpart
  · rcases List.mem_append.mp hpart with hpart | hpart
    · rcases List.mem_cons.mp hpart with rfl | hpart
      · exact hplain _ h.chained.plain
      · obtain ⟨i, -, hfills⟩ := exists_left_of_forall₂ h.filled hpart
        exact hplain part hfills.plain
    · obtain ⟨st, -, hemits⟩ := exists_left_of_forall₂ h.blocks hpart
      exact fun label hmark => hemits.eq_mark hmark
  · rw [List.mem_singleton.mp hpart]
    exact hplain _ h.ending.plain

theorem Parts.Of.writes : List.Forall₂ (fun uses part => Writes final.pool (Item.lines part) uses)
    (m.uses owner fields b) parts.all := by
  have hfront : List.Forall₂ (fun uses part => Writes final.pool (Item.lines part) uses)
      (m.chainedUses owner b :: fields.map (Initializer.uses owner)) (parts.chained :: parts.filled) :=
    .cons h.chained.writes (List.forall₂_map_left_iff.mpr (h.filled.imp fun _ _ h => h.writes))
  have hstatements : List.Forall₂ (fun uses part => Writes final.pool (Item.lines part) uses)
      (b.statements.map Statement.uses) parts.blocks :=
    List.forall₂_map_left_iff.mpr (h.blocks.imp fun _ _ h => h.writes)
  exact List.rel_append (List.rel_append hfront hstatements) (.cons h.ending.writes .nil)

end Parts

end Lower

end Classwright
