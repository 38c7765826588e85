import Classwright.Proofs.Offsets

/-!
# What generation fails with

A class that cannot be generated breaks a limit of class files, or one of its members is refused for
what it says: a field that is not static has a value that needs code, the statements of a method cannot
be lowered, one of its branches leads nowhere or too far, or its parameters cannot be numbered.  Nothing
else fails.
-/

namespace Classwright

private theorem Pool.Overflow.exists_limit (o : Overflow) : ∃ limit, o.toError = .limitExceeded limit := by
  cases o with
  | entries => exact ⟨_, rfl⟩
  | utf8Length => exact ⟨_, rfl⟩

section FailsBy

variable {α β : Type} {R : GenerateError → Prop}

/-- The step fails only because a limit is exceeded, or for one of the given reasons. -/
def FailsBy (R : GenerateError → Prop) (act : Pooling α) : Prop :=
  ∀ p e, act p = .error e → (∃ limit, e = .limitExceeded limit) ∨ R e

namespace FailsBy

theorem pure (a : α) : FailsBy R (Pure.pure a : Pooling α) := by
  rintro p e ⟨⟩

theorem throw {e : GenerateError} (h : (∃ limit, e = .limitExceeded limit) ∨ R e) :
    FailsBy R (MonadExcept.throw e : Pooling α) := by
  rintro p e ⟨⟩
  exact h

theorem bind {x : Pooling α} {f : α → Pooling β} (hx : FailsBy R x) (hf : ∀ a, FailsBy R (f a)) :
    FailsBy R (x >>= f) := by
  intro p e h
  rcases run_bind_error_iff.mp h with h | ⟨a, q, -, h⟩
  · exact hx p e h
  · exact hf a q e h

theorem map {x : Pooling α} (f : α → β) (hx : FailsBy R x) : FailsBy R (f <$> x) := by
  rw [map_eq_pure_bind]
  exact hx.bind fun a => .pure (f a)

theorem mapM {f : α → Pooling β} {items : List α} (h : ∀ a ∈ items, FailsBy R (f a)) :
    FailsBy R (items.mapM f) := by
  induction items with
  | nil => exact .pure []
  | cons a items ih =>
    obtain ⟨ha, hitems⟩ := List.forall_mem_cons.mp h
    rw [List.mapM_cons]
    exact ha.bind fun b => (ih hitems).bind fun bs => .pure (b :: bs)

theorem pooled (act : Interning UInt16) : FailsBy R (Classwright.pooled act) := by
  intro p e h
  obtain ⟨overflow, -, rfl⟩ := run_pooled_error_iff.mp h
  exact .inl overflow.exists_limit

theorem named (body : AttributeBody) (name : String) : FailsBy R (body.named name) :=
  (pooled _).bind fun _ => .pure _

theorem bounded (limit : Limit) (items : List α) : FailsBy R (Classwright.bounded limit items) := by
  unfold Classwright.bounded
  split
  · exact .pure _
  · exact .throw (.inl ⟨limit, rfl⟩)

end FailsBy

end FailsBy

section Annotations

variable {R : GenerateError → Prop}

namespace AnnotationValue

mutual

theorem failsBy_store : ∀ v : AnnotationValue, FailsBy R v.store
  | boolean _ | byte _ | char _ | short _ | int _ | long _ | float _ | double _ | string _ | type _ =>
    (FailsBy.pooled _).bind fun _ => .pure _
  | enum _ _ => (FailsBy.pooled _).bind fun _ => (FailsBy.pooled _).bind fun _ => .pure _
  | array values => (failsBy_storeValues values []).bind fun _ => .pure _
  | nested _ _ elements =>
    (FailsBy.pooled _).bind fun _ => (failsBy_storeElements elements []).bind fun _ => .pure _

theorem failsBy_storeValues : ∀ (values : List AnnotationValue) (done : List ElementValue),
    FailsBy R (storeValues values done)
  | [], _ => .pure _
  | v :: rest, _ => (failsBy_store v).bind fun _ => failsBy_storeValues rest _

theorem failsBy_storeElements : ∀ (elements : List (String × AnnotationValue))
    (done : List (UInt16 × ElementValue)), FailsBy R (storeElements elements done)
  | [], _ => .pure _
  | (_, v) :: rest, _ =>
    (FailsBy.pooled _).bind fun _ => (failsBy_store v).bind fun _ => failsBy_storeElements rest _

end

end AnnotationValue

namespace KeptAnnotation

open Annotation in
private theorem failsBy_storeKept (declared : List Annotation) : FailsBy R (storeKept declared) :=
  .mapM fun a _ => (FailsBy.pooled _).bind fun _ =>
    (AnnotationValue.failsBy_storeElements a.elements []).bind fun _ => .pure _

private theorem failsBy_listAttribute (name : String) (list : List StoredAnnotation) :
    FailsBy R (listAttribute name list) := by
  unfold listAttribute
  split
  · exact .pure _
  · exact (FailsBy.bounded _ _).bind fun _ => (FailsBy.named _ _).bind fun _ => .pure _

private theorem failsBy_attributes (kept : List KeptAnnotation) : FailsBy R (attributes kept) :=
  (failsBy_listAttribute _ _).bind fun _ => (failsBy_listAttribute _ _).bind fun _ => .pure _

private theorem failsBy_tableAttribute (name : String) (parameters : List (Nat × List StoredAnnotation)) :
    FailsBy R (tableAttribute name parameters) := by
  unfold tableAttribute
  split
  · exact .pure _
  · exact (FailsBy.mapM fun row _ => .bounded _ row).bind fun _ =>
      (FailsBy.named _ _).bind fun _ => .pure _

private theorem failsBy_parameterAttributes (parameters : List (Nat × List KeptAnnotation)) :
    FailsBy R (parameterAttributes parameters) := by
  unfold parameterAttributes
  split
  · exact (failsBy_tableAttribute _ _).bind fun _ => (failsBy_tableAttribute _ _).bind fun _ => .pure _
  · exact .throw (.inl ⟨_, rfl⟩)

end KeptAnnotation

end Annotations

open KeptAnnotation

namespace FieldDecl

variable {R : GenerateError → Prop}

private theorem failsBy_constantValue? (value : Literal) : FailsBy R (constantValue? value) := by
  cases value with
  | null | enum | array => exact .pure _
  | _ => exact .map _ (.pooled _)

private theorem failsBy_valueAttribute {f : FieldDecl}
    (hvalue : f.initial.any Literal.needsCode = true → f.isStatic = false →
      R (.nonStaticInitializer f.name)) : FailsBy R f.valueAttribute := by
  unfold valueAttribute
  split
  · exact .pure _
  · rename_i value hinitial
    split
    · rename_i hneeds
      split
      · exact .pure _
      · rename_i hstatic
        exact .throw (.inr (hvalue (by rw [hinitial]; exact hneeds) (Bool.eq_false_of_not_eq_true hstatic)))
    · refine (failsBy_constantValue? value).bind fun index? => ?_
      cases index? with
      | none => exact .pure _
      | some index => exact (FailsBy.named _ _).bind fun _ => .pure _

private theorem failsBy_generate {f : FieldDecl}
    (hvalue : f.initial.any Literal.needsCode = true → f.isStatic = false →
      R (.nonStaticInitializer f.name)) : FailsBy R f.generate :=
  (failsBy_valueAttribute hvalue).bind fun _ => (failsBy_storeKept _).bind fun _ =>
    (failsBy_attributes _).bind fun _ => (FailsBy.pooled _).bind fun _ =>
      (FailsBy.pooled _).bind fun _ => (FailsBy.bounded _ _).bind fun _ => .pure _

end FieldDecl

namespace MethodDecl

variable {R : GenerateError → Prop} {options : Options} {owner : ClassDecl} {m : MethodDecl} {b : Body}
  {fields : List Initializer}

private theorem failsBy_declare {w : Nat} (locals : List (Local × UInt16)) (types : Locals w) :
    FailsBy R (Layout.declare types locals) := by
  induction locals generalizing types with
  | nil => exact .pure _
  | cons l rest ih =>
    refine FailsBy.bind ?_ fun type => ih _
    unfold VerificationType.ofType
    split
    · exact (FailsBy.pooled _).bind fun _ => .pure _
    all_goals exact .pure _

private theorem failsBy_layout? (slots : Slots) : FailsBy R (m.layout? options owner b slots) := by
  unfold layout?
  split
  · refine .map _ ((failsBy_declare _ _).bind fun declared => ?_)
    dsimp only
    split
    · exact (FailsBy.pooled _).bind fun _ => .pure _
    · exact .pure _
  · exact .pure _

private theorem failsBy_nameAttributes (length : Nat) (slots : Slots) :
    FailsBy R (nameAttributes options length slots) := by
  unfold nameAttributes localTable
  split
  · split
    · exact .pure _
    · exact (FailsBy.mapM fun _ _ => (FailsBy.pooled _).bind fun _ => (FailsBy.pooled _).bind fun _ =>
        .pure _).bind fun _ => (FailsBy.named _ _).bind fun _ => .pure _
  · exact .pure _

private theorem failsBy_stackMap (frames : List MapFrame) : FailsBy R (stackMap frames) := by
  unfold stackMap
  split
  · exact .pure _
  · exact (FailsBy.named _ _).bind fun _ => .pure _

private theorem failsBy_ofItems {items : List Item} (layout? : Option Layout)
    (hmisses : ∀ e, Item.FirstMiss items e → R e) : FailsBy R (Assembly.ofItems items layout?) := by
  intro p e h
  cases Assembly.run_error_iff_fails.mp h with
  | codeSize long => exact .inl ⟨_, rfl⟩
  | branch fits misses => exact .inr (hmisses e misses)
  | @throwable overflow => exact .inl overflow.exists_limit

private theorem failsBy_codeAttribute (hlower : ∀ p e, m.lower owner b fields p = .error e → R e)
    (hmisses : ∀ p items slots q e, m.lower owner b fields p = .ok ((items, slots), q) →
      Item.FirstMiss items e → R e) :
    FailsBy R (m.codeAttribute options owner b fields) := by
  intro p e h
  rcases run_bind_error_iff.mp h with h | ⟨⟨items, slots⟩, q, hlowered, h⟩
  · exact .inr (hlower p e h)
  · refine ((failsBy_layout? slots).bind fun layout? => (failsBy_ofItems layout? fun e hmiss => ?_).bind
      fun assembly => (failsBy_nameAttributes _ _).bind fun _ => (failsBy_stackMap _).bind fun _ =>
        .named _ _) q e h
    exact hmisses p items slots q e hlowered hmiss

private theorem failsBy_checkSlots
    (hslots : JavaType.countWords? (if m.isStatic then 0 else 1) (m.parameters.map (·.type)) = none →
      R .overflow) : FailsBy R m.checkSlots := by
  unfold checkSlots
  split
  · exact .pure _
  · rename_i hnone
    exact .throw (.inr (hslots hnone))

end MethodDecl

namespace ClassDecl

/-- The errors with which members of the class are refused for what they say. -/
inductive Refuses (c : ClassDecl) : GenerateError → Prop where
  | value {f : FieldDecl} (declared : f ∈ c.fields) (isStatic : f.isStatic = false)
      (needsCode : f.initial.any Literal.needsCode = true) : Refuses c (.nonStaticInitializer f.name)
  | statement {m : MethodDecl} {fields : List Initializer} {b : Body} {p : Pool} {e : GenerateError}
      (planned : (m, fields) ∈ c.plan) (body : m.body? = some b)
      (fails : m.lower c b fields p = .error e) : Refuses c e
  | branch {m : MethodDecl} {fields : List Initializer} {b : Body} {p q : Pool} {items : List Item}
      {slots : Slots} {e : GenerateError} (planned : (m, fields) ∈ c.plan) (body : m.body? = some b)
      (lowers : m.lower c b fields p = .ok ((items, slots), q)) (misses : Item.FirstMiss items e) :
      Refuses c e
  | parameters {m : MethodDecl} {fields : List Initializer} (planned : (m, fields) ∈ c.plan)
      (overflows : JavaType.countWords? (if m.isStatic then 0 else 1) (m.parameters.map (·.type)) = none) :
      Refuses c .overflow

variable {options : Options} {c : ClassDecl}

private theorem failsBy_method {m : MethodDecl} {fields : List Initializer} (hm : (m, fields) ∈ c.plan) :
    FailsBy c.Refuses (m.generate options c fields) := by
  have hcode : FailsBy c.Refuses (m.codeAttributes options c fields) := by
    unfold MethodDecl.codeAttributes
    split
    · exact .pure _
    · rename_i b hbody
      exact (MethodDecl.failsBy_codeAttribute (fun p e => .statement hm hbody)
        fun p items slots q e => .branch hm hbody).bind fun _ => .pure _
  exact hcode.bind fun _ => (MethodDecl.failsBy_checkSlots (.parameters hm)).bind fun _ =>
    (failsBy_storeKept _).bind fun _ =>
      (FailsBy.mapM fun p _ => failsBy_storeKept _).bind fun _ =>
        (failsBy_attributes _).bind fun _ =>
          (failsBy_parameterAttributes _).bind fun _ => (FailsBy.pooled _).bind fun _ =>
            (FailsBy.pooled _).bind fun _ => (FailsBy.bounded _ _).bind fun _ => .pure _

/-- A class that cannot be generated breaks a limit, or a member is refused. -/
theorem limitExceeded_or_refuses {e : GenerateError} (h : c.generate options = .error e) :
    (∃ limit, e = .limitExceeded limit) ∨ c.Refuses e := by
  have hsuper : FailsBy c.Refuses c.superIndex := by
    unfold superIndex
    split
    · exact .pure _
    · exact .pooled _
  have hsource : FailsBy c.Refuses c.sourceAttribute := by
    unfold sourceAttribute
    split
    · exact .pure _
    · exact (FailsBy.pooled _).bind fun _ => (FailsBy.named _ _).bind fun _ => .pure _
  have hmethods : FailsBy c.Refuses
      (generateMethods options c c.initializers [] c.allMethods) := by
    rw [generateMethods_eq]
    exact (FailsBy.mapM fun m hm => failsBy_method hm).bind fun _ => .pure _
  have hbuild : FailsBy c.Refuses (c.build options) :=
    (FailsBy.pooled _).bind fun _ => hsuper.bind fun _ => (FailsBy.mapM fun _ _ => .pooled _).bind fun _ =>
      (failsBy_storeKept _).bind fun _ => (FailsBy.mapM fun f hf =>
        FieldDecl.failsBy_generate fun hneeds hstatic => .value hf hstatic hneeds).bind fun _ =>
          hmethods.bind fun _ => hsource.bind fun _ => (failsBy_attributes _).bind fun _ =>
            (FailsBy.bounded _ _).bind fun _ => (FailsBy.bounded _ _).bind fun _ =>
              (FailsBy.bounded _ _).bind fun _ => (FailsBy.bounded _ _).bind fun _ => .pure _
  refine hbuild {} e ?_
  unfold generate at h
  cases hrun : c.build options {} with
  | error e' =>
    rw [hrun] at h
    cases h
    rfl
  | ok out =>
    rw [hrun] at h
    cases h

end ClassDecl

end Classwright
