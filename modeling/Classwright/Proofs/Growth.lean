import Classwright.Generate.Class
import Classwright.Proofs.Interning

/-!
# Growth of the pool during generation

Every step of generation keeps the pool sound and only adds to it, so an index that was handed out
at some point means the same in the finished class file.  This is carried from single constants
through all the rules that make up a class.
-/

namespace Classwright

section Run

variable {σ α β : Type}

theorem run_bind_iff {x : StateT σ (Except GenerateError) α}
    {f : α → StateT σ (Except GenerateError) β} {s : σ} {r : β × σ} :
    (x >>= f) s = .ok r ↔ ∃ a s', x s = .ok (a, s') ∧ f a s' = .ok r := by
  change (x s >>= fun (a, s') => f a s') = .ok r ↔ _
  cases hx : x s with
  | error e =>
    constructor
    · intro h
      cases h
    · rintro ⟨a, s', ⟨⟩, -⟩
  | ok out =>
    obtain ⟨a, s'⟩ := out
    constructor
    · intro h
      exact ⟨a, s', rfl, h⟩
    · rintro ⟨b, t, hb, h⟩
      cases hb
      exact h

theorem run_bind_of_ok {x : StateT σ (Except GenerateError) α}
    {f : α → StateT σ (Except GenerateError) β} {s s' : σ} {a : α} (h : x s = .ok (a, s')) :
    (x >>= f) s = f a s' := by
  change (x s >>= fun (a, s') => f a s') = _
  rw [h]
  rfl

theorem run_bind_error_iff {x : StateT σ (Except GenerateError) α}
    {f : α → StateT σ (Except GenerateError) β} {s : σ} {e : GenerateError} :
    (x >>= f) s = .error e ↔ x s = .error e ∨ ∃ a s', x s = .ok (a, s') ∧ f a s' = .error e := by
  change (x s >>= fun (a, s') => f a s') = .error e ↔ _
  cases hx : x s with
  | error e' =>
    constructor
    · rintro ⟨⟩
      exact .inl rfl
    · rintro (h | ⟨a, s', ⟨⟩, -⟩)
      cases h
      rfl
  | ok out =>
    obtain ⟨a, s'⟩ := out
    constructor
    · intro h
      exact .inr ⟨a, s', rfl, h⟩
    · rintro (⟨⟨⟩⟩ | ⟨b, t, hb, h⟩)
      cases hb
      exact h

theorem run_pure_iff {a : α} {s : σ} {r : α × σ} :
    (pure a : StateT σ (Except GenerateError) α) s = .ok r ↔ (a, s) = r := by
  change Except.ok (a, s) = .ok r ↔ _
  rw [Except.ok.injEq]

theorem run_throw_ne {e : GenerateError} {s : σ} {r : α × σ} :
    (throw e : StateT σ (Except GenerateError) α) s ≠ .ok r := by
  rintro ⟨⟩

theorem run_map_iff {f : α → β} {x : StateT σ (Except GenerateError) α} {s : σ} {b : β} {s' : σ} :
    (f <$> x) s = .ok (b, s') ↔ ∃ a, x s = .ok (a, s') ∧ f a = b := by
  rw [map_eq_pure_bind, run_bind_iff]
  constructor
  · rintro ⟨a, t, hx, hp⟩
    obtain ⟨rfl, rfl⟩ := Prod.mk.inj (run_pure_iff.mp hp)
    exact ⟨a, hx, rfl⟩
  · rintro ⟨a, hx, rfl⟩
    exact ⟨a, s', hx, rfl⟩

theorem run_lift_iff {x : Except GenerateError α} {s s' : σ} {a : α} :
    (liftM x : StateT σ (Except GenerateError) α) s = .ok (a, s') ↔ x = .ok a ∧ s = s' := by
  change (x >>= fun a => .ok (a, s)) = .ok (a, s') ↔ _
  cases x with
  | error e =>
    constructor
    · rintro ⟨⟩
    · rintro ⟨⟨⟩, -⟩
  | ok b =>
    constructor
    · rintro ⟨⟩
      exact ⟨rfl, rfl⟩
    · rintro ⟨⟨⟩, rfl⟩
      rfl

theorem run_lift_error_iff {x : Except GenerateError α} {s : σ} {e : GenerateError} :
    (liftM x : StateT σ (Except GenerateError) α) s = .error e ↔ x = .error e := by
  change (x >>= fun a => .ok (a, s)) = .error e ↔ _
  cases x with
  | error e' =>
    constructor <;>
    · rintro ⟨⟩
      rfl
  | ok b => constructor <;> rintro ⟨⟩

/-- The pool of the state stays sound and only grows when the step succeeds. -/
def Grows (pool : σ → Pool) (act : StateT σ (Except GenerateError) α) : Prop :=
  ∀ s a s', act s = .ok (a, s') → (pool s).Sound → (pool s').Sound ∧ pool s ≤ pool s'

namespace Grows

variable {pool : σ → Pool}

theorem pure (a : α) : Grows pool (Pure.pure a : StateT σ (Except GenerateError) α) := by
  intro s b s' h hs
  obtain ⟨-, rfl⟩ := Prod.mk.inj (run_pure_iff.mp h)
  exact ⟨hs, Pool.le_refl _⟩

theorem throw (e : GenerateError) :
    Grows pool (MonadExcept.throw e : StateT σ (Except GenerateError) α) :=
  fun _ _ _ h => absurd h run_throw_ne

theorem lift (x : Except GenerateError α) :
    Grows pool (liftM x : StateT σ (Except GenerateError) α) := by
  intro s a s' h hs
  obtain ⟨-, rfl⟩ := run_lift_iff.mp h
  exact ⟨hs, Pool.le_refl _⟩

theorem get : Grows pool (MonadState.get : StateT σ (Except GenerateError) σ) := by
  rintro s a s' ⟨⟩ hs
  exact ⟨hs, Pool.le_refl _⟩

theorem bind {x : StateT σ (Except GenerateError) α} {f : α → StateT σ (Except GenerateError) β}
    (hx : Grows pool x) (hf : ∀ a, Grows pool (f a)) : Grows pool (x >>= f) := by
  intro s b s' h hs
  obtain ⟨a, t, hxs, hft⟩ := run_bind_iff.mp h
  obtain ⟨ht, hle⟩ := hx s a t hxs hs
  obtain ⟨hs', hle'⟩ := hf a t b s' hft ht
  exact ⟨hs', Pool.le_trans hle hle'⟩

theorem map {x : StateT σ (Except GenerateError) α} (f : α → β) (hx : Grows pool x) :
    Grows pool (f <$> x) := by
  rw [map_eq_pure_bind]
  exact hx.bind fun a => .pure (f a)

theorem mapM {f : α → StateT σ (Except GenerateError) β} (hf : ∀ a, Grows pool (f a))
    (items : List α) : Grows pool (items.mapM f) := by
  induction items with
  | nil => exact .pure []
  | cons a items ih =>
    rw [List.mapM_cons]
    exact (hf a).bind fun b => ih.bind fun bs => .pure (b :: bs)

end Grows

end Run

section Pooling

theorem run_pooled_iff {r : Pool.Request} {p q : Pool} {i : UInt16} :
    pooled r.intern p = .ok (i, q) ↔ r.intern p = (.ok i, q) := by
  unfold pooled
  rcases r.intern p with ⟨_ | j, p'⟩
  · constructor <;> rintro ⟨⟩
  · constructor <;>
    · rintro ⟨⟩
      rfl

theorem run_pooled_error_iff {act : Interning UInt16} {p : Pool} {e : GenerateError} :
    pooled act p = .error e ↔ ∃ overflow, (act p).1 = .error overflow ∧ e = overflow.toError := by
  unfold pooled
  rcases act p with ⟨overflow | i, p'⟩
  · constructor
    · rintro ⟨⟩
      exact ⟨overflow, rfl, rfl⟩
    · rintro ⟨_, ⟨⟩, rfl⟩
      rfl
  · constructor
    · rintro ⟨⟩
    · rintro ⟨_, ⟨⟩, -⟩

theorem meaning?_of_pooled {r : Pool.Request} {p q : Pool} {i : UInt16} (hp : p.Sound)
    (h : pooled r.intern p = .ok (i, q)) : q.Sound ∧ p ≤ q ∧ q.meaning? i = some r := by
  have ha := hp.answers r
  rw [run_pooled_iff.mp h] at ha
  exact ⟨ha.sound, ha.le, (ha.of_ok i rfl).1⟩

theorem Grows.pooled (r : Pool.Request) : Grows id (pooled r.intern) := by
  intro p i q h hp
  obtain ⟨hq, hle, -⟩ := meaning?_of_pooled hp h
  exact ⟨hq, hle⟩

theorem Grows.utf8 (text : String) : Grows id (Classwright.pooled (Pool.utf8 text)) :=
  .pooled (.utf8 text)

theorem Grows.classInfo (name : String) : Grows id (Classwright.pooled (Pool.classInfo name)) :=
  .pooled (.classInfo name)

theorem Grows.integer (value : Int32) : Grows id (Classwright.pooled (Pool.integer value)) :=
  .pooled (.integer value)

theorem Grows.long (value : Int64) : Grows id (Classwright.pooled (Pool.long value)) :=
  .pooled (.long value)

theorem Grows.float (bits : UInt32) : Grows id (Classwright.pooled (Pool.float bits)) :=
  .pooled (.float bits)

theorem Grows.double (bits : UInt64) : Grows id (Classwright.pooled (Pool.double bits)) :=
  .pooled (.double bits)

theorem grows_named (body : AttributeBody) (name : String) : Grows id (body.named name) :=
  (Grows.utf8 name).bind fun _ => .pure _

theorem run_bounded_iff {α : Type} {limit : Limit} {items out : List α} {p q : Pool} :
    bounded limit items p = .ok (out, q) ↔ items.length ≤ 65535 ∧ items = out ∧ p = q := by
  unfold bounded
  split
  · rename_i hle
    rw [run_pure_iff, Prod.mk.injEq]
    exact ⟨fun h => ⟨hle, h⟩, fun h => h.2⟩
  · rename_i hle
    exact ⟨fun h => absurd h run_throw_ne, fun h => absurd h.1 hle⟩

theorem grows_bounded {α : Type} (limit : Limit) (items : List α) :
    Grows id (bounded limit items) := by
  intro p out q h hp
  obtain ⟨-, -, rfl⟩ := run_bounded_iff.mp h
  exact ⟨hp, Pool.le_refl _⟩

end Pooling

namespace AnnotationValue

mutual

theorem grows_store : ∀ v : AnnotationValue, Grows id v.store
  | boolean _ => (Grows.integer _).bind fun _ => .pure _
  | byte _ => (Grows.integer _).bind fun _ => .pure _
  | char _ => (Grows.integer _).bind fun _ => .pure _
  | short _ => (Grows.integer _).bind fun _ => .pure _
  | int _ => (Grows.integer _).bind fun _ => .pure _
  | long _ => (Grows.long _).bind fun _ => .pure _
  | float _ => (Grows.float _).bind fun _ => .pure _
  | double _ => (Grows.double _).bind fun _ => .pure _
  | string _ => (Grows.utf8 _).bind fun _ => .pure _
  | enum _ _ => (Grows.utf8 _).bind fun _ => (Grows.utf8 _).bind fun _ => .pure _
  | type _ => (Grows.utf8 _).bind fun _ => .pure _
  | array values => (grows_storeValues values []).bind fun _ => .pure _
  | nested _ _ elements =>
    (Grows.utf8 _).bind fun _ => (grows_storeElements elements []).bind fun _ => .pure _

theorem grows_storeValues : ∀ (values : List AnnotationValue) (done : List ElementValue),
    Grows id (storeValues values done)
  | [], _ => .pure _
  | v :: rest, _ => (grows_store v).bind fun _ => grows_storeValues rest _

theorem grows_storeElements : ∀ (elements : List (String × AnnotationValue))
    (done : List (UInt16 × ElementValue)), Grows id (storeElements elements done)
  | [], _ => .pure _
  | (_, v) :: rest, _ =>
    (Grows.utf8 _).bind fun _ => (grows_store v).bind fun _ => grows_storeElements rest _

end

end AnnotationValue

theorem grows_storeAnnotated (a : Annotation) : Grows id a.store :=
  (Grows.utf8 _).bind fun _ =>
    (AnnotationValue.grows_storeElements a.elements []).bind fun _ => .pure _

open Annotation in
theorem grows_storeKept (list : List Annotation) : Grows id (storeKept list) :=
  .mapM grows_storeAnnotated _

section Kept

open KeptAnnotation

theorem grows_listAttribute (name : String) (list : List StoredAnnotation) :
    Grows id (listAttribute name list) := by
  unfold listAttribute
  split
  · exact .pure _
  · exact (grows_bounded _ _).bind fun _ => (grows_named _ _).bind fun _ => .pure _

theorem grows_keptAttributes (kept : List KeptAnnotation) :
    Grows id (attributes kept) :=
  (grows_listAttribute _ _).bind fun _ => (grows_listAttribute _ _).bind fun _ => .pure _

theorem grows_tableAttribute (name : String) (parameters : List (Nat × List StoredAnnotation)) :
    Grows id (tableAttribute name parameters) := by
  unfold tableAttribute
  split
  · exact .pure _
  · exact (Grows.mapM (grows_bounded _) _).bind fun _ => (grows_named _ _).bind fun _ => .pure _

theorem grows_parameterAttributes (parameters : List (Nat × List KeptAnnotation)) :
    Grows id (parameterAttributes parameters) := by
  unfold parameterAttributes
  split
  · exact (grows_tableAttribute _ _).bind fun _ => (grows_tableAttribute _ _).bind fun _ => .pure _
  · exact .throw _

end Kept

namespace Literal

theorem grows_pushInt (v : Int32) : Grows id (pushInt v) := by
  unfold pushInt
  dsimp only
  split_ifs
  · exact .pure _
  · exact .pure _
  · exact .pure _
  · exact (Grows.integer _).bind fun _ => .pure _

theorem grows_pushLong (v : Int64) : Grows id (pushLong v) := by
  unfold pushLong
  split_ifs
  · exact .pure _
  · exact .pure _
  · exact (Grows.long _).bind fun _ => .pure _

theorem grows_pushFloat (bits : UInt32) : Grows id (pushFloat bits) := by
  unfold pushFloat
  split_ifs
  · exact .pure _
  · exact .pure _
  · exact .pure _
  · exact (Grows.float _).bind fun _ => .pure _

theorem grows_pushDouble (bits : UInt64) : Grows id (pushDouble bits) := by
  unfold pushDouble
  split_ifs
  · exact .pure _
  · exact .pure _
  · exact (Grows.double _).bind fun _ => .pure _

theorem grows_allocate (component : JavaType) : Grows id (allocate component) := by
  unfold allocate
  split
  · exact .throw _
  · split
    · exact .pure _
    · exact (Grows.classInfo _).bind fun _ => .pure _

mutual

theorem grows_push : ∀ value : Literal, Grows id value.push
  | boolean _ => (grows_pushInt _).bind fun _ => .pure _
  | byte _ => (grows_pushInt _).bind fun _ => .pure _
  | short _ => (grows_pushInt _).bind fun _ => .pure _
  | char _ => (grows_pushInt _).bind fun _ => .pure _
  | int _ => (grows_pushInt _).bind fun _ => .pure _
  | long _ => (grows_pushLong _).bind fun _ => .pure _
  | float _ => (grows_pushFloat _).bind fun _ => .pure _
  | double _ => (grows_pushDouble _).bind fun _ => .pure _
  | string s => (Grows.pooled (.string s)).bind fun _ => .pure _
  | null => .pure _
  | enum owner name =>
    (Grows.pooled (.fieldRef owner.name name (JavaType.object owner).descriptor)).bind fun _ =>
      .pure _
  | array component elements => by
    unfold push
    split
    · exact (Grows.throw _).bind fun _ => (grows_pushInt _).bind fun _ =>
        (grows_allocate _).bind fun _ => (grows_pushElements _ _ elements _).bind fun _ => .pure _
    · exact (grows_pushInt _).bind fun _ => (grows_allocate _).bind fun _ =>
        (grows_pushElements _ _ elements _).bind fun _ => .pure _

theorem grows_pushElements (store : Instr) (index : Nat) :
    ∀ (elements : List Literal) (done : List (List Instr)),
      Grows id (pushElements store index elements done)
  | [], _ => .pure _
  | e :: rest, _ =>
    (grows_pushInt _).bind fun _ => (grows_push e).bind fun _ =>
      grows_pushElements store (index + 1) rest _

end

end Literal

namespace JavaType

private theorem grows_unbox (p : Primitive) : Grows id (unbox p) := by
  unfold unbox
  split
  · exact .throw _
  · exact (Grows.classInfo _).bind fun _ =>
      (Grows.pooled (.methodRef _ _ _)).bind fun _ => .pure _

theorem grows_adaptResult (source target : JavaType) : Grows id (adaptResult source target) := by
  unfold adaptResult
  split
  · exact .throw _
  · split
    · split
      · split_ifs
        · exact grows_unbox _
        · exact .throw _
        · exact .throw _
      · exact .pure _
    · split
      · exact .pure _
      · exact .throw _

theorem grows_castReturn (declared : JavaType) : Grows id (castReturn declared) := by
  unfold castReturn
  split
  · exact (Grows.classInfo _).bind fun _ => .pure _
  · exact .pure _

end JavaType

theorem VerificationType.grows_ofType (t : JavaType) : Grows id (ofType t) := by
  unfold ofType
  split
  · exact (Grows.classInfo _).bind fun _ => .pure _
  all_goals exact .pure _

namespace Layout

theorem grows_declare {w : Nat} (types : Locals w) (locals : List (Local × UInt16)) :
    Grows id (declare types locals) := by
  induction locals generalizing types with
  | nil => exact .pure _
  | cons l rest ih => exact (VerificationType.grows_ofType _).bind fun _ => ih _

private theorem grows_ofSlots (owner : ClassDecl) (method : MethodDecl) (b : Body) (slots : Slots) :
    Grows id (ofSlots owner method b slots) := by
  refine (grows_declare _ _).bind fun _ => ?_
  dsimp only
  split
  · exact (Grows.classInfo _).bind fun _ => .pure _
  · exact .pure _

end Layout

namespace Assembly

private theorem grows_mapFrames (d : Draft) (steps : Array Step) (layout : Layout)
    (states : Flow.States layout.width steps.size) : Grows id (mapFrames d steps layout states) := by
  unfold mapFrames
  dsimp only
  split
  · exact .pure _
  · exact (Grows.classInfo _).bind fun _ => .pure _

theorem grows_ofItems (items : List Item) (layout? : Option Layout) :
    Grows id (ofItems items layout?) := by
  unfold ofItems
  refine (Grows.lift _).bind fun steps => ?_
  dsimp only
  split
  · exact (grows_mapFrames _ _ _ _).bind fun _ => Grows.get.bind fun _ => .pure _
  · exact (Grows.pure _).bind fun _ => Grows.get.bind fun _ => .pure _

end Assembly

namespace MethodDecl

theorem grows_localVariable (length : UInt16) (l : Local × UInt16) :
    Grows id (localVariable length l) :=
  (Grows.utf8 _).bind fun _ => (Grows.utf8 _).bind fun _ => .pure _

private theorem grows_localTable (length : UInt16) (slots : Slots) :
    Grows id (localTable length slots) := by
  unfold localTable
  split
  · exact .pure _
  · exact (Grows.mapM (grows_localVariable length) _).bind fun _ =>
      (grows_named _ _).bind fun _ => .pure _

theorem grows_stackMap (frames : List MapFrame) : Grows id (stackMap frames) := by
  unfold stackMap
  split
  · exact .pure _
  · exact (grows_named _ _).bind fun _ => .pure _

theorem grows_layout? (options : Options) (owner : ClassDecl) (m : MethodDecl) (b : Body)
    (slots : Slots) : Grows id (m.layout? options owner b slots) := by
  unfold layout?
  split
  · exact .map _ (Layout.grows_ofSlots _ _ _ _)
  · exact .pure _

theorem grows_nameAttributes (options : Options) (length : Nat) (slots : Slots) :
    Grows id (nameAttributes options length slots) := by
  unfold nameAttributes
  split
  · exact grows_localTable _ _
  · exact .pure _

end MethodDecl

namespace FieldDecl

theorem grows_constantValue? (value : Literal) : Grows id (constantValue? value) := by
  cases value with
  | boolean b => exact .map _ (.integer _)
  | byte v => exact .map _ (.integer _)
  | short v => exact .map _ (.integer _)
  | char v => exact .map _ (.integer _)
  | int v => exact .map _ (.integer _)
  | long v => exact .map _ (.long _)
  | float bits => exact .map _ (.float _)
  | double bits => exact .map _ (.double _)
  | string s => exact .map _ (.pooled (.string s))
  | null => exact .pure _
  | enum owner name => exact .pure _
  | array component elements => exact .pure _

theorem grows_valueAttribute (f : FieldDecl) : Grows id f.valueAttribute := by
  unfold valueAttribute
  split
  · exact .pure _
  · split
    · split
      · exact .pure _
      · exact .throw _
    · refine (grows_constantValue? _).bind fun index? => ?_
      cases index? with
      | none => exact .pure _
      | some index => exact (grows_named _ _).bind fun _ => .pure _

theorem grows_generate (f : FieldDecl) : Grows id f.generate :=
  (grows_valueAttribute f).bind fun _ => (grows_storeKept _).bind fun _ =>
    (grows_keptAttributes _).bind fun _ => (Grows.utf8 _).bind fun _ =>
      (Grows.utf8 _).bind fun _ => (grows_bounded _ _).bind fun _ => .pure _

end FieldDecl

namespace ClassDecl

theorem grows_superIndex (c : ClassDecl) : Grows id c.superIndex := by
  unfold superIndex
  split
  · exact .pure _
  · exact .classInfo _

theorem grows_sourceAttribute (c : ClassDecl) : Grows id c.sourceAttribute := by
  unfold sourceAttribute
  split
  · exact .pure _
  · exact (Grows.utf8 _).bind fun _ => (grows_named _ _).bind fun _ => .pure _

end ClassDecl

end Classwright
