import Classwright.Proofs.Assignment
import Classwright.Proofs.Literals
import Classwright.Proofs.Slots

/-!
# What lowering emits

While a method is lowered its slots and its pool only grow, so what an instruction refers to can be
read off the slots and the pool in which lowering ends.  Here is said, for every statement, which
items it becomes in these terms.
-/

namespace Classwright

/-- What the pool has for a method; methods of interfaces have entries of their own. -/
def MethodSymbol.reference (m : MethodSymbol) : Pool.Request :=
  if m.owner.isInterface then .interfaceMethodRef m.owner.name m.name m.descriptor
  else .methodRef m.owner.name m.name m.descriptor

namespace Lowering

/-- A state of lowering that arises from a sound pool when only locals with the property `T` are
given slots. -/
structure Ok (T : Local → Prop) (s : Lowering) : Prop where
  sound : s.pool.Sound
  slots : s.slots.WellFormed
  locals : ∀ entry ∈ s.slots.locals.toList, T entry.1

instance : LE Lowering := ⟨fun s t => s.pool ≤ t.pool ∧ s.slots ≤ t.slots⟩

protected theorem le_refl (s : Lowering) : s ≤ s := ⟨Pool.le_refl _, Slots.le_refl _⟩

protected theorem le_trans {s t u : Lowering} (hst : s ≤ t) (htu : t ≤ u) : s ≤ u :=
  ⟨Pool.le_trans hst.1 htu.1, Slots.le_trans hst.2 htu.2⟩

end Lowering

namespace Lower

section Yields

variable {α β : Type} {T : Local → Prop}

/-- What a step that succeeds says about every later state in which lowering may end. -/
def Yields (T : Local → Prop) (act : Lower α) (P : Lowering → α → Prop) : Prop :=
  ∀ s a s', act s = .ok (a, s') → s.Ok T →
    s'.Ok T ∧ s ≤ s' ∧ ∀ final : Lowering, final.Ok T → s' ≤ final → P final a

namespace Yields

theorem pure (a : α) : Yields T (Pure.pure a) fun _ b => b = a := by
  intro s b s' h hs
  obtain ⟨rfl, rfl⟩ := Prod.mk.inj (run_pure_iff.mp h)
  exact ⟨hs, Lowering.le_refl s, fun _ _ _ => rfl⟩

theorem throw {P : Lowering → α → Prop} (e : GenerateError) :
    Yields T (MonadExcept.throw e) P :=
  fun _ _ _ h => absurd h run_throw_ne

theorem bind {x : Lower α} {f : α → Lower β} {P : Lowering → α → Prop}
    {Q : α → Lowering → β → Prop} (hx : Yields T x P) (hf : ∀ a, Yields T (f a) (Q a)) :
    Yields T (x >>= f) fun final b => ∃ a, P final a ∧ Q a final b := by
  intro s b s' h hs
  obtain ⟨a, t, hxs, hft⟩ := run_bind_iff.mp h
  obtain ⟨ht, hle, hP⟩ := hx s a t hxs hs
  obtain ⟨hs', hle', hQ⟩ := hf a t b s' hft ht
  refine ⟨hs', Lowering.le_trans hle hle', fun final hfinal hlater => ?_⟩
  exact ⟨a, hP final hfinal (Lowering.le_trans hle' hlater), hQ final hfinal hlater⟩

private theorem imp {act : Lower α} {P Q : Lowering → α → Prop} (h : Yields T act P)
    (hPQ : ∀ final a, P final a → Q final a) : Yields T act Q := by
  intro s a s' hrun hs
  obtain ⟨hs', hle, hP⟩ := h s a s' hrun hs
  exact ⟨hs', hle, fun final hfinal hlater => hPQ final a (hP final hfinal hlater)⟩

theorem mapM {f : α → Lower β} {P : α → Lowering → β → Prop} {items : List α}
    (hf : ∀ a ∈ items, Yields T (f a) (P a)) :
    Yields T (items.mapM f) fun final out => List.Forall₂ (fun a b => P a final b) items out := by
  induction items with
  | nil => exact (pure []).imp fun final out h => h ▸ .nil
  | cons a items ih =>
    rw [List.mapM_cons]
    have htail := ih fun b hb => hf b (List.mem_cons_of_mem a hb)
    refine ((hf a List.mem_cons_self).bind fun b => htail.bind fun bs => pure (b :: bs)).imp ?_
    rintro final out ⟨b, hb, bs, hbs, rfl⟩
    exact .cons hb hbs

end Yields

theorem run_pooling_iff {act : Pooling α} {s s' : Lowering} {a : α} :
    pooling act s = .ok (a, s') ↔ act s.pool = .ok (a, s'.pool) ∧ s'.slots = s.slots := by
  obtain ⟨pool, slots⟩ := s
  obtain ⟨pool', slots'⟩ := s'
  unfold pooling
  dsimp only
  cases act pool with
  | error e => simp
  | ok out =>
    obtain ⟨b, q⟩ := out
    simp only [Except.ok.injEq, Prod.mk.injEq, Lowering.mk.injEq, eq_comm (a := slots')]
    tauto

private theorem yields_pooling {act : Pooling α} (h : Grows id act) :
    Yields T (pooling act) fun final a => Ran final.pool act a := by
  intro s a s' hrun hs
  obtain ⟨hact, hslots⟩ := run_pooling_iff.mp hrun
  obtain ⟨hsound, hle⟩ := h s.pool a s'.pool hact hs.sound
  refine ⟨⟨hsound, hslots ▸ hs.slots, hslots ▸ hs.locals⟩, ⟨hle, hslots ▸ Slots.le_refl _⟩, ?_⟩
  intro final _ hlater
  exact ⟨s.pool, s'.pool, hact, hs.sound, hlater.1⟩

private theorem yields_constant (r : Pool.Request) :
    Yields T (constant r.intern) fun final i => final.pool.meaning? i = some r :=
  (yields_pooling (.pooled r)).imp fun _ _ => meaning?_of_ran

private theorem yields_kindOf (t : JavaType) : Yields T (kindOf t) fun _ kind => t.kind? = some kind := by
  unfold kindOf
  split
  · rename_i kind hkind
    exact (Yields.pure kind).imp fun _ _ h => h ▸ hkind
  · exact .throw _

private theorem yields_slotOf (l : Local) :
    Yields T (slotOf l) fun final slot => final.slots.index[l.name]? = some slot := by
  intro s slot s' h hs
  unfold slotOf at h
  split at h
  · cases h
  · rename_i found hfound
    cases h
    refine ⟨hs, Lowering.le_refl s, fun final hfinal hlater => ?_⟩
    exact Slots.index_mono hs.slots hfinal.slots hlater.2 (Slots.lookup_eq_ok_iff.mp hfound)

private theorem yields_slotForStore {l : Local} (hl : T l) :
    Yields T (slotForStore l) fun final slot => final.slots.index[l.name]? = some slot := by
  intro s slot s' h hs
  unfold slotForStore at h
  dsimp only at h
  split at h
  · cases h
  · rename_i found slots hfound
    cases h
    obtain ⟨hslots, hindex, hlocals⟩ := hs.slots.forStore hfound
    have hle : s.slots ≤ slots := by
      rcases hlocals with rfl | hlocals
      · exact Slots.le_refl _
      · exact ⟨[(l, slot)], hlocals.symm⟩
    have hnamed : ∀ entry ∈ slots.locals.toList, T entry.1 := by
      intro entry hentry
      rcases hlocals with rfl | hlocals
      · exact hs.locals entry hentry
      · rw [hlocals, List.mem_append, List.mem_singleton] at hentry
        rcases hentry with hentry | rfl
        · exact hs.locals entry hentry
        · exact hl
    refine ⟨⟨hs.sound, hslots, hnamed⟩, ⟨Pool.le_refl _, hle⟩, fun final hfinal hlater => ?_⟩
    exact Slots.index_mono hslots hfinal.slots hlater.2 hindex

end Yields

def Pushes (final : Lowering) (l : Local) (item : Item) : Prop :=
  ∃ slot, final.slots.index[l.name]? = some slot ∧ ∃ kind, l.type.kind? = some kind ∧
    item = .op (.loadSlot kind slot)

def Pops (final : Lowering) (l : Local) (item : Item) : Prop :=
  ∃ kind, l.type.kind? = some kind ∧ ∃ slot, final.slots.index[l.name]? = some slot ∧
    item = .op (.storeSlot kind slot)

def Calls (final : Lowering) (m : MethodSymbol) (isSuper : Bool) (instr : Instr) : Prop :=
  ∃ index, final.pool.meaning? index = some m.reference ∧
    if m.isStatic then instr = .invokeStatic index
    else if m.owner.isInterface then
      ∃ count, m.callWords? = some count ∧ count.toNat ≤ 255 ∧
        instr = .invokeInterface index count.toUInt8 0
    else if m.isConstructor || isSuper then instr = .invokeSpecial index
    else instr = .invokeVirtual index

/-- The instructions turn the result of a call into a value for a local of the second type. -/
def Adapts (final : Lowering) (source target : JavaType) (instrs : List Instr) : Prop :=
  (source.isVoid = false ∧ source.kind? = target.kind? ∧ instrs = []) ∨
    source.isReference = true ∧ ∃ p wrapper, target = .primitive p ∧ p.wrapper? = some wrapper ∧
      ∃ box, final.pool.meaning? box = some (.classInfo wrapper) ∧
      ∃ method, final.pool.meaning? method = some (.methodRef wrapper (p.name ++ "Value")
          (JavaType.methodDescriptor [] (.primitive p))) ∧
        instrs = [.checkCast box, .invokeVirtual method]

def dropping (type : JavaType) : List Item :=
  match type.width with
  | 0 => []
  | 1 => [.op .pop]
  | _ => [.op .pop2]

def Uses (final : Lowering) (type : JavaType) : Option Local → List Item → Prop
  | some target, items => ∃ instrs, Adapts final type target.type instrs ∧
      ∃ item, Pops final target item ∧ items = instrs.map .op ++ [item]
  | none, items => items = dropping type

def Changes (final : Lowering) (kind : NumKind) : UnaryOp → List Item → Prop
  | .negate, items => items = [.op (.neg kind)]
  | .complement, items =>
    (kind = .int ∧ items = [.op (.iconst (residue 6 0)), .op (.bit .xor .int)]) ∨
      (kind = .long ∧ ∃ index, final.pool.meaning? index = some (.long (-1)) ∧
        items = [.op (.ldc2W index), .op (.bit .xor .long)])

def Casts (final : Lowering) (declared : JavaType) (instrs : List Instr) : Prop :=
  if declared.isReference then
    ∃ index, final.pool.meaning? index = some (.classInfo declared.internalName) ∧
      instrs = [.checkCast index]
  else instrs = []

def Allocates (final : Lowering) (element : JavaType) (dimensions : Nat) (instr : Instr) : Prop :=
  if dimensions = 1 then ∃ kind, Literal.AllocatesArray final.pool element instr kind
  else ∃ index, final.pool.meaning? index =
      some (.classInfo (element.arrayOf dimensions).internalName) ∧
    instr = .newMultiArray index (UInt8.ofNat dimensions)

def comparing (kind : NumKind) (op : Comparison) (label : Label) : List Item :=
  match Instr.compare? kind op with
  | some instr => [.op instr, .branch (.ifZero op) label]
  | none => [.branch (.ifInt op) label]

def testing (kind : NumKind) (op : Comparison) (label : Label) : List Item :=
  match Instr.zero? kind, Instr.compare? kind op with
  | some zero, some instr => [.op zero, .op instr, .branch (.ifZero op) label]
  | _, _ => [.branch (.ifZero op) label]

/-- The call of an instance method, which may initialize the receiver of the method around it. -/
def marked (ctx : MethodContext) (m : MethodSymbol) (slot : UInt16) (call : Instr) : Item :=
  if slot = 0 && initializesThis ctx m then .initThis call else .op call

/-- The items that a statement becomes. -/
def Emits (ctx : MethodContext) (final : Lowering) : Statement → List Item → Prop
  | .invoke m receiver arguments result isSuper, items =>
    if m.isStatic then
      ∃ pushed, List.Forall₂ (Pushes final) arguments pushed ∧
      ∃ call, Calls final m isSuper call ∧
      ∃ used, Uses final m.result result used ∧ items = pushed ++ .op call :: used
    else
      ∃ object, receiver = some object ∧
      ∃ slot, final.slots.index[object.name]? = some slot ∧
      ∃ item, Pushes final object item ∧
      ∃ pushed, List.Forall₂ (Pushes final) arguments pushed ∧
      ∃ call, Calls final m isSuper call ∧
      ∃ used, Uses final m.result result used ∧
        items = item :: (pushed ++ marked ctx m slot call :: used)
  | .getField f receiver target, items =>
    ∃ index, final.pool.meaning? index =
        some (.fieldRef f.owner.name f.name f.type.descriptor) ∧
      if f.isStatic then
        ∃ item, Pops final target item ∧ items = [.op (.field .getStatic index), item]
      else
        ∃ object, receiver = some object ∧ ∃ pushed, Pushes final object pushed ∧
        ∃ item, Pops final target item ∧ items = [pushed, .op (.field .getField index), item]
  | .putField f receiver value, items =>
    ∃ index, final.pool.meaning? index =
        some (.fieldRef f.owner.name f.name f.type.descriptor) ∧
      if f.isStatic then
        ∃ item, Pushes final value item ∧ items = [item, .op (.field .putStatic index)]
      else
        ∃ object, receiver = some object ∧ ∃ pushed, Pushes final object pushed ∧
        ∃ item, Pushes final value item ∧ items = [pushed, item, .op (.field .putField index)]
  | .assign target source, items =>
    ∃ a, Pushes final source a ∧ ∃ b, Pops final target b ∧ items = [a, b]
  | .binary op left right result, items =>
    ∃ instr, left.type.numKind?.bind (Instr.binary? op) = some instr ∧
    ∃ a, Pushes final left a ∧ ∃ b, Pushes final right b ∧ ∃ c, Pops final result c ∧
      items = [a, b, .op instr, c]
  | .unary op operand result, items =>
    ∃ kind, operand.type.numKind? = some kind ∧ ∃ a, Pushes final operand a ∧
    ∃ changed, Changes final kind op changed ∧ ∃ b, Pops final result b ∧
      items = a :: (changed ++ [b])
  | .cast source target, items =>
    ∃ instr, castInstr? source.type target.type = some instr ∧ ∃ a, Pushes final source a ∧
    ∃ b, Pops final target b ∧ items = [a, .op instr, b]
  | .goto label, items => items = [.branch .always label]
  | .mark label, items => items = [.mark label]
  | .compare op left right label, items =>
    ∃ a, Pushes final left a ∧ ∃ b, Pushes final right b ∧
      ((left.type.isReference = true ∧ ∃ jump, Jump.ifSame? op = some jump ∧
          items = [a, b, .branch jump label]) ∨
        ∃ kind, left.type.numKind? = some kind ∧ items = a :: b :: comparing kind op label)
  | .test op operand label, items =>
    ∃ a, Pushes final operand a ∧
      ((operand.type.isReference = true ∧ ∃ jump, Jump.ifNull? op = some jump ∧
          items = [a, .branch jump label]) ∨
        ∃ kind, operand.type.numKind? = some kind ∧ items = a :: testing kind op label)
  | .arrayGet array index target, items =>
    ∃ kind, array.type.component?.bind JavaType.elemKind? = some kind ∧
    ∃ a, Pushes final array a ∧ ∃ i, Pushes final index i ∧ ∃ b, Pops final target b ∧
      items = [a, i, .op (.arrayLoad kind.element), b]
  | .arrayPut array index value, items =>
    ∃ kind, array.type.component?.bind JavaType.elemKind? = some kind ∧
    ∃ a, Pushes final array a ∧ ∃ i, Pushes final index i ∧ ∃ v, Pushes final value v ∧
      items = [a, i, v, .op (.arrayStore kind.element)]
  | .ret none, items => ctx.method.result.isVoid = true ∧ items = [.op .returnVoid]
  | .ret (some l), items =>
    ctx.method.result.accepts l.type = true ∧ ∃ kind, ctx.method.result.kind? = some kind ∧
    ∃ a, Pushes final l a ∧ ∃ cast, Casts final ctx.method.result cast ∧
      items = a :: (cast.map .op ++ [.op (.returnValue kind)])
  | .instanceOf value type result, items =>
    ∃ a, Pushes final value a ∧
    ∃ index, final.pool.meaning? index = some (.classInfo type.internalName) ∧
    ∃ b, Pops final result b ∧ items = [a, .op (.instanceOf index), b]
  | .new m arguments result, items =>
    ∃ index, final.pool.meaning? index = some (.classInfo m.owner.name) ∧
    ∃ init, final.pool.meaning? init = some (.methodRef m.owner.name m.name m.descriptor) ∧
    ∃ pushed, List.Forall₂ (Pushes final) arguments pushed ∧ ∃ stored, Pops final result stored ∧
      items = .op (.new index) :: .op .dup :: (pushed ++ [.op (.invokeSpecial init), stored])
  | .newArray element lengths result, items =>
    0 < lengths.length ∧ lengths.length ≤ 255 ∧
    ∃ pushed, List.Forall₂ (Pushes final) lengths pushed ∧
    ∃ instr, Allocates final element lengths.length instr ∧
    ∃ stored, Pops final result stored ∧ items = pushed ++ [.op instr, stored]
  | .literal value target, items =>
    ∃ instrs, value.Loads final.pool instrs ∧ ∃ stored, Pops final target stored ∧
      items = instrs.map .op ++ [stored]

section Rules

variable {T : Local → Prop}

private theorem yields_load (l : Local) : Yields T (load l) fun final => Pushes final l :=
  (yields_slotOf l).bind fun _ => (yields_kindOf l.type).bind fun _ => .pure _

private theorem yields_store {l : Local} (hl : T l) : Yields T (store l) fun final => Pops final l :=
  (yields_kindOf l.type).bind fun _ => (yields_slotForStore hl).bind fun _ => .pure _

private theorem yields_loads (locals : List Local) :
    Yields T (locals.mapM load) fun final => List.Forall₂ (Pushes final) locals :=
  .mapM fun l _ => yields_load l

private theorem yields_push (value : Literal) :
    Yields T (pooling value.push) fun final => value.Loads final.pool :=
  (yields_pooling (Literal.grows_push value)).imp fun _ _ => Literal.loads_of_ran

private theorem yields_declaredLabel (ctx : MethodContext) (label : Label) :
    Yields T (declaredLabel ctx label) fun _ found => found = label := by
  unfold declaredLabel
  split
  · exact .pure _
  · exact .throw _

private theorem yields_receiverOf (receiver : Option Local) (operation : Operation) (owner : ClassType) :
    Yields T (receiverOf receiver operation owner) fun _ l => receiver = some l := by
  cases receiver with
  | none => exact .throw _
  | some l => exact (Yields.pure l).imp fun _ _ h => h ▸ rfl

private theorem yields_callInstr (m : MethodSymbol) (isSuper : Bool) :
    Yields T (callInstr m isSuper) fun final => Calls final m isSuper := by
  have hmethod := yields_constant (T := T) (.methodRef m.owner.name m.name m.descriptor)
  have hinterface := yields_constant (T := T) (.interfaceMethodRef m.owner.name m.name m.descriptor)
  unfold callInstr Calls MethodSymbol.reference
  by_cases hstatic : m.isStatic = true
  · simp only [if_pos hstatic]
    split
    · exact hinterface.bind fun index => .pure (Instr.invokeStatic index)
    · exact hmethod.bind fun index => .pure (Instr.invokeStatic index)
  · simp only [if_neg hstatic]
    split
    · split
      · rename_i count hcount
        split
        · rename_i hbyte
          refine (hinterface.bind fun index => .pure (Instr.invokeInterface index _ 0)).imp ?_
          rintro final instr ⟨index, hindex, rfl⟩
          exact ⟨index, hindex, count, hcount, hbyte, rfl⟩
        · exact .throw _
      · exact .throw _
    · split
      · exact hmethod.bind fun index => .pure (Instr.invokeSpecial index)
      · exact hmethod.bind fun index => .pure (Instr.invokeVirtual index)

private theorem adapts_of_ran {final : Lowering} {source target : JavaType} {instrs : List Instr}
    (h : Ran final.pool (source.adaptResult target) instrs) : Adapts final source target instrs := by
  unfold JavaType.adaptResult at h
  split at h
  · exact absurd h Ran.of_throw
  rename_i hvoid
  have hvalue : source.isVoid = false := by simpa using hvoid
  split at h
  · rename_i hreference
    split at h
    · rename_i p
      split at h
      · refine .inr ⟨hreference, ?_⟩
        unfold JavaType.unbox at h
        split at h
        · exact absurd h Ran.of_throw
        · rename_i wrapper hwrapper
          obtain ⟨box, hbox, h⟩ := h.of_bind (Grows.classInfo _) fun _ =>
            (Grows.pooled (.methodRef _ _ _)).bind fun _ => .pure _
          obtain ⟨method, hmethod, h⟩ := h.of_bind (Grows.pooled (.methodRef _ _ _)) fun _ =>
            .pure _
          exact ⟨p, wrapper, rfl, hwrapper, box, meaning?_of_ran (r := .classInfo _) hbox, method,
            meaning?_of_ran (r := .methodRef _ _ _) hmethod, h.eq_of_pure⟩
      · split at h <;> exact absurd h Ran.of_throw
    · rename_i hnot
      have htarget : target.isReference = true := by
        cases target with
        | primitive p => exact absurd rfl (hnot p)
        | object c => rfl
        | array c => rfl
      have hkinds : source.kind? = target.kind? := by
        rw [JavaType.kind?_of_isReference hreference, JavaType.kind?_of_isReference htarget]
      exact .inl ⟨hvalue, hkinds, h.eq_of_pure⟩
  · split at h
    · rename_i hkinds
      exact .inl ⟨hvalue, hkinds, h.eq_of_pure⟩
    · exact absurd h Ran.of_throw

private theorem yields_useResult (type : JavaType) {result : Option Local} (hresult : ∀ l ∈ result, T l) :
    Yields T (useResult type result) fun final => Uses final type result := by
  cases result with
  | some target =>
    have hadapt := (yields_pooling (T := T) (type.grows_adaptResult target.type)).imp
      fun final instrs => adapts_of_ran
    exact hadapt.bind fun _ => (yields_store (hresult target rfl)).bind fun _ => .pure _
  | none =>
    have hdrop : useResult type none = pure (dropping type) := by
      rcases hwidth : type.width with _ | _ | n <;> simp [useResult, dropping, hwidth]
    rw [hdrop]
    exact .pure _

private theorem casts_of_ran {final : Lowering} {declared : JavaType} {instrs : List Instr}
    (h : Ran final.pool declared.castReturn instrs) : Casts final declared instrs := by
  unfold JavaType.castReturn at h
  unfold Casts
  split
  · rename_i hreference
    rw [if_pos hreference] at h
    obtain ⟨index, hindex, h⟩ := h.of_bind (Grows.classInfo _) fun _ => .pure _
    exact ⟨index, meaning?_of_ran (r := .classInfo _) hindex, h.eq_of_pure⟩
  · rename_i hreference
    rw [if_neg hreference] at h
    exact h.eq_of_pure

variable (ctx : MethodContext)

private theorem yields_invoke (m : MethodSymbol) {receiver : Option Local} {arguments : List Local}
    {result : Option Local} (isSuper : Bool) (hresult : ∀ l ∈ result, T l) :
    Yields T (invoke ctx m receiver arguments result isSuper) fun final =>
      Emits ctx final (.invoke m receiver arguments result isSuper) := by
  unfold invoke
  by_cases hstatic : m.isStatic = true
  · rw [if_pos hstatic]
    refine ((yields_loads arguments).bind fun pushed => (yields_callInstr m isSuper).bind fun call =>
      (yields_useResult m.result hresult).bind fun used =>
        .pure (pushed ++ .op call :: used)).imp fun final items h => ?_
    rw [Emits, if_pos hstatic]
    exact h
  · rw [if_neg hstatic]
    refine ((yields_receiverOf receiver _ _).bind fun object => (yields_slotOf object).bind fun slot =>
      (yields_load object).bind fun item => (yields_loads arguments).bind fun pushed =>
        (yields_callInstr m isSuper).bind fun call =>
          (yields_useResult m.result hresult).bind fun used =>
            .pure (item :: (pushed ++ marked ctx m slot call :: used))).imp fun final items h => ?_
    rw [Emits, if_neg hstatic]
    exact h

private theorem yields_fieldIndex (f : FieldSymbol) :
    Yields T (fieldIndex f) fun final index => final.pool.meaning? index =
      some (.fieldRef f.owner.name f.name f.type.descriptor) :=
  yields_constant (.fieldRef _ _ _)

private theorem yields_getField (f : FieldSymbol) (receiver : Option Local) {target : Local}
    (htarget : T target) :
    Yields T (getField f receiver target) fun final =>
      Emits ctx final (.getField f receiver target) := by
  refine (yields_fieldIndex f).bind fun index => ?_
  split
  · exact (yields_store htarget).bind fun _ => .pure _
  · exact (yields_receiverOf receiver _ _).bind fun object => (yields_load object).bind fun _ =>
      (yields_store htarget).bind fun _ => .pure _

private theorem yields_putField (f : FieldSymbol) (receiver : Option Local) (value : Local) :
    Yields T (putField f receiver value) fun final =>
      Emits ctx final (.putField f receiver value) := by
  refine (yields_fieldIndex f).bind fun index => ?_
  split
  · exact (yields_load value).bind fun _ => .pure _
  · exact (yields_receiverOf receiver _ _).bind fun object => (yields_load object).bind fun _ =>
      (yields_load value).bind fun _ => .pure _

private theorem yields_binary (op : BinaryOp) (left right : Local) {result : Local} (hresult : T result) :
    Yields T (binary op left right result) fun final =>
      Emits ctx final (.binary op left right result) := by
  unfold binary
  split
  · exact .throw _
  · rename_i instr hinstr
    refine ((yields_load left).bind fun a => (yields_load right).bind fun b =>
      (yields_store hresult).bind fun c => .pure [a, b, .op instr, c]).imp ?_
    exact fun final items h => ⟨instr, hinstr, h⟩

private theorem yields_complement (kind : NumKind) (type : JavaType) :
    Yields T (complement kind type) fun final => Changes final kind .complement := by
  cases kind with
  | int => exact (Yields.pure _).imp fun _ _ h => .inl ⟨rfl, h⟩
  | long =>
    exact ((yields_constant (.long (-1))).bind fun _ => .pure _).imp fun _ _ h => .inr ⟨rfl, h⟩
  | float => exact .throw _
  | double => exact .throw _

private theorem yields_unary (op : UnaryOp) (operand : Local) {result : Local} (hresult : T result) :
    Yields T (unary op operand result) fun final =>
      Emits ctx final (.unary op operand result) := by
  unfold unary
  split
  · exact .throw _
  · rename_i kind hkind
    refine Yields.imp (P := fun final items => ∃ a, Pushes final operand a ∧
      ∃ changed, Changes final kind op changed ∧ ∃ b, Pops final result b ∧
        items = a :: (changed ++ [b])) ?_ fun final items h => ⟨kind, hkind, h⟩
    refine (yields_load operand).bind fun a => ?_
    cases op with
    | negate => exact (Yields.pure _).bind fun _ => (yields_store hresult).bind fun _ => .pure _
    | complement =>
      exact (yields_complement kind operand.type).bind fun _ =>
        (yields_store hresult).bind fun _ => .pure _

private theorem yields_cast (source : Local) {target : Local} (htarget : T target) :
    Yields T (cast source target) fun final => Emits ctx final (.cast source target) := by
  unfold cast
  split
  · exact .throw _
  · rename_i instr hinstr
    refine ((yields_load source).bind fun a => (yields_store htarget).bind fun b =>
      .pure [a, .op instr, b]).imp ?_
    exact fun final items h => ⟨instr, hinstr, h⟩

private theorem yields_compare (op : Comparison) (left right : Local) (label : Label) :
    Yields T (compare ctx op left right label) fun final =>
      Emits ctx final (.compare op left right label) := by
  refine Yields.imp (P := fun final items => ∃ found, found = label ∧
    Emits ctx final (.compare op left right found) items) ?_ fun final items ⟨_, rfl, h⟩ => h
  refine (yields_declaredLabel ctx label).bind fun found => ?_
  split
  · rename_i hreference
    split
    · exact .throw _
    · rename_i jump hjump
      refine ((yields_load left).bind fun a => (yields_load right).bind fun b =>
        .pure [a, b, .branch jump found]).imp ?_
      rintro final items ⟨a, ha, b, hb, rfl⟩
      exact ⟨a, ha, b, hb, .inl ⟨hreference, jump, hjump, rfl⟩⟩
  · split
    · exact .throw _
    · rename_i kind hkind
      refine Yields.imp (P := fun final items => ∃ a, Pushes final left a ∧
        ∃ b, Pushes final right b ∧ items = a :: b :: comparing kind op found) ?_
        fun final items ⟨a, ha, b, hb, h⟩ => ⟨a, ha, b, hb, .inr ⟨kind, hkind, h⟩⟩
      refine (yields_load left).bind fun a => (yields_load right).bind fun b => ?_
      unfold comparing
      cases Instr.compare? kind op with
      | none => exact .pure _
      | some instr => exact .pure _

private theorem yields_test (op : Comparison) (operand : Local) (label : Label) :
    Yields T (test ctx op operand label) fun final => Emits ctx final (.test op operand label) := by
  refine Yields.imp (P := fun final items => ∃ found, found = label ∧
    Emits ctx final (.test op operand found) items) ?_ fun final items ⟨_, rfl, h⟩ => h
  refine (yields_declaredLabel ctx label).bind fun found => ?_
  split
  · rename_i hreference
    split
    · exact .throw _
    · rename_i jump hjump
      refine ((yields_load operand).bind fun a => .pure [a, .branch jump found]).imp ?_
      rintro final items ⟨a, ha, rfl⟩
      exact ⟨a, ha, .inl ⟨hreference, jump, hjump, rfl⟩⟩
  · split
    · exact .throw _
    · rename_i kind hkind
      refine Yields.imp (P := fun final items => ∃ a, Pushes final operand a ∧
        items = a :: testing kind op found) ?_
        fun final items ⟨a, ha, h⟩ => ⟨a, ha, .inr ⟨kind, hkind, h⟩⟩
      refine (yields_load operand).bind fun a => ?_
      unfold testing
      cases Instr.zero? kind with
      | none => exact .pure _
      | some zero =>
        cases Instr.compare? kind op with
        | none => exact .pure _
        | some instr => exact .pure _

private theorem yields_elementsOf (array : Local) :
    Yields T (elementsOf array) fun _ kind =>
      array.type.component?.bind JavaType.elemKind? = some kind := by
  unfold elementsOf
  split
  · rename_i kind hkind
    exact (Yields.pure kind).imp fun _ _ h => h ▸ hkind
  · exact .throw _

private theorem yields_ret (value : Option Local) :
    Yields T (ret ctx value) fun final => Emits ctx final (.ret value) := by
  unfold ret
  cases value with
  | none =>
    dsimp only
    split
    · rename_i hvoid
      exact (Yields.pure _).imp fun _ _ h => ⟨hvoid, h⟩
    · exact .throw _
  | some l =>
    dsimp only
    split
    · exact .throw _
    · rename_i hcompatible
      have haccepts : ctx.method.result.accepts l.type = true := by
        simp only [Bool.or_eq_true, Bool.not_eq_true', not_or, Bool.not_eq_false] at hcompatible
        exact hcompatible.2
      have hcast := (yields_pooling (T := T) (JavaType.grows_castReturn ctx.method.result)).imp
        fun final instrs => casts_of_ran
      refine ((yields_kindOf ctx.method.result).bind fun kind => (yields_load l).bind fun a =>
        hcast.bind fun cast => .pure (a :: (cast.map .op ++ [.op (.returnValue kind)]))).imp ?_
      exact fun final items h => ⟨haccepts, h⟩

private theorem yields_allocation (element : JavaType) (dimensions : Nat) :
    Yields T (allocation element dimensions) fun final => Allocates final element dimensions := by
  unfold allocation
  by_cases hone : dimensions = 1
  · rw [if_pos hone]
    refine ((yields_pooling (Literal.grows_allocate element)).bind fun allocated =>
      .pure allocated.1).imp ?_
    rintro final instr ⟨⟨_, kind⟩, hran, rfl⟩
    rw [Allocates, if_pos hone]
    exact ⟨kind, Literal.allocatesArray_of_ran hran⟩
  · rw [if_neg hone]
    refine ((yields_constant (.classInfo (element.arrayOf dimensions).internalName)).bind
      fun index => .pure (Instr.newMultiArray index (UInt8.ofNat dimensions))).imp ?_
    intro final instr h
    rw [Allocates, if_neg hone]
    exact h

private theorem yields_newArray (element : JavaType) (lengths : List Local) {result : Local}
    (hresult : T result) :
    Yields T (newArray element lengths result) fun final =>
      Emits ctx final (.newArray element lengths result) := by
  unfold newArray
  dsimp only
  split
  · exact .throw _
  · rename_i hdimensions
    refine ((yields_loads lengths).bind fun pushed =>
      (yields_allocation element lengths.length).bind fun instr =>
        (yields_store hresult).bind fun stored => .pure (pushed ++ [.op instr, stored])).imp ?_
    exact fun final items h => ⟨by omega, by omega, h⟩

/-- Every statement becomes the items said of it. -/
theorem yields_statement {st : Statement} (hT : ∀ l ∈ st.assigned?, T l) :
    Yields T (statement ctx st) fun final => Emits ctx final st := by
  cases st with
  | invoke m receiver arguments result isSuper =>
    exact yields_invoke ctx m isSuper hT
  | getField f receiver target =>
    exact yields_getField ctx f receiver (hT target rfl)
  | putField f receiver value => exact yields_putField ctx f receiver value
  | assign target source =>
    exact (yields_load source).bind fun _ =>
      (yields_store (hT target rfl)).bind fun _ => .pure _
  | binary op left right result =>
    exact yields_binary ctx op left right (hT result rfl)
  | unary op operand result =>
    exact yields_unary ctx op operand (hT result rfl)
  | cast source target => exact yields_cast ctx source (hT target rfl)
  | goto label =>
    refine ((yields_declaredLabel ctx label).bind fun found => .pure [Item.branch .always found]).imp ?_
    rintro final items ⟨_, rfl, h⟩
    exact h
  | mark label =>
    refine ((yields_declaredLabel ctx label).bind fun found => .pure [Item.mark found]).imp ?_
    rintro final items ⟨_, rfl, h⟩
    exact h
  | compare op left right label => exact yields_compare ctx op left right label
  | test op operand label => exact yields_test ctx op operand label
  | arrayGet array index target =>
    exact (yields_elementsOf array).bind fun _ => (yields_load array).bind fun _ =>
      (yields_load index).bind fun _ =>
        (yields_store (hT target rfl)).bind fun _ => .pure _
  | arrayPut array index value =>
    exact (yields_elementsOf array).bind fun _ => (yields_load array).bind fun _ =>
      (yields_load index).bind fun _ => (yields_load value).bind fun _ => .pure _
  | ret value => exact yields_ret ctx value
  | instanceOf value type result =>
    exact (yields_load value).bind fun _ => (yields_constant (.classInfo _)).bind fun _ =>
      (yields_store (hT result rfl)).bind fun _ => .pure _
  | new m arguments result =>
    exact (yields_constant (.classInfo _)).bind fun _ =>
      (yields_constant (.methodRef _ _ _)).bind fun _ => (yields_loads arguments).bind fun _ =>
        (yields_store (hT result rfl)).bind fun _ => .pure _
  | newArray element lengths result =>
    exact yields_newArray ctx element lengths (hT result rfl)
  | literal value target =>
    exact (yields_push value).bind fun _ =>
      (yields_store (hT target rfl)).bind fun _ => .pure _

end Rules

/-- The items with which a constructor starts that calls no other one itself. -/
def Chains (owner : ClassDecl) (method : MethodDecl) (b : Body) (final : Lowering)
    (items : List Item) : Prop :=
  if method.initializesThis && !startsWithConstructor owner b then
    match owner.super with
    | none => items = []
    | some super =>
      ∃ index, final.pool.meaning? index = some (.methodRef super.name constructorName
          (JavaType.methodDescriptor [] .void)) ∧
        items = [.op (.loadSlot .reference 0), .initThis (.invokeSpecial index)]
  else items = []

theorem Chains.eq_nil_or {owner : ClassDecl} {method : MethodDecl} {b : Body} {final : Lowering}
    {items : List Item} (h : Chains owner method b final items) :
    items = [] ∨ ∃ super index, owner.super = some super ∧ method.initializesThis = true ∧
      startsWithConstructor owner b = false ∧
      final.pool.meaning? index = some (.methodRef super.name constructorName
        (JavaType.methodDescriptor [] .void)) ∧
      items = [.op (.loadSlot .reference 0), .initThis (.invokeSpecial index)] := by
  unfold Chains at h
  split at h
  · rename_i hcalls
    cases hsuper : owner.super with
    | none =>
      rw [hsuper] at h
      exact .inl h
    | some super =>
      rw [hsuper] at h
      obtain ⟨index, hindex, rfl⟩ := h
      obtain ⟨hinit, hstarts⟩ := Bool.and_eq_true_iff.mp hcalls
      exact .inr ⟨super, index, rfl, hinit, (Bool.not_eq_true' _).mp hstarts, hindex, rfl⟩
  · exact .inl h

def Fills (owner : ClassDecl) (final : Lowering) (i : Initializer) (items : List Item) : Prop :=
  ∃ pushed, Ran final.pool i.value.push pushed ∧
    ∃ index, final.pool.meaning? index =
        some (.fieldRef owner.this.name i.field i.type.descriptor) ∧
      items = pushed.map .op ++ [.op (.field .putStatic index)]

def Ends (method : MethodDecl) (b : Body) (items : List Item) : Prop :=
  ((∃ value, b.statements.getLast? = some (.ret value)) ∧ items = []) ∨
    ((∀ value, b.statements.getLast? ≠ some (.ret value)) ∧ method.result.isVoid = true ∧
      items = [.op .returnVoid])

/-- The items of a method: those of its statements in order, between what the declaration leaves
open. -/
def EmitsBody (owner : ClassDecl) (method : MethodDecl) (b : Body) (fields : List Initializer)
    (final : Lowering) (items : List Item) : Prop :=
  ∃ chained, Chains owner method b final chained ∧
  ∃ filled, List.Forall₂ (Fills owner final) fields filled ∧
  ∃ blocks, List.Forall₂
      (Emits ⟨owner, method, Std.HashSet.ofList b.labels⟩ final) b.statements blocks ∧
  ∃ ending, Ends method b ending ∧
    items = chained ++ filled.flatten ++ blocks.flatten ++ ending

section Body

variable {T : Local → Prop} (owner : ClassDecl) (method : MethodDecl) (b : Body)

theorem yields_chain :
    Yields T (chain owner method b) fun final => Chains owner method b final := by
  unfold chain
  split
  · rename_i hchain
    cases hsuper : owner.super with
    | none =>
      refine (Yields.pure []).imp fun final items h => ?_
      rw [Chains, if_pos hchain, hsuper]
      exact h
    | some super =>
      refine ((yields_constant (.methodRef super.name constructorName
        (JavaType.methodDescriptor [] .void))).bind fun index =>
          .pure [Item.op (.loadSlot .reference 0), .initThis (.invokeSpecial index)]).imp
        fun final items h => ?_
      rw [Chains, if_pos hchain, hsuper]
      exact h
  · rename_i hchain
    refine (Yields.pure []).imp fun final items h => ?_
    rw [Chains, if_neg hchain]
    exact h

theorem yields_fillField (i : Initializer) :
    Yields T (fillField owner i) fun final => Fills owner final i :=
  (yields_pooling (Literal.grows_push i.value)).bind fun _ =>
    (yields_constant (.fieldRef _ _ _)).bind fun _ => .pure _

theorem yields_finalReturn : Yields T (finalReturn method b) fun _ => Ends method b := by
  unfold finalReturn
  split
  · rename_i value hlast
    exact (Yields.pure []).imp fun _ _ h => .inl ⟨⟨value, hlast⟩, h⟩
  · rename_i hlast
    split
    · rename_i hvoid
      exact (Yields.pure [Item.op .returnVoid]).imp fun _ _ h => .inr ⟨hlast, hvoid, h⟩
    · exact .throw _

theorem allocate_spec {parameters : List Local} {p : Pool} {start : Lowering} (hp : p.Sound)
    (hT : ∀ l ∈ parameters, T l) (h : allocate parameters ⟨p, {}⟩ = .ok ((), start)) :
    start.Ok T ∧ p ≤ start.pool ∧ start.slots.locals.toList.map Prod.fst = parameters := by
  unfold allocate at h
  dsimp only at h
  split at h
  · cases h
  · rename_i slots hslots
    cases h
    obtain ⟨hwf, -, hmap⟩ := Slots.wellFormed_empty.allocateAll hslots
    have hmap : slots.locals.toList.map Prod.fst = parameters := by simpa using hmap
    refine ⟨⟨hp, hwf, fun entry hentry => hT entry.1 ?_⟩, Pool.le_refl p, hmap⟩
    rw [← hmap]
    exact List.mem_map_of_mem hentry

/-- A method is lowered to the items said of it, and its parameters get the first slots. -/
theorem body_spec (fields : List Initializer) {p : Pool} {items : List Item} {final : Lowering}
    (hp : p.Sound) (hT : ∀ l ∈ b.locals, T l)
    (h : body owner method b fields ⟨p, {}⟩ = .ok (items, final)) :
    final.Ok T ∧ p ≤ final.pool ∧ b.parameters <+: final.slots.locals.toList.map Prod.fst ∧
      EmitsBody owner method b fields final items := by
  obtain ⟨_, start, hallocate, h⟩ := run_bind_iff.mp h
  have hstart := allocate_spec hp (fun l hl => hT l (List.mem_append_left _ hl)) hallocate
  have hstatements : Yields T
      (statements ⟨owner, method, Std.HashSet.ofList b.labels⟩ b.statements) fun final out =>
      ∃ blocks, List.Forall₂
        (Emits ⟨owner, method, Std.HashSet.ofList b.labels⟩ final) b.statements blocks ∧
        out = blocks.flatten := by
    refine Yields.bind (Yields.mapM fun st hst => yields_statement _ fun l hl => hT l ?_)
      fun blocks => .pure _
    exact List.mem_append_right _ (List.mem_flatMap.mpr ⟨st, hst, st.mem_locals_of_assigned? hl⟩)
  have hfields : Yields T (fields.mapM (fillField owner)) fun final =>
      List.Forall₂ (Fills owner final) fields := .mapM fun i _ => yields_fillField owner i
  have hrest := (yields_chain (T := T) owner method b).bind fun chained =>
    hfields.bind fun filled =>
      hstatements.bind fun code => (yields_finalReturn method b).bind fun ending =>
        .pure (chained ++ filled.flatten ++ code ++ ending)
  obtain ⟨hfinal, hle, hemits⟩ := hrest start items final h hstart.1
  refine ⟨hfinal, Pool.le_trans hstart.2.1 hle.1, ?_, ?_⟩
  · rw [← hstart.2.2]
    exact List.IsPrefix.map Prod.fst hle.2
  · obtain ⟨chained, hchained, filled, hfilled, _, ⟨blocks, hblocks, rfl⟩, ending, hending, h⟩ :=
      hemits final hfinal (Lowering.le_refl final)
    exact ⟨chained, hchained, filled, hfilled, blocks, hblocks, ending, hending, h⟩

end Body

end Lower

section Placement

variable {b : Body} {final : Lowering}

theorem Slots.widthOf_eq {l : Local} {kind : Kind} (hvalued : l.type.isVoid = false)
    (hkind : l.type.kind? = some kind) : widthOf l = kind.width := by
  obtain ⟨kind', hkind', hwidth⟩ := JavaType.exists_kind? hvalued
  rw [hkind] at hkind'
  cases hkind'
  rw [widthOf, hwidth]
  cases kind <;> rfl

theorem Lowering.Ok.exists_entry (hok : final.Ok (· ∈ b.locals)) (hb : b.Typed)
    {l : Local} {slot : UInt16} (hl : l ∈ b.locals)
    (hslot : final.slots.index[l.name]? = some slot) {kind : Kind} (hkind : l.type.kind? = some kind) :
    ∃ entry, (entry, slot) ∈ final.slots.locals.toList ∧ entry.name = l.name ∧
      Slots.widthOf entry = kind.width := by
  obtain ⟨entry, hmem, hname⟩ := (hok.slots.index l.name slot).mp hslot
  have hentry : entry ∈ b.locals := hok.locals _ hmem
  have hkind' : entry.type.kind? = some kind := by
    rw [JavaType.kind?_eq_of_beq (hb entry hentry l hl hname), hkind]
  exact ⟨entry, hmem, hname, Slots.widthOf_eq (JavaType.isVoid_of_kind? hkind') hkind'⟩

theorem Lowering.Ok.separate (hok : final.Ok (· ∈ b.locals)) (hb : b.WellFormed) {l l' : Local}
    {slot slot' : UInt16} (hl : l ∈ b.locals) (hl' : l' ∈ b.locals)
    (hslot : final.slots.index[l.name]? = some slot)
    (hslot' : final.slots.index[l'.name]? = some slot') (hne : l.name ≠ l'.name) {kind kind' : Kind}
    (hkind : l.type.kind? = some kind) (hkind' : l'.type.kind? = some kind') :
    slot.toNat + kind.width ≤ slot'.toNat ∨ slot'.toNat + kind'.width ≤ slot.toNat := by
  obtain ⟨entry, hmem, hname, hwidth⟩ := hok.exists_entry hb.typed hl hslot hkind
  obtain ⟨entry', hmem', hname', hwidth'⟩ := hok.exists_entry hb.typed hl' hslot' hkind'
  have hsep := hok.slots.separate hmem hmem' (by rw [hname, hname']; exact hne)
  rw [hwidth, hwidth'] at hsep
  exact hsep

end Placement

end Classwright
