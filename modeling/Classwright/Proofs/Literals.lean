import Classwright.Proofs.Growth

/-!
# What pushing literals emits

The instructions that push a literal, in terms of a pool that extends the one in which they were
chosen.
-/

namespace Classwright

section Ran

variable {α β : Type} {final : Pool}

/-- The result comes from an action on a pool that the final one extends. -/
def Ran (final : Pool) (act : Pooling α) (a : α) : Prop :=
  ∃ p q, act p = .ok (a, q) ∧ p.Sound ∧ q ≤ final

theorem Ran.mono {act : Pooling α} {a : α} {final' : Pool} (h : Ran final act a)
    (hle : final ≤ final') : Ran final' act a := by
  obtain ⟨p, q, hrun, hp, hq⟩ := h
  exact ⟨p, q, hrun, hp, Pool.le_trans hq hle⟩

theorem meaning?_of_ran {r : Pool.Request} {i : UInt16}
    (h : Ran final (pooled r.intern) i) : final.meaning? i = some r := by
  obtain ⟨p, q, hrun, hp, hle⟩ := h
  exact Pool.meaning?_mono hle (meaning?_of_pooled hp hrun).2.2

theorem Ran.eq_of_pure {a b : α} (h : Ran final (Pure.pure a) b) : b = a := by
  obtain ⟨p, q, hrun, -⟩ := h
  exact (Prod.mk.inj (run_pure_iff.mp hrun)).1.symm

theorem Ran.of_throw {e : GenerateError} {a : α} : ¬ Ran final (MonadExcept.throw e) a := by
  rintro ⟨p, q, hrun, -⟩
  exact run_throw_ne hrun

theorem Ran.of_bind {x : Pooling α} {f : α → Pooling β} {b : β} (hx : Grows id x)
    (hf : ∀ a, Grows id (f a)) (h : Ran final (x >>= f) b) :
    ∃ a, Ran final x a ∧ Ran final (f a) b := by
  obtain ⟨p, q, hrun, hp, hle⟩ := h
  obtain ⟨a, t, hxp, hft⟩ := run_bind_iff.mp hrun
  have ht := (hx p a t hxp hp).1
  have htq := (hf a t b q hft ht).2
  exact ⟨a, ⟨p, t, hxp, hp, Pool.le_trans htq hle⟩, t, q, hft, ht, hle⟩

end Ran

namespace Literal

variable {pool : Pool}

def LoadsInt (pool : Pool) (v : Int32) (instr : Instr) : Prop :=
  (-1 ≤ v.toInt ∧ v.toInt ≤ 5 ∧ instr = .iconst (residue 6 (v.toInt + 1).toNat)) ∨
    (-128 ≤ v.toInt ∧ v.toInt ≤ 127 ∧ instr = .bipush v.toInt8) ∨
    (-32768 ≤ v.toInt ∧ v.toInt ≤ 32767 ∧ instr = .sipush v.toInt16) ∨
    ∃ index, pool.meaning? index = some (.integer v) ∧ instr = .loadEntry index

def LoadsLong (pool : Pool) (v : Int64) (instr : Instr) : Prop :=
  (v = 0 ∧ instr = .lconst (residue 1 0)) ∨ (v = 1 ∧ instr = .lconst (residue 1 1)) ∨
    ∃ index, pool.meaning? index = some (.long v) ∧ instr = .ldc2W index

def LoadsFloat (pool : Pool) (bits : UInt32) (instr : Instr) : Prop :=
  (bits = 0x00000000 ∧ instr = .fconst (residue 2 0)) ∨
    (bits = 0x3f800000 ∧ instr = .fconst (residue 2 1)) ∨
    (bits = 0x40000000 ∧ instr = .fconst (residue 2 2)) ∨
    ∃ index, pool.meaning? index = some (.float bits) ∧ instr = .loadEntry index

def LoadsDouble (pool : Pool) (bits : UInt64) (instr : Instr) : Prop :=
  (bits = 0x0000000000000000 ∧ instr = .dconst (residue 1 0)) ∨
    (bits = 0x3ff0000000000000 ∧ instr = .dconst (residue 1 1)) ∨
    ∃ index, pool.meaning? index = some (.double bits) ∧ instr = .ldc2W index

def AllocatesArray (pool : Pool) (component : JavaType) (instr : Instr) (kind : ElemKind) : Prop :=
  component.elemKind? = some kind ∧
    ((∃ code, kind.typeCode? = some code ∧ instr = .newArray code) ∨
      (kind.typeCode? = none ∧ ∃ index,
        pool.meaning? index = some (.classInfo component.internalName) ∧
        instr = .newRefArray index))

mutual

/-- The instructions push a literal. -/
def Loads (pool : Pool) : Literal → List Instr → Prop
  | boolean b, instrs => ∃ i, LoadsInt pool (if b then 1 else 0) i ∧ instrs = [i]
  | byte v, instrs => ∃ i, LoadsInt pool v.toInt32 i ∧ instrs = [i]
  | short v, instrs => ∃ i, LoadsInt pool v.toInt32 i ∧ instrs = [i]
  | char v, instrs => ∃ i, LoadsInt pool (Int32.ofNat v.toNat) i ∧ instrs = [i]
  | int v, instrs => ∃ i, LoadsInt pool v i ∧ instrs = [i]
  | long v, instrs => ∃ i, LoadsLong pool v i ∧ instrs = [i]
  | float bits, instrs => ∃ i, LoadsFloat pool bits i ∧ instrs = [i]
  | double bits, instrs => ∃ i, LoadsDouble pool bits i ∧ instrs = [i]
  | string s, instrs =>
    ∃ index, pool.meaning? index = some (.string s) ∧ instrs = [.loadEntry index]
  | null, instrs => instrs = [.aconstNull]
  | enum owner name, instrs =>
    ∃ index, pool.meaning? index =
        some (.fieldRef owner.name name (JavaType.object owner).descriptor) ∧
      instrs = [.field .getStatic index]
  | array component elements, instrs =>
    ∃ length, LoadsInt pool (Int32.ofNat elements.length) length ∧
    ∃ allocation kind, AllocatesArray pool component allocation kind ∧
    ∃ stores, LoadsElements pool (.arrayStore kind.element) 0 elements stores ∧
      instrs = length :: allocation :: stores

def LoadsElements (pool : Pool) (store : Instr) (index : Nat) :
    List Literal → List Instr → Prop
  | [], instrs => instrs = []
  | e :: rest, instrs =>
    ∃ position, LoadsInt pool (Int32.ofNat index) position ∧
    ∃ value, Loads pool e value ∧
    ∃ more, LoadsElements pool store (index + 1) rest more ∧
      instrs = .dup :: position :: (value ++ store :: more)

end

private theorem loadsInt_of_ran {v : Int32} {instr : Instr} (h : Ran pool (pushInt v) instr) :
    LoadsInt pool v instr := by
  unfold pushInt at h
  dsimp only at h
  split_ifs at h with hsmall hbyte hshort
  · exact .inl ⟨hsmall.1, hsmall.2, h.eq_of_pure⟩
  · exact .inr (.inl ⟨hbyte.1, hbyte.2, h.eq_of_pure⟩)
  · exact .inr (.inr (.inl ⟨hshort.1, hshort.2, h.eq_of_pure⟩))
  · obtain ⟨index, hindex, h⟩ := h.of_bind (Grows.integer _) fun _ => .pure _
    exact .inr (.inr (.inr ⟨index, meaning?_of_ran (r := .integer v) hindex, h.eq_of_pure⟩))

private theorem loadsLong_of_ran {v : Int64} {instr : Instr} (h : Ran pool (pushLong v) instr) :
    LoadsLong pool v instr := by
  unfold pushLong at h
  split_ifs at h with hzero hone
  · exact .inl ⟨hzero, h.eq_of_pure⟩
  · exact .inr (.inl ⟨hone, h.eq_of_pure⟩)
  · obtain ⟨index, hindex, h⟩ := h.of_bind (Grows.long _) fun _ => .pure _
    exact .inr (.inr ⟨index, meaning?_of_ran (r := .long v) hindex, h.eq_of_pure⟩)

private theorem loadsFloat_of_ran {bits : UInt32} {instr : Instr} (h : Ran pool (pushFloat bits) instr) :
    LoadsFloat pool bits instr := by
  unfold pushFloat at h
  split_ifs at h with hzero hone htwo
  · exact .inl ⟨hzero, h.eq_of_pure⟩
  · exact .inr (.inl ⟨hone, h.eq_of_pure⟩)
  · exact .inr (.inr (.inl ⟨htwo, h.eq_of_pure⟩))
  · obtain ⟨index, hindex, h⟩ := h.of_bind (Grows.float _) fun _ => .pure _
    exact .inr (.inr (.inr ⟨index, meaning?_of_ran (r := .float bits) hindex, h.eq_of_pure⟩))

private theorem loadsDouble_of_ran {bits : UInt64} {instr : Instr}
    (h : Ran pool (pushDouble bits) instr) :
    LoadsDouble pool bits instr := by
  unfold pushDouble at h
  split_ifs at h with hzero hone
  · exact .inl ⟨hzero, h.eq_of_pure⟩
  · exact .inr (.inl ⟨hone, h.eq_of_pure⟩)
  · obtain ⟨index, hindex, h⟩ := h.of_bind (Grows.double _) fun _ => .pure _
    exact .inr (.inr ⟨index, meaning?_of_ran (r := .double bits) hindex, h.eq_of_pure⟩)

theorem allocatesArray_of_ran {component : JavaType} {instr : Instr} {kind : ElemKind}
    (h : Ran pool (allocate component) (instr, kind)) : AllocatesArray pool component instr kind := by
  unfold allocate at h
  split at h
  · exact absurd h Ran.of_throw
  · rename_i found hfound
    split at h
    · rename_i code hcode
      obtain ⟨rfl, rfl⟩ := Prod.mk.inj h.eq_of_pure
      exact ⟨hfound, .inl ⟨code, hcode, rfl⟩⟩
    · rename_i hcode
      obtain ⟨index, hindex, h⟩ := h.of_bind (Grows.classInfo _) fun _ => .pure _
      obtain ⟨rfl, rfl⟩ := Prod.mk.inj h.eq_of_pure
      exact ⟨hfound, .inr ⟨hcode, index, meaning?_of_ran (r := .classInfo _) hindex, rfl⟩⟩

private theorem single_of_ran {push : Pooling Instr} {P : Instr → Prop} (hgrows : Grows id push)
    (hP : ∀ i, Ran pool push i → P i) {instrs : List Instr}
    (h : Ran pool (do return [← push]) instrs) : ∃ i, P i ∧ instrs = [i] := by
  obtain ⟨i, hi, h⟩ := h.of_bind hgrows fun _ => .pure _
  exact ⟨i, hP i hi, h.eq_of_pure⟩

/-- An array is pushed by the code for its length, for the allocation and for its elements, if it is
not too long. -/
theorem parts_of_ran_array {component : JavaType} {elements : List Literal} {instrs : List Instr}
    (h : Ran pool (array component elements).push instrs) :
    elements.length ≤ 2147483647 ∧ ∃ length allocation kind stores,
      Ran pool (pushInt (Int32.ofNat elements.length)) length ∧
      Ran pool (allocate component) (allocation, kind) ∧
      Ran pool (pushElements (.arrayStore kind.element) 0 elements []) stores ∧
      instrs = length :: allocation :: stores := by
  unfold push at h
  split at h
  · obtain ⟨_, h, -⟩ := h.of_bind (Grows.throw _) fun _ => (grows_pushInt _).bind fun _ =>
      (grows_allocate _).bind fun _ => (grows_pushElements _ _ elements _).bind fun _ => .pure _
    exact absurd h Ran.of_throw
  · rename_i hbound
    obtain ⟨length, hlength, h⟩ := h.of_bind (grows_pushInt _) fun _ =>
      (grows_allocate _).bind fun _ => (grows_pushElements _ _ elements _).bind fun _ => .pure _
    obtain ⟨⟨allocation, kind⟩, hallocation, h⟩ := h.of_bind (grows_allocate _) fun _ =>
      (grows_pushElements _ _ elements _).bind fun _ => .pure _
    obtain ⟨stores, hstores, h⟩ := h.of_bind (grows_pushElements _ _ elements _) fun _ => .pure _
    exact ⟨Nat.not_lt.mp hbound, length, allocation, kind, stores, hlength, hallocation, hstores,
      h.eq_of_pure⟩

/-- The first element is pushed and stored at its index before the others are. -/
theorem parts_of_ran_cons {e : Literal} {rest : List Literal} {store : Instr} {index : Nat}
    {done : List (List Instr)} {instrs : List Instr}
    (h : Ran pool (pushElements store index (e :: rest) done) instrs) :
    ∃ position value, Ran pool (pushInt (Int32.ofNat index)) position ∧ Ran pool e.push value ∧
      Ran pool (pushElements store (index + 1) rest ((.dup :: position :: (value ++ [store])) :: done))
        instrs := by
  obtain ⟨position, hposition, h⟩ := h.of_bind (grows_pushInt _) fun _ =>
    (grows_push e).bind fun _ => grows_pushElements store (index + 1) rest _
  obtain ⟨value, hvalue, h⟩ := h.of_bind (grows_push e) fun _ =>
    grows_pushElements store (index + 1) rest _
  exact ⟨position, value, hposition, hvalue, h⟩

mutual

theorem loads_of_ran : ∀ {value : Literal} {instrs : List Instr},
    Ran pool value.push instrs → value.Loads pool instrs
  | boolean _, _, h => single_of_ran (grows_pushInt _) (fun _ => loadsInt_of_ran) h
  | byte _, _, h => single_of_ran (grows_pushInt _) (fun _ => loadsInt_of_ran) h
  | short _, _, h => single_of_ran (grows_pushInt _) (fun _ => loadsInt_of_ran) h
  | char _, _, h => single_of_ran (grows_pushInt _) (fun _ => loadsInt_of_ran) h
  | int _, _, h => single_of_ran (grows_pushInt _) (fun _ => loadsInt_of_ran) h
  | long _, _, h => single_of_ran (grows_pushLong _) (fun _ => loadsLong_of_ran) h
  | float _, _, h => single_of_ran (grows_pushFloat _) (fun _ => loadsFloat_of_ran) h
  | double _, _, h => single_of_ran (grows_pushDouble _) (fun _ => loadsDouble_of_ran) h
  | string s, _, h => by
    obtain ⟨index, hindex, h⟩ := h.of_bind (Grows.pooled (.string s)) fun _ => .pure _
    exact ⟨index, meaning?_of_ran (r := .string s) hindex, h.eq_of_pure⟩
  | null, _, h => h.eq_of_pure
  | enum owner name, _, h => by
    obtain ⟨index, hindex, h⟩ := h.of_bind
      (Grows.pooled (.fieldRef owner.name name (JavaType.object owner).descriptor)) fun _ => .pure _
    exact ⟨index, meaning?_of_ran (r := .fieldRef _ _ _) hindex, h.eq_of_pure⟩
  | array component elements, instrs, h => by
    obtain ⟨-, length, allocation, kind, stores, hlength, hallocation, hstores, rfl⟩ :=
      parts_of_ran_array h
    obtain ⟨more, hmore, hstores⟩ := loadsElements_of_ran hstores
    rw [show stores = more by simpa using hstores]
    exact ⟨length, loadsInt_of_ran hlength, allocation, kind, allocatesArray_of_ran hallocation,
      more, hmore, rfl⟩

theorem loadsElements_of_ran : ∀ {elements : List Literal} {store : Instr} {index : Nat}
    {done : List (List Instr)} {instrs : List Instr},
    Ran pool (pushElements store index elements done) instrs →
      ∃ more, LoadsElements pool store index elements more ∧ instrs = done.reverse.flatten ++ more
  | [], _, _, _, _, h => ⟨[], rfl, by rw [List.append_nil]; exact h.eq_of_pure⟩
  | e :: rest, store, index, done, _, h => by
    obtain ⟨position, value, hposition, hvalue, h⟩ := parts_of_ran_cons h
    obtain ⟨more, hmore, h⟩ := loadsElements_of_ran h
    refine ⟨_, ⟨position, loadsInt_of_ran hposition, value, loads_of_ran hvalue, more, hmore, rfl⟩, ?_⟩
    rw [h]
    simp

end

end Literal

end Classwright
