import Classwright.Proofs.Heap
import Classwright.Proofs.Room
import Classwright.Proofs.Simulation

/-!
# Pushing a literal leaves its value

The code that pushes a literal is run on any operand stack and heap.  It leaves one more value on the
stack: the number, the string, `null`, the static field, or the address of a new array whose elements
are the values of the elements.  The arrays of the literal are all that is added to the heap, each
once, and nothing that was there before changes.
-/

namespace Classwright

def Component.of : JavaType → Component
  | .primitive p => .primitive p
  | t => .named t.internalName

private theorem JavaType.eq_primitive_of_elemKind? {component : JavaType} {p : Primitive}
    (h : (JavaType.primitive p).elemKind? = component.elemKind?) : component = .primitive p := by
  cases component with
  | primitive q => cases p <;> cases q <;> cases h <;> rfl
  | object c | array t => cases p <;> cases h

private theorem Integer.narrow_signExtend {bits : Nat} (h : bits ≤ 32) (a : BitVec bits) :
    Integer.narrow bits (a.signExtend 32) = a.signExtend 32 := by
  unfold Integer.narrow
  congr 1
  apply BitVec.eq_of_getLsbD_eq
  intro i hi
  simp only [BitVec.getLsbD_setWidth, BitVec.getLsbD_signExtend, hi]
  simp
  omega

namespace Pool

variable {pool : Pool} {i : UInt16}

private theorem number?_of_meaning? {r : Request} (h : pool.meaning? i = some r) :
    pool.number? i = r.number? := by
  obtain ⟨e, hget, hreading⟩ := meaning?_eq_some_iff.mp h
  have hstands := standsFor_of_reading? hreading
  rw [number?, hget]
  cases r with
  | integer | float | long | double =>
    cases hstands
    rfl
  | utf8 | classInfo | string =>
    obtain ⟨_, rfl, -⟩ := hstands
    rfl
  | nameAndType | fieldRef | methodRef | interfaceMethodRef =>
    obtain ⟨_, _, rfl, -⟩ := hstands
    rfl

private theorem supplies (pool : Pool) : Machine.Supplies pool pool.number? := by
  intro i r n h hn
  rw [number?_of_meaning? h, hn]

end Pool

namespace Literal

mutual

/-- The elements of arrays suit them: they have the primitive type of the component, or are references
if the component is a class or array type. -/
def Storable : Literal → Prop
  | array component elements => ElementsStorable component elements
  | _ => True

def ElementsStorable (component : JavaType) : List Literal → Prop
  | [] => True
  | e :: rest =>
    e.type.elemKind? = component.elemKind? ∧ e.Storable ∧ ElementsStorable component rest

end

mutual

/-- The lengths of arrays are `int`s. -/
def Indexable : Literal → Prop
  | array _ elements => elements.length ≤ 2147483647 ∧ ElementsIndexable elements
  | _ => True

def ElementsIndexable : List Literal → Prop
  | [] => True
  | e :: rest => e.Indexable ∧ ElementsIndexable rest

end

mutual

theorem indexable_of_ran {pool : Pool} : ∀ {value : Literal} {instrs : List Instr},
    Ran pool value.push instrs → value.Indexable
  | boolean _, _, _ | byte _, _, _ | short _, _, _ | char _, _, _ | int _, _, _ | long _, _, _
  | float _, _, _ | double _, _, _ | string _, _, _ | null, _, _ | enum _ _, _, _ => trivial
  | array component elements, instrs, h => by
    obtain ⟨hbound, _, _, _, _, -, -, hstores, -⟩ := parts_of_ran_array h
    exact ⟨hbound, elementsIndexable_of_ran hstores⟩

theorem elementsIndexable_of_ran {pool : Pool} : ∀ {elements : List Literal} {store : Instr}
    {index : Nat} {done : List (List Instr)} {instrs : List Instr},
    Ran pool (pushElements store index elements done) instrs → ElementsIndexable elements
  | [], _, _, _, _, _ => trivial
  | e :: rest, store, index, done, _, h => by
    obtain ⟨_, _, -, hvalue, h⟩ := parts_of_ran_cons h
    exact ⟨indexable_of_ran hvalue, elementsIndexable_of_ran h⟩

end

end Literal

namespace HeapMachine

mutual

/-- The value stands for the literal, where the arrays of the literal are the objects from address
`start` up to `stop`. -/
def Denotes (statics : Statics) (heap : Heap) (start stop : Nat) : Literal → Value → Prop
  | .boolean b, v => stop = start ∧ v = .number (.int (if b then 1 else 0))
  | .byte n, v => stop = start ∧ v = .number (.int (n.toBitVec.signExtend 32))
  | .short n, v => stop = start ∧ v = .number (.int (n.toBitVec.signExtend 32))
  | .char n, v => stop = start ∧ v = .number (.int (n.toBitVec.setWidth 32))
  | .int n, v => stop = start ∧ v = .number (.int n.toBitVec)
  | .long n, v => stop = start ∧ v = .number (.long n.toBitVec)
  | .float bits, v => stop = start ∧ v = .number (.float bits.toBitVec)
  | .double bits, v => stop = start ∧ v = .number (.double bits.toBitVec)
  | .string s, v => stop = start ∧ v = .reference (.text s)
  | .null, v => stop = start ∧ v = .reference .null
  | .enum owner name, v =>
    stop = start ∧ v = statics.value owner.name name (JavaType.object owner).descriptor
  | .array component elements, v =>
    v = .reference (.at start) ∧ ∃ values, heap[start]? = some (.array (.of component) values) ∧
      DenotesEach statics heap (start + 1) stop elements values

def DenotesEach (statics : Statics) (heap : Heap) (start stop : Nat) :
    List Literal → List Value → Prop
  | [], values => stop = start ∧ values = []
  | e :: rest, values => ∃ middle v more, Denotes statics heap start middle e v ∧
      DenotesEach statics heap middle stop rest more ∧ values = v :: more

end

variable {fpu : FloatUnit} {statics : Statics} {pool : Pool}

section Denotes

variable {heap heap' : Heap}

mutual

theorem Denotes.le : ∀ {value : Literal} {start stop : Nat} {v : Value},
    Denotes statics heap start stop value v → start ≤ stop
  | .boolean _, _, _, _, h | .byte _, _, _, _, h | .short _, _, _, _, h | .char _, _, _, _, h
  | .int _, _, _, _, h | .long _, _, _, _, h | .float _, _, _, _, h | .double _, _, _, _, h
  | .string _, _, _, _, h | .null, _, _, _, h | .enum _ _, _, _, _, h => Nat.le_of_eq h.1.symm
  | .array _ _, _, _, _, ⟨_, _, _, heach⟩ => Nat.le_of_succ_le heach.le

theorem DenotesEach.le : ∀ {elements : List Literal} {start stop : Nat} {values : List Value},
    DenotesEach statics heap start stop elements values → start ≤ stop
  | [], _, _, _, h => Nat.le_of_eq h.1.symm
  | _ :: _, _, _, _, ⟨_, _, _, hhead, htail, _⟩ => Nat.le_trans hhead.le htail.le

end

mutual

theorem Denotes.congr : ∀ {value : Literal} {start stop : Nat} {v : Value},
    (∀ k, start ≤ k → k < stop → heap'[k]? = heap[k]?) →
      Denotes statics heap start stop value v → Denotes statics heap' start stop value v
  | .boolean _, _, _, _, _, h | .byte _, _, _, _, _, h | .short _, _, _, _, _, h
  | .char _, _, _, _, _, h | .int _, _, _, _, _, h | .long _, _, _, _, _, h | .float _, _, _, _, _, h
  | .double _, _, _, _, _, h | .string _, _, _, _, _, h | .null, _, _, _, _, h
  | .enum _ _, _, _, _, _, h => h
  | .array _ _, start, _, _, hsame, ⟨hv, values, hat, heach⟩ => by
    refine ⟨hv, values, ?_, heach.congr fun k hk hstop => hsame k (by omega) hstop⟩
    rw [hsame start (Nat.le_refl _) heach.le, hat]

theorem DenotesEach.congr : ∀ {elements : List Literal} {start stop : Nat} {values : List Value},
    (∀ k, start ≤ k → k < stop → heap'[k]? = heap[k]?) →
      DenotesEach statics heap start stop elements values →
        DenotesEach statics heap' start stop elements values
  | [], _, _, _, _, h => h
  | _ :: _, _, _, _, hsame, ⟨middle, v, more, hhead, htail, hvalues⟩ => by
    refine ⟨middle, v, more, hhead.congr fun k hk hstop => ?_, htail.congr fun k hk hstop => ?_, hvalues⟩
    · exact hsame k hk (Nat.lt_of_lt_of_le hstop htail.le)
    · exact hsame k (Nat.le_trans hhead.le hk) hstop

end

/-- The value of an element is what an array with such elements holds after it was stored. -/
theorem Denotes.store? {component : JavaType} {kind : ElemKind}
    (hkind : component.elemKind? = some kind) {e : Literal}
    (he : e.type.elemKind? = component.elemKind?) {start stop : Nat} {v : Value}
    (h : Denotes statics heap start stop e v) :
    (Component.of component).store? kind.element v = some v := by
  have hnamed : e.type.elemKind? = some .reference → ∀ r, v = .reference r →
      (Component.of component).store? kind.element v = some v := by
    intro href r hr
    rw [he, hkind] at href
    cases href
    rw [hr]
    cases component with
    | primitive p => cases p <;> cases hkind
    | object | array => rfl
  cases e with
  | boolean b =>
    cases JavaType.eq_primitive_of_elemKind? he
    cases hkind
    cases h.2
    cases b <;> rfl
  | byte | short =>
    cases JavaType.eq_primitive_of_elemKind? he
    cases hkind
    cases h.2
    exact congrArg (some ∘ Value.number ∘ Number.int) (Integer.narrow_signExtend (by decide) _)
  | char n =>
    cases JavaType.eq_primitive_of_elemKind? he
    cases hkind
    cases h.2
    refine congrArg (some ∘ Value.number ∘ Number.int) ?_
    simp
  | int | long | float | double =>
    cases JavaType.eq_primitive_of_elemKind? he
    cases hkind
    cases h.2
    rfl
  | string | null => exact hnamed rfl _ h.2
  | enum owner name =>
    obtain ⟨r, hr⟩ := statics.isReference owner.name name owner
    exact hnamed rfl r (h.2.trans hr)
  | array => exact hnamed rfl _ h.1

private theorem denotes_of_number? {value : Literal} {n : Number} (hn : value.number? = some n)
    (start : Nat) :
    Denotes statics heap start start value (.number n) := by
  cases value <;> cases hn <;> exact ⟨rfl, rfl⟩

end Denotes

section Steps

private theorem toInt_ofNat {n : Nat} (h : n ≤ 2147483647) : (BitVec.ofNat 32 n).toInt = n := by
  rw [BitVec.toInt_ofNat']
  exact Int.bmod_eq_of_le (by omega) (by omega)

private theorem loaded?_of_exec {instr : Instr} {n : Number}
    (h : ∀ f : Machine.Frame, Machine.exec fpu pool.number? f instr = f.push n) :
    loaded? fpu pool instr = some (.number n) := by
  simp [loaded?, loadedNumber?, h, Machine.Frame.push]

private theorem exec_loadsInt {v : Int32} {instr : Instr} (h : Literal.LoadsInt pool v instr)
    (s : State) :
    exec fpu statics pool s instr = s.push (.number (.int v.toBitVec)) :=
  exec_of_loaded? (loaded?_of_exec fun f => Machine.exec_loadsInt pool.supplies f h) s

private theorem exec_loadEntry {index : UInt16} {text : String}
    (h : pool.meaning? index = some (.string text)) (s : State) :
    exec fpu statics pool s (.loadEntry index) = s.push (.reference (.text text)) := by
  have hnumber : pool.number? index = none := Pool.number?_of_meaning? h
  have hstring : pool.string? index = some text := by rw [Pool.string?, h]
  apply exec_of_loaded?
  obtain ⟨i, rfl, hi⟩ | hi := Instr.loadEntry_cases index
  · simp [hi, loaded?, loadedNumber?, loadedText?, Machine.exec, Machine.Frame.pushConstant, hnumber,
      hstring]
  · simp [hi, loaded?, loadedNumber?, loadedText?, Machine.exec, Machine.Frame.pushConstant, hnumber,
      hstring]

private theorem exec_getStatic {index : UInt16} {owner name descriptor : String}
    (h : pool.meaning? index = some (.fieldRef owner name descriptor)) (s : State) :
    exec fpu statics pool s (.field .getStatic index) =
      s.push (statics.value owner name descriptor) := by
  simp [exec, h]

private theorem exec_allocates {component : JavaType} {instr : Instr} {kind : ElemKind}
    (h : Literal.AllocatesArray pool component instr kind) (s : State) :
    exec fpu statics pool s instr = s.allocate (.of component) := by
  obtain ⟨hkind, ⟨code, hcode, rfl⟩ | ⟨hcode, index, hindex, rfl⟩⟩ := h
  · cases component with
    | primitive p => cases p <;> cases hkind <;> cases hcode <;> rfl
    | object | array => cases hkind; cases hcode
  · have hname : exec fpu statics pool s (.newRefArray index) =
        s.allocate (.named component.internalName) := by
      simp [exec, Pool.className?_of_meaning? hindex]
    cases component with
    | primitive p => cases p <;> cases hkind <;> cases hcode
    | object | array => exact hname

private theorem allocate_ofNat {n : Nat} (hn : n ≤ 2147483647) (component : Component)
    (stack : List Value) (heap : Heap) :
    State.allocate ⟨.number (.int (Int32.ofNat n).toBitVec) :: stack, heap⟩ component =
      some ⟨.reference (.at heap.length) :: stack,
        heap ++ [.array component (List.replicate n component.zero)]⟩ := by
  simp [State.allocate, toInt_ofNat hn]

private theorem exec_arrayStore {component : Component} {element : Element} {v stored : Value}
    (h : component.store? element v = some stored) {done : List Value}
    (hdone : done.length ≤ 2147483647) (old : Value) (pending : List Value) (stack : List Value)
    (front back : Heap) :
    exec fpu statics pool
        ⟨v :: .number (.int (Int32.ofNat done.length).toBitVec) :: .reference (.at front.length) :: stack,
          front ++ .array component (done ++ old :: pending) :: back⟩ (.arrayStore element) =
      some ⟨stack, front ++ .array component (done ++ stored :: pending) :: back⟩ := by
  simp [exec, State.storeElement, toInt_ofNat hdone, h]

end Steps

theorem length_split (front back : Heap) (o : HeapObject) :
    (front ++ o :: back).length = front.length + 1 + back.length := by
  simp
  omega

private theorem getElem?_of_replaced (front back : Heap) (old new : HeapObject) {k : Nat}
    (hk : front.length < k) : (front ++ new :: back)[k]? = (front ++ old :: back)[k]? := by
  rw [List.getElem?_append_right (by omega), List.getElem?_append_right (by omega)]
  obtain ⟨j, hj⟩ : ∃ j, k - front.length = j + 1 := ⟨k - front.length - 1, by omega⟩
  rw [hj, List.getElem?_cons_succ, List.getElem?_cons_succ]

private theorem run_number {value : Literal} {n : Number} (hn : value.number? = some n)
    {instrs : List Instr} (h : value.Loads pool instrs) (stack : List Value) (heap : Heap) :
    run fpu statics pool ⟨stack, heap⟩ instrs = some ⟨.number n :: stack, heap⟩ := by
  have hexec : ∀ f : Machine.Frame, ∃ instr, instrs = [instr] ∧
      Machine.exec fpu pool.number? f instr = f.push n :=
    fun f => Machine.exec_literal pool.supplies f hn h
  obtain ⟨instr, rfl, -⟩ := hexec { locals := fun _ => none }
  have hloaded : loaded? fpu pool instr = some (.number n) := by
    apply loaded?_of_exec
    intro f
    obtain ⟨instr', heq, hpush⟩ := hexec f
    cases heq
    exact hpush
  exact run_cons (exec_of_loaded? hloaded _) []

/-- What a literal leaves: one value that stands for it, and its arrays behind the heap. -/
def Leaves (fpu : FloatUnit) (statics : Statics) (pool : Pool) (value : Literal)
    (instrs : List Instr) : Prop :=
  ∀ (stack : List Value) (heap : Heap), ∃ (v : Value) (more : Heap),
    run fpu statics pool ⟨stack, heap⟩ instrs = some ⟨v :: stack, heap ++ more⟩ ∧
      Denotes statics (heap ++ more) heap.length (heap ++ more).length value v

private theorem leaves_of_run {value : Literal} {instrs : List Instr} {v : Value}
    (h : ∀ stack heap, run fpu statics pool ⟨stack, heap⟩ instrs = some ⟨v :: stack, heap⟩)
    (hv : ∀ heap start, Denotes statics heap start start value v) :
    Leaves fpu statics pool value instrs := by
  intro stack heap
  refine ⟨v, [], ?_, ?_⟩
  · rw [List.append_nil]
    exact h stack heap
  · rw [List.append_nil]
    exact hv heap _

/-- What the code for some elements does to the array on the stack: the elements behind those that are
stored already become the values of the literals. -/
def Fills (fpu : FloatUnit) (statics : Statics) (pool : Pool) (component : Component)
    (elements : List Literal) (index : Nat) (instrs : List Instr) : Prop :=
  ∀ (stack : List Value) (front back : Heap) (done pending : List Value), done.length = index →
    pending.length = elements.length → ∃ (stored : List Value) (more : Heap),
      run fpu statics pool
          ⟨.reference (.at front.length) :: stack,
            front ++ .array component (done ++ pending) :: back⟩ instrs =
        some ⟨.reference (.at front.length) :: stack,
          front ++ .array component (done ++ stored) :: (back ++ more)⟩ ∧
      DenotesEach statics (front ++ .array component (done ++ stored) :: (back ++ more))
        (front.length + 1 + back.length) (front.length + 1 + (back ++ more).length) elements stored

theorem fills_nil (component : Component) (index : Nat) :
    Fills fpu statics pool component [] index [] := by
  intro stack front back done pending _ hpending
  rw [List.eq_nil_of_length_eq_zero hpending]
  refine ⟨[], [], ?_, ?_⟩
  · simp [run]
  · simp [DenotesEach]

/-- One element more: its value is computed above the array, the index and a second reference to the
array, and its own arrays come between those of the elements before and behind it. -/
theorem Fills.cons {component : JavaType} {kind : ElemKind} (hkind : component.elemKind? = some kind)
    {e : Literal} (he : e.type.elemKind? = component.elemKind?) {index : Nat}
    (hindex : index ≤ 2147483647) {position : Instr} {value more : List Instr} {rest : List Literal}
    (hposition : Literal.LoadsInt pool (Int32.ofNat index) position)
    (hvalue : Leaves fpu statics pool e value)
    (hrest : Fills fpu statics pool (.of component) rest (index + 1) more) :
    Fills fpu statics pool (.of component) (e :: rest) index
      (.dup :: position :: (value ++ .arrayStore kind.element :: more)) := by
  intro stack front back done pending hdone hpending
  subst hdone
  obtain _ | ⟨old, pending⟩ := pending
  · cases hpending
  obtain ⟨v, arrays, hrun, hdenotes⟩ := hvalue
    (.number (.int (Int32.ofNat done.length).toBitVec) :: .reference (.at front.length) ::
      .reference (.at front.length) :: stack)
    (front ++ .array (.of component) (done ++ old :: pending) :: back)
  have hstore := hdenotes.store? hkind he
  obtain ⟨stored, arrays', hrun', hdenotes'⟩ := hrest stack front (back ++ arrays) (done ++ [v])
    pending (by simp) (by simpa using hpending)
  simp only [List.append_assoc, List.cons_append, List.nil_append] at hrun hdenotes hrun' hdenotes'
  refine ⟨v :: stored, arrays ++ arrays', ?_, ?_⟩
  · rw [run_cons rfl, run_cons (exec_loadsInt hposition _), run_append]
    refine (congrArg (fun t => Option.bind t _) hrun).trans ?_
    rw [Option.bind_some, run_cons (exec_arrayStore hstore hindex old pending _ front _)]
    exact hrun'
  · have hsame : ∀ k, front.length + 1 + back.length ≤ k →
        k < front.length + 1 + (back ++ arrays).length →
        (front ++ .array (.of component) (done ++ v :: stored) :: (back ++ (arrays ++ arrays')))[k]? =
          (front ++ .array (.of component) (done ++ old :: pending) :: (back ++ arrays))[k]? := by
      intro k hlow hhigh
      rw [getElem?_of_replaced front _ (.array (.of component) (done ++ old :: pending)) _ (by omega),
        ← List.append_assoc back, ← List.cons_append, ← List.append_assoc front]
      apply List.getElem?_append_left
      rw [length_split]
      exact hhigh
    rw [length_split, length_split] at hdenotes
    exact ⟨_, v, stored, hdenotes.congr hsame, hdenotes', rfl⟩

mutual

/-- The code of a literal leaves its value. -/
theorem leaves_of_loads : ∀ {value : Literal} {instrs : List Instr}, value.Loads pool instrs →
    value.Storable → value.Indexable → Leaves fpu statics pool value instrs
  | .boolean _, _, h, _, _ | .byte _, _, h, _, _ | .short _, _, h, _, _ | .char _, _, h, _, _
  | .int _, _, h, _, _ | .long _, _, h, _, _ | .float _, _, h, _, _ | .double _, _, h, _, _ =>
    leaves_of_run (run_number rfl h) fun _ => denotes_of_number? rfl
  | .string _, _, ⟨_, hindex, rfl⟩, _, _ =>
    leaves_of_run (fun _ _ => run_cons (exec_loadEntry hindex _) []) fun _ _ => ⟨rfl, rfl⟩
  | .null, _, rfl, _, _ => leaves_of_run (fun _ _ => rfl) fun _ _ => ⟨rfl, rfl⟩
  | .enum _ _, _, ⟨_, hindex, rfl⟩, _, _ =>
    leaves_of_run (fun _ _ => run_cons (exec_getStatic hindex _) []) fun _ _ => ⟨rfl, rfl⟩
  | .array component elements, _,
      ⟨_, hlength, _, kind, hallocates, _, hstores, rfl⟩, hstorable, ⟨hbound, hindexable⟩ => by
    intro stack heap
    obtain ⟨stored, more, hrun, heach⟩ :=
      fills_of_loads hallocates.1 hstores hstorable hindexable (by omega) stack heap [] []
        (List.replicate elements.length (Component.of component).zero) rfl List.length_replicate
    refine ⟨.reference (.at heap.length), .array (.of component) stored :: more, ?_, rfl, stored, ?_, ?_⟩
    · rw [run_cons (exec_loadsInt hlength _),
        run_cons ((exec_allocates hallocates _).trans (allocate_ofNat hbound _ _ _))]
      exact hrun
    · simp
    · rw [length_split]
      exact heach

theorem fills_of_loads : ∀ {elements : List Literal} {component : JavaType} {kind : ElemKind}
    {index : Nat} {instrs : List Instr}, component.elemKind? = some kind →
    Literal.LoadsElements pool (.arrayStore kind.element) index elements instrs →
    Literal.ElementsStorable component elements → Literal.ElementsIndexable elements →
    index + elements.length ≤ 2147483647 →
      Fills fpu statics pool (.of component) elements index instrs
  | [], _, _, index, _, _, rfl, _, _, _ => fills_nil _ index
  | _ :: _, _, _, _, _, hkind, ⟨_, hposition, _, hvalue, _, hmore, rfl⟩, ⟨he, hstorable, hrest⟩,
      ⟨hindexable, hrestIndexable⟩, hbound => by
    rw [List.length_cons] at hbound
    exact .cons hkind he (by omega) hposition (leaves_of_loads hvalue hstorable hindexable)
      (fills_of_loads hkind hmore hrest hrestIndexable (by omega))

end

/-- Pushing a literal leaves exactly its value: whatever the operand stack and the heap are, the code
adds one value to the stack that stands for the literal, adds the arrays of the literal to the heap,
and changes nothing else. -/
theorem push_leaves_value {value : Literal} (hvalue : value.Storable) {p q : Pool} (hp : p.Sound)
    {instrs : List Instr} (h : value.push p = .ok (instrs, q)) (fpu : FloatUnit) (statics : Statics)
    (stack : List Value) (heap : Heap) :
    ∃ v more, run fpu statics q ⟨stack, heap⟩ instrs = some ⟨v :: stack, heap ++ more⟩ ∧
      Denotes statics (heap ++ more) heap.length (heap ++ more).length value v := by
  have hran : Ran q value.push instrs := ⟨p, q, h, hp, Pool.le_refl q⟩
  exact leaves_of_loads (Literal.loads_of_ran hran) hvalue (Literal.indexable_of_ran hran) stack heap

def nameStatics : Statics where
  value _ name descriptor :=
    match descriptor.toList with
    | 'L' :: _ => .reference (.text name)
    | _ => .number (.int 0)
  isReference _ name c := ⟨.text name, by simp [JavaType.descriptor, JavaType.descriptorChars]⟩

def assorted : Literal :=
  .array .javaLangObject [.array .byte [.byte (-1)], .null, .enum { name := "Color" } "RED"]

private theorem exists_push : ∃ instrs q, assorted.push {} = .ok (instrs, q) := by
  have hclass : Succeeds 2 (pooled (Pool.classInfo "java/lang/Object")) fun _ => True :=
    .classInfo (by decide)
  have hfield : Succeeds 6 (pooled (Pool.fieldRef "Color" "RED" "LColor;")) fun _ => True :=
    .fieldRef (by decide)
  obtain ⟨index, p, hrun, hp, hsize, -⟩ := hclass {} Pool.sound_empty (by decide)
  obtain ⟨constant, q, hconstant, -⟩ := hfield p hp (Nat.le_trans (Nat.add_le_add_right hsize 6) (by decide))
  have hallocate : Literal.allocate .javaLangObject {} = .ok ((.newRefArray index, .reference), p) :=
    run_bind_iff.mpr ⟨index, p, hrun, rfl⟩
  have henum : Literal.push (.enum { name := "Color" } "RED") p = .ok ([.field .getStatic constant], q) :=
    run_bind_iff.mpr ⟨constant, q, hconstant, rfl⟩
  have helement : ∀ done, ∃ stores, Literal.pushElements (.arrayStore .reference) 2
      [.enum { name := "Color" } "RED"] done p = .ok (stores, q) :=
    fun done => ⟨_, run_bind_iff.mpr ⟨_, p, rfl, run_bind_iff.mpr ⟨_, q, henum, rfl⟩⟩⟩
  obtain ⟨stores, hstores⟩ := helement _
  exact ⟨_, q, run_bind_iff.mpr ⟨_, _, rfl, run_bind_iff.mpr ⟨_, p, hallocate,
    run_bind_iff.mpr ⟨stores, q, hstores, rfl⟩⟩⟩⟩

theorem push_leaves_assorted : assorted.Storable ∧ ∃ instrs q,
    assorted.push {} = .ok (instrs, q) ∧ ∀ fpu, ∃ heap : Heap,
      run fpu nameStatics q ⟨[], []⟩ instrs = some ⟨[.reference (.at 0)], heap⟩ ∧ heap.length = 2 ∧
        heap[0]? = some (.array (.named "java/lang/Object")
          [.reference (.at 1), .reference .null, .reference (.text "RED")]) ∧
        heap[1]? = some (.array (.primitive .byte) [.number (.int (-1))]) := by
  have hstorable : assorted.Storable :=
    ⟨rfl, ⟨rfl, trivial, trivial⟩, rfl, trivial, rfl, trivial, trivial⟩
  obtain ⟨instrs, q, hpush⟩ := exists_push
  refine ⟨hstorable, instrs, q, hpush, fun fpu => ?_⟩
  obtain ⟨v, heap, hrun, hdenotes⟩ :=
    push_leaves_value hstorable Pool.sound_empty hpush fpu nameStatics [] []
  obtain ⟨rfl, _, houter, _, _, _, ⟨rfl, _, hinner, _, _, _, ⟨rfl, rfl⟩, ⟨rfl, rfl⟩, rfl⟩,
    ⟨_, _, _, ⟨rfl, rfl⟩, ⟨_, _, _, ⟨rfl, rfl⟩, ⟨hstop, rfl⟩, rfl⟩, rfl⟩, rfl⟩ := hdenotes
  exact ⟨heap, hrun, hstop, houter, hinner⟩

end HeapMachine

end Classwright
