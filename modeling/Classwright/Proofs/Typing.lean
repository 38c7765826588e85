import Classwright.Proofs.Blocks
import Classwright.Proofs.Verifier

/-!
# The operands of a block

The code of every statement takes the operand stack from empty to empty: each instruction finds the
operands of the kinds that it takes on top of the stack.  So do branches and returns, which leave
nothing on the stack, whether or not control passes on.
-/

namespace Classwright

section Stored

variable {file : ClassFile} {q : Pool} (hpool : file.pool = q.entries) {index : UInt16}
include hpool

private theorem descriptor?_of_memberType? {k : UInt16} {descriptor : String}
    (h : q.memberType? k = some descriptor) : file.descriptor? k = some descriptor := by
  simp only [Pool.memberType?, Pool.text?, Pool.get?] at h
  simp only [ClassFile.descriptor?, ClassFile.text?, hpool]
  exact h

theorem ClassFile.fieldDescriptor?_of_meaning? {owner name descriptor : String}
    (h : q.meaning? index = some (.fieldRef owner name descriptor)) :
    file.fieldDescriptor? index = some descriptor := by
  obtain ⟨e, hget, hreading⟩ := Pool.meaning?_eq_some_iff.mp h
  obtain ⟨k, l, rfl, -, -, htype⟩ := Pool.standsFor_of_reading? hreading
  have hentry : entryAt? file.pool index = some (.fieldRef k l) := by rw [hpool]; exact hget
  rw [fieldDescriptor?, hentry]
  exact descriptor?_of_memberType? hpool htype

private theorem ClassFile.classMethodDescriptor?_of_meaning? {owner name descriptor : String}
    (h : q.meaning? index = some (.methodRef owner name descriptor)) :
    file.classMethodDescriptor? index = some descriptor := by
  obtain ⟨e, hget, hreading⟩ := Pool.meaning?_eq_some_iff.mp h
  obtain ⟨k, l, rfl, -, -, htype⟩ := Pool.standsFor_of_reading? hreading
  have hentry : entryAt? file.pool index = some (.methodRef k l) := by rw [hpool]; exact hget
  rw [classMethodDescriptor?, hentry]
  exact descriptor?_of_memberType? hpool htype

private theorem ClassFile.interfaceMethodDescriptor?_of_meaning? {owner name descriptor : String}
    (h : q.meaning? index = some (.interfaceMethodRef owner name descriptor)) :
    file.interfaceMethodDescriptor? index = some descriptor := by
  obtain ⟨e, hget, hreading⟩ := Pool.meaning?_eq_some_iff.mp h
  obtain ⟨k, l, rfl, -, -, htype⟩ := Pool.standsFor_of_reading? hreading
  have hentry : entryAt? file.pool index = some (.interfaceMethodRef k l) := by
    rw [hpool]
    exact hget
  rw [interfaceMethodDescriptor?, hentry]
  exact descriptor?_of_memberType? hpool htype

end Stored

def Pool.Request.kind? : Pool.Request → Option Kind
  | integer _ => some .int
  | float _ => some .float
  | long _ => some .long
  | double _ => some .double
  | string _ | classInfo _ => some .reference
  | _ => none

private theorem ClassFile.constantKind?_of_meaning? {file : ClassFile} {q : Pool}
    (hpool : file.pool = q.entries) {index : UInt16} {r : Pool.Request} {kind : Kind}
    (h : q.meaning? index = some r) (hkind : r.kind? = some kind) :
    file.constantKind? index = some kind := by
  obtain ⟨e, hget, hreading⟩ := Pool.meaning?_eq_some_iff.mp h
  have hentry : entryAt? file.pool index = some e := by rw [hpool]; exact hget
  have hstands := Pool.standsFor_of_reading? hreading
  rw [constantKind?, hentry]
  cases r with
  | integer v | float v | long v | double v =>
    rw [show e = _ from hstands]
    exact hkind
  | classInfo name | string name =>
    obtain ⟨k, rfl, -⟩ := hstands
    exact hkind
  | _ => cases hkind

/-- The slots of the locals of a body may hold values of their kinds. -/
def Lowering.Slotted (final : Lowering) (b : Body) (S : Kind → UInt16 → Prop) : Prop :=
  ∀ l ∈ b.locals, ∀ {slot : UInt16} {kind : Kind}, final.slots.index[l.name]? = some slot →
    l.type.kind? = some kind → S kind slot

namespace Lower

open Verifier

/-- The instruction only works on operands, those that it takes and those that it leaves. -/
def Operates (N : String → Prop) (file : ClassFile) (instr : Instr) (taken left : List Kind) : Prop :=
  Moves N file instr taken left ∧ instr.isOperation = true

/-- The operands that a line takes and leaves, in a method whose slots and result it suits; values of
a kind may be in a slot if `S` says so. -/
inductive Types (N : String → Prop) (S : Kind → UInt16 → Prop) (file : ClassFile) (result : JavaType) :
    Line → List Kind → List Kind → Prop where
  | load {kind : Kind} {slot : UInt16} (h : S kind slot) :
      Types N S file result (.plain (.loadSlot kind slot)) [] [kind]
  | store {kind : Kind} {slot : UInt16} (h : S kind slot) :
      Types N S file result (.plain (.storeSlot kind slot)) [kind] []
  | operation {instr : Instr} {taken left : List Kind} (h : Operates N file instr taken left) :
      Types N S file result (.plain instr) taken left
  | returnValue {kind : Kind} (h : result.kind? = some kind) :
      Types N S file result (.plain (.returnValue kind)) [kind] []
  | returnVoid (h : result.isVoid = true) : Types N S file result (.plain .returnVoid) [] []
  | branch (when : Jump) (label : Label) :
      Types N S file result (.branch when label) when.operands []

theorem Types.moves_plain {N : String → Prop} {S : Kind → UInt16 → Prop} {file : ClassFile}
    {result : JavaType} {instr : Instr} {taken left : List Kind}
    (h : Types N S file result (.plain instr) taken left) : Moves N file instr taken left := by
  cases h with
  | load => exact .load _ _
  | store => exact .store _ _
  | operation h => exact h.1
  | returnValue => exact .returnValue _
  | returnVoid => exact .returnVoid

theorem Types.moves {N : String → Prop} {S : Kind → UInt16 → Prop} {file : ClassFile} {result : JavaType}
    {line : Line} {taken left : List Kind} (h : Types N S file result line taken left) {d : Draft} {i : Nat}
    {step : Step} (hresolves : d.Resolves i line step) : Moves N file step.instr taken left := by
  cases line with
  | plain instr => exact (show step = _ from hresolves) ▸ h.moves_plain
  | branch when label =>
    cases h
    obtain ⟨target, -, -, -, -, rfl⟩ := hresolves
    exact .jump when _

theorem Types.isJump {N : String → Prop} {S : Kind → UInt16 → Prop} {file : ClassFile}
    {result : JavaType} {instr : Instr}
    {taken left : List Kind} (h : Types N S file result (.plain instr) taken left) :
    instr.isJump = false := by
  cases h with
  | operation h => exact Instr.isJump_of_isOperation h.2
  | _ => rfl

def leaves : Line → Bool
  | .plain instr => instr.endsMethod
  | .branch .. => true

/-- The lines take the stack from one state to the other.  A line that leaves takes all that is on
it. -/
inductive Profile (T : Line → List Kind → List Kind → Prop) :
    List Line → List Kind → List Kind → Prop where
  | nil (stack : List Kind) : Profile T [] stack stack
  | part {line : Line} {lines : List Line} {taken left base stack : List Kind}
      (types : T line taken left) (stays : leaves line = false)
      (rest : Profile T lines (left ++ base) stack) : Profile T (line :: lines) (taken ++ base) stack
  | whole {line : Line} {lines : List Line} {taken left stack : List Kind}
      (types : T line taken left) (rest : Profile T lines left stack) :
      Profile T (line :: lines) taken stack

theorem Profile.append {T : Line → List Kind → List Kind → Prop} {lines more : List Line}
    {start middle stop : List Kind} (h : Profile T lines start middle)
    (h' : Profile T more middle stop) : Profile T (lines ++ more) start stop := by
  induction h with
  | nil => exact h'
  | part types stays _ ih => exact .part types stays (ih h')
  | whole types _ ih => exact .whole types (ih h')

section Stacks

variable {T : Line → List Kind → List Kind → Prop} {lines more : List Line}
  {stackAt stackAt' : Nat → List Kind}

/-- Every line finds the operands it takes on the stack before it and leaves the stack before the next
line; one that leaves takes all that there is. -/
def Stacks (T : Line → List Kind → List Kind → Prop) (lines : List Line)
    (stackAt : Nat → List Kind) : Prop :=
  ∀ i line, lines[i]? = some line → ∃ taken left rest, T line taken left ∧
    stackAt i = taken ++ rest ∧ stackAt (i + 1) = left ++ rest ∧
    (leaves line = true → rest = [])

private theorem Stacks.cons {line : Line} {taken left rest : List Kind} (types : T line taken left)
    (hnext : stackAt 0 = left ++ rest) (hleaves : leaves line = true → rest = [])
    (h : Stacks T lines stackAt) :
    Stacks T (line :: lines) fun i => i.casesOn (taken ++ rest) stackAt := by
  intro i found hfound
  cases i with
  | zero =>
    cases hfound
    exact ⟨taken, left, rest, types, rfl, hnext, hleaves⟩
  | succ i => exact h i found hfound

theorem Profile.exists_stacks {start stop : List Kind} (h : Profile T lines start stop) :
    ∃ stackAt, stackAt 0 = start ∧ stackAt lines.length = stop ∧ Stacks T lines stackAt := by
  induction h with
  | nil stack => exact ⟨fun _ => stack, rfl, rfl, fun _ _ h => by cases h⟩
  | @part line lines taken left base stack types stays rest ih =>
    obtain ⟨stackAt, hstart, hstop, hstacks⟩ := ih
    refine ⟨_, rfl, hstop, hstacks.cons types hstart fun hleaves => ?_⟩
    rw [stays] at hleaves
    cases hleaves
  | @whole line lines taken left stack types rest ih =>
    obtain ⟨stackAt, hstart, hstop, hstacks⟩ := ih
    rw [← List.append_nil left] at hstart
    exact ⟨_, List.append_nil taken, hstop, hstacks.cons types hstart fun _ => rfl⟩

private def glue (n : Nat) (first other : Nat → List Kind) (i : Nat) : List Kind :=
  if i < n then first i else other (i - n)

private theorem glue_of_le {n i : Nat} (hmeet : stackAt n = stackAt' 0) (h : i ≤ n) :
    glue n stackAt stackAt' i = stackAt i := by
  unfold glue
  split
  · rfl
  · have hi : i = n := by omega
    rw [hi, Nat.sub_self, hmeet]

private theorem glue_add (n i : Nat) : glue n stackAt stackAt' (n + i) = stackAt' i := by
  rw [glue, if_neg (by omega), Nat.add_sub_cancel_left]

private theorem Stacks.append (h : Stacks T lines stackAt) (h' : Stacks T more stackAt')
    (hmeet : stackAt lines.length = stackAt' 0) :
    Stacks T (lines ++ more) (glue lines.length stackAt stackAt') := by
  intro i line hline
  by_cases hlt : i < lines.length
  · rw [List.getElem?_append_left hlt] at hline
    rw [glue_of_le hmeet (Nat.le_of_lt hlt), glue_of_le hmeet hlt]
    exact h i line hline
  · obtain ⟨k, rfl⟩ := Nat.exists_eq_add_of_le (Nat.le_of_not_lt hlt)
    rw [List.getElem?_append_right (Nat.le_add_right _ _), Nat.add_sub_cancel_left] at hline
    rw [Nat.add_assoc, glue_add, glue_add]
    exact h' k line hline

/-- Segments that leave the stack empty follow each other; the stack is empty between them. -/
theorem exists_stackAt {segments : List (List Line)}
    (h : ∀ segment ∈ segments, Profile T segment [] []) :
    ∃ stackAt, Stacks T segments.flatten stackAt ∧
      ∀ n ≤ segments.length, stackAt (segments.take n).flatten.length = [] := by
  induction segments with
  | nil => exact ⟨fun _ => [], fun _ _ h => absurd h (by simp), fun _ _ => rfl⟩
  | cons segment segments ih =>
    obtain ⟨first, hstart, hstop, hfirst⟩ := (h segment List.mem_cons_self).exists_stacks
    obtain ⟨rest, hrest, hbetween⟩ := ih fun s hs => h s (List.mem_cons_of_mem _ hs)
    have hmeet : first segment.length = rest 0 := hstop.trans (hbetween 0 (Nat.zero_le _)).symm
    refine ⟨_, hfirst.append hrest hmeet, fun n hn => ?_⟩
    cases n with
    | zero => exact (glue_of_le hmeet (Nat.zero_le _)).trans hstart
    | succ n =>
      rw [List.take_succ_cons, List.flatten_cons, List.length_append, glue_add]
      exact hbetween n (Nat.le_of_succ_le_succ hn)

end Stacks

section Pieces

variable {N : String → Prop} {S : Kind → UInt16 → Prop} {final : Lowering} {file : ClassFile}
  {result : JavaType} {b : Body} {q : Pool} {rest : List Item} {base stack : List Kind}

private theorem Operates.profile {instr : Instr} {taken left : List Kind}
    (h : Operates N file instr taken left)
    {lines : List Line} (hrest : Profile (Types N S file result) lines (left ++ base) stack) :
    Profile (Types N S file result) (.plain instr :: lines) (taken ++ base) stack :=
  .part (.operation h) (Instr.endsMethod_of_isOperation h.2) hrest

private theorem Operates.profile_all {instr : Instr} {taken left : List Kind}
    (h : Operates N file instr taken left) {lines : List Line}
    (hrest : Profile (Types N S file result) lines left stack) :
    Profile (Types N S file result) (.plain instr :: lines) taken stack :=
  .whole (.operation h) hrest

theorem Profile.operation {instr : Instr} {taken left : List Kind} {lines : List Line}
    (moves : Moves N file instr taken left) (plain : instr.isOperation = true)
    (hrest : Profile (Types N S file result) lines (left ++ base) stack) :
    Profile (Types N S file result) (.plain instr :: lines) (taken ++ base) stack :=
  Operates.profile ⟨moves, plain⟩ hrest

private theorem Pushes.exists_kind {l : Local} {item : Item} (h : Pushes final l item) :
    ∃ kind, l.type.kind? = some kind := by
  obtain ⟨slot, -, kind, hkind, -⟩ := h
  exact ⟨kind, hkind⟩

private theorem Pops.exists_kind {l : Local} {item : Item} (h : Pops final l item) :
    ∃ kind, l.type.kind? = some kind := by
  obtain ⟨kind, hkind, -⟩ := h
  exact ⟨kind, hkind⟩

private theorem exists_kinds_of_pushed {locals : List Local} {pushed : List Item}
    (h : List.Forall₂ (Pushes final) locals pushed) :
    ∃ kinds : List Kind, locals.map (fun l => l.type.kind?) = kinds.map some := by
  induction h with
  | nil => exact ⟨[], rfl⟩
  | cons hpushes _ ih =>
    obtain ⟨kind, hkind⟩ := hpushes.exists_kind
    obtain ⟨kinds, hkinds⟩ := ih
    exact ⟨kind :: kinds, by rw [List.map_cons, hkind, hkinds, List.map_cons]⟩

section Locals

variable (hslots : final.Slotted b S)
include hslots

private theorem Pushes.profile {l : Local} {item : Item} {kind : Kind} (h : Pushes final l item)
    (hl : l ∈ b.locals) (hkind : l.type.kind? = some kind)
    (hrest : Profile (Types N S file result) (Item.lines rest) (kind :: base) stack) :
    Profile (Types N S file result) (Item.lines (item :: rest)) base stack := by
  obtain ⟨slot, hslot, kind', hkind', rfl⟩ := h
  rw [hkind] at hkind'
  cases hkind'
  have htypes : Types N S file result (.plain (.loadSlot kind slot)) [] [kind] :=
    .load (hslots l hl hslot hkind)
  exact .part htypes rfl hrest

private theorem Pops.profile {l : Local} {item : Item} {kind : Kind} (h : Pops final l item)
    (hl : l ∈ b.locals) (hkind : l.type.kind? = some kind)
    (hrest : Profile (Types N S file result) (Item.lines rest) base stack) :
    Profile (Types N S file result) (Item.lines (item :: rest)) (kind :: base) stack := by
  obtain ⟨kind', hkind', slot, hslot, rfl⟩ := h
  rw [hkind] at hkind'
  cases hkind'
  have htypes : Types N S file result (.plain (.storeSlot kind slot)) [kind] [] :=
    .store (hslots l hl hslot hkind)
  exact .part htypes rfl hrest

private theorem Pops.profile_last {l : Local} {item : Item} {kind : Kind} (h : Pops final l item)
    (hl : l ∈ b.locals) (hkind : l.type.kind? = some kind) :
    Profile (Types N S file result) (Item.lines [item]) [kind] [] :=
  h.profile hslots hl hkind (.nil [])

private theorem profile_pushed {locals : List Local} {pushed : List Item} {kinds : List Kind}
    (h : List.Forall₂ (Pushes final) locals pushed) (hlocals : ∀ l ∈ locals, l ∈ b.locals)
    (hkinds : locals.map (fun l => l.type.kind?) = kinds.map some)
    (hrest : Profile (Types N S file result) (Item.lines rest) (kinds.reverse ++ base) stack) :
    Profile (Types N S file result) (Item.lines (pushed ++ rest)) base stack := by
  induction h generalizing kinds base with
  | nil =>
    cases kinds with
    | nil => exact hrest
    | cons => cases hkinds
  | @cons l item locals pushed hpushes _ ih =>
    cases kinds with
    | nil => cases hkinds
    | cons kind kinds =>
      obtain ⟨hkind, hkinds⟩ := List.cons.inj hkinds
      rw [List.reverse_cons, List.append_assoc] at hrest
      exact hpushes.profile hslots (hlocals l List.mem_cons_self) hkind
        (ih (fun l' hl' => hlocals l' (List.mem_cons_of_mem _ hl')) hkinds hrest)

end Locals

private theorem kind?_of_component? {t component : JavaType} (h : t.component? = some component) :
    t.kind? = some .reference := by
  cases t with
  | array c => rfl
  | _ => cases h

theorem kind?_of_isVoid {t : JavaType} (h : t.isVoid = true) : t.kind? = none := by
  cases t with
  | primitive p => cases p <;> first | rfl | cases h
  | _ => cases h

theorem kind?_of_elemKind? {t : JavaType} {kind : ElemKind} (h : t.elemKind? = some kind) :
    t.kind? = some kind.element.kind := by
  cases t with
  | primitive p => cases p <;> cases h <;> rfl
  | object c => cases h; rfl
  | array c => cases h; rfl

theorem operates_loadEntry {index : UInt16} {kind : Kind}
    (h : file.constantKind? index = some kind) (narrow : kind.isWide = false) :
    Operates N file (.loadEntry index) [] [kind] := by
  obtain ⟨i, rfl, hi⟩ | hi := Instr.loadEntry_cases index
  · rw [hi]
    exact ⟨.ldc h narrow, rfl⟩
  · rw [hi]
    exact ⟨.ldcW h narrow, rfl⟩

section Constants

variable (hpool : file.pool = q.entries) (hle : final.pool ≤ q)
include hpool hle

theorem constantKind?_of_final {index : UInt16} {r : Pool.Request} {kind : Kind}
    (h : final.pool.meaning? index = some r) (hkind : r.kind? = some kind) :
    file.constantKind? index = some kind :=
  ClassFile.constantKind?_of_meaning? hpool (Pool.meaning?_mono hle h) hkind

theorem operates_of_loadsInt {v : Int32} {instr : Instr}
    (h : Literal.LoadsInt final.pool v instr) : Operates N file instr [] [.int] := by
  rcases h with ⟨-, -, rfl⟩ | ⟨-, -, rfl⟩ | ⟨-, -, rfl⟩ | ⟨index, hindex, rfl⟩
  · exact ⟨.iconst _, rfl⟩
  · exact ⟨.bipush _, rfl⟩
  · exact ⟨.sipush _, rfl⟩
  · exact operates_loadEntry (constantKind?_of_final hpool hle hindex rfl) rfl

theorem operates_of_loadsLong {v : Int64} {instr : Instr}
    (h : Literal.LoadsLong final.pool v instr) : Operates N file instr [] [.long] := by
  rcases h with ⟨-, rfl⟩ | ⟨-, rfl⟩ | ⟨index, hindex, rfl⟩
  · exact ⟨.lconst _, rfl⟩
  · exact ⟨.lconst _, rfl⟩
  · exact ⟨.ldc2W (constantKind?_of_final hpool hle hindex rfl) rfl, rfl⟩

theorem operates_of_loadsFloat {bits : UInt32} {instr : Instr}
    (h : Literal.LoadsFloat final.pool bits instr) : Operates N file instr [] [.float] := by
  rcases h with ⟨-, rfl⟩ | ⟨-, rfl⟩ | ⟨-, rfl⟩ | ⟨index, hindex, rfl⟩
  · exact ⟨.fconst _, rfl⟩
  · exact ⟨.fconst _, rfl⟩
  · exact ⟨.fconst _, rfl⟩
  · exact operates_loadEntry (constantKind?_of_final hpool hle hindex rfl) rfl

theorem operates_of_loadsDouble {bits : UInt64} {instr : Instr}
    (h : Literal.LoadsDouble final.pool bits instr) : Operates N file instr [] [.double] := by
  rcases h with ⟨-, rfl⟩ | ⟨-, rfl⟩ | ⟨index, hindex, rfl⟩
  · exact ⟨.dconst _, rfl⟩
  · exact ⟨.dconst _, rfl⟩
  · exact ⟨.ldc2W (constantKind?_of_final hpool hle hindex rfl) rfl, rfl⟩

theorem operates_of_allocatesArray {component : JavaType} {instr : Instr} {kind : ElemKind}
    (h : Literal.AllocatesArray final.pool component instr kind) :
    Operates N file instr [.int] [.reference] := by
  obtain ⟨-, ⟨code, hcode, rfl⟩ | ⟨-, index, hindex, rfl⟩⟩ := h
  · have hrange : 4 ≤ code.toNat ∧ code.toNat ≤ 11 := by
      cases kind <;> cases hcode <;> decide
    exact ⟨.newArray hrange.1 hrange.2, rfl⟩
  · exact ⟨.newRefArray (ClassFile.className?_of_meaning? hpool (Pool.meaning?_mono hle hindex)), rfl⟩

mutual

theorem profile_of_loads : ∀ {value : Literal} {instrs : List Instr} {kind : Kind} {base : List Kind},
    value.Loads final.pool instrs → value.KindCorrect → value.type.kind? = some kind →
    Profile (Types N S file result) (instrs.map .plain) base (kind :: base)
  | .boolean _, _, _, _, ⟨_, hi, rfl⟩, _, rfl =>
    (operates_of_loadsInt hpool hle hi).profile (.nil _)
  | .byte _, _, _, _, ⟨_, hi, rfl⟩, _, rfl =>
    (operates_of_loadsInt hpool hle hi).profile (.nil _)
  | .short _, _, _, _, ⟨_, hi, rfl⟩, _, rfl =>
    (operates_of_loadsInt hpool hle hi).profile (.nil _)
  | .char _, _, _, _, ⟨_, hi, rfl⟩, _, rfl =>
    (operates_of_loadsInt hpool hle hi).profile (.nil _)
  | .int _, _, _, _, ⟨_, hi, rfl⟩, _, rfl =>
    (operates_of_loadsInt hpool hle hi).profile (.nil _)
  | .long _, _, _, _, ⟨_, hi, rfl⟩, _, rfl =>
    (operates_of_loadsLong hpool hle hi).profile (.nil _)
  | .float _, _, _, _, ⟨_, hi, rfl⟩, _, rfl =>
    (operates_of_loadsFloat hpool hle hi).profile (.nil _)
  | .double _, _, _, _, ⟨_, hi, rfl⟩, _, rfl =>
    (operates_of_loadsDouble hpool hle hi).profile (.nil _)
  | .string _, _, _, _, ⟨index, hindex, rfl⟩, _, rfl =>
    (operates_loadEntry (constantKind?_of_final hpool hle hindex rfl) rfl).profile (.nil _)
  | .null, _, _, _, rfl, _, rfl => .operation .aconstNull rfl (.nil _)
  | .enum _ _, _, _, _, ⟨_, hindex, rfl⟩, _, rfl =>
    .operation (.getStatic
      (ClassFile.fieldDescriptor?_of_meaning? hpool (Pool.meaning?_mono hle hindex)) rfl) rfl (.nil _)
  | .array component _, _, _, base,
      ⟨_, hlength, _, kind, hallocation, _, hstores, rfl⟩, helements, rfl => by
    have hkind := kind?_of_elemKind? hallocation.1
    exact (operates_of_loadsInt hpool hle hlength).profile
      ((operates_of_allocatesArray hpool hle hallocation).profile
        (profile_of_loadsElements hstores helements hkind))

theorem profile_of_loadsElements : ∀ {elements : List Literal} {component : JavaType}
    {element : Element} {index : Nat} {instrs : List Instr} {base : List Kind},
    Literal.LoadsElements final.pool (.arrayStore element) index elements instrs →
    Literal.ElementsKindCorrect component elements → component.kind? = some element.kind →
    Profile (Types N S file result) (instrs.map .plain) (.reference :: base) (.reference :: base)
  | [], _, _, _, _, _, rfl, _, _ => .nil _
  | e :: _, _, element, _, _, base, ⟨position, hposition, value, hvalue, more, hmore, rfl⟩,
      ⟨hkind, hcorrect, hrest⟩, helement => by
    have hpush : Profile (Types N S file result) (value.map .plain)
        (.int :: .reference :: .reference :: base)
        (element.kind :: .int :: .reference :: .reference :: base) :=
      profile_of_loads hvalue hcorrect (hkind.trans helement)
    have hstore : Profile (Types N S file result) ((Instr.arrayStore element :: more).map .plain)
        (element.kind :: .int :: .reference :: .reference :: base) (.reference :: base) :=
      .operation (.arrayStore element) rfl (profile_of_loadsElements hmore hrest helement)
    rw [List.map_cons, List.map_cons, List.map_append]
    exact .operation (.dup rfl) rfl ((operates_of_loadsInt hpool hle hposition).profile
      (hpush.append hstore))

end

private theorem operates_of_calls {m : MethodSymbol} {isSuper : Bool} {instr : Instr}
    {arguments : List Kind} (h : Calls final m isSuper instr) (hnames : ∀ t ∈ m.parameters, t.Names N)
    (harguments : m.parameters.map JavaType.kind? = arguments.map some) :
    Operates N file instr (arguments.reverse ++ if m.isStatic then [] else [.reference])
      m.result.kind?.toList := by
  obtain ⟨index, hmeaning, h⟩ := h
  have hclass : ¬ m.owner.isInterface →
      Signature N (file.classMethodDescriptor? index) arguments m.result.kind? := by
    intro howner
    rw [MethodSymbol.reference, if_neg howner] at hmeaning
    exact ⟨m.parameters, m.result, hnames,
      ClassFile.classMethodDescriptor?_of_meaning? hpool (Pool.meaning?_mono hle hmeaning),
      harguments, rfl⟩
  have hinterface : m.owner.isInterface →
      Signature N (file.interfaceMethodDescriptor? index) arguments m.result.kind? := by
    intro howner
    rw [MethodSymbol.reference, if_pos howner] at hmeaning
    exact ⟨m.parameters, m.result, hnames,
      ClassFile.interfaceMethodDescriptor?_of_meaning? hpool (Pool.meaning?_mono hle hmeaning),
      harguments, rfl⟩
  split_ifs at h ⊢ with hstatic howner hspecial
  · rw [h, List.append_nil]
    by_cases howner : m.owner.isInterface
    · exact ⟨.invokeStatic (.inr (hinterface howner)), rfl⟩
    · exact ⟨.invokeStatic (.inl (hclass howner)), rfl⟩
  · obtain ⟨count, hcount, hbyte, rfl⟩ := h
    refine ⟨.invokeInterface (hinterface howner) ?_, rfl⟩
    rw [← JavaType.totalWidth_eq_words harguments, m.toNat_of_callWords? hcount hbyte]
  · rw [h]
    exact ⟨.invokeSpecial (hclass howner), rfl⟩
  · rw [h]
    exact ⟨.invokeVirtual (hclass howner), rfl⟩

private theorem profile_of_adapts {source target : JavaType} {instrs : List Instr} {kind : Kind}
    (h : Adapts final source target instrs) (htarget : target.kind? = some kind) :
    Profile (Types N S file result) (instrs.map .plain) source.kind?.toList [kind] := by
  rcases h with ⟨-, hkinds, rfl⟩ | ⟨hreference, p, wrapper, rfl, -, box, hbox, method, hmethod, rfl⟩
  · rw [hkinds, htarget]
    exact .nil _
  · have hsignature : Signature N (file.classMethodDescriptor? method) [] (some kind) :=
      ⟨[], .primitive p, by simp,
        ClassFile.classMethodDescriptor?_of_meaning? hpool (Pool.meaning?_mono hle hmethod), rfl,
        htarget⟩
    rw [JavaType.kind?_of_isReference hreference]
    exact .operation
      (.checkCast (ClassFile.className?_of_meaning? hpool (Pool.meaning?_mono hle hbox))) rfl
      (.operation (.invokeVirtual hsignature) rfl (.nil _))

omit hpool hle in
private theorem profile_dropping (type : JavaType) :
    Profile (Types N S file result) (Item.lines (dropping type)) type.kind?.toList [] := by
  cases hvoid : type.isVoid with
  | true =>
    have htype : type = .void := by
      cases type with
      | primitive p => cases p <;> first | rfl | cases hvoid
      | object c => cases hvoid
      | array c => cases hvoid
    rw [htype]
    exact .nil _
  | false =>
    obtain ⟨kind, hkind, hwidth⟩ := JavaType.exists_kind? hvoid
    rw [dropping, hwidth, hkind, Kind.width]
    cases hwide : kind.isWide with
    | true => exact .operation (.pop2 hwide) rfl (.nil _)
    | false => exact .operation (.pop hwide) rfl (.nil _)

end Constants

private theorem operates_of_binary? {op : BinaryOp} {kind : NumKind} {instr : Instr}
    (h : Instr.binary? op kind = some instr) :
    Operates N file instr [if op.isShift then .int else kind.toKind, kind.toKind] [kind.toKind] := by
  have hbit : ∀ (op : BitOp), Instr.bitwise? op kind = some instr →
      Operates N file instr [if op.isShift then .int else kind.toKind, kind.toKind] [kind.toKind] := by
    intro op h
    cases kind <;> cases h
    · exact ⟨.bit op .int, rfl⟩
    · exact ⟨.bit op .long, rfl⟩
  cases op with
  | add | sub | mul | div | rem =>
    cases h
    exact ⟨.arith _ kind, rfl⟩
  | shl => exact hbit .shl h
  | shr => exact hbit .shr h
  | ushr => exact hbit .ushr h
  | and => exact hbit .and h
  | or => exact hbit .or h
  | xor => exact hbit .xor h

private theorem operates_of_castInstr? {source target : JavaType} {instr : Instr} {kind kind' : Kind}
    (h : castInstr? source target = some instr) (hsource : source.kind? = some kind)
    (htarget : target.kind? = some kind') :
    Operates N file instr [kind] [kind'] := by
  simp only [castInstr?, Option.bind_eq_bind, Option.bind_eq_some_iff] at h
  obtain ⟨numKind, hnum, p, hp, h⟩ := h
  rw [JavaType.kind?_of_numKind? hnum] at hsource
  cases hsource
  cases target with
  | primitive p' =>
    cases hp
    cases numKind <;> cases p <;> cases h <;> cases htarget <;> exact ⟨.convert _, rfl⟩
  | object c => cases hp
  | array c => cases hp

private theorem operates_of_compare? {kind : NumKind} {op : Comparison} {instr : Instr}
    (h : Instr.compare? kind op = some instr) :
    Operates N file instr [kind.toKind, kind.toKind] [.int] := by
  cases kind <;> cases op <;> cases h <;> exact ⟨.compare _, rfl⟩

private theorem operates_of_zero? {kind : NumKind} {instr : Instr} (h : Instr.zero? kind = some instr) :
    Operates N file instr [] [kind.toKind] := by
  cases kind <;> cases h
  · exact ⟨.lconst _, rfl⟩
  · exact ⟨.fconst _, rfl⟩
  · exact ⟨.dconst _, rfl⟩

private theorem profile_branch (when : Jump) (label : Label) :
    Profile (Types N S file result) (Item.lines [.branch when label]) when.operands [] :=
  .whole (.branch when label) (.nil [])

private theorem profile_comparing (kind : NumKind) (op : Comparison) (label : Label) :
    Profile (Types N S file result) (Item.lines (comparing kind op label))
      [kind.toKind, kind.toKind] [] := by
  unfold comparing
  split
  · rename_i instr hinstr
    exact (operates_of_compare? hinstr).profile (profile_branch (.ifZero op) label)
  · rename_i hnone
    have hkind : kind = .int := by cases kind <;> cases op <;> first | rfl | cases hnone
    rw [hkind]
    exact profile_branch (.ifInt op) label

private theorem profile_testing (kind : NumKind) (op : Comparison) (label : Label) :
    Profile (Types N S file result) (Item.lines (testing kind op label)) [kind.toKind] [] := by
  unfold testing
  split
  · rename_i zero instr hzero hinstr
    exact (operates_of_zero? hzero).profile
      ((operates_of_compare? hinstr).profile (profile_branch (.ifZero op) label))
  · rename_i hnone
    have hkind : kind = .int := by
      cases kind
      · rfl
      all_goals cases op <;> exact absurd rfl (hnone _ _ rfl)
    rw [hkind]
    exact profile_branch (.ifZero op) label

section Statements

variable {ctx : MethodContext} (hpool : file.pool = q.entries) (hle : final.pool ≤ q)
  (hslots : final.Slotted b S)
include hpool hle hslots

private theorem Uses.profile {type : JavaType} {target : Option Local} {items : List Item}
    (h : Uses final type target items) (htarget : ∀ l ∈ target, l ∈ b.locals) :
    Profile (Types N S file result) (Item.lines items) type.kind?.toList [] := by
  cases target with
  | none =>
    rw [show items = dropping type from h]
    exact profile_dropping type
  | some l =>
    obtain ⟨instrs, hadapts, item, hpops, rfl⟩ := h
    obtain ⟨kind, hkind⟩ := hpops.exists_kind
    rw [lines_map_op]
    exact (profile_of_adapts hpool hle hadapts hkind).append
      (hpops.profile_last hslots (htarget l rfl) hkind)

omit hslots in
private theorem Changes.profile {kind : NumKind} {op : UnaryOp} {items : List Item}
    (h : Changes final kind op items)
    (hrest : Profile (Types N S file result) (Item.lines rest) (kind.toKind :: base) stack) :
    Profile (Types N S file result) (Item.lines (items ++ rest)) (kind.toKind :: base) stack := by
  cases op with
  | negate =>
    rw [show items = _ from h]
    exact .operation (.neg kind) rfl hrest
  | complement =>
    rcases h with ⟨rfl, rfl⟩ | ⟨rfl, index, hindex, rfl⟩
    · have hxor : Operates N file (.bit .xor .int) [.int, .int] [.int] := ⟨.bit .xor .int, rfl⟩
      exact .operation (.iconst _) rfl (hxor.profile hrest)
    · have hxor : Operates N file (.bit .xor .long) [.long, .long] [.long] := ⟨.bit .xor .long, rfl⟩
      exact .operation (.ldc2W (constantKind?_of_final hpool hle hindex rfl) rfl) rfl
        (hxor.profile hrest)

omit hslots in
private theorem Casts.profile {declared : JavaType} {instrs : List Instr} {kind : Kind}
    (h : Casts final declared instrs) (hkind : declared.kind? = some kind) :
    Profile (Types N S file result) (instrs.map .plain) [kind] [kind] := by
  unfold Casts at h
  split at h
  · rename_i hreference
    obtain ⟨index, hindex, rfl⟩ := h
    rw [JavaType.kind?_of_isReference hreference] at hkind
    cases hkind
    exact .operation
      (.checkCast (ClassFile.className?_of_meaning? hpool (Pool.meaning?_mono hle hindex))) rfl (.nil _)
  · rw [h]
    exact .nil _

omit hslots in
private theorem operates_of_allocates {element : JavaType} {dimensions : Nat} {instr : Instr}
    (h : Allocates final element dimensions instr) (hpos : 0 < dimensions)
    (hbyte : dimensions ≤ 255) :
    Operates N file instr (List.replicate dimensions .int) [.reference] := by
  unfold Allocates at h
  split at h
  · rename_i hone
    obtain ⟨kind, h⟩ := h
    rw [hone]
    exact operates_of_allocatesArray hpool hle h
  · obtain ⟨index, hindex, rfl⟩ := h
    have hdimensions : (UInt8.ofNat dimensions).toNat = dimensions := by
      rw [UInt8.toNat_ofNat']
      exact Nat.mod_eq_of_lt (by omega)
    have hmoves : Moves N file (.newMultiArray index (UInt8.ofNat dimensions))
        (List.replicate (UInt8.ofNat dimensions).toNat .int) [.reference] :=
      .newMultiArray (ClassFile.className?_of_meaning? hpool (Pool.meaning?_mono hle hindex))
        (by omega)
    rw [hdimensions] at hmoves
    exact ⟨hmoves, rfl⟩

/-- The code of a statement finds its operands on the stack and leaves the stack empty. -/
theorem Emits.profile {st : Statement} {items : List Item} (h : Emits ctx final st items)
    (hcorrect : st.KindCorrect) (hlocals : ∀ l ∈ st.locals, l ∈ b.locals)
    (hnames : ∀ m ∈ st.callee?, ∀ t ∈ m.parameters, t.Names N) :
    Profile (Types N S file ctx.method.result) (Item.lines items) [] [] := by
  cases st with
  | invoke m receiver arguments target isSuper =>
    obtain ⟨hreceiver, hmatch⟩ := hcorrect
    have harguments : ∀ l ∈ arguments, l ∈ b.locals := fun l hl =>
      hlocals l (by simp [Statement.locals, hl])
    have htarget : ∀ l ∈ target, l ∈ b.locals := fun l hl =>
      hlocals l (by simp [Statement.locals, Option.mem_def.mp hl])
    simp only [Emits] at h
    split at h
    · rename_i hstatic
      obtain ⟨pushed, hpushed, call, hcall, used, hused, rfl⟩ := h
      obtain ⟨kinds, hkinds⟩ := exists_kinds_of_pushed hpushed
      have hoperates := operates_of_calls hpool hle hcall (hnames m rfl) (hmatch.symm.trans hkinds)
      rw [if_pos hstatic] at hoperates
      exact profile_pushed hslots hpushed harguments hkinds
        (hoperates.profile_all (hused.profile hpool hle hslots htarget))
    · rename_i hstatic
      obtain ⟨object, rfl, slot, -, item, hitem, pushed, hpushed, call, hcall, used, hused, rfl⟩ := h
      obtain ⟨kinds, hkinds⟩ := exists_kinds_of_pushed hpushed
      have hoperates := operates_of_calls hpool hle hcall (hnames m rfl) (hmatch.symm.trans hkinds)
      rw [if_neg hstatic] at hoperates
      refine hitem.profile hslots (hlocals object (by simp [Statement.locals]))
        (hreceiver (by simpa using hstatic) object rfl)
        (profile_pushed hslots hpushed harguments hkinds ?_)
      rw [lines_marked]
      exact hoperates.profile_all (hused.profile hpool hle hslots htarget)
  | getField f receiver target =>
    obtain ⟨hreceiver, htarget⟩ := hcorrect
    have hmem : target ∈ b.locals := hlocals target (by simp [Statement.locals])
    obtain ⟨index, hindex, h⟩ := h
    have hdescriptor :=
      ClassFile.fieldDescriptor?_of_meaning? hpool (Pool.meaning?_mono hle hindex)
    split at h
    · obtain ⟨item, hitem, rfl⟩ := h
      obtain ⟨kind, hkind⟩ := hitem.exists_kind
      exact .operation (.getStatic hdescriptor (htarget.symm.trans hkind)) rfl
        (hitem.profile_last hslots hmem hkind)
    · rename_i hstatic
      obtain ⟨object, rfl, pushed, hpushed, item, hitem, rfl⟩ := h
      obtain ⟨kind, hkind⟩ := hitem.exists_kind
      exact hpushed.profile hslots (hlocals object (by simp [Statement.locals]))
        (hreceiver (by simpa using hstatic) object rfl)
        (.operation (.getField hdescriptor (htarget.symm.trans hkind)) rfl
          (hitem.profile_last hslots hmem hkind))
  | putField f receiver value =>
    obtain ⟨hreceiver, hvalue⟩ := hcorrect
    have hmem : value ∈ b.locals := hlocals value (by simp [Statement.locals])
    obtain ⟨index, hindex, h⟩ := h
    have hdescriptor :=
      ClassFile.fieldDescriptor?_of_meaning? hpool (Pool.meaning?_mono hle hindex)
    split at h
    · obtain ⟨item, hitem, rfl⟩ := h
      obtain ⟨kind, hkind⟩ := hitem.exists_kind
      exact hitem.profile hslots hmem hkind
        (.operation (.putStatic hdescriptor (hvalue.symm.trans hkind)) rfl (.nil _))
    · rename_i hstatic
      obtain ⟨object, rfl, pushed, hpushed, item, hitem, rfl⟩ := h
      obtain ⟨kind, hkind⟩ := hitem.exists_kind
      exact hpushed.profile hslots (hlocals object (by simp [Statement.locals]))
        (hreceiver (by simpa using hstatic) object rfl)
        (hitem.profile hslots hmem hkind
          (.operation (.putField hdescriptor (hvalue.symm.trans hkind)) rfl (.nil _)))
  | assign target source =>
    obtain ⟨x, hx, y, hy, rfl⟩ := h
    obtain ⟨kind, hkind⟩ := hx.exists_kind
    exact hx.profile hslots (hlocals source (by simp [Statement.locals])) hkind
      (hy.profile_last hslots (hlocals target (by simp [Statement.locals]))
        (hcorrect.symm.trans hkind))
  | binary op left right target =>
    obtain ⟨hleft, hright⟩ := hcorrect
    obtain ⟨instr, hinstr, x, hx, y, hy, z, hz, rfl⟩ := h
    obtain ⟨kind, hkind, hinstr⟩ := Option.bind_eq_some_iff.mp hinstr
    have hkind := JavaType.kind?_of_numKind? hkind
    have hright : right.type.kind? = some (if op.isShift then .int else kind.toKind) := by
      rw [hright, hkind]
      split <;> rfl
    exact hx.profile hslots (hlocals left (by simp [Statement.locals])) hkind
      (hy.profile hslots (hlocals right (by simp [Statement.locals])) hright
        ((operates_of_binary? hinstr).profile
          (hz.profile_last hslots (hlocals target (by simp [Statement.locals]))
            (hleft.symm.trans hkind))))
  | unary op operand target =>
    obtain ⟨kind, hkind, x, hx, changed, hchanged, y, hy, rfl⟩ := h
    have hkind := JavaType.kind?_of_numKind? hkind
    exact hx.profile hslots (hlocals operand (by simp [Statement.locals])) hkind
      (hchanged.profile hpool hle
        (hy.profile_last hslots (hlocals target (by simp [Statement.locals]))
          (Eq.trans (Eq.symm hcorrect) hkind)))
  | cast source target =>
    obtain ⟨instr, hinstr, x, hx, y, hy, rfl⟩ := h
    have hsource : source ∈ b.locals := hlocals source (by simp [Statement.locals])
    have htarget : target ∈ b.locals := hlocals target (by simp [Statement.locals])
    obtain ⟨kind, hkind⟩ := hx.exists_kind
    obtain ⟨kind', hkind'⟩ := hy.exists_kind
    exact hx.profile hslots hsource hkind
      ((operates_of_castInstr? hinstr hkind hkind').profile
        (hy.profile_last hslots htarget hkind'))
  | goto label =>
    rw [show items = _ from h]
    exact profile_branch .always label
  | mark label =>
    rw [show items = _ from h]
    exact .nil _
  | compare op left right label =>
    have hleft : left ∈ b.locals := hlocals left (by simp [Statement.locals])
    have hright : right ∈ b.locals := hlocals right (by simp [Statement.locals])
    obtain ⟨x, hx, y, hy, ⟨hreference, jump, hjump, rfl⟩ | ⟨kind, hkind, rfl⟩⟩ := h
    · have hkind := JavaType.kind?_of_isReference hreference
      have hoperands : jump.operands = [.reference, .reference] := by
        cases op <;> cases hjump <;> rfl
      refine hx.profile hslots hleft hkind
        (hy.profile hslots hright (Eq.trans (Eq.symm hcorrect) hkind) ?_)
      rw [← hoperands]
      exact profile_branch jump label
    · have hkind := JavaType.kind?_of_numKind? hkind
      exact hx.profile hslots hleft hkind
        (hy.profile hslots hright (Eq.trans (Eq.symm hcorrect) hkind)
          (profile_comparing kind op label))
  | test op operand label =>
    have hoperand : operand ∈ b.locals := hlocals operand (by simp [Statement.locals])
    obtain ⟨x, hx, ⟨hreference, jump, hjump, rfl⟩ | ⟨kind, hkind, rfl⟩⟩ := h
    · have hoperands : jump.operands = [.reference] := by cases op <;> cases hjump <;> rfl
      refine hx.profile hslots hoperand (JavaType.kind?_of_isReference hreference) ?_
      rw [← hoperands]
      exact profile_branch jump label
    · exact hx.profile hslots hoperand (JavaType.kind?_of_numKind? hkind)
        (profile_testing kind op label)
  | arrayGet array index target =>
    obtain ⟨hindex, htarget⟩ := hcorrect
    obtain ⟨kind, hkind, x, hx, y, hy, z, hz, rfl⟩ := h
    obtain ⟨component, hcomponent, hkind⟩ := Option.bind_eq_some_iff.mp hkind
    exact hx.profile hslots (hlocals array (by simp [Statement.locals]))
      (kind?_of_component? hcomponent)
      (hy.profile hslots (hlocals index (by simp [Statement.locals])) hindex
        (.operation (.arrayLoad kind.element) rfl
          (hz.profile_last hslots (hlocals target (by simp [Statement.locals]))
            ((htarget component hcomponent).trans (kind?_of_elemKind? hkind)))))
  | arrayPut array index value =>
    obtain ⟨hindex, hvalue⟩ := hcorrect
    obtain ⟨kind, hkind, x, hx, y, hy, z, hz, rfl⟩ := h
    obtain ⟨component, hcomponent, hkind⟩ := Option.bind_eq_some_iff.mp hkind
    exact hx.profile hslots (hlocals array (by simp [Statement.locals]))
      (kind?_of_component? hcomponent)
      (hy.profile hslots (hlocals index (by simp [Statement.locals])) hindex
        (hz.profile hslots (hlocals value (by simp [Statement.locals]))
          ((hvalue component hcomponent).trans (kind?_of_elemKind? hkind))
          (.operation (.arrayStore kind.element) rfl (.nil _))))
  | ret value =>
    cases value with
    | none =>
      rw [h.2]
      exact .whole (Types.returnVoid h.1) (.nil _)
    | some l =>
      obtain ⟨haccepts, kind, hkind, x, hx, cast, hcast, rfl⟩ := h
      have hreturn : Profile (Types N S file ctx.method.result)
          (Item.lines [.op (.returnValue kind)]) [kind] [] :=
        .whole (Types.returnValue hkind) (.nil _)
      refine hx.profile hslots (hlocals l (by simp [Statement.locals]))
        ((JavaType.kind?_of_accepts haccepts).symm.trans hkind) ?_
      rw [lines_map_op]
      exact (hcast.profile hpool hle hkind).append hreturn
  | instanceOf value type target =>
    obtain ⟨hvalue, htarget⟩ := hcorrect
    obtain ⟨x, hx, index, hindex, y, hy, rfl⟩ := h
    exact hx.profile hslots (hlocals value (by simp [Statement.locals])) hvalue
      (.operation
        (.instanceOf (ClassFile.className?_of_meaning? hpool (Pool.meaning?_mono hle hindex))) rfl
        (hy.profile_last hslots (hlocals target (by simp [Statement.locals])) htarget))
  | new m arguments target =>
    obtain ⟨hvoid, hmatch, htarget⟩ := hcorrect
    obtain ⟨index, hindex, init, hinit, pushed, hpushed, stored, hstored, rfl⟩ := h
    have harguments : ∀ l ∈ arguments, l ∈ b.locals := fun l hl =>
      hlocals l (by simp [Statement.locals, hl])
    obtain ⟨kinds, hkinds⟩ := exists_kinds_of_pushed hpushed
    have hsignature : Signature N (file.classMethodDescriptor? init) kinds none :=
      ⟨m.parameters, m.result, hnames m rfl,
        ClassFile.classMethodDescriptor?_of_meaning? hpool (Pool.meaning?_mono hle hinit),
        hmatch.symm.trans hkinds, kind?_of_isVoid hvoid⟩
    have hcall : Operates N file (.invokeSpecial init) (kinds.reverse ++ [.reference]) [] :=
      ⟨.invokeSpecial hsignature, rfl⟩
    have hrest : Profile (Types N S file ctx.method.result)
        (Item.lines [.op (.invokeSpecial init), stored])
        (kinds.reverse ++ [.reference, .reference]) [] := by
      rw [show kinds.reverse ++ [.reference, .reference] =
        (kinds.reverse ++ [.reference]) ++ [Kind.reference] by rw [List.append_assoc]; rfl]
      exact hcall.profile
        (hstored.profile_last hslots (hlocals target (by simp [Statement.locals])) htarget)
    exact .operation
      (.new (ClassFile.className?_of_meaning? hpool (Pool.meaning?_mono hle hindex))) rfl
      (.operation (.dup rfl) rfl (profile_pushed hslots hpushed harguments hkinds hrest))
  | newArray element lengths target =>
    obtain ⟨hints, htarget⟩ := hcorrect
    obtain ⟨hpos, hbyte, pushed, hpushed, instr, hinstr, stored, hstored, rfl⟩ := h
    have hlengths : ∀ l ∈ lengths, l ∈ b.locals := fun l hl =>
      hlocals l (by simp [Statement.locals, hl])
    have hkinds : lengths.map (fun l => l.type.kind?) =
        (List.replicate lengths.length Kind.int).map some := by
      rw [List.map_replicate]
      exact List.map_eq_replicate_iff.mpr hints
    refine profile_pushed hslots hpushed hlengths hkinds ?_
    rw [List.reverse_replicate, List.append_nil]
    exact (operates_of_allocates hpool hle hinstr hpos hbyte).profile_all
      (hstored.profile_last hslots (hlocals target (by simp [Statement.locals])) htarget)
  | literal value target =>
    obtain ⟨hvalue, hkinds⟩ := hcorrect
    obtain ⟨instrs, hinstrs, stored, hstored, rfl⟩ := h
    have hmem : target ∈ b.locals := hlocals target (by simp [Statement.locals])
    obtain ⟨kind, hkind⟩ := hstored.exists_kind
    rw [lines_map_op]
    exact (profile_of_loads hpool hle hinstrs hvalue (hkinds.trans hkind)).append
      (hstored.profile_last hslots hmem hkind)

end Statements

private theorem Chains.profile {owner : ClassDecl} {method : MethodDecl} {items : List Item}
    (hpool : file.pool = q.entries) (hle : final.pool ≤ q) (h : Chains owner method b final items)
    (hreceiver : method.initializesThis = true → S .reference 0) :
    Profile (Types N S file result) (Item.lines items) [] [] := by
  rcases h.eq_nil_or with rfl | ⟨super, index, -, hinit, -, hindex, rfl⟩
  · exact .nil _
  · have hsignature : Signature N (file.classMethodDescriptor? index) [] none :=
      ⟨[], .void, by simp,
        ClassFile.classMethodDescriptor?_of_meaning? hpool (Pool.meaning?_mono hle hindex), rfl, rfl⟩
    have hload : Types N S file result (.plain (.loadSlot .reference 0)) [] [.reference] :=
      .load (hreceiver hinit)
    exact .part hload rfl (.operation (.invokeSpecial hsignature) rfl (.nil _))

private theorem Ends.profile {method : MethodDecl} {items : List Item} (h : Ends method b items) :
    Profile (Types N S file method.result) (Item.lines items) [] [] := by
  rcases h with ⟨-, rfl⟩ | ⟨-, hvoid, rfl⟩
  · exact .nil _
  · exact .whole (Types.returnVoid hvoid) (.nil _)

/-- In the code of a method every instruction finds its operands, and the stack is empty wherever a
statement starts. -/
theorem exists_operands {owner : ClassDecl} {method : MethodDecl} {labels : Std.HashSet Label}
    {before ending : List Item} {blocks : List (List Item)} (hpool : file.pool = q.entries)
    (hle : final.pool ≤ q) (hslots : final.Slotted b S) (hb : b.KindCorrect)
    (hnames : b.CallsNamed N) (hbefore : Chains owner method b final before)
    (hreceiver : method.initializesThis = true → S .reference 0)
    (hblocks : List.Forall₂ (Emits ⟨owner, method, labels⟩ final) b.statements blocks)
    (hending : Ends method b ending) :
    ∃ stackAt, Stacks (Types N S file method.result)
        (Item.lines (before ++ blocks.flatten ++ ending)) stackAt ∧
      stackAt 0 = [] ∧ ∀ n ≤ blocks.length, stackAt (startLine before blocks n) = [] := by
  have hprofiles : ∀ segment ∈ Item.lines before :: (blocks.map Item.lines ++ [Item.lines ending]),
      Profile (Types N S file method.result) segment [] [] := by
    refine List.forall_mem_cons.mpr ⟨hbefore.profile hpool hle hreceiver,
      List.forall_mem_append.mpr ⟨?_, List.forall_mem_singleton.mpr hending.profile⟩⟩
    intro segment hsegment
    obtain ⟨block, hblock, rfl⟩ := List.mem_map.mp hsegment
    obtain ⟨st, hst, hemits⟩ := exists_left_of_forall₂ hblocks hblock
    exact hemits.profile hpool hle hslots (hb.kinds st hst)
      (fun l hl => List.mem_append_right _ (List.mem_flatMap.mpr ⟨st, hst, hl⟩)) (hnames st hst)
  obtain ⟨stackAt, hstacks, hempty⟩ := exists_stackAt hprofiles
  have hlines : (Item.lines before :: (blocks.map Item.lines ++ [Item.lines ending])).flatten =
      Item.lines (before ++ blocks.flatten ++ ending) := by
    rw [Item.lines_append, Item.lines_append, Item.lines_flatten]
    simp
  rw [hlines] at hstacks
  refine ⟨stackAt, hstacks, hempty 0 (Nat.zero_le _), fun n hn => ?_⟩
  have hat := hempty (n + 1) (by simp; omega)
  rw [List.take_succ_cons, List.take_append_of_le_length (by simpa using hn), List.flatten_cons] at hat
  have hstart : (Item.lines before ++ ((blocks.map Item.lines).take n).flatten).length =
      startLine before blocks n := by
    rw [startLine, Item.lines_append, Item.lines_flatten, List.map_take]
  rwa [hstart] at hat

end Pieces

end Lower

end Classwright
