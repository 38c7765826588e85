import Classwright.Proofs.Liveness
import Classwright.Proofs.Room
import Classwright.Proofs.Typing

/-!
# Statements leave the operand stack alone

A machine runs the code of a statement on a stack that holds only the kinds of values.  It stops at an
instruction that finds other operands than it needs, or that would take one of those on which the
statement started.  Calls and accesses to fields are typed by the descriptors of the members in the
pool.  The code of a statement of correct kinds runs to its end and leaves what was on the stack, or
returns a value of the kind that the method has to return.
-/

namespace Classwright

def Primitive.ofLetter? : Char → Option Primitive
  | 'Z' => some .boolean
  | 'B' => some .byte
  | 'C' => some .char
  | 'S' => some .short
  | 'I' => some .int
  | 'J' => some .long
  | 'F' => some .float
  | 'D' => some .double
  | 'V' => some .void
  | _ => none

namespace Descriptor

/-- The kind of the value that a descriptor stands for, which its first character tells; none for
`void`. -/
def valueKind? : List Char → Option Kind
  | [] => none
  | c :: _ =>
    if c = 'L' ∨ c = '[' then some .reference
    else (Primitive.ofLetter? c).bind fun p => JavaType.kind? (.primitive p)

/-- The kinds of the types up to `)`, and what stands behind it. -/
def parameterKinds? : Position → List Char → Option (List Kind × List Char)
  | _, [] => none
  | .outside, c :: rest =>
    if c = ')' then some ([], rest)
    else do
      let kind ← valueKind? [c]
      let position := if c = 'L' then .name else if c = '[' then .array else .outside
      let (kinds, behind) ← parameterKinds? position rest
      return (kind :: kinds, behind)
  | .name, c :: rest => if c = ';' then parameterKinds? .outside rest else parameterKinds? .name rest
  | .array, c :: rest =>
    if c = '[' then parameterKinds? .array rest
    else if c = 'L' then parameterKinds? .name rest
    else if (Primitive.ofLetter? c).isSome then parameterKinds? .outside rest
    else none

def methodKinds? (descriptor : String) : Option (List Kind × List Kind) :=
  match descriptor.toList with
  | '(' :: rest => do
    let (arguments, result) ← parameterKinds? .outside rest
    if result = ['V'] then return (arguments, [])
    else return (arguments, [← valueKind? result])
  | _ => none

private theorem parameterKinds?_name {name : List Char} (h : ';' ∉ name) (rest : List Char) :
    parameterKinds? .name (name ++ ';' :: rest) = parameterKinds? .outside rest := by
  induction name with
  | nil => rfl
  | cons c name ih =>
    rw [List.mem_cons, not_or] at h
    rw [List.cons_append, parameterKinds?, if_neg (Ne.symm h.1), ih h.2]

private theorem parameterKinds?_array {t : JavaType} (h : t.Names Ended) (rest : List Char) :
    parameterKinds? .array (t.descriptorChars ++ rest) = parameterKinds? .outside rest := by
  induction t with
  | primitive p => cases p <;> rfl
  | object c =>
    rw [JavaType.descriptorChars, List.cons_append, List.append_assoc]
    exact parameterKinds?_name h rest
  | array component ih => exact ih h

private theorem parameterKinds?_outside {t : JavaType} {kind : Kind} (h : t.Names Ended)
    (hkind : t.kind? = some kind) {rest behind : List Char} {kinds : List Kind}
    (hrest : parameterKinds? .outside rest = some (kinds, behind)) :
    parameterKinds? .outside (t.descriptorChars ++ rest) = some (kind :: kinds, behind) := by
  cases t with
  | primitive p =>
    cases p <;> cases hkind <;>
    · change (parameterKinds? .outside rest).bind _ = _
      rw [hrest]
      rfl
  | object c =>
    cases hkind
    rw [JavaType.descriptorChars, List.cons_append, List.append_assoc]
    change (parameterKinds? .name (c.name.toList ++ ';' :: rest)).bind _ = _
    rw [parameterKinds?_name h, hrest]
    rfl
  | array component =>
    cases hkind
    change (parameterKinds? .array (component.descriptorChars ++ rest)).bind _ = _
    rw [parameterKinds?_array (show component.Names Ended from h), hrest]
    rfl

private theorem parameterKinds?_parameters {parameters : List JavaType} {arguments : List Kind}
    (hnames : ∀ t ∈ parameters, t.Names Ended)
    (hkinds : parameters.map JavaType.kind? = arguments.map some) (behind : List Char) :
    parameterKinds? .outside (parameters.flatMap JavaType.descriptorChars ++ ')' :: behind) =
      some (arguments, behind) := by
  induction parameters generalizing arguments with
  | nil =>
    cases arguments with
    | nil => rfl
    | cons => cases hkinds
  | cons t parameters ih =>
    cases arguments with
    | nil => cases hkinds
    | cons kind arguments =>
      obtain ⟨hkind, hkinds⟩ := List.cons.inj hkinds
      obtain ⟨hname, hnames⟩ := List.forall_mem_cons.mp hnames
      rw [List.flatMap_cons, List.append_assoc]
      exact parameterKinds?_outside hname hkind (ih hnames hkinds)

private theorem valueKind?_descriptorChars (t : JavaType) : valueKind? t.descriptorChars = t.kind? := by
  cases t with
  | primitive p => cases p <;> rfl
  | object c => rfl
  | array component => rfl

private theorem valueKind?_descriptor (t : JavaType) : valueKind? t.descriptor.toList = t.kind? := by
  rw [JavaType.descriptor, String.toList_ofList, valueKind?_descriptorChars]

private theorem methodKinds?_methodDescriptor {parameters : List JavaType} {arguments : List Kind}
    (hnames : ∀ t ∈ parameters, t.Names Ended)
    (hkinds : parameters.map JavaType.kind? = arguments.map some) (type : JavaType) :
    methodKinds? (JavaType.methodDescriptor parameters type) = some (arguments, type.kind?.toList) := by
  rw [methodKinds?, JavaType.methodDescriptor, String.toList_ofList, JavaType.methodDescriptorChars]
  simp only [parameterKinds?_parameters hnames hkinds]
  cases type with
  | primitive p => cases p <;> rfl
  | object c => rfl
  | array component => rfl

end Descriptor

namespace Instr

def constantMoves? (file : ClassFile) (index : UInt16) (isWide : Bool) :
    Option (List Kind × List Kind) := do
  let kind ← file.constantKind? index
  if kind.isWide = isWide then return ([], [kind]) else none

def callMoves? (receiver : List Kind) (descriptor? : Option String) :
    Option (List Kind × List Kind) := do
  let (arguments, result) ← Descriptor.methodKinds? (← descriptor?)
  return (arguments.reverse ++ receiver, result)

/-- The kinds that the instruction takes from a stack and those that it leaves, the topmost first. -/
def moves? (file : ClassFile) (stack : List Kind) : Instr → Option (List Kind × List Kind)
  | nop => some ([], [])
  | aconstNull => some ([], [.reference])
  | iconst _ | bipush _ | sipush _ => some ([], [.int])
  | lconst _ => some ([], [.long])
  | fconst _ => some ([], [.float])
  | dconst _ => some ([], [.double])
  | ldc index => constantMoves? file index.toUInt16 false
  | ldcW index => constantMoves? file index false
  | ldc2W index => constantMoves? file index true
  | load kind _ => some ([], [kind])
  | store kind _ => some ([kind], [])
  | arrayLoad element => some ([.int, .reference], [element.kind])
  | arrayStore element => some ([element.kind, .int, .reference], [])
  | pop => do
    let kind ← stack.head?
    if kind.isWide then none else return ([kind], [])
  | pop2 => do
    let kind ← stack.head?
    if kind.isWide then return ([kind], [])
    else
      let other ← stack[1]?
      if other.isWide then none else return ([kind, other], [])
  | dup => do
    let kind ← stack.head?
    if kind.isWide then none else return ([kind], [kind, kind])
  | arith _ kind => some ([kind.toKind, kind.toKind], [kind.toKind])
  | neg kind => some ([kind.toKind], [kind.toKind])
  | bit op kind => some ([if op.isShift then .int else kind.toKind, kind.toKind], [kind.toKind])
  | convert op => some ([op.source], [op.target])
  | compare op => some ([op.kind, op.kind], [.int])
  | jump when _ => some (when.operands, [])
  | returnValue kind => some ([kind], [])
  | returnVoid => some ([], [])
  | field op index => do
    let kind ← Descriptor.valueKind? (← file.fieldDescriptor? index).toList
    match op with
    | .getStatic => return ([], [kind])
    | .putStatic => return ([kind], [])
    | .getField => return ([.reference], [kind])
    | .putField => return ([kind, .reference], [])
  | invokeVirtual index | invokeSpecial index =>
    callMoves? [.reference] (file.classMethodDescriptor? index)
  | invokeStatic index =>
    callMoves? [] ((file.classMethodDescriptor? index).or (file.interfaceMethodDescriptor? index))
  | invokeInterface index _ filler =>
    if filler = 0 then callMoves? [.reference] (file.interfaceMethodDescriptor? index) else none
  | new index => (file.className? index).map fun _ => ([], [.reference])
  | newArray elementCode =>
    if 4 ≤ elementCode.toNat ∧ elementCode.toNat ≤ 11 then some ([.int], [.reference]) else none
  | newRefArray index => (file.className? index).map fun _ => ([.int], [.reference])
  | newMultiArray index dimensions => do
    let _ ← file.className? index
    if 0 < dimensions.toNat then return (List.replicate dimensions.toNat .int, [.reference]) else none
  | athrow => some ([.reference], [])
  | checkCast index => (file.className? index).map fun _ => ([.reference], [.reference])
  | instanceOf index => (file.className? index).map fun _ => ([.reference], [.int])

/-- The stack behind the instruction, if it finds its operands above the lowest `floor` ones. -/
def step? (file : ClassFile) (floor : Nat) (instr : Instr) (stack : List Kind) :
    Option (List Kind) := do
  let (taken, left) ← instr.moves? file stack
  if taken.isPrefixOf stack ∧ floor + taken.length ≤ stack.length then
    return left ++ stack.drop taken.length
  else none

end Instr

inductive Exit where
  | passes (stack : List Kind)
  | branches (label : Label) (stack : List Kind)
  | returns (kind? : Option Kind)
  deriving DecidableEq

/-- The stack is what it was, or what is returned has the given kind. -/
def Exit.Neutral (start : List Kind) (result : Option Kind) : Exit → Prop
  | passes stack | branches _ stack => stack = start
  | returns kind? => kind? = result

def Instr.exits : Instr → List Exit
  | returnValue kind => [.returns (some kind)]
  | returnVoid => [.returns none]
  | _ => []

/-- Runs lines above the lowest `floor` operands.  No line may stand where control does not come. -/
def runKinds? (file : ClassFile) (floor : Nat) : List Line → List Kind → Option (List Exit)
  | [], stack => some [.passes stack]
  | .plain instr :: rest, stack => do
    let after ← instr.step? file floor stack
    if instr.endsMethod then
      if rest.isEmpty then return instr.exits else none
    else runKinds? file floor rest after
  | .branch when label :: rest, stack => do
    let after ← (Instr.jump when 0).step? file floor stack
    if when = .always then
      if rest.isEmpty then return [.branches label after] else none
    else return .branches label after :: (← runKinds? file floor rest after)

section Machine

open Verifier Descriptor

variable {file : ClassFile}

private theorem callMoves?_of_signature {descriptor? : Option String} {arguments : List Kind}
    {kind? : Option Kind} (h : Signature Ended descriptor? arguments kind?) (receiver : List Kind) :
    Instr.callMoves? receiver descriptor? = some (arguments.reverse ++ receiver, kind?.toList) := by
  obtain ⟨parameters, type, hnames, rfl, hkinds, rfl⟩ := h
  rw [Instr.callMoves?]
  simp only [Option.bind_eq_bind, Option.bind_some, methodKinds?_methodDescriptor hnames hkinds]
  rfl

private theorem classMethodDescriptor?_eq_none {index : UInt16} {descriptor : String}
    (h : file.interfaceMethodDescriptor? index = some descriptor) :
    file.classMethodDescriptor? index = none := by
  unfold ClassFile.interfaceMethodDescriptor? at h
  split at h
  · rename_i hentry
    rw [ClassFile.classMethodDescriptor?, hentry]
  · cases h

private theorem Verifier.Moves.moves?_eq {instr : Instr} {taken left : List Kind}
    (h : Moves Ended file instr taken left) (base : List Kind) :
    instr.moves? file (taken ++ base) = some (taken, left) := by
  cases h with
  | ldc h narrow | ldcW h narrow => simp [Instr.moves?, Instr.constantMoves?, h, narrow]
  | ldc2W h wide => simp [Instr.moves?, Instr.constantMoves?, h, wide]
  | pop narrow | dup narrow => simp [Instr.moves?, narrow]
  | pop2 wide => simp [Instr.moves?, wide]
  | pop2Both narrow narrow' => simp [Instr.moves?, narrow, narrow']
  | getStatic h hkind | putStatic h hkind | getField h hkind | putField h hkind =>
    simp [Instr.moves?, h, valueKind?_descriptor, hkind]
  | invokeVirtual h | invokeSpecial h => exact callMoves?_of_signature h [.reference]
  | invokeStatic h =>
    rw [Instr.moves?]
    rcases h with h | h
    · obtain ⟨parameters, type, hnames, hdescriptor, hrest⟩ := h
      rw [hdescriptor, Option.some_or, callMoves?_of_signature ⟨parameters, type, hnames, rfl, hrest⟩,
        List.append_nil]
    · obtain ⟨parameters, type, hnames, hdescriptor, hrest⟩ := h
      rw [classMethodDescriptor?_eq_none hdescriptor, Option.none_or, hdescriptor,
        callMoves?_of_signature ⟨parameters, type, hnames, rfl, hrest⟩, List.append_nil]
  | invokeInterface h hcount => exact callMoves?_of_signature h [.reference]
  | new h | newRefArray h | checkCast h | instanceOf h => simp [Instr.moves?, h]
  | newArray least greatest => simp [Instr.moves?, least, greatest]
  | newMultiArray h positive => simp [Instr.moves?, h, positive]
  | _ => rfl

private theorem Instr.step?_of_moves {instr : Instr} {taken left : List Kind}
    (h : Moves Ended file instr taken left) (base start : List Kind) :
    instr.step? file start.length (taken ++ base ++ start) = some (left ++ base ++ start) := by
  have hroom : start.length + taken.length ≤ (taken ++ (base ++ start)).length := by
    simp only [List.length_append]
    omega
  have hprefix : taken.isPrefixOf (taken ++ (base ++ start)) = true :=
    List.isPrefixOf_iff_prefix.mpr (List.prefix_append _ _)
  rw [List.append_assoc, step?, h.moves?_eq]
  simp only [Option.bind_eq_bind, Option.bind_some, if_pos (And.intro hprefix hroom), List.drop_left,
    List.append_assoc]
  rfl

-- Half of a `long` is not taken, nor an operand that is not the code's own.
example : Instr.pop.step? file 0 [.long] = none ∧ Instr.pop.step? file 1 [.int] = none := ⟨rfl, rfl⟩

end Machine

namespace Lower

open Verifier Descriptor

section Lines

variable {S : Kind → UInt16 → Prop} {file : ClassFile} {result : JavaType} {line : Line}
  {taken left : List Kind}

theorem Types.runKinds?_cons (h : Types Ended S file result line taken left)
    (hstays : leaves line = false) (rest : List Line) (base start : List Kind) :
    runKinds? file start.length (line :: rest) (taken ++ base ++ start) =
      runKinds? file start.length rest (left ++ base ++ start) := by
  cases line with
  | branch => cases hstays
  | plain instr =>
    rw [runKinds?, Instr.step?_of_moves h.moves_plain]
    exact if_neg (by rw [show instr.endsMethod = false from hstays]; exact Bool.false_ne_true)

private theorem Types.exists_exits (h : Types Ended S file result line taken [])
    (hleaves : leaves line = true) (start : List Kind) :
    ∃ exits, runKinds? file start.length [line] (taken ++ start) = some exits ∧ exits ≠ [] ∧
      ∀ exit ∈ exits, exit.Neutral start result.kind? := by
  cases line with
  | branch when label =>
    cases h
    have hmoves : Moves Ended file (.jump when 0) when.operands [] := .jump when 0
    have hstep := Instr.step?_of_moves hmoves [] start
    rw [List.append_nil] at hstep
    rw [runKinds?, hstep]
    by_cases halways : when = .always
    · exact ⟨_, if_pos halways, List.cons_ne_nil _ _, List.forall_mem_singleton.mpr rfl⟩
    · refine ⟨_, if_neg halways, List.cons_ne_nil _ _, List.forall_mem_cons.mpr ⟨rfl, ?_⟩⟩
      exact List.forall_mem_singleton.mpr rfl
  | plain instr =>
    have hstep := Instr.step?_of_moves h.moves_plain [] start
    rw [List.append_nil] at hstep
    have hrun : runKinds? file start.length [.plain instr] (taken ++ start) = some instr.exits := by
      rw [runKinds?, hstep]
      exact if_pos hleaves
    refine ⟨_, hrun, ?_⟩
    cases h with
    | store => cases hleaves
    | operation h => rw [leaves, Instr.endsMethod_of_isOperation h.2] at hleaves; cases hleaves
    | returnValue hkind =>
      exact ⟨List.cons_ne_nil _ _, List.forall_mem_singleton.mpr hkind.symm⟩
    | returnVoid hvoid =>
      exact ⟨List.cons_ne_nil _ _, List.forall_mem_singleton.mpr (kind?_of_isVoid hvoid).symm⟩

/-- Code whose operands are accounted for runs above any operands and leaves them alone. -/
theorem exists_exits_of_profile {lines : List Line} {before after : List Kind}
    (h : Profile (Types Ended S file result) lines before after) (hafter : after = [])
    (hstays : ∀ k line, lines[k]? = some line → k + 1 < lines.length → leaves line = false)
    (start : List Kind) :
    ∃ exits, runKinds? file start.length lines (before ++ start) = some exits ∧ exits ≠ [] ∧
      ∀ exit ∈ exits, exit.Neutral start result.kind? := by
  have htail : ∀ {line : Line} {lines : List Line},
      (∀ k l, (line :: lines)[k]? = some l → k + 1 < (line :: lines).length → leaves l = false) →
      ∀ k l, lines[k]? = some l → k + 1 < lines.length → leaves l = false :=
    fun hstays k l hl hk => hstays (k + 1) l hl (Nat.succ_lt_succ hk)
  induction h with
  | nil stack =>
    subst hafter
    exact ⟨_, rfl, List.cons_ne_nil _ _, List.forall_mem_singleton.mpr rfl⟩
  | part types stays rest ih =>
    rw [types.runKinds?_cons stays]
    exact ih hafter (htail hstays)
  | @whole line lines taken left stack types rest ih =>
    by_cases hleaves : leaves line = true
    · -- Only the last line leaves, so that nothing follows.
      cases lines with
      | nil =>
        cases rest
        subst hafter
        exact types.exists_exits hleaves start
      | cons next lines =>
        rw [hstays 0 line rfl (by simp)] at hleaves
        cases hleaves
    · have hstep := types.runKinds?_cons (Bool.eq_false_iff.mpr hleaves) lines [] start
      rw [List.append_nil, List.append_nil] at hstep
      rw [hstep]
      exact ih hafter (htail hstays)

end Lines

/-- The code of a statement of correct kinds finds its operands above what is on the stack, and leaves
that alone. -/
theorem statement_neutral {ctx : MethodContext} {st : Statement} {s s' : Lowering} {items : List Item}
    (hs : s.Ok fun _ => True) (hrun : statement ctx st s = .ok (items, s')) (hkinds : st.KindCorrect)
    (hnames : ∀ m ∈ st.callee?, ∀ t ∈ m.parameters, t.Names Ended) {file : ClassFile} {q : Pool}
    (hpool : file.pool = q.entries) (hle : s'.pool ≤ q) (start : List Kind) :
    ∃ exits, runKinds? file start.length (Item.lines items) start = some exits ∧ exits ≠ [] ∧
      ∀ exit ∈ exits, exit.Neutral start ctx.method.result.kind? := by
  obtain ⟨hs', -, hemits⟩ := yields_statement ctx (fun _ _ => trivial) s items s' hrun hs
  have hemits := hemits s' hs' (Lowering.le_refl s')
  have hslots : s'.Slotted { parameters := st.locals, statements := [] } fun _ _ => True :=
    fun _ _ _ _ _ _ => trivial
  have hprofile := hemits.profile hpool hle hslots hkinds
    (fun l hl => List.mem_append_left _ hl) hnames
  refine exists_exits_of_profile hprofile rfl (fun k line hline hk => ?_) start
  obtain ⟨instr, rfl, -, hends⟩ := hemits.writes.stays hline hk
  exact hends

end Lower

namespace Digits

/-!
## A call whose result is unboxed

A static method that takes a `long` gives a box, the value of which is stored as an `int`.
-/

def number : Local := ⟨"number", .long⟩
def count : Local := ⟨"count", .int⟩

def counting : MethodSymbol where
  owner := { name := "Digits" }
  name := "count"
  modifiers := ⟨0x0008⟩
  parameters := [.long]
  result := .object { name := "java/lang/Integer" }

def call : Statement := .invoke counting none [number] (some count) false

def context : MethodContext where
  owner := { this := { name := "Digits" } }
  method := { name := "print", parameters := [{ name := "number", type := .long }], result := .void }
  labels := {}

private theorem succeeds_call {slots : Slots} (hnumber : slots.index["number"]? = some 0)
    (hcount : slots.index["count"]? = some 2) :
    Lower.SucceedsOn slots 14 (Lower.statement context call) fun _ => True := by
  have hload : Lower.SucceedsOn slots 0 ([number].mapM Lower.load) fun _ => True := by
    rw [List.mapM_cons]
    exact (Lower.SucceedsOn.load (l := number) hnumber rfl).bind (k := 0) fun _ _ =>
      (SucceedsIn.pure (P := fun _ => True) trivial).bind (k := 0) fun _ _ => .pure trivial
  have hcall : Lower.SucceedsOn slots 6 (Lower.callInstr counting false) fun _ => True :=
    (Lower.SucceedsOn.pooling (Succeeds.methodRef (by decide))).bind (k := 0) fun _ _ => .pure trivial
  have hunbox : Succeeds 8 (counting.result.adaptResult .int) fun _ => True :=
    (Succeeds.classInfo (by decide)).bind fun _ _ =>
      (Succeeds.methodRef (by decide)).bind (k := 0) fun _ _ => .pure trivial
  have huse : Lower.SucceedsOn slots 8 (Lower.useResult counting.result (some count)) fun _ => True :=
    (Lower.SucceedsOn.pooling hunbox).bind (k := 0) fun _ _ =>
      (Lower.SucceedsOn.store (l := count) hcount rfl).bind (k := 0) fun _ _ => .pure trivial
  exact hload.bind (k := 14) fun _ _ => hcall.bind (k := 8) fun _ _ =>
    huse.bind (k := 0) fun _ _ => .pure trivial

end Digits

open Digits in
theorem Lower.statement_neutral_call :
    call.KindCorrect ∧ (∀ m ∈ call.callee?, ∀ t ∈ m.parameters, t.Names Descriptor.Ended) ∧
      ∃ slots : Slots, ∃ items final, Lowering.Ok (fun _ => True) ⟨{}, slots⟩ ∧
        statement context call ⟨{}, slots⟩ = .ok (items, final) ∧ ∃ file : ClassFile,
        file.pool = final.pool.entries ∧ ∃ exits,
          runKinds? file 2 (Item.lines items) [.long, .int] = some exits ∧ exits ≠ [] ∧
            ∀ exit ∈ exits, exit.Neutral [.long, .int] none := by
  have hkinds : call.KindCorrect := ⟨fun h => absurd h (by decide), rfl⟩
  have hnames : ∀ m ∈ call.callee?, ∀ t ∈ m.parameters, t.Names Descriptor.Ended := by
    intro m hm t ht
    cases hm
    cases List.mem_singleton.mp ht
    trivial
  obtain ⟨slots, hslots, hnumber, hcount, -⟩ :=
    Slots.exists_allocateAll_pair (a := number) (b := count) (by decide) (by decide)
  obtain ⟨items, q, hrun, -⟩ := succeeds_call hnumber hcount {} Pool.sound_empty (by decide)
  have hok : Lowering.Ok (fun _ => True) ⟨{}, slots⟩ :=
    ⟨Pool.sound_empty, (Slots.wellFormed_empty.allocateAll hslots).1, fun _ _ => trivial⟩
  exact ⟨hkinds, hnames, slots, items, ⟨q, slots⟩, hok, hrun,
    { (default : ClassFile) with pool := q.entries }, rfl,
    statement_neutral hok hrun hkinds hnames rfl (Pool.le_refl q) [.long, .int]⟩

end Classwright
