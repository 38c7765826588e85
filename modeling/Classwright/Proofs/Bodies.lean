import Classwright.Declaration
import Classwright.JavaType.Kind

/-!
# Well-formed bodies

What statements name, and when a body uses its names consistently: every local has one type, every
operand has the kind that its operation asks for, and no label is placed twice.
-/

namespace Classwright

/-- The class that a type is made of, if any, has a name in `N`. -/
def JavaType.Names (N : String → Prop) : JavaType → Prop
  | primitive _ => True
  | object c => N c.name
  | array component => component.Names N

instance JavaType.decidableNames (N : String → Prop) [DecidablePred N] :
    (t : JavaType) → Decidable (t.Names N)
  | primitive _ => isTrue trivial
  | object c => inferInstanceAs (Decidable (N c.name))
  | array component => decidableNames N component

theorem JavaType.Names.imp {N M : String → Prop} (h : ∀ name, N name → M name) {t : JavaType}
    (ht : t.Names N) : t.Names M := by
  induction t with
  | primitive p => trivial
  | object c => exact h _ ht
  | array component ih => exact ih ht

/-- The right operand is the count of a shift. -/
def BinaryOp.isShift : BinaryOp → Bool
  | shl | shr | ushr => true
  | _ => false

/-- The locals are as many as the types and have their kinds. -/
def Local.MatchKinds (locals : List Local) (types : List JavaType) : Prop :=
  locals.map (fun l => l.type.kind?) = types.map JavaType.kind?

mutual

/-- The elements of array literals have the kinds of their component types. -/
def Literal.KindCorrect : Literal → Prop
  | array component elements => Literal.ElementsKindCorrect component elements
  | _ => True

def Literal.ElementsKindCorrect (component : JavaType) : List Literal → Prop
  | [] => True
  | e :: rest =>
    e.type.kind? = component.kind? ∧ e.KindCorrect ∧ Literal.ElementsKindCorrect component rest

end

namespace Statement

def locals : Statement → List Local
  | invoke _ receiver arguments result _ => receiver.toList ++ arguments ++ result.toList
  | getField _ receiver target => receiver.toList ++ [target]
  | putField _ receiver value => receiver.toList ++ [value]
  | assign target source => [target, source]
  | binary _ left right result => [left, right, result]
  | unary _ operand result => [operand, result]
  | cast source target => [source, target]
  | goto _ | mark _ => []
  | compare _ left right _ => [left, right]
  | test _ operand _ => [operand]
  | arrayGet array index target => [array, index, target]
  | arrayPut array index value => [array, index, value]
  | ret value => value.toList
  | instanceOf value _ result => [value, result]
  | new _ arguments result => arguments ++ [result]
  | newArray _ lengths result => lengths ++ [result]
  | literal _ target => [target]

def target? : Statement → Option Label
  | goto label | compare _ _ _ label | test _ _ label => some label
  | _ => none

def marked? : Statement → Option Label
  | mark label => some label
  | _ => none

def callee? : Statement → Option MethodSymbol
  | invoke m .. | new m .. => some m
  | _ => none

/-- The operands have the kinds that the statement asks for.  Conversions, tests and returns ask for
none beyond what generation checks. -/
def KindCorrect : Statement → Prop
  | invoke m receiver arguments _ _ =>
    (m.isStatic = false → ∀ l ∈ receiver, l.type.kind? = some .reference) ∧
      Local.MatchKinds arguments m.parameters
  | getField f receiver target =>
    (f.isStatic = false → ∀ l ∈ receiver, l.type.kind? = some .reference) ∧
      target.type.kind? = f.type.kind?
  | putField f receiver value =>
    (f.isStatic = false → ∀ l ∈ receiver, l.type.kind? = some .reference) ∧
      value.type.kind? = f.type.kind?
  | assign target source => source.type.kind? = target.type.kind?
  | binary op left right result =>
    left.type.kind? = result.type.kind? ∧
      right.type.kind? = if op.isShift then some .int else left.type.kind?
  | unary _ operand result => operand.type.kind? = result.type.kind?
  | compare _ left right _ => left.type.kind? = right.type.kind?
  | arrayGet array index target =>
    index.type.kind? = some .int ∧
      ∀ component ∈ array.type.component?, target.type.kind? = component.kind?
  | arrayPut array index value =>
    index.type.kind? = some .int ∧
      ∀ component ∈ array.type.component?, value.type.kind? = component.kind?
  | instanceOf value _ result =>
    value.type.kind? = some .reference ∧ result.type.kind? = some .int
  | new m arguments result =>
    m.result.isVoid = true ∧ Local.MatchKinds arguments m.parameters ∧
      result.type.kind? = some .reference
  | newArray _ lengths result =>
    (∀ l ∈ lengths, l.type.kind? = some .int) ∧ result.type.kind? = some .reference
  | literal value target => value.KindCorrect ∧ value.type.kind? = target.type.kind?
  | cast .. | test .. | goto _ | mark _ | ret _ => True

end Statement

namespace Body

def locals (b : Body) : List Local := b.parameters ++ b.statements.flatMap Statement.locals

def position? (b : Body) (label : Label) : Option Nat :=
  b.statements.findIdx? fun st => st.marked? = some label

structure KindCorrect (b : Body) : Prop where
  /-- Every local has values. -/
  valued : ∀ l ∈ b.locals, l.type.isVoid = false
  kinds : ∀ st ∈ b.statements, st.KindCorrect

/-- The methods that a body calls take classes with names in `N`. -/
def CallsNamed (N : String → Prop) (b : Body) : Prop :=
  ∀ st ∈ b.statements, ∀ m ∈ st.callee?, ∀ t ∈ m.parameters, t.Names N

/-- Locals of one name have one type. -/
def Typed (b : Body) : Prop :=
  ∀ l ∈ b.locals, ∀ l' ∈ b.locals, l.name = l'.name → (l.type == l'.type) = true

structure WellFormed (b : Body) : Prop where
  /-- Every local has values. -/
  valued : ∀ l ∈ b.locals, l.type.isVoid = false
  /-- Locals of one name have one type. -/
  typed : ∀ l ∈ b.locals, ∀ l' ∈ b.locals, l.name = l'.name → (l.type == l'.type) = true
  kinds : ∀ st ∈ b.statements, st.KindCorrect
  /-- No label is placed twice. -/
  labels : (b.statements.filterMap Statement.marked?).Nodup

theorem WellFormed.kindCorrect {b : Body} (h : b.WellFormed) : b.KindCorrect := ⟨h.valued, h.kinds⟩

end Body

section Types

theorem Kind.width_pos (kind : Kind) : 0 < kind.width := by
  cases kind <;> decide

theorem JavaType.kind?_eq_of_beq {s t : JavaType} (h : (s == t) = true) : s.kind? = t.kind? := by
  cases s with
  | primitive p =>
    cases t with
    | primitive q =>
      have hpq : p = q := by simpa [BEq.beq, JavaType.beq] using h
      rw [hpq]
    | object d => cases h
    | array b => cases h
  | object c =>
    cases t with
    | primitive q => cases h
    | object d => rfl
    | array b => cases h
  | array a =>
    cases t with
    | primitive q => cases h
    | object d => cases h
    | array b => rfl

theorem JavaType.isVoid_of_kind? {t : JavaType} {kind : Kind} (h : t.kind? = some kind) :
    t.isVoid = false := by
  cases t with
  | primitive p => cases p <;> first | rfl | cases h
  | object | array => rfl

theorem JavaType.exists_kind? {t : JavaType} (h : t.isVoid = false) :
    ∃ kind, t.kind? = some kind ∧ t.width = kind.width := by
  cases t with
  | primitive p =>
    cases p with
    | void => cases h
    | boolean => exact ⟨.int, rfl, rfl⟩
    | byte => exact ⟨.int, rfl, rfl⟩
    | char => exact ⟨.int, rfl, rfl⟩
    | short => exact ⟨.int, rfl, rfl⟩
    | int => exact ⟨.int, rfl, rfl⟩
    | long => exact ⟨.long, rfl, rfl⟩
    | float => exact ⟨.float, rfl, rfl⟩
    | double => exact ⟨.double, rfl, rfl⟩
  | object c => exact ⟨.reference, rfl, rfl⟩
  | array c => exact ⟨.reference, rfl, rfl⟩

section KindCorrect

variable {b : Body} (h : b.KindCorrect)
include h

private theorem Body.KindCorrect.exists_kind {l : Local} (hl : l ∈ b.locals) :
    ∃ kind, l.type.kind? = some kind := by
  obtain ⟨kind, hkind, -⟩ := JavaType.exists_kind? (h.valued l hl)
  exact ⟨kind, hkind⟩

theorem Body.KindCorrect.exists_kinds {locals : List Local} (hlocals : ∀ l ∈ locals, l ∈ b.locals) :
    ∃ kinds : List Kind, locals.map (fun l => l.type.kind?) = kinds.map some := by
  induction locals with
  | nil => exact ⟨[], rfl⟩
  | cons l locals ih =>
    obtain ⟨kind, hkind⟩ := h.exists_kind (hlocals l List.mem_cons_self)
    obtain ⟨kinds, hkinds⟩ := ih fun l' hl' => hlocals l' (List.mem_cons_of_mem _ hl')
    exact ⟨kind :: kinds, by rw [List.map_cons, hkind, hkinds, List.map_cons]⟩

end KindCorrect

theorem JavaType.kind?_of_isReference {t : JavaType} (h : t.isReference = true) :
    t.kind? = some .reference := by
  rw [JavaType.kind?, if_pos h]

theorem JavaType.kind?_of_numKind? {t : JavaType} {kind : NumKind} (h : t.numKind? = some kind) :
    t.kind? = some kind.toKind := by
  cases t with
  | primitive p =>
    rw [JavaType.kind?, if_neg (by simp [JavaType.isReference]), h]
    rfl
  | object c => cases h
  | array c => cases h

theorem JavaType.kind?_of_accepts {s t : JavaType} (h : s.accepts t = true) : s.kind? = t.kind? := by
  cases s with
  | primitive p =>
    cases t with
    | primitive q =>
      have hpq : p = q := by simpa [JavaType.accepts] using h
      rw [hpq]
    | object d => cases h
    | array d => cases h
  | object c =>
    cases t with
    | primitive q => cases h
    | object d => rfl
    | array d => rfl
  | array c =>
    cases t with
    | primitive q => cases h
    | object d => cases h
    | array d => rfl

end Types

theorem Body.marked_of_position? {b : Body} {label : Label} {n : Nat}
    (h : b.position? label = some n) : b.statements[n]? = some (.mark label) := by
  obtain ⟨hlt, hmarked, -⟩ := List.findIdx?_eq_some_iff_getElem.mp h
  rw [List.getElem?_eq_getElem hlt]
  cases hst : b.statements[n] with
  | mark l =>
    rw [hst] at hmarked
    have hl : l = label := by simpa [Statement.marked?] using hmarked
    rw [hl]
  | _ =>
    rw [hst] at hmarked
    simp [Statement.marked?] at hmarked

end Classwright
