import Classwright.Generate.Method
import Classwright.Proofs.Bodies

/-!
# Definite assignment

A local may only be read where every path through the body has given it a value.  The receiver of a
constructor has a value from the start, but a raw one: only after the call of another constructor it is
an object like any other, and a local on whose rawness paths disagree may not be read either.
-/

namespace Classwright

namespace Statement

def reads : Statement → List Local
  | invoke m receiver arguments _ _ => (if m.isStatic then [] else receiver.toList) ++ arguments
  | getField f receiver _ => if f.isStatic then [] else receiver.toList
  | putField f receiver value => (if f.isStatic then [] else receiver.toList) ++ [value]
  | assign _ source => [source]
  | binary _ left right _ => [left, right]
  | unary _ operand _ => [operand]
  | cast source _ => [source]
  | goto _ | mark _ => []
  | compare _ left right _ => [left, right]
  | test _ operand _ => [operand]
  | arrayGet array index _ => [array, index]
  | arrayPut array index value => [array, index, value]
  | ret value => value.toList
  | instanceOf value _ _ => [value]
  | new _ arguments _ => arguments
  | newArray _ lengths _ => lengths
  | literal _ _ => []

def assigned? : Statement → Option Local
  | invoke _ _ _ result _ => result
  | getField _ _ target | assign target _ | binary _ _ _ target | unary _ _ target
  | cast _ target | arrayGet _ _ target | instanceOf _ _ target | new _ _ target
  | newArray _ _ target | literal _ target => some target
  | putField .. | goto _ | mark _ | compare .. | test .. | arrayPut .. | ret _ => none

theorem mem_locals_of_assigned? {st : Statement} {l : Local} (h : l ∈ st.assigned?) : l ∈ st.locals := by
  cases st <;> simp_all [assigned?, locals]

theorem mem_locals_of_reads {st : Statement} {l : Local} (h : l ∈ st.reads) : l ∈ st.locals := by
  cases st <;> grind [reads, locals]

def passesOn : Statement → Bool
  | goto _ | ret _ => false
  | _ => true

end Statement

inductive Content where
  | nothing
  /-- The receiver of a constructor that has not called another one. -/
  | raw
  | value
  deriving DecidableEq

namespace Body

def isReceiver (b : Body) (name : String) : Bool := b.parameters.head?.any (·.name == name)

/-- Whether a statement calls a constructor on the raw receiver. -/
def initializes (owner : ClassDecl) (m : MethodDecl) (b : Body) : Statement → Bool
  | .invoke symbol (some receiver) _ _ _ =>
    !symbol.isStatic && m.initializesThis && owner.isOwnConstructor symbol &&
      b.isReceiver receiver.name
  | _ => false

/-- Whether the statement at a position is the one after which the receiver is no longer raw.  If
there are several calls it is the last of them. -/
def initializesAt (owner : ClassDecl) (m : MethodDecl) (b : Body) (n : Nat) (st : Statement) : Bool :=
  b.initializes owner m st && !(b.statements.drop (n + 1)).any (b.initializes owner m)

/-- Whether the receiver is raw when the first statement is reached: it is not if the constructor of the
superclass was called before and no statement calls another one. -/
def startsRaw (owner : ClassDecl) (m : MethodDecl) (b : Body) : Bool :=
  m.initializesThis && (Lower.startsWithConstructor owner b || owner.super.isNone ||
    b.statements.any (b.initializes owner m))

def initial (owner : ClassDecl) (m : MethodDecl) (b : Body) (name : String) : Content :=
  if b.parameters.any (·.name == name) then
    if b.isReceiver name && b.startsRaw owner m then .raw else .value
  else .nothing

def after (owner : ClassDecl) (m : MethodDecl) (b : Body) (n : Nat) (st : Statement)
    (held : String → Content) (name : String) : Content :=
  if st.assigned?.any (·.name == name) || (b.initializesAt owner m n st && b.isReceiver name) then
    .value
  else held name

def successors (b : Body) (n : Nat) (st : Statement) : List Nat :=
  (st.target?.bind b.position?).toList ++ if st.passesOn then [n + 1] else []

/-- Some path through a body reaches a position where the locals hold the given contents. -/
inductive Reaches (owner : ClassDecl) (m : MethodDecl) (b : Body) : Nat → (String → Content) → Prop where
  | start : Reaches owner m b 0 (b.initial owner m)
  | next {n k : Nat} {st : Statement} {held : String → Content} (reaches : Reaches owner m b n held)
      (at_ : b.statements[n]? = some st) (follows : k ∈ b.successors n st) :
      Reaches owner m b k (b.after owner m n st held)

/-- Wherever a local is read, all paths agree on what it holds, and it holds something. -/
def DefinitelyAssigned (owner : ClassDecl) (m : MethodDecl) (b : Body) : Prop :=
  ∀ n st, b.statements[n]? = some st → ∀ l ∈ st.reads,
    ∃ content, content ≠ .nothing ∧ ∀ held, Reaches owner m b n held → held l.name = content

end Body

end Classwright
